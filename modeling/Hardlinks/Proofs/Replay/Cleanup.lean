-- SUMMARY: Which destinations outlive the removal of the sources, and one that does not.
import Hardlinks.Proofs.FileSystem.Removal
import Hardlinks.Proofs.FileSystem.WellFormed
import Hardlinks.Proofs.Replay.Run

/-!
# Cleanup

The sources that are removed are told from the destinations by the components of their paths, but
entries can have more than one path. So the removal of a source can take a destination with it: the
entry itself, if two paths lead to it, or a symbolic link on the way to it. A destination outlives
the cleanup exactly if no source that is removed is an entry that the destination's path uses
(`find_deleteAll_iff`).
-/

namespace Hardlinks.Replay

open FileSystem

variable {cfg : CheckedConfig} {dir : Path} {fs unlisted : FileSystem} {e : Entry} {k : Nat}
  {p q : Path} {ps : List Path} {i : Inode} {result : ReplayReport}

/-! ## Removals -/

/-- The entry that `q` names is used by the path `p`. -/
def OnTheWay (fs : FileSystem) (q p : Path) : Prop :=
  ∃ d n, fs.Names q d n ∧ fs.Uses .keep p d n

theorem delete_cases (fs : FileSystem) (q : Path) :
    (∃ removed, fs.removeFile q = .ok removed ∧ delete fs q = (.deleted, removed)) ∨
      (delete fs q).1 ≠ .deleted ∧ (delete fs q).2 = fs := by
  unfold delete
  cases h : fs.removeFile q with
  | ok removed => exact .inl ⟨removed, rfl, rfl⟩
  | error e =>
      refine .inr ⟨?_, rfl⟩
      dsimp only
      split <;> simp

theorem extends_deleteAll (fs : FileSystem) (ps : List Path) :
    (deleteAll fs ps).files.Extends fs := by
  induction ps generalizing fs with
  | nil => exact .refl fs
  | cons q ps ih =>
      rcases delete_cases fs q with ⟨removed, hremove, hdelete⟩ | ⟨_, hfiles⟩
      · simp only [deleteAll, hdelete]
        exact (ih removed).trans (extends_removeFile hremove)
      · simp only [deleteAll, hfiles]
        exact ih fs

/-- What was removed had been there from the start. -/
theorem names_of_deleted (h : (q, .deleted) ∈ (deleteAll fs ps).removals) :
    ∃ d n, fs.Names q d n := by
  induction ps generalizing fs with
  | nil => cases h
  | cons p ps ih =>
      simp only [deleteAll] at h
      rcases delete_cases fs p with ⟨removed, hremove, hdelete⟩ | ⟨hkept, hfiles⟩
      · rw [hdelete] at h
        rcases List.mem_cons.1 h with heq | h
        · cases heq
          obtain ⟨d, n, _, hnames, _⟩ := removeFile_names hremove
          exact ⟨d, n, hnames⟩
        · obtain ⟨d, n, hnames⟩ := ih h
          exact ⟨d, n, hnames.extend (extends_removeFile hremove)⟩
      · rw [hfiles] at h
        rcases List.mem_cons.1 h with heq | h
        · exact absurd (congrArg Prod.snd heq).symm hkept
        · exact ih h

/-- A single source that is removed takes with it what uses its entry, and nothing else. -/
theorem find_delete_iff {removed : FileSystem} (hi : fs.find .keep p = .ok i)
    (h : fs.removeFile q = .ok removed) :
    removed.find .keep p = .ok i ↔ ¬OnTheWay fs q p := by
  obtain ⟨d, n, j, hnames, _, hj, hfile, rfl⟩ := removeFile_names h
  rw [find_removeEntry_iff hi hj hfile, not_iff_not]
  constructor
  · intro huses
    exact ⟨d, n, hnames, huses⟩
  · rintro ⟨d', n', hnames', huses⟩
    obtain ⟨rfl, rfl⟩ := hnames.unique hnames'
    exact huses

/-- As long as a path is found, the entries on its way are the same. -/
theorem onTheWay_of_extends {fs' : FileSystem} (h : fs'.Extends fs)
    (hi : fs'.find .keep p = .ok i) (hq : ∃ d n, fs'.Names q d n) :
    OnTheWay fs' q p ↔ OnTheWay fs q p := by
  constructor
  · rintro ⟨d, n, hnames, huses⟩
    exact ⟨d, n, hnames.extend h, (uses_extend h hi).2 huses⟩
  · rintro ⟨d, n, hnames, huses⟩
    obtain ⟨d', n', hnames'⟩ := hq
    obtain ⟨rfl, rfl⟩ := (hnames'.extend h).unique hnames
    exact ⟨d', n', hnames', (uses_extend h hi).1 huses⟩

/-- A path outlives the removal of sources exactly if no source that is removed is on its way. -/
theorem find_deleteAll_iff (hi : fs.find .keep p = .ok i) :
    (deleteAll fs ps).files.find .keep p = .ok i ↔
      ∀ q, (q, .deleted) ∈ (deleteAll fs ps).removals → ¬OnTheWay fs q p := by
  induction ps generalizing fs with
  | nil => simpa [deleteAll] using hi
  | cons source ps ih =>
      rcases delete_cases fs source with ⟨removed, hremove, hdelete⟩ | ⟨hkept, hfiles⟩
      · simp only [deleteAll, hdelete, List.mem_cons, Prod.mk.injEq, and_true]
        have hextends := extends_removeFile hremove
        by_cases hway : OnTheWay fs source p
        · -- What is gone does not come back.
          refine iff_of_false ?_ fun hall => hall source (.inl rfl) hway
          intro hfinal
          exact (find_delete_iff hi hremove).1
            (find_extend (extends_deleteAll removed ps) hfinal) hway
        · have hremoved := (find_delete_iff hi hremove).2 hway
          rw [ih hremoved]
          constructor
          · rintro hall q (rfl | hq)
            · exact hway
            · intro hq'
              exact hall q hq
                ((onTheWay_of_extends hextends hremoved (names_of_deleted hq)).2 hq')
          · intro hall q hq hq'
            exact hall q (.inr hq)
              ((onTheWay_of_extends hextends hremoved (names_of_deleted hq)).1 hq')
      · simp only [deleteAll, hfiles, List.mem_cons, Prod.mk.injEq]
        rw [ih hi]
        constructor
        · rintro hall q (⟨_, heq⟩ | hq)
          · exact absurd heq.symm hkept
          · exact hall q hq
        · intro hall q hq
          exact hall q (.inr hq)

/-! ## Replays -/

/-- After a replay that removes the sources, a destination other than the manifest's place names the
node that its source named when it was placed exactly if no source that was removed is on the
destination's way. -/
theorem find_destination_iff (h : (run cfg dir true fs).result = .ok result)
    (he : (waiting cfg dir fs)[k]? = some e) :
    ∃ i unlisted, (pass cfg dir fs).files.removeFile (cfg.manifestPath dir) = .ok unlisted ∧
      (before cfg dir fs (k + 1)).files.find .keep (source dir e) = .ok i ∧
      (¬(pass cfg dir fs).files.SamePlace (destination dir e) (cfg.manifestPath dir) →
        ((run cfg dir true fs).files.find .keep (destination dir e) = .ok i ↔
          ∀ q, (q, .deleted) ∈ (deleteAll unlisted (disposable dir (waiting cfg dir fs))).removals →
            ¬OnTheWay unlisted q (destination dir e))) := by
  have hruns := runs_run cfg dir true fs
  rw [h] at hruns
  generalize (run cfg dir true fs).files = files at hruns ⊢
  cases hruns with
  | noManifest hread _ => simp [waiting, hread] at he
  | @applied text unlisted hread hfailure hremove =>
      have hmem : e ∈ (waiting cfg dir fs).take (k + 1) := by
        refine List.mem_of_getElem? (i := k) ?_
        rw [List.getElem?_take_of_lt (Nat.lt_succ_self k), he]
      obtain ⟨i, hsource, hdestination⟩ :=
        find_of_placeAll (failure?_before hfailure (k + 1)).1 hmem
      have hgrows := grows_before hfailure (k + 1)
      have hread' := readText_of_grows (grows_pass cfg dir fs) hread
      refine ⟨i, unlisted, hremove, hsource, ?_⟩
      intro hother
      have hfind : unlisted.find .keep (destination dir e) = .ok i :=
        find_removeFile hremove (readText_eq_ok_iff.1 hread').1
          (find_extend hgrows.extends hdestination)
          fun d n hd hm => hother ⟨d, n, hd, hm⟩
      exact find_deleteAll_iff hfind

/-- The destination of the first entry is, under its other path, the source of the second. -/
def chainedLinks : FileSystem :=
  withFiles [("a", "alpha"), ("hardLinkFile", "./b\ta\nc\tb\n")]

/-- A destination that is removed as the source which it also is. -/
theorem destination_lost_by_its_other_path :
    (run .default ⟨[]⟩ true chainedLinks).result = .ok ⟨true, 2, 0, 0, 2, 0⟩ ∧
      (run .default ⟨[]⟩ true chainedLinks).files.find .keep (.ofString "./b") =
        .error (.system .noEntry) ∧
      ∃ unlisted q,
        (q, .deleted) ∈
          (deleteAll unlisted (disposable ⟨[]⟩ (waiting .default ⟨[]⟩ chainedLinks))).removals ∧
        OnTheWay unlisted q (.ofString "./b") := by
  have hrun : (run .default ⟨[]⟩ true chainedLinks).result = .ok ⟨true, 2, 0, 0, 2, 0⟩ := by rfl
  have hlost : (run .default ⟨[]⟩ true chainedLinks).files.find .keep (.ofString "./b") =
      .error (.system .noEntry) := by rfl
  refine ⟨hrun, hlost, ?_⟩
  obtain ⟨i, unlisted, _, _, hiff⟩ :=
    find_destination_iff (k := 0) (e := ⟨.ofString "./b", .ofString "a"⟩) hrun (by rfl)
  have hdestination : (pass .default ⟨[]⟩ chainedLinks).files.Names (.ofString "./b") 1
      (Utf8.encode "b") := ⟨false, by rfl⟩
  have hmanifest : (pass .default ⟨[]⟩ chainedLinks).files.Names (.ofString "hardLinkFile") 1
      (Utf8.encode "hardLinkFile") := ⟨false, by rfl⟩
  refine ⟨unlisted, ?_⟩
  apply Classical.byContradiction
  intro hnone
  have hfind := (hiff (hdestination.not_samePlace hmanifest (by decide))).2
    fun q hq hway => hnone ⟨q, hq, hway⟩
  exact absurd (hlost.symm.trans hfind) (by simp)

end Hardlinks.Replay
