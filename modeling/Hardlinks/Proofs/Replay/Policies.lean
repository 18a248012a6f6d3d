-- SUMMARY: Two replays that differ in their policy differ from the first destination that is present.
import Hardlinks.Proofs.FileSystem.NewDirectories
import Hardlinks.Proofs.Replay.Counts

/-!
# Policies

A replay that refuses existing destinations and one that accepts them go on side by side up to the
first entry that is present (`placeAll_refuse_cases`). There the one fails, and it has not even made
a directory for the entry, since the destination would not have been found in a new one
(`files_of_present`). So what it leaves is what the other one has at that point (`run_refuse`).
-/

namespace Hardlinks

/-- The configuration with another policy for existing destinations. -/
def CheckedConfig.withExistingLinks (cfg : CheckedConfig) (policy : ExistingLinks) :
    CheckedConfig where
  toConfig := { cfg.toConfig with existingLinks := policy }
  defect?_eq_none := cfg.defect?_eq_none

namespace Replay

open FileSystem

/-- The pass linked its first `k` entries and then found the entry `e` present. -/
def FirstPresent (pass : Pass) (k : Nat) (e : Entry) : Prop :=
  pass.placed[k]? = some (e, .present) ∧ ∀ j < k, ∃ e', pass.placed[j]? = some (e', .linked)

/-- A replay that refuses existing destinations fails at the entry `e`, and leaves what a replay
that accepts them has before that entry, the `k` entries before it being placed. -/
structure RefusedAt (cfg : CheckedConfig) (dir : Path) (deleteSources : Bool) (fs : FileSystem)
    (k : Nat) (e : Entry) : Prop where
  entry : (waiting cfg dir fs)[k]? = some e
  result : ∃ cause : IoError, cause.kind = .alreadyExists ∧
    (run (cfg.withExistingLinks .refuse) dir deleteSources fs).result =
      .error (.link (source dir e) (destination dir e) cause)
  files : (run (cfg.withExistingLinks .refuse) dir deleteSources fs).files =
    (before (cfg.withExistingLinks .acceptSame) dir fs k).files
  /-- The manifest is there, and so is everything else that was. -/
  grows : fs.Grows (run (cfg.withExistingLinks .refuse) dir deleteSources fs).files

variable {cfg cfg' : CheckedConfig} {policy : ExistingLinks} {dir r : Path} {deleteSources : Bool}
  {fs after : FileSystem} {e : Entry} {front back : List Entry} {ending : Ending} {s : Slot}

/-! ## The first entry that is present -/

/-- For an entry that is present, nothing is made. -/
theorem files_of_present (hslot : fs.slot ending (dir.join r) = .ok s) (hr : r.Inside)
    (he : EntryInside e) (h : place policy dir fs e = (.ok .present, after)) : after = fs := by
  cases places_of_eq h with
  | present hparent _ _ haccepts =>
      obtain ⟨_, i, _, hi⟩ := accepts_iff.1 haccepts
      exact eq_of_provideParent hslot hr he.destination hparent hi

/-- Where a pass found the first entry present. -/
theorem firstPresent_of_place
    (hfailure : (placeAll .acceptSame dir fs front).failure? = none)
    (hcount : (placeAll .acceptSame dir fs front).count .present = 0)
    (h : place .acceptSame dir (placeAll .acceptSame dir fs front).files e = (.ok .present, after)) :
    FirstPresent (placeAll .acceptSame dir fs (front ++ e :: back)) front.length e := by
  have hlength : (placeAll .acceptSame dir fs front).placed.length = front.length := by
    rw [← List.length_map Prod.fst, placed_of_placeAll hfailure]
  rw [FirstPresent, placeAll_append hfailure, placeAll_cons_of_ok h]
  dsimp only
  constructor
  · rw [List.getElem?_append_right (Nat.le_of_eq hlength), hlength, Nat.sub_self]
    rfl
  · intro j hj
    rw [← hlength] at hj
    rcases hplaced : (placeAll .acceptSame dir fs front).placed[j] with ⟨e', placement⟩
    have hmem := List.getElem_mem hj
    rw [hplaced] at hmem
    have hother := List.countP_eq_zero.1 hcount _ hmem
    cases placement with
    | linked => exact ⟨e', by rw [List.getElem?_append_left hj, List.getElem?_eq_getElem hj, hplaced]⟩
    | present => simp at hother

/-! ## Replays -/

/-- The policy matters to a replay only through its pass. -/
theorem run_congr (hpath : cfg.manifestPath dir = cfg'.manifestPath dir)
    (hpass : pass cfg dir fs = pass cfg' dir fs) :
    run cfg dir deleteSources fs = run cfg' dir deleteSources fs := by
  unfold run
  rw [← hpath]
  cases hread : fs.readText (cfg.manifestPath dir) with
  | error e => simp only [hread]
  | ok text =>
      rw [pass, pass, waiting_of_readText hread, waiting_of_readText (hpath ▸ hread)] at hpass
      simp only [hread, hpass]

/-- An entry that is present is where a replay fails that refuses existing destinations. -/
theorem refusedAt_of_present {cause : IoError} (hentries : waiting cfg dir fs = front ++ e :: back)
    (h : place .acceptSame dir (placeAll .acceptSame dir fs front).files e = (.ok .present, after))
    (hkind : cause.kind = .alreadyExists)
    (hf : (placeAll .refuse dir fs (waiting cfg dir fs)).failure? =
      some (.link (source dir e) (destination dir e) cause))
    (hfiles : (placeAll .refuse dir fs (waiting cfg dir fs)).files = after) :
    RefusedAt cfg dir deleteSources fs front.length e := by
  have hentry : (waiting cfg dir fs)[front.length]? = some e := by
    rw [hentries, List.getElem?_append_right (Nat.le_refl _), Nat.sub_self]
    rfl
  have htake : (waiting cfg dir fs).take front.length = front := by
    rw [hentries, List.take_left]
  cases hread : fs.readText (cfg.manifestPath dir) with
  | error cause' => simp [waiting, hread] at hentry
  | ok text =>
      have hread' : fs.readText ((cfg.withExistingLinks .refuse).manifestPath dir) = .ok text := hread
      obtain ⟨hresult, hrun⟩ := run_of_failure deleteSources hread' hf
      have hkept := readText_of_grows (grows_placeAll .acceptSame dir fs front) hread
      obtain ⟨_, hi, _⟩ := readFile_eq_ok_iff.1 (readText_eq_ok_iff.1 hkept).1
      obtain ⟨_, hslot, _⟩ := find_eq_ok_iff.1 hi
      have hinside : EntryInside e := entryInside_of_mem_waiting (List.mem_of_getElem? hentry)
      have hafter : after = (placeAll .acceptSame dir fs front).files :=
        files_of_present hslot cfg.inside_manifestName.1 hinside h
      refine ⟨hentry, ⟨cause, hkind, hresult⟩, ?_, ?_⟩
      · rw [hrun]
        refine hfiles.trans (hafter.trans ?_)
        rw [before]
        exact congrArg (fun es => (placeAll .acceptSame dir fs es).files) htake.symm
      · rw [hrun]
        exact grows_pass _ _ _

/-- Of two replays of one directory, the one that refuses existing destinations does the same as the
one that accepts them if that finds none present, and fails otherwise, at the first entry that is
present and before anything is done for it. -/
theorem run_refuse (cfg : CheckedConfig) (dir : Path) (deleteSources : Bool) (fs : FileSystem) :
    let accepting := cfg.withExistingLinks .acceptSame
    let refusing := cfg.withExistingLinks .refuse
    (∀ report, (run accepting dir deleteSources fs).result = .ok report →
        report.alreadyLinked = (pass accepting dir fs).count .present) ∧
      ((pass accepting dir fs).count .present = 0 ∧
          run refusing dir deleteSources fs = run accepting dir deleteSources fs ∨
        ∃ k e, FirstPresent (pass accepting dir fs) k e ∧ RefusedAt cfg dir deleteSources fs k e) ∧
      ∀ report, (run refusing dir deleteSources fs).result = .ok report →
        run accepting dir deleteSources fs = run refusing dir deleteSources fs := by
  intro accepting refusing
  refine ⟨fun report h => (counts_of_run h).2, ?_⟩
  have hcases : (pass accepting dir fs).count .present = 0 ∧
      run refusing dir deleteSources fs = run accepting dir deleteSources fs ∨
      ∃ k e, FirstPresent (pass accepting dir fs) k e ∧ RefusedAt cfg dir deleteSources fs k e := by
    rcases placeAll_refuse_cases dir fs (waiting cfg dir fs) with ⟨hcount, hsame⟩ |
      ⟨front, e, back, after, hentries, hfailure, hcount, hpresent, cause, hkind, hf, hfiles⟩
    · exact .inl ⟨hcount, run_congr rfl hsame⟩
    · right
      refine ⟨front.length, e, ?_, refusedAt_of_present hentries hpresent hkind hf hfiles⟩
      have hfirst : FirstPresent (placeAll .acceptSame dir fs (front ++ e :: back)) front.length e :=
        firstPresent_of_place hfailure hcount hpresent
      rwa [← hentries] at hfirst
  refine ⟨hcases, fun report h => ?_⟩
  rcases hcases with ⟨_, hsame⟩ | ⟨k, e, _, hrefused⟩
  · exact hsame.symm
  · obtain ⟨cause, _, hresult⟩ := hrefused.result
    cases hresult.symm.trans h

/-- A manifest whose second line repeats the first one. -/
def repeatedLine : FileSystem :=
  withFiles [("a", "alpha"), ("hardLinkFile", "b\ta\nb\ta\nc\ta\n")]

/-- The second line finds the link of the first one, which a replay that refuses it has made too. -/
theorem refused_at_repeatedLine :
    (run (CheckedConfig.default.withExistingLinks .acceptSame) ⟨[]⟩ true repeatedLine).result =
        .ok ⟨true, 2, 1, 0, 1, 0⟩ ∧
      (∃ k e,
        FirstPresent (pass (CheckedConfig.default.withExistingLinks .acceptSame) ⟨[]⟩ repeatedLine)
          k e ∧
        RefusedAt .default ⟨[]⟩ true repeatedLine k e) ∧
      (run (CheckedConfig.default.withExistingLinks .refuse) ⟨[]⟩ true repeatedLine).result =
        .error (.link (.ofString "a") (.ofString "b") (.system .exists)) := by
  refine ⟨by rfl, ?_, by rfl⟩
  rcases (run_refuse .default ⟨[]⟩ true repeatedLine).2.1 with ⟨hnone, _⟩ | hrefused
  · have hone : (pass (CheckedConfig.default.withExistingLinks .acceptSame) ⟨[]⟩
        repeatedLine).count .present = 1 := by rfl
    exact absurd (hone.symm.trans hnone) (by decide)
  · exact hrefused

end Replay

end Hardlinks
