-- SUMMARY: A replay that is cut short and begun again ends as if it had not been.
import Hardlinks.Proofs.FileSystem.WellFormed
import Hardlinks.Proofs.Replay.Run

/-!
# Restarts

A replay can be cut short after any number of entries, and also while the directories above the next
destination are made. Where destinations that name their sources are accepted, a second replay from
there finds the first entries present (`placeAll_again`), makes what was missing above the next
destination (`place_of_midParent`), and from then on does what the first replay would have done. It
ends in the same file system, and only counts as present what the first replay had linked.
-/

namespace Hardlinks.Replay

open FileSystem

/-- The file systems in which a replay can be cut short after `k` entries, before the manifest is
removed. -/
inductive Interrupted (cfg : CheckedConfig) (dir : Path) (fs : FileSystem) (k : Nat) :
    FileSystem → Prop
  | between : Interrupted cfg dir fs k (before cfg dir fs k).files
  /-- Some of the directories above the next destination are made. -/
  | making {e : Entry} {mid : FileSystem} : (waiting cfg dir fs)[k]? = some e →
      (before cfg dir fs k).files.MidParent (destination dir e) mid → Interrupted cfg dir fs k mid

variable {cfg : CheckedConfig} {policy : ExistingLinks} {dir : Path} {deleteSources : Bool}
  {fs mid : FileSystem} {e : Entry} {xs : List Entry} {k : Nat} {result : ReplayReport}

/-! ## Counts -/

/-- Entries that are all present are counted as such. -/
theorem countP_present (entries : List Entry) (placement : Placement) :
    (entries.map fun e => (e, Placement.present)).countP (fun p => p.2 == placement) =
      if placement = .present then entries.length else 0 := by
  induction entries with
  | nil => simp
  | cons e entries ih => cases placement <;> simp_all

/-! ## Passes -/

/-- Begun again while the directories above its first destination are made, a pass ends the same. -/
theorem placeAll_of_midParent (h : (placeAll policy dir fs (e :: xs)).failure? = none)
    (hmid : fs.MidParent (destination dir e) mid) :
    placeAll policy dir mid (e :: xs) = placeAll policy dir fs (e :: xs) := by
  obtain ⟨placement, after, hplace, _⟩ := place_of_placeAll h
  rw [placeAll_cons_of_ok hplace, placeAll_cons_of_ok (place_of_midParent hplace hmid)]

/-- From where it was cut short, the rest of a pass ends the same. -/
theorem Interrupted.placeAll_drop (hmid : Interrupted cfg dir fs k mid)
    (h : (pass cfg dir fs).failure? = none) :
    placeAll cfg.existingLinks dir mid ((waiting cfg dir fs).drop k) = rest cfg dir fs k := by
  have hrest := (failure?_before h k).2
  cases hmid with
  | between => rfl
  | making he hmid =>
      obtain ⟨hk, rfl⟩ := List.getElem?_eq_some_iff.1 he
      rw [rest, List.drop_eq_getElem_cons hk] at hrest ⊢
      exact placeAll_of_midParent hrest hmid

theorem Interrupted.grows (hmid : Interrupted cfg dir fs k mid) :
    (before cfg dir fs k).files.Grows mid := by
  cases hmid with
  | between => exact .refl _
  | making _ hmid => exact hmid.grows

/-- A pass that was cut short and begun again: the entries that had been placed are present, and the
others are placed as they would have been. -/
theorem Interrupted.placeAll_eq (hpolicy : cfg.existingLinks = .acceptSame)
    (hmid : Interrupted cfg dir fs k mid) (h : (pass cfg dir fs).failure? = none) :
    placeAll cfg.existingLinks dir mid (waiting cfg dir fs) =
      { rest cfg dir fs k with
        placed := ((waiting cfg dir fs).take k).map (fun e => (e, .present)) ++
          (rest cfg dir fs k).placed } := by
  have hagain : placeAll cfg.existingLinks dir mid ((waiting cfg dir fs).take k) =
      ⟨((waiting cfg dir fs).take k).map fun e => (e, .present), none, mid⟩ := by
    have hbefore := (failure?_before h k).1
    rw [hpolicy]
    exact placeAll_again hbefore hmid.grows.extends.keepsWalks
  have hnone :
      (placeAll cfg.existingLinks dir mid ((waiting cfg dir fs).take k)).failure? = none := by
    rw [hagain]
  have happend := placeAll_append hnone ((waiting cfg dir fs).drop k)
  rw [List.take_append_drop, hagain, hmid.placeAll_drop h] at happend
  exact happend

theorem Interrupted.pass_eq (hpolicy : cfg.existingLinks = .acceptSame)
    (hmid : Interrupted cfg dir fs k mid) (hwaiting : waiting cfg dir mid = waiting cfg dir fs)
    (h : (pass cfg dir fs).failure? = none) :
    pass cfg dir mid =
      { rest cfg dir fs k with
        placed := ((waiting cfg dir fs).take k).map (fun e => (e, .present)) ++
          (rest cfg dir fs k).placed } := by
  rw [pass, hwaiting]
  exact hmid.placeAll_eq hpolicy h

/-- The second pass counts the entries that had been placed as present. -/
theorem Interrupted.count_pass (hpolicy : cfg.existingLinks = .acceptSame)
    (hmid : Interrupted cfg dir fs k mid) (hwaiting : waiting cfg dir mid = waiting cfg dir fs)
    (h : (pass cfg dir fs).failure? = none) (placement : Placement) :
    (pass cfg dir mid).count placement =
      (if placement = .present then ((waiting cfg dir fs).take k).length else 0) +
        (rest cfg dir fs k).count placement := by
  rw [hmid.pass_eq hpolicy hwaiting h, Pass.count, List.countP_append, countP_present]
  rfl

theorem Interrupted.waiting_eq (hmid : Interrupted cfg dir fs k mid) {text : List UInt8}
    (hread : fs.readText (cfg.manifestPath dir) = .ok text) :
    mid.readText (cfg.manifestPath dir) = .ok text ∧ waiting cfg dir mid = waiting cfg dir fs := by
  have hgrows : fs.Grows mid := (grows_placeAll _ _ _ _).trans hmid.grows
  have hread' := readText_of_grows hgrows hread
  exact ⟨hread', by rw [waiting_of_readText hread', waiting_of_readText hread]⟩

/-! ## Replays -/

/-- Where nothing waits, nothing is done that could be cut short. -/
theorem Interrupted.eq_of_waiting_nil (hmid : Interrupted cfg dir fs k mid)
    (hwaiting : waiting cfg dir fs = []) : mid = fs := by
  cases hmid with
  | between => simp [before, hwaiting, placeAll]
  | making he => simp [hwaiting] at he

/-- A replay that would have worked can be cut short at any point before the manifest is removed:
begun again it works, ends in the same file system, and reports the same, except that the links
which had been made are present. -/
theorem run_of_interrupted (hpolicy : cfg.existingLinks = .acceptSame)
    (h : (run cfg dir deleteSources fs).result = .ok result)
    (hmid : Interrupted cfg dir fs k mid) :
    ∃ result', (run cfg dir deleteSources mid).result = .ok result' ∧
      (run cfg dir deleteSources mid).files = (run cfg dir deleteSources fs).files ∧
      result'.linked + result'.alreadyLinked = result.linked + result.alreadyLinked ∧
      result'.alreadyLinked = result.alreadyLinked + (before cfg dir fs k).count .linked ∧
      result'.skippedLines = result.skippedLines ∧
      result'.sourcesDeleted = result.sourcesDeleted ∧
      result'.cleanupFailures = result.cleanupFailures := by
  have hruns := runs_run cfg dir deleteSources fs
  rw [h] at hruns
  generalize (run cfg dir deleteSources fs).files = files at hruns
  cases hruns with
  | noManifest hread hkind =>
      have hwaiting : waiting cfg dir fs = [] := by rw [waiting, hread]
      obtain rfl := hmid.eq_of_waiting_nil hwaiting
      refine ⟨_, h, ?_, rfl, ?_, rfl, rfl, rfl⟩
      · simp [run, hread, hkind]
      · simp [before, hwaiting, placeAll, Pass.count]
  | @applied text unlisted hread hfailure hremove =>
      obtain ⟨hread', hwaiting⟩ := hmid.waiting_eq hread
      have hpass := pass_eq hfailure k
      have hpass' := hmid.pass_eq hpolicy hwaiting hfailure
      have hfiles : (pass cfg dir mid).files = (pass cfg dir fs).files := by rw [hpass', hpass]
      obtain ⟨hresult, hfinal⟩ := run_of_pass deleteSources hread'
        (by rw [hpass']; exact (failure?_before hfailure k).2) (hfiles ▸ hremove)
      rw [hwaiting] at hresult hfinal
      have hplaced : (before cfg dir fs k).count .linked + (before cfg dir fs k).count .present =
          ((waiting cfg dir fs).take k).length :=
        count_of_placeAll (failure?_before hfailure k).1
      have hcount := count_pass hfailure k
      have hcount' := hmid.count_pass hpolicy hwaiting hfailure
      refine ⟨_, hresult, hfinal, ?_, ?_, rfl, rfl, rfl⟩
      · simp only [report, hcount, hcount', if_true, reduceCtorEq, if_false]
        omega
      · simp only [report, hcount, hcount', if_true]
        omega

/-- Two links wait, of which the second needs two directories. -/
def twoLinks : FileSystem :=
  withFiles [("a", "alpha"), ("hardLinkFile", "b\ta\nc/d/e\tb\n")]

/-- The first link and the first of the directories are made. -/
def halfway : FileSystem :=
  ((before .default ⟨[]⟩ twoLinks 1).files.makeFirst [.ofString "c", ⟨[]⟩]).2

/-- Cut short between two directories, the replay goes on with the second. -/
theorem run_of_interrupted_in_directories :
    (run .default ⟨[]⟩ false twoLinks).result = .ok ⟨true, 2, 0, 0, 0, 0⟩ ∧
      Interrupted .default ⟨[]⟩ twoLinks 1 halfway ∧
      ∃ result, (run .default ⟨[]⟩ false halfway).result = .ok result ∧
        (run .default ⟨[]⟩ false halfway).files = (run .default ⟨[]⟩ false twoLinks).files ∧
        result.linked + result.alreadyLinked = 2 ∧ result.alreadyLinked = 1 := by
  have hrun : (run .default ⟨[]⟩ false twoLinks).result = .ok ⟨true, 2, 0, 0, 0, 0⟩ := by rfl
  have hmid : Interrupted .default ⟨[]⟩ twoLinks 1 halfway := by
    refine .making (e := ⟨.ofString "c/d/e", .ofString "b"⟩) (by rfl)
      ⟨.ofString "c/d", by rfl, by rfl, by rfl, ?_⟩
    exact .above (by rfl) (e := .system .noEntry) (by rfl) (by rfl) (.done _)
  obtain ⟨result, hresult, hfiles, hsum, halready, _⟩ := run_of_interrupted (by rfl) hrun hmid
  exact ⟨hrun, hmid, result, hresult, hfiles, hsum, halready⟩

end Hardlinks.Replay
