-- SUMMARY: The five ways in which a replay can end, as a relation.
import Hardlinks.Proofs.Replay.Placement

/-!
# Endings of a replay

A replay finds no manifest, cannot read it, fails at one of its entries, fails to remove it, or goes
through to the sources. What a replay has done can be read off the way in which it ended
(`runs_run`).
-/

namespace Hardlinks.Replay

open FileSystem

/-- The entries that wait to be placed: those of the manifest, if there is one to read. -/
def waiting (cfg : CheckedConfig) (dir : Path) (fs : FileSystem) : List Entry :=
  match fs.readText (cfg.manifestPath dir) with
  | .ok text => (Manifest.read text).entries
  | .error _ => []

/-- The pass over the waiting entries. -/
def pass (cfg : CheckedConfig) (dir : Path) (fs : FileSystem) : Pass :=
  placeAll cfg.existingLinks dir fs (waiting cfg dir fs)

/-- The pass over the first `k` waiting entries. -/
def before (cfg : CheckedConfig) (dir : Path) (fs : FileSystem) (k : Nat) : Pass :=
  placeAll cfg.existingLinks dir fs ((waiting cfg dir fs).take k)

/-- The pass over the other entries. -/
def rest (cfg : CheckedConfig) (dir : Path) (fs : FileSystem) (k : Nat) : Pass :=
  placeAll cfg.existingLinks dir (before cfg dir fs k).files ((waiting cfg dir fs).drop k)

/-- What is done about the sources in the end. -/
def clean (deleteSources : Bool) (dir : Path) (entries : List Entry) (fs : FileSystem) : Cleanup :=
  if deleteSources then deleteAll fs (disposable dir entries) else ⟨[], fs⟩

def report (pass : Pass) (malformed : Nat) (cleanup : Cleanup) : ReplayReport where
  manifestFound := true
  linked := pass.count .linked
  alreadyLinked := pass.count .present
  skippedLines := malformed
  sourcesDeleted := cleanup.deleted
  cleanupFailures := cleanup.failures

/-- The ways in which a replay can end. -/
inductive Runs (cfg : CheckedConfig) (dir : Path) (deleteSources : Bool) (fs : FileSystem) :
    Except Failure ReplayReport → FileSystem → Prop
  | noManifest {e : IoError} : fs.readText (cfg.manifestPath dir) = .error e → e.kind = .notFound →
      Runs cfg dir deleteSources fs (.ok .empty) fs
  | unreadable {e : IoError} : fs.readText (cfg.manifestPath dir) = .error e →
      Runs cfg dir deleteSources fs (.error (.io e)) fs
  | aborted {f : Failure} : (pass cfg dir fs).failure? = some f →
      Runs cfg dir deleteSources fs (.error f) (pass cfg dir fs).files
  | manifestKept {e : IoError} : (pass cfg dir fs).failure? = none →
      (pass cfg dir fs).files.removeFile (cfg.manifestPath dir) = .error e →
      Runs cfg dir deleteSources fs (.error (.deleteManifest (cfg.manifestPath dir) e))
        (pass cfg dir fs).files
  | applied {text : List UInt8} {unlisted : FileSystem} :
      fs.readText (cfg.manifestPath dir) = .ok text → (pass cfg dir fs).failure? = none →
      (pass cfg dir fs).files.removeFile (cfg.manifestPath dir) = .ok unlisted →
      Runs cfg dir deleteSources fs
        (.ok (report (pass cfg dir fs) (Manifest.read text).malformed.length
          (clean deleteSources dir (waiting cfg dir fs) unlisted)))
        (clean deleteSources dir (waiting cfg dir fs) unlisted).files

variable {cfg : CheckedConfig} {dir : Path} {deleteSources : Bool} {fs unlisted : FileSystem}
  {text : List UInt8}

/-! ## Parts of a pass -/

theorem grows_pass (cfg : CheckedConfig) (dir : Path) (fs : FileSystem) :
    fs.Grows (pass cfg dir fs).files :=
  grows_placeAll _ _ _ _

theorem failure?_before (h : (pass cfg dir fs).failure? = none) (k : Nat) :
    (before cfg dir fs k).failure? = none ∧ (rest cfg dir fs k).failure? = none := by
  rw [pass, ← List.take_append_drop k (waiting cfg dir fs)] at h
  exact placeAll_of_append h

theorem pass_eq (h : (pass cfg dir fs).failure? = none) (k : Nat) :
    pass cfg dir fs =
      { rest cfg dir fs k with
        placed := (before cfg dir fs k).placed ++ (rest cfg dir fs k).placed } := by
  have happend := placeAll_append (failure?_before h k).1 ((waiting cfg dir fs).drop k)
  rw [List.take_append_drop] at happend
  exact happend

theorem count_pass (h : (pass cfg dir fs).failure? = none) (k : Nat) (placement : Placement) :
    (pass cfg dir fs).count placement =
      (before cfg dir fs k).count placement + (rest cfg dir fs k).count placement := by
  rw [pass_eq h k]
  exact List.countP_append

/-- A pass only adds to what its first entries left. -/
theorem grows_before (h : (pass cfg dir fs).failure? = none) (k : Nat) :
    (before cfg dir fs k).files.Grows (pass cfg dir fs).files := by
  rw [pass_eq h k]
  exact grows_placeAll _ _ _ _

/-! ## Endings -/

theorem waiting_of_readText (h : fs.readText (cfg.manifestPath dir) = .ok text) :
    waiting cfg dir fs = (Manifest.read text).entries := by
  rw [waiting, h]

theorem runs_run (cfg : CheckedConfig) (dir : Path) (deleteSources : Bool) (fs : FileSystem) :
    Runs cfg dir deleteSources fs (run cfg dir deleteSources fs).result
      (run cfg dir deleteSources fs).files := by
  cases hread : fs.readText (cfg.manifestPath dir) with
  | error e =>
      simp only [run, hread]
      split
      · next hkind => exact .noManifest hread hkind
      · exact .unreadable hread
  | ok text =>
      have hwaiting := waiting_of_readText hread
      have hpass : placeAll cfg.existingLinks dir fs (Manifest.read text).entries =
          pass cfg dir fs := by rw [pass, hwaiting]
      simp only [run, hread, hpass]
      cases hfailure : (pass cfg dir fs).failure? with
      | some f => exact .aborted hfailure
      | none =>
          cases hremove : (pass cfg dir fs).files.removeFile (cfg.manifestPath dir) with
          | error e => exact .manifestKept hfailure hremove
          | ok unlisted =>
              have happlied : Runs cfg dir deleteSources fs _ _ := .applied hread hfailure hremove
              rw [hwaiting] at happlied
              exact happlied

/-- A replay that works reports how many entries its pass linked and found present. -/
theorem counts_of_run {result : ReplayReport}
    (h : (run cfg dir deleteSources fs).result = .ok result) :
    result.linked = (pass cfg dir fs).count .linked ∧
      result.alreadyLinked = (pass cfg dir fs).count .present := by
  have hruns := runs_run cfg dir deleteSources fs
  rw [h] at hruns
  generalize (run cfg dir deleteSources fs).files = files at hruns
  cases hruns with
  | noManifest hread => simp [pass, waiting, hread, placeAll, Pass.count, ReplayReport.empty]
  | applied => exact ⟨rfl, rfl⟩

/-- A pass that fails makes a replay that fails, and leaves what the pass has left. -/
theorem run_of_failure {f : Failure} (deleteSources : Bool)
    (hread : fs.readText (cfg.manifestPath dir) = .ok text)
    (hfailure : (pass cfg dir fs).failure? = some f) :
    (run cfg dir deleteSources fs).result = .error f ∧
      (run cfg dir deleteSources fs).files = (pass cfg dir fs).files := by
  have hwaiting := waiting_of_readText hread
  rw [pass, hwaiting] at hfailure
  simp only [run, hread, hfailure, pass, hwaiting, and_self]

/-- A pass that works and a manifest that can be removed make a replay that works. -/
theorem run_of_pass (deleteSources : Bool)
    (hread : fs.readText (cfg.manifestPath dir) = .ok text)
    (hfailure : (pass cfg dir fs).failure? = none)
    (hremove : (pass cfg dir fs).files.removeFile (cfg.manifestPath dir) = .ok unlisted) :
    (run cfg dir deleteSources fs).result =
        .ok (report (pass cfg dir fs) (Manifest.read text).malformed.length
          (clean deleteSources dir (waiting cfg dir fs) unlisted)) ∧
      (run cfg dir deleteSources fs).files =
        (clean deleteSources dir (waiting cfg dir fs) unlisted).files := by
  have hwaiting := waiting_of_readText hread
  rw [pass, hwaiting] at hfailure hremove
  simp only [run, hread, hfailure, hremove, pass, hwaiting]
  exact ⟨rfl, rfl⟩

/-- What a replay that goes through reports. -/
theorem events_of_pass (deleteSources : Bool)
    (hread : fs.readText (cfg.manifestPath dir) = .ok text)
    (hfailure : (pass cfg dir fs).failure? = none)
    (hremove : (pass cfg dir fs).files.removeFile (cfg.manifestPath dir) = .ok unlisted) :
    (run cfg dir deleteSources fs).events =
      (Manifest.read text).malformed.map (Event.lineSkipped (cfg.manifestPath dir)) ++
        (pass cfg dir fs).events dir ++
        (clean deleteSources dir (waiting cfg dir fs) unlisted).events ++
        [.applied dir (report (pass cfg dir fs) (Manifest.read text).malformed.length
          (clean deleteSources dir (waiting cfg dir fs) unlisted))] := by
  have hwaiting := waiting_of_readText hread
  rw [pass, hwaiting] at hfailure hremove
  simp only [run, hread, hfailure, hremove, pass, hwaiting]
  rfl

/-- What a replay reports that fails after it has read the manifest. -/
theorem events_of_failed {f : Failure} (hread : fs.readText (cfg.manifestPath dir) = .ok text)
    (h : (run cfg dir deleteSources fs).result = .error f) :
    (run cfg dir deleteSources fs).events =
      (Manifest.read text).malformed.map (Event.lineSkipped (cfg.manifestPath dir)) ++
        (pass cfg dir fs).events dir := by
  rw [pass, waiting_of_readText hread]
  simp only [run, hread] at h ⊢
  split
  · rfl
  · next hfailure =>
    simp only [hfailure] at h
    split
    · rfl
    · next hremove => simp [hremove] at h

end Hardlinks.Replay
