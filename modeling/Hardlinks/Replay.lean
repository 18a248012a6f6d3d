-- SUMMARY: Applying the manifest of a directory: every link, then the manifest, then the sources.
import Hardlinks.Config.Basic
import Hardlinks.FileSystem.Directories
import Hardlinks.Outcome

/-!
# Replay

A replay reads the manifest of a directory and makes the link of every entry in turn, with the
directories it needs. The first link that cannot be made ends the replay, with the manifest and all
sources in place, so that it can be run again. After the last link the manifest is removed, and
then, if asked for, every source that is not itself the destination of an entry; a source that
cannot be removed is reported and does not fail the replay.
-/

namespace Hardlinks.Replay

/-! ## Links -/

/-- How the destination of an entry came to name its source's node. -/
inductive Placement where
  | linked
  /-- It did already. -/
  | present
deriving DecidableEq, Repr

def source (dir : Path) (e : Entry) : Path :=
  dir.join e.source

def destination (dir : Path) (e : Entry) : Path :=
  dir.join e.destination

/-- True when an existing destination is accepted. -/
def accepts (policy : ExistingLinks) (fs : FileSystem) (source destination : Path) : Bool :=
  match policy with
  | .refuse => false
  | .acceptSame =>
    match fs.sameEntry source destination with
    | .ok same => same
    | .error _ => false

/-- Makes the link of one entry. -/
def place (policy : ExistingLinks) (dir : Path) (fs : FileSystem) (e : Entry) :
    Except Failure Placement × FileSystem :=
  match fs.provideParent (destination dir e) with
  | (.error f, made) => (.error f, made)
  | (.ok (), made) =>
    match made.linkFile (source dir e) (destination dir e) with
    | .ok linked => (.ok .linked, linked)
    | .error cause =>
      if cause.kind = .alreadyExists ∧ accepts policy made (source dir e) (destination dir e) then
        (.ok .present, made)
      else (.error (.link (source dir e) (destination dir e) cause), made)

/-- The entries that were placed in a pass, the failure that ended it early, and the file system
after it. -/
structure Pass where
  placed : List (Entry × Placement)
  failure? : Option Failure
  files : FileSystem
deriving Repr

/-- Makes the links of the entries in turn, up to the first failure. -/
def placeAll (policy : ExistingLinks) (dir : Path) (fs : FileSystem) : List Entry → Pass
  | [] => ⟨[], none, fs⟩
  | e :: rest =>
    match place policy dir fs e with
    | (.error f, after) => ⟨[], some f, after⟩
    | (.ok placement, after) =>
      let pass := placeAll policy dir after rest
      { pass with placed := (e, placement) :: pass.placed }

namespace Pass

def count (pass : Pass) (placement : Placement) : Nat :=
  pass.placed.countP fun p => p.2 == placement

/-- A destination that named its source already is reported. -/
def events (pass : Pass) (dir : Path) : List Event :=
  pass.placed.filterMap fun (e, placement) =>
    match placement with
    | .linked => none
    | .present => some (.alreadyLinked (destination dir e))

end Pass

/-! ## Sources -/

/-- The first of the paths with the same components, for all components that occur. -/
def distinct : List Path → List Path
  | [] => []
  | p :: rest => p :: (distinct rest).filter fun q => !q.same p

/-- The sources that no entry has as its destination, each once. -/
def disposable (dir : Path) (entries : List Entry) : List Path :=
  (distinct (entries.map (source dir))).filter fun s =>
    !entries.any fun e => (destination dir e).same s

/-- What became of a source that was to be removed. -/
inductive Removal where
  | deleted
  /-- There was nothing to remove. -/
  | missing
  | failed (cause : IoError)
deriving DecidableEq, Repr

def delete (fs : FileSystem) (source : Path) : Removal × FileSystem :=
  match fs.removeFile source with
  | .ok removed => (.deleted, removed)
  | .error e => (if e.kind = .notFound then .missing else .failed e, fs)

/-- What became of several sources, and the file system after that. -/
structure Cleanup where
  removals : List (Path × Removal)
  files : FileSystem
deriving Repr

def deleteAll (fs : FileSystem) : List Path → Cleanup
  | [] => ⟨[], fs⟩
  | source :: rest =>
    match delete fs source with
    | (removal, after) =>
      let cleanup := deleteAll after rest
      { cleanup with removals := (source, removal) :: cleanup.removals }

namespace Cleanup

def deleted (cleanup : Cleanup) : Nat :=
  cleanup.removals.countP fun r => r.2 == .deleted

def events (cleanup : Cleanup) : List Event :=
  cleanup.removals.filterMap fun (source, removal) =>
    match removal with
    | .failed cause => some (.sourceNotDeleted source cause)
    | _ => none

/-- The number of sources that could not be removed. -/
def failures (cleanup : Cleanup) : Nat :=
  cleanup.events.length

end Cleanup

/-! ## The whole pass -/

/-- Applies the manifest of the directory `dir`, if it has one. -/
def run (cfg : CheckedConfig) (dir : Path) (deleteSources : Bool) (fs : FileSystem) :
    Outcome ReplayReport :=
  let manifest := cfg.manifestPath dir
  match fs.readText manifest with
  | .error e =>
    if e.kind = .notFound then ⟨.ok .empty, fs, [.noManifest dir]⟩
    else ⟨.error (.io e), fs, []⟩
  | .ok text =>
    let reading := Manifest.read text
    let pass := placeAll cfg.existingLinks dir fs reading.entries
    let events := reading.malformed.map (Event.lineSkipped manifest) ++ pass.events dir
    match pass.failure? with
    | some f => ⟨.error f, pass.files, events⟩
    | none =>
      match pass.files.removeFile manifest with
      | .error e => ⟨.error (.deleteManifest manifest e), pass.files, events⟩
      | .ok removed =>
        let cleanup :=
          if deleteSources then deleteAll removed (disposable dir reading.entries)
          else ⟨[], removed⟩
        let report : ReplayReport :=
          { manifestFound := true
            linked := pass.count .linked
            alreadyLinked := pass.count .present
            skippedLines := reading.malformed.length
            sourcesDeleted := cleanup.deleted
            cleanupFailures := cleanup.failures }
        ⟨.ok report, cleanup.files, events ++ cleanup.events ++ [.applied dir report]⟩

end Hardlinks.Replay
