-- SUMMARY: Writing the manifest of a plan to a new file with a name of its own.
import Hardlinks.FileSystem.Calls
import Hardlinks.LinkPlan
import Hardlinks.Outcome

/-!
# Drafts

A draft is a manifest in a new file whose name nobody else uses: the configured beginning, a random
tag and the configured end. The tags are an argument; they are tried in turn until one gives a name
that is free.

The new file is empty. It is filled, flushed and, if the configuration says so, synced before it is
kept. Each of these steps can fail for reasons that do not lie in the file system as it is modelled,
such as a full disk, so such a fault is an argument too. A draft that is not kept is removed again.
-/

namespace Hardlinks.Draft

/-- The steps of writing a draft. -/
inductive Stage where
  | create
  /-- Filling the file, when so many bytes have been written. -/
  | fill (written : Nat)
  | flush
  | sync
  | keep
deriving DecidableEq, Repr

/-- A step that fails, and why. -/
structure Fault where
  stage : Stage
  cause : IoError
deriving DecidableEq, Repr

/-- The step, which fails only through the fault. -/
def Stage.pass (stage : Stage) (fault? : Option Fault) : Except IoError Unit :=
  match fault? with
  | none => .ok ()
  | some fault => if fault.stage = stage then .error fault.cause else .ok ()

/-- The draft's path for a tag. -/
def path (cfg : CheckedConfig) (dir : Path) (tag : List UInt8) : Path :=
  dir.join ⟨Utf8.encode cfg.draftPrefix ++ tag ++ Utf8.encode cfg.draftSuffix⟩

/-- Makes an empty file. -/
def createEmpty (fs : FileSystem) (p : Path) (fault? : Option Fault) :
    Except IoError FileSystem := do
  Stage.create.pass fault?
  fs.createFile p .ofNewFile []

/-- Makes an empty file at the first of the paths that is free. -/
def createFirst (fs : FileSystem) (fault? : Option Fault) :
    List Path → Except IoError (Path × FileSystem)
  | [] => .error (.system .exists)
  | p :: rest =>
    match createEmpty fs p fault? with
    | .ok made => .ok (p, made)
    | .error e =>
      if e.kind = .alreadyExists && !rest.isEmpty then createFirst fs fault? rest else .error e

/-- Writes the bytes to the empty file `i`. -/
def fill (fs : FileSystem) (i : Inode) (bytes : List UInt8) (fault? : Option Fault) :
    Except IoError Unit × FileSystem :=
  match fault? with
  | some ⟨.fill written, cause⟩ => (.error cause, fs.setContent i (.file (bytes.take written)))
  | _ => (.ok (), fs.setContent i (.file bytes))

/-- Makes a filled file last. -/
def settle (cfg : CheckedConfig) (fault? : Option Fault) : Except IoError Unit := do
  Stage.flush.pass fault?
  if cfg.sync then Stage.sync.pass fault?
  Stage.keep.pass fault?

/-- Removes a draft that is not kept. Whether this works makes no difference. -/
def discard (fs : FileSystem) (draft : Path) : FileSystem :=
  match fs.removeFile draft with
  | .ok removed => removed
  | .error _ => fs

/-- Writes the manifest of a plan, of which `length` bytes are cut off every path. -/
def write (cfg : CheckedConfig) (systemTemp : Path) (tags : List (List UInt8)) (length : Nat)
    (plan : LinkPlan) (fs : FileSystem) (fault? : Option Fault := none) : Outcome Path :=
  match plan.manifest cfg length with
  | .error f => ⟨.error f, fs, []⟩
  | .ok manifest =>
    match createFirst fs fault? (tags.map (path cfg (cfg.draftLocation systemTemp))) with
    | .error e => ⟨.error (.io e), fs, []⟩
    | .ok (draft, made) =>
      match fill made fs.nextInode manifest.text fault? with
      | (.error e, left) => ⟨.error (.io e), discard left draft, []⟩
      | (.ok (), filled) =>
        match settle cfg fault? with
        | .error e => ⟨.error (.io e), discard filled draft, []⟩
        | .ok () => ⟨.ok draft, filled, [.draftWritten draft manifest.length]⟩

end Hardlinks.Draft
