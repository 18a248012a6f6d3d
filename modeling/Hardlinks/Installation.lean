-- SUMMARY: Moving a draft to the place where its manifest will be applied.
import Hardlinks.Config.Basic
import Hardlinks.FileSystem.Directories
import Hardlinks.Outcome

/-!
# Installation

Installing a draft gives it the manifest's name in the target directory and takes its own name away.
The new name is made as a hard link, which fails where a manifest is already waiting. A draft that
cannot be linked there, for instance because it lies on another device, is copied to a hidden file
beside the manifest's place, and that file is linked.
-/

namespace Hardlinks.Installation

/-- The hidden file that a draft is copied to. -/
def stagingPath (cfg : CheckedConfig) (dir : Path) : Path :=
  dir.join (.ofString ("." ++ cfg.manifestName ++ ".tmp"))

/-- The failure to link a manifest into its place. -/
def placingFailure (manifest : Path) (e : IoError) : Failure :=
  if e.kind = .alreadyExists then .manifestPresent manifest else .io e

/-- Copies the draft and links the copy into the manifest's place. Of the ways in which the copy can
fail to be synchronised, only those are told that lie in the file system: it cannot be opened, or it
is a device. -/
def placeCopy (cfg : CheckedConfig) (draft staging manifest : Path) (fs : FileSystem) :
    Except Failure Unit × FileSystem :=
  match fs.copyFile draft staging with
  | .error e => (.error (.io e), fs)
  | .ok copied =>
    match if cfg.sync then copied.syncFile staging else .ok () with
    | .error e => (.error (.io e), copied)
    | .ok _ =>
      match copied.linkFile staging manifest with
      | .error e => (.error (placingFailure manifest e), copied)
      | .ok placed => (.ok (), placed)

/-- The file system without the hidden file, as far as that can be removed. -/
def dropStaging (staging : Path) (fs : FileSystem) : FileSystem :=
  match fs.removeFile staging with
  | .ok dropped => dropped
  | .error _ => fs

/-- What is left to do once the manifest is in its place: the draft's own name is removed, and the
directory is opened if it is to be synchronised. -/
def finish (cfg : CheckedConfig) (draft dir : Path) (fs : FileSystem) (events : List Event) :
    Outcome Path :=
  match fs.removeFile draft with
  | .error e => ⟨.error (.io e), fs, events⟩
  | .ok removed =>
    match if cfg.sync then removed.openRead dir else .ok 0 with
    | .error e => ⟨.error (.io e), removed, events⟩
    | .ok _ =>
      let manifest := cfg.manifestPath dir
      ⟨.ok manifest, removed, events ++ [.installed manifest]⟩

/-- Installs a draft as the manifest of the directory `dir`, which is made if it is missing. -/
def run (cfg : CheckedConfig) (draft dir : Path) (fs : FileSystem) : Outcome Path :=
  let manifest := cfg.manifestPath dir
  match fs.provideDirectory dir with
  | (.error f, made) => ⟨.error f, made, []⟩
  | (.ok (), made) =>
    match made.linkFile draft manifest with
    | .ok linked => finish cfg draft dir linked []
    | .error e =>
      if e.kind = .alreadyExists then ⟨.error (.manifestPresent manifest), made, []⟩
      else
        let staging := stagingPath cfg dir
        let events := [Event.draftNotLinked draft e]
        match placeCopy cfg draft staging manifest made with
        | (.error f, left) => ⟨.error f, dropStaging staging left, events⟩
        | (.ok (), left) => finish cfg draft dir (dropStaging staging left) events

end Hardlinks.Installation
