-- SUMMARY: Linking everything below one directory into another directory.
import Hardlinks.FileSystem.Directories
import Hardlinks.FileSystem.Listing
import Hardlinks.Outcome

/-!
# Linked trees

Everything below a source directory is given a second place below a destination directory:
directories are made, and all else is linked. The source is listed before anything is changed, and
the entries are taken in the order of their paths, so a directory comes before what lies in it. Each
entry is counted when it has its place. The first failure ends the operation.
-/

namespace Hardlinks

/-- One entry more has its place. -/
def TreeReport.count (r : TreeReport) (l : Listed) : TreeReport :=
  if l.isDirectory then { r with directories := r.directories + 1 }
  else { r with links := r.links + 1 }

namespace TreeLinks

/-- How far the entries have got: what has been counted, and the file system. -/
structure Progress where
  report : TreeReport
  files : FileSystem

/-- Gives one entry its second place. A directory that is already there is fine. -/
def place (source destination : Path) (fs : FileSystem) (l : Listed) :
    Except Failure Unit × FileSystem :=
  let old := source.join l.path
  let new := destination.join l.path
  match fs.provideParent new with
  | (.error f, made) => (.error f, made)
  | (.ok (), made) =>
    if l.isDirectory then
      match made.makeDirectory new with
      | .ok grown => (.ok (), grown)
      | .error e =>
        if e.kind = .alreadyExists ∧ made.isDirectoryAt new then (.ok (), made)
        else (.error (.createDirectory new e), made)
    else
      match made.linkFile old new with
      | .ok linked => (.ok (), linked)
      | .error e => (.error (.link old new e), made)

/-- Gives the entries their second places in turn and counts them, up to the first failure. -/
def placeAll (source destination : Path) (p : Progress) :
    List Listed → Except Failure Unit × Progress
  | [] => (.ok (), p)
  | l :: rest =>
    match place source destination p.files l with
    | (.error f, after) => (.error f, ⟨p.report, after⟩)
    | (.ok (), after) => placeAll source destination ⟨p.report.count l, after⟩ rest

/-- Links everything that the traversal finds below `source` into `destination`. -/
def run (source destination : Path) (fs : FileSystem)
    (traversal : Traversal := FileSystem.traverse) : Outcome TreeReport :=
  if !fs.isDirectoryAt source then ⟨.error (.notADirectory source), fs, []⟩
  else
    let started := Event.treeStarted source destination
    match Listed.all source (traversal fs source) with
    | .error f => ⟨.error f, fs, [started]⟩
    | .ok listed =>
      match placeAll source destination ⟨⟨0, 0⟩, fs⟩ (Listed.sort listed) with
      | (.error f, p) => ⟨.error f, p.files, [started]⟩
      | (.ok (), p) =>
        ⟨.ok p.report, p.files, [started, .treeLinked source destination p.report]⟩

end TreeLinks

end Hardlinks
