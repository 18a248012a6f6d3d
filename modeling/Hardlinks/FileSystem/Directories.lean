-- SUMMARY: Making a directory with its missing ancestors, and the parent directory of a path.
import Hardlinks.Failure
import Hardlinks.FileSystem.Calls

/-!
# Missing directories

Making a directory and all its missing ancestors takes several calls, so it can fail half way and
then leaves the directories that were made. The result therefore always comes with a file system.
-/

namespace Hardlinks.FileSystem

/-- Makes the first directory of the list. If it cannot be made for want of an ancestor, the rest of
the list is made first. A directory that exists is fine. -/
def makeFirst (fs : FileSystem) : List Path → Except IoError Unit × FileSystem
  | [] => (.ok (), fs)
  | p :: ancestors =>
    if p.isEmpty then (.ok (), fs)
    else
      match fs.makeDirectory p with
      | .ok made => (.ok (), made)
      | .error e =>
        if e.kind = .notFound then
          match fs.makeFirst ancestors with
          | (.error e, below) => (.error e, below)
          | (.ok (), below) =>
            match below.makeDirectory p with
            | .ok made => (.ok (), made)
            | .error e => (if below.isDirectoryAt p then .ok () else .error e, below)
        else (if fs.isDirectoryAt p then .ok () else .error e, fs)

/-- Makes a directory and its missing ancestors. -/
def makeDirectories (fs : FileSystem) (p : Path) : Except IoError Unit × FileSystem :=
  fs.makeFirst p.ancestors

/-- Makes a directory and its missing ancestors; a failure names the directory that was asked
for. -/
def provideDirectory (fs : FileSystem) (p : Path) : Except Failure Unit × FileSystem :=
  match fs.makeDirectories p with
  | (.ok (), made) => (.ok (), made)
  | (.error e, made) => (.error (.createDirectory p e), made)

/-- Makes the directory that is to hold `p`, unless it is there. -/
def provideParent (fs : FileSystem) (p : Path) : Except Failure Unit × FileSystem :=
  match p.parent? with
  | none => (.ok (), fs)
  | some dir =>
    if dir.isEmpty || fs.isDirectoryAt dir then (.ok (), fs) else fs.provideDirectory dir

end Hardlinks.FileSystem
