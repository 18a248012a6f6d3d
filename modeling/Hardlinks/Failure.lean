-- SUMMARY: What can go wrong with a manifest, a configuration or an operation, and its wording.
import Hardlinks.IoError
import Hardlinks.Path.Basic
import Hardlinks.Text.Quoted

/-!
# Failures

A defect is a rule that an entry of a manifest breaks; it makes a line malformed when a manifest is
read and is a failure when one is written. A failure ends an operation. Both are causes, and the
wording of each cause stands in one place.
-/

namespace Hardlinks

/-- The rule that an entry breaks. -/
inductive Defect where
  | fieldCount
  | emptyField
  | escapes
  | sameField
  /-- A rule that is given in words. -/
  | stated (rule : String)
deriving DecidableEq, Repr

def Defect.message : Defect → String
  | fieldCount => "expected exactly two tab-separated fields"
  | emptyField => "empty field"
  | escapes => "path escapes the target directory"
  | sameField => "destination equals source"
  | stated rule => rule

/-- What a configuration is rejected for. -/
inductive ConfigDefect where
  | manifestName (name : String)
  | activeMarker (marker : String)
  | emptyDraftPrefix
  /-- A reason that is given in words. -/
  | stated (reason : String)
deriving DecidableEq, Repr

def ConfigDefect.message : ConfigDefect → String
  | manifestName name => "manifest name must be a plain file name: " ++ Text.quoted name
  | activeMarker marker =>
    "active checkpoint marker must be a relative path: " ++ Text.quoted marker
  | emptyDraftPrefix => "temporary manifest prefix is empty"
  | stated reason => reason

inductive Failure where
  /-- A file operation that belongs to no more specific step. -/
  | io (cause : IoError)
  | createDirectory (dir : Path) (cause : IoError)
  | link (source destination : Path) (cause : IoError)
  | deleteManifest (manifest : Path) (cause : IoError)
  /-- A manifest is already waiting to be applied. -/
  | manifestPresent (manifest : Path)
  | notADirectory (path : Path)
  /-- The listing of a directory tree failed at `path`. -/
  | walk (path : Path) (cause : IoError)
  /-- The path is shorter than the part to cut off, or the cut would split a character. -/
  | cut (path : Path) (length : Nat)
  | notUtf8 (path : Path)
  /-- A field that holds a character which the manifest format uses itself. -/
  | unencodable (field : Path)
  | invalidEntry (source destination : Path) (defect : Defect)
  | invalidConfig (defect : ConfigDefect)
deriving DecidableEq, Repr

namespace Failure

/-- The file operation's own failure, if the failure wraps one. -/
def ioCause? : Failure → Option IoError
  | io cause | createDirectory _ cause | link _ _ cause | deleteManifest _ cause
  | walk _ cause => some cause
  | _ => none

def message : Failure → String
  | io cause => "I/O error: " ++ cause.message
  | createDirectory dir _ => "Failed to create directory: " ++ dir.display
  | link source destination cause =>
    "Failed to link " ++ destination.display ++ " -> " ++ source.display ++ ": " ++ cause.message
  | deleteManifest manifest _ => "Failed to delete: " ++ manifest.display
  | manifestPresent manifest => "Manifest already present at " ++ manifest.display
  | notADirectory path => "Not a directory: " ++ path.display
  | walk path cause => "Failed to walk " ++ path.display ++ ": " ++ cause.message
  | cut path length =>
    "Cannot strip " ++ String.ofList (Nat.toDigits 10 length) ++ " bytes from " ++ path.display
  | notUtf8 path => "Path is not valid UTF-8: " ++ path.display
  | unencodable field => "Path cannot be stored in a manifest: " ++ Text.quoted field.display
  | invalidEntry source destination defect =>
    "Invalid link " ++ Text.quoted destination.display ++ " -> " ++ Text.quoted source.display ++
      ": " ++ defect.message
  | invalidConfig defect => "Invalid config: " ++ defect.message

end Failure

end Hardlinks
