-- SUMMARY: One entry of a manifest: the rules for it, its line, and the reading of a line.
import Hardlinks.Failure
import Hardlinks.Text.Lines

/-!
# Entries of a manifest

An entry asks for one hard link: the destination is the directory entry to make, the source the
existing file it must name. Both are written relative to the directory that holds the manifest. The
rules for the two fields are the same for writing and for reading; writing also refuses a field
that holds a tab or a line end, which reading could not give back.
-/

namespace Hardlinks

structure Entry where
  destination : Path
  source : Path
deriving DecidableEq, Repr

namespace Entry

/-- The first rule that the two fields break. -/
def defect? (destination source : Path) : Option Defect :=
  if destination.isEmpty || source.isEmpty then some .emptyField
  else if !destination.isContained || !source.isContained then some .escapes
  else if destination = source then some .sameField
  else none

/-- True for a field that the line format can carry. -/
def isEncodable (field : Path) : Bool :=
  field.bytes.all fun b => b != Text.tab && b != Text.newline && b != Text.carriageReturn

/-- The entry with the given fields, if it may be written. -/
def make (destination source : Path) : Except Failure Entry :=
  if !isEncodable destination then .error (.unencodable destination)
  else if !isEncodable source then .error (.unencodable source)
  else
    match defect? destination source with
    | some defect => .error (.invalidEntry source destination defect)
    | none => .ok ⟨destination, source⟩

/-- The line of an entry, without its end. -/
def line (e : Entry) : List UInt8 :=
  e.destination.bytes ++ Text.tab :: e.source.bytes

/-- The entry on a line. -/
def ofLine (line : List UInt8) : Except Defect Entry :=
  match line.splitOn Text.tab with
  | [destination, source] =>
    match defect? ⟨destination⟩ ⟨source⟩ with
    | some defect => .error defect
    | none => .ok ⟨⟨destination⟩, ⟨source⟩⟩
  | _ => .error .fieldCount

end Entry

end Hardlinks
