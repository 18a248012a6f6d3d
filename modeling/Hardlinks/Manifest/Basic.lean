-- SUMMARY: Manifests as text: writing the entries, and reading entries and malformed lines back.
import Hardlinks.Manifest.Entry

/-!
# Manifests

A manifest is a list of entries, one per line, every line ended by a newline. Reading never fails:
a line that is no entry is reported with its number and does not affect the others.
-/

namespace Hardlinks

abbrev Manifest := List Entry

/-- A line that is no entry. Lines are counted from one. -/
structure MalformedLine where
  number : Nat
  content : List UInt8
  defect : Defect
deriving DecidableEq, Repr

namespace Manifest

def text (m : Manifest) : List UInt8 :=
  m.flatMap fun e => e.line ++ [Text.newline]

/-- What reading a text finds. -/
structure Reading where
  entries : List Entry
  malformed : List MalformedLine
deriving DecidableEq, Repr

/-- Reads lines, of which the first has the given number. -/
def readLines (number : Nat) : List (List UInt8) → Reading
  | [] => ⟨[], []⟩
  | line :: rest =>
    let reading := readLines (number + 1) rest
    match Entry.ofLine line with
    | .ok entry => { reading with entries := entry :: reading.entries }
    | .error defect =>
      { reading with malformed := ⟨number, line, defect⟩ :: reading.malformed }

def read (text : List UInt8) : Reading :=
  readLines 1 (Text.lines text)

end Manifest

end Hardlinks
