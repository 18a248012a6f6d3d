-- SUMMARY: Paths as written, their components, and the operations on them that touch no file.
import Hardlinks.Text.Utf8

/-!
# Paths

A path is the bytes it is written with. What it names is read off its components: an optional root,
then names, where `.` counts only at the front of a relative path and `..` is kept. Two spellings
name the same place, as far as the text tells, when their components agree; the bytes themselves
are kept for display and for the file system.
-/

namespace Hardlinks

/-- A path, byte for byte as it was written. -/
structure Path where
  bytes : List UInt8
deriving DecidableEq, Repr, Inhabited

/-- The name of a directory entry. -/
abbrev Name := List UInt8

inductive Component where
  | root
  | here
  | up
  | name (n : Name)
deriving DecidableEq, Repr

namespace Path

abbrev slash : UInt8 := 47
abbrev dot : UInt8 := 46

def ofString (text : String) : Path :=
  ⟨Utf8.encode text⟩

/-- The path as text, with U+FFFD for what is not UTF-8. -/
def display (p : Path) : String :=
  Utf8.display p.bytes

def isUtf8 (p : Path) : Bool :=
  Utf8.isValid p.bytes

def isEmpty (p : Path) : Bool :=
  p.bytes.isEmpty

/-- The parts between slashes; a path without a slash is one part. -/
def parts (p : Path) : List Name :=
  p.bytes.splitOn slash

def isAbsolute (p : Path) : Bool :=
  p.bytes.head? == some slash

/-! ## Components -/

/-- The component that a part stands for. Empty parts and `.` stand for none. -/
def component? (part : Name) : Option Component :=
  if part = [] ∨ part = [dot] then none
  else if part = [dot, dot] then some .up
  else some (.name part)

/-- The component in front of the parts: the root of an absolute path, or a leading `.`. -/
def anchor (p : Path) : List Component :=
  if p.isAbsolute then [.root]
  else if p.parts.head? = some [dot] then [.here]
  else []

def components (p : Path) : List Component :=
  p.anchor ++ p.parts.filterMap component?

/-- Two paths with the same components. -/
def same (p q : Path) : Bool :=
  p.components == q.components

/-- The name at the end of the path, if it ends in a name. -/
def fileName? (p : Path) : Option Name :=
  match p.components.getLast? with
  | some (.name n) => some n
  | _ => none

/-- True when the components of `q` are the first components of `p`. -/
def startsWith (p q : Path) : Bool :=
  q.components.isPrefixOf p.components

/-- True for a non-empty path that stays inside the directory it is joined to: it has no root and
no `..`. -/
def isContained (p : Path) : Bool :=
  !p.isEmpty && p.components.all fun c =>
    match c with
    | .root | .up => false
    | .here | .name _ => true

/-! ## Joining and parents -/

/-- The path `q` taken from the directory `p`. An absolute `q` stands for itself. -/
def join (p q : Path) : Path :=
  if q.isAbsolute then q
  else if p.isEmpty || p.bytes.getLast? == some slash then ⟨p.bytes ++ q.bytes⟩
  else ⟨p.bytes ++ slash :: q.bytes⟩

/-- The path with the given parts. -/
def ofParts (parts : List Name) : Path :=
  ⟨[slash].intercalate parts⟩

/-- The parts without the empty parts and the `.` at their end. -/
def trimParts (parts : List Name) : List Name :=
  (parts.reverse.dropWhile fun part => part == [] || part == [dot]).reverse

/-- The path without its last component, as it is written up to there. The root and the empty path
have no parent; the parent of a lone component is the empty path. -/
def parent? (p : Path) : Option Path :=
  match p.parts with
  | [] => none
  | first :: rest =>
    match trimParts rest with
    | [] => if first = [] then none else some ⟨[]⟩
    | body =>
      match first, trimParts body.dropLast with
      | [], [] => some ⟨[slash]⟩
      | first, above => some (ofParts (first :: above))

/-- The parts from the component behind the first `count` ones on. -/
def dropComponents : (count : Nat) → List Name → List Name
  | _, [] => []
  | 0, part :: rest =>
    if (component? part).isNone then dropComponents 0 rest else part :: rest
  | count + 1, part :: rest =>
    dropComponents (if (component? part).isNone then count + 1 else count) rest

/-- The path from `q` to `p`, as `p` spells it, if `p` begins with the components of `q`. Nothing
is asked of the empty path here. -/
def stripPrefix? (p q : Path) : Option Path :=
  if p.startsWith q then
    let parts := dropComponents (q.components.length - p.anchor.length) p.parts
    some (ofParts (trimParts parts))
  else none

/-- The path and its ancestors, nearest first, as many as `fuel` allows. -/
def ancestorsUpTo : Nat → Path → List Path
  | 0, p => [p]
  | fuel + 1, p =>
    match p.parent? with
    | none => [p]
    | some q => p :: ancestorsUpTo fuel q

/-- The path and its ancestors, nearest first. A path has no more proper ancestors than parts. -/
def ancestors (p : Path) : List Path :=
  ancestorsUpTo p.parts.length p

end Path

end Hardlinks
