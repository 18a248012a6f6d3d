-- SUMMARY: From paths to nodes: the walk along the segments of a path, through symbolic links.
import Hardlinks.FileSystem.Basic
import Hardlinks.IoError

/-!
# Resolving paths

A walk goes from directory to directory along the segments of a path. Each directory it looks into
must be searchable. A symbolic link on the way is replaced by its target, which starts in the
directory of the link, or in the root if it is absolute; at most forty links are replaced in one
walk. The walk stops in front of the last segment, in a slot, because some operations want the node
behind it and others the name itself. Whether a link in that place is replaced too is up to the
operation, and may hang on a slash at the end of the path.
-/

namespace Hardlinks

/-- One step of a walk. -/
inductive Segment where
  | here
  | up
  | name (n : Name)
deriving DecidableEq, Repr

/-- Where a walk stops: a directory, the last segment, and whether the path demands a directory
there by a slash at its end. -/
structure Slot where
  dir : Inode
  last : Segment
  slash : Bool
deriving DecidableEq, Repr

/-- What becomes of a symbolic link in the last place of a path. -/
inductive Ending where
  /-- It is replaced. -/
  | follow
  /-- It is kept unless the path ends in a slash. -/
  | keep
  /-- It is kept: the name is what counts. -/
  | name
  /-- It is replaced unless the path ends in a slash. -/
  | write
deriving DecidableEq, Repr

def Ending.follows : Ending → (slash : Bool) → Bool
  | follow, _ => true
  | keep, slash => slash
  | name, _ => false
  | write, slash => !slash

namespace Path

/-- The longest name of a directory entry, in bytes. -/
def nameLimit : Nat := 255

/-- The longest path that a file call takes, in bytes. -/
def lengthLimit : Nat := 4095

def segment? (part : Name) : Option Segment :=
  if part = [] then none
  else if part = [dot] then some .here
  else if part = [dot, dot] then some .up
  else some (.name part)

def segments (p : Path) : List Segment :=
  p.parts.filterMap segment?

def endsInSlash (p : Path) : Bool :=
  p.bytes.getLast? == some slash

/-- Refuses a path that holds a NUL byte. -/
def checkBytes (p : Path) : Except IoError Unit :=
  if p.bytes.contains 0 then .error .nulInPath else .ok ()

/-- Refuses a path that no file call takes. -/
def check (p : Path) : Except IoError Unit := do
  p.checkBytes
  if p.isEmpty then .error (.system .noEntry)
  else if p.bytes.length > lengthLimit then .error (.system .nameTooLong)
  else .ok ()

end Path

namespace FileSystem

/-- The number of symbolic links that one walk may replace. -/
def linkLimit : Nat := 40

/-- Refuses what cannot be looked into. -/
def enter (fs : FileSystem) (dir : Inode) : Except IoError Unit :=
  if !fs.isDirectory dir then .error (.system .notDirectory)
  else if !fs.allows dir Mode.search then .error (.system .accessDenied)
  else .ok ()

/-- The node that a segment leads to from a directory. -/
def step (fs : FileSystem) (dir : Inode) : Segment → Except IoError Inode
  | .here => .ok dir
  | .up => .ok (fs.parent dir)
  | .name n =>
    if n.length > Path.nameLimit then .error (.system .nameTooLong)
    else
      match fs.child? dir n with
      | none => .error (.system .noEntry)
      | some i => .ok i

/-- The target of the symbolic link that a segment leads to, if it leads to one. -/
def linkAt? (fs : FileSystem) (dir : Inode) (segment : Segment) : Option Path :=
  match fs.step dir segment with
  | .ok i => fs.target? i
  | .error _ => none

/-- Walks along the segments from `dir`. Where a symbolic link is to be replaced, `jump` goes on
from its directory, its target and the segments after it. -/
def walkWith (fs : FileSystem) (ending : Ending)
    (jump : Inode → Path → List Segment → Bool → Except IoError Slot) :
    Inode → List Segment → Bool → Except IoError Slot
  | dir, [], slash => .ok ⟨dir, .here, slash⟩
  | dir, [last], slash =>
    match fs.enter dir with
    | .error e => .error e
    | .ok () =>
      match fs.linkAt? dir last with
      | some target =>
        if ending.follows slash then jump dir target [] slash else .ok ⟨dir, last, slash⟩
      | none => .ok ⟨dir, last, slash⟩
  | dir, segment :: next :: rest, slash =>
    match fs.enter dir with
    | .error e => .error e
    | .ok () =>
      match fs.step dir segment with
      | .error e => .error e
      | .ok i =>
        match fs.target? i with
        | some target => jump dir target (next :: rest) slash
        | none => fs.walkWith ending jump i (next :: rest) slash

/-- Walks along the segments from `dir`, replacing at most `links` symbolic links. -/
def walk (fs : FileSystem) (ending : Ending) :
    (links : Nat) → Inode → List Segment → Bool → Except IoError Slot
  | 0 => fs.walkWith ending fun _ _ _ _ => .error (.system .linkLoop)
  | links + 1 => fs.walkWith ending fun dir target rest slash =>
    walk fs ending links (if target.isAbsolute then root else dir) (target.segments ++ rest)
      (slash || (rest.isEmpty && target.endsInSlash))

/-- The slot that a path leads to. -/
def slot (fs : FileSystem) (ending : Ending) (p : Path) : Except IoError Slot :=
  match p.check with
  | .error e => .error e
  | .ok () =>
    fs.walk ending linkLimit (if p.isAbsolute then root else fs.start) p.segments p.endsInSlash

/-- The node behind a slot. -/
def nodeAt (fs : FileSystem) (s : Slot) : Except IoError Inode :=
  match fs.step s.dir s.last with
  | .error e => .error e
  | .ok i => if s.slash && !fs.isDirectory i then .error (.system .notDirectory) else .ok i

/-- The node that a path names. -/
def find (fs : FileSystem) (ending : Ending) (p : Path) : Except IoError Inode :=
  match fs.slot ending p with
  | .error e => .error e
  | .ok s => fs.nodeAt s

end FileSystem

end Hardlinks
