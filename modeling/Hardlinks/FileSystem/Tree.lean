-- SUMMARY: The whole tree below the working directory, shown whatever the permissions are.
import Hardlinks.FileSystem.Resolve

/-!
# Trees

A tree shows every entry below the working directory with its path from there. Entries of one node
are shown with one number, and the numbers follow the order of the rows.
-/

namespace Hardlinks

inductive RowContent where
  | directory
  /-- A directory where another device begins. -/
  | otherDevice
  | file (node : Inode) (bytes : List UInt8)
  | symlink (node : Inode) (target : Path)
  /-- An entry whose path is longer than a file call takes. -/
  | unreachable
deriving DecidableEq, Repr

structure Row where
  path : Path
  content : RowContent
deriving DecidableEq, Repr

namespace Row

/-- The node that a row shows the number of. -/
def node? (r : Row) : Option Inode :=
  match r.content with
  | .file i _ | .symlink i _ => some i
  | _ => none

/-- The row with its node under another number. -/
def withNode (r : Row) (i : Inode) : Row :=
  match r.content with
  | .file _ bytes => { r with content := .file i bytes }
  | .symlink _ target => { r with content := .symlink i target }
  | _ => r

/-- Rows by the bytes of their paths. -/
def sort (rows : List Row) : List Row :=
  rows.mergeSort fun a b => decide (a.path.bytes ≤ b.path.bytes)

/-- Gives the nodes the numbers 0, 1, … in the order of the rows. -/
def number (rows : List Row) : List Row :=
  let nodes := (rows.filterMap node?).eraseDups
  rows.map fun r =>
    match r.node? with
    | some i => r.withNode (nodes.idxOf i)
    | none => r

end Row

namespace FileSystem

/-- What a row shows of the node `i` in a directory on `device`. -/
def rowContent (fs : FileSystem) (device : Nat) (path : Path) (i : Inode) : RowContent :=
  if path.bytes.length > Path.lengthLimit then .unreachable
  else
    match fs.bytes? i, fs.target? i with
    | some bytes, _ => .file i bytes
    | none, some target => .symlink i target
    | none, none => if fs.device i = device then .directory else .otherDevice

/-- The rows below the directory `dir`, whose own names are `above`; `depth` bounds the depth of the
tree. -/
def rowsBelow (fs : FileSystem) : (depth : Nat) → (dir : Inode) → (above : List Name) → List Row
  | 0, _, _ => []
  | depth + 1, dir, above =>
    (fs.entries dir).flatMap fun (name, i) =>
      let path := Path.ofParts (above ++ [name])
      let row : Row := ⟨path, fs.rowContent (fs.device dir) path i⟩
      match row.content with
      | .directory | .otherDevice => row :: fs.rowsBelow depth i (above ++ [name])
      | _ => [row]

/-- The rows below the working directory. -/
def rows (fs : FileSystem) : List Row :=
  fs.rowsBelow fs.nodes.size fs.start []

end FileSystem

end Hardlinks
