-- SUMMARY: File systems as values: nodes, directory entries, and the changes of single entries.
import Hardlinks.Identity
import Hardlinks.Path.Basic

/-!
# File systems

A file system is an array of nodes. A node is a file, a directory, a symbolic link or the null
device; a directory holds entries that map names to nodes, and a hard link is a further entry for a
node that has one already. Nodes are never taken out of the array, so the number of a node stays its
identity when entries come and go. All files belong to the one user who acts on them, who has no
special rights, so a node's permissions are the three of its owner.

What the operations change is told by three views: `node?`, the node of a number, `child?`, the node
that a name has in a directory, and `content?`. What is read of a node is its `bytes?`.
-/

namespace Hardlinks

/-- The number of a node. -/
abbrev Inode := Nat

/-- What the owner may do: read, write, and search a directory. -/
structure Mode where
  read : Bool
  write : Bool
  search : Bool
deriving DecidableEq, Repr

namespace Mode

def ofNewDirectory : Mode := ⟨true, true, true⟩

def ofNewFile : Mode := ⟨true, true, false⟩

/-- The owner's permissions in a numeric mode. -/
def ofBits (bits : Nat) : Mode :=
  ⟨bits.testBit 8, bits.testBit 7, bits.testBit 6⟩

end Mode

inductive Content where
  | file (bytes : List UInt8)
  | directory (parent : Inode) (entries : List (Name × Inode))
  | symlink (target : Path)
  /-- The null device, which drops what is written to it and reads as empty. -/
  | null
deriving DecidableEq, Repr

structure Node where
  device : Nat
  mode : Mode
  modified : Timestamp
  content : Content
deriving DecidableEq, Repr

structure FileSystem where
  nodes : Array Node
  /-- The working directory, where relative paths start. -/
  start : Inode
deriving DecidableEq, Repr

namespace FileSystem

/-- The root directory. -/
def root : Inode := 0

/-! ## Views -/

def node? (fs : FileSystem) (i : Inode) : Option Node :=
  fs.nodes[i]?

def content? (fs : FileSystem) (i : Inode) : Option Content :=
  (fs.node? i).map Node.content

/-- What can be read of a node: the bytes of a file, and none of the null device. -/
def bytes? (fs : FileSystem) (i : Inode) : Option (List UInt8) :=
  match fs.content? i with
  | some (.file bytes) => some bytes
  | some .null => some []
  | _ => none

/-- The entries of a directory, in the order in which they were made. -/
def entries (fs : FileSystem) (dir : Inode) : List (Name × Inode) :=
  match fs.content? dir with
  | some (.directory _ es) => es
  | _ => []

/-- The node that `name` has in the directory `dir`. -/
def child? (fs : FileSystem) (dir : Inode) (name : Name) : Option Inode :=
  (fs.entries dir).lookup name

def isDirectory (fs : FileSystem) (i : Inode) : Bool :=
  match fs.content? i with
  | some (.directory _ _) => true
  | _ => false

/-- The target of a symbolic link. -/
def target? (fs : FileSystem) (i : Inode) : Option Path :=
  match fs.content? i with
  | some (.symlink t) => some t
  | _ => none

/-- The directory that holds the directory `i`. The root holds itself. -/
def parent (fs : FileSystem) (i : Inode) : Inode :=
  match fs.content? i with
  | some (.directory p _) => p
  | _ => i

/-- The device of a node. -/
def device (fs : FileSystem) (i : Inode) : Nat :=
  ((fs.node? i).map Node.device).getD 0

/-- True when the node has a permission. -/
def allows (fs : FileSystem) (i : Inode) (permission : Mode → Bool) : Bool :=
  ((fs.node? i).map fun node => permission node.mode).getD false

def nodeId (fs : FileSystem) (i : Inode) : NodeId :=
  ⟨fs.device i, i⟩

/-! ## Changes -/

/-- Puts another content into a node. -/
def setContent (fs : FileSystem) (i : Inode) (content : Content) : FileSystem :=
  { fs with nodes := fs.nodes.modify i fun node => { node with content := content } }

def setMode (fs : FileSystem) (i : Inode) (mode : Mode) : FileSystem :=
  { fs with nodes := fs.nodes.modify i fun node => { node with mode := mode } }

def setModified (fs : FileSystem) (i : Inode) (time : Timestamp) : FileSystem :=
  { fs with nodes := fs.nodes.modify i fun node => { node with modified := time } }

/-- The number of the next new node. -/
def nextInode (fs : FileSystem) : Inode :=
  fs.nodes.size

/-- Adds a node that no entry names yet. -/
def addNode (fs : FileSystem) (node : Node) : FileSystem :=
  { fs with nodes := fs.nodes.push node }

/-- Changes the entries of a directory; other nodes have none to change. -/
def modifyEntries (fs : FileSystem) (dir : Inode)
    (f : List (Name × Inode) → List (Name × Inode)) : FileSystem :=
  match fs.content? dir with
  | some (.directory p es) => fs.setContent dir (.directory p (f es))
  | _ => fs

/-- Adds an entry for the node `i`. -/
def addEntry (fs : FileSystem) (dir : Inode) (name : Name) (i : Inode) : FileSystem :=
  fs.modifyEntries dir (· ++ [(name, i)])

def removeEntry (fs : FileSystem) (dir : Inode) (name : Name) : FileSystem :=
  fs.modifyEntries dir fun es => es.filter fun e => e.1 != name

/-- Adds a new node on the device of `dir`, with an entry there. -/
def create (fs : FileSystem) (dir : Inode) (name : Name) (mode : Mode) (content : Content) :
    FileSystem :=
  (fs.addNode ⟨fs.device dir, mode, default, content⟩).addEntry dir name fs.nextInode

/-- Nothing but a root directory that its user may not change, with a working directory in it and
with the directory of devices, which is a device of its own. -/
def empty : FileSystem where
  nodes := #[
    ⟨0, ⟨true, false, true⟩, default,
      .directory 0 [(Utf8.encode "work", 1), (Utf8.encode "dev", 2)]⟩,
    ⟨0, .ofNewDirectory, default, .directory 0 []⟩,
    ⟨2, ⟨true, false, true⟩, default, .directory 0 [(Utf8.encode "null", 3)]⟩,
    ⟨2, .ofNewFile, default, .null⟩]
  start := 1

end FileSystem

end Hardlinks
