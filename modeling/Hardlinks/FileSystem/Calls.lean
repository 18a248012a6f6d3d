-- SUMMARY: The file calls: what each refuses, in which order, and what it changes.
import Hardlinks.FileSystem.Resolve

/-!
# File calls

Each call either refuses and changes nothing, or gives the file system after it. The order of the
checks decides which of several faults is reported.
-/

namespace Hardlinks.FileSystem

/-! ## Looking -/

/-- True when the path leads to a directory, also through symbolic links. -/
def isDirectoryAt (fs : FileSystem) (p : Path) : Bool :=
  match fs.find .follow p with
  | .ok i => fs.isDirectory i
  | .error _ => false

/-- The identity of the file that a path leads to. -/
def identity (fs : FileSystem) (p : Path) : Except IoError FileIdentity := do
  let i ← fs.find .follow p
  let modified := ((fs.node? i).map Node.modified).getD default
  .ok ⟨fs.nodeId i, modified.millis⟩

/-- True when both paths lead to one node. -/
def sameFile (fs : FileSystem) (p q : Path) : Except IoError Bool := do
  let i ← fs.find .follow p
  let j ← fs.find .follow q
  .ok (fs.nodeId i = fs.nodeId j)

/-- True when both directory entries name one node. A symbolic link is an entry of its own. -/
def sameEntry (fs : FileSystem) (p q : Path) : Except IoError Bool := do
  let i ← fs.find .keep p
  let j ← fs.find .keep q
  .ok (fs.nodeId i = fs.nodeId j)

/-! ## Reading -/

/-- The node that a path leads to, opened for reading. -/
def openRead (fs : FileSystem) (p : Path) : Except IoError Inode := do
  let i ← fs.find .follow p
  if fs.allows i Mode.read then .ok i else .error (.system .accessDenied)

/-- The directory that a path leads to, opened to be listed. -/
def openDirectory (fs : FileSystem) (p : Path) : Except IoError Inode := do
  let i ← fs.find .follow p
  if !fs.isDirectory i then .error (.system .notDirectory)
  else if fs.allows i Mode.read then .ok i
  else .error (.system .accessDenied)

/-- Opens what a path leads to and writes it through to the disk. There is none behind a device. -/
def syncFile (fs : FileSystem) (p : Path) : Except IoError Unit := do
  let i ← fs.openRead p
  if fs.content? i = some .null then .error (.system .invalidArgument) else .ok ()

def readFile (fs : FileSystem) (p : Path) : Except IoError (List UInt8) := do
  let i ← fs.openRead p
  match fs.bytes? i with
  | some bytes => .ok bytes
  | none => .error (.system .isDirectory)

/-- The bytes of a file that must be UTF-8. -/
def readText (fs : FileSystem) (p : Path) : Except IoError (List UInt8) := do
  let bytes ← fs.readFile p
  if Utf8.isValid bytes then .ok bytes else .error .notText

/-! ## Making and removing entries -/

/-- The name of a slot that has no entry yet. -/
def vacantName (fs : FileSystem) (s : Slot) : Except IoError Name :=
  match s.last with
  | .name n =>
    if n.length > Path.nameLimit then .error (.system .nameTooLong)
    else if (fs.child? s.dir n).isSome then .error (.system .exists)
    else .ok n
  | _ => .error (.system .exists)

/-- Refuses a change to the entries of a directory without the permission. -/
def checkWritable (fs : FileSystem) (dir : Inode) : Except IoError Unit :=
  if fs.allows dir Mode.write then .ok () else .error (.system .accessDenied)

def makeDirectory (fs : FileSystem) (p : Path) : Except IoError FileSystem := do
  let s ← fs.slot .name p
  let name ← fs.vacantName s
  fs.checkWritable s.dir
  .ok (fs.create s.dir name .ofNewDirectory (.directory s.dir []))

/-- Makes the entry `p` for a new symbolic link. -/
def makeSymlink (fs : FileSystem) (target p : Path) : Except IoError FileSystem := do
  target.checkBytes
  p.checkBytes
  target.check
  let s ← fs.slot .name p
  let name ← fs.vacantName s
  if s.slash then .error (.system .noEntry)
  else
    fs.checkWritable s.dir
    .ok (fs.create s.dir name ⟨true, true, true⟩ (.symlink target))

/-- Makes the entry `q` for the node of the entry `p`. A symbolic link in the place of `p` is linked
itself. -/
def linkFile (fs : FileSystem) (p q : Path) : Except IoError FileSystem := do
  p.checkBytes
  q.checkBytes
  let i ← fs.find .keep p
  let s ← fs.slot .name q
  let name ← fs.vacantName s
  if s.slash then .error (.system .noEntry)
  else if fs.device i ≠ fs.device s.dir then .error (.system .crossDevice)
  else
    fs.checkWritable s.dir
    if fs.isDirectory i then .error (.system .notPermitted)
    else .ok (fs.addEntry s.dir name i)

/-- The name of a slot that has an entry, and the entry's node. -/
def takenName (fs : FileSystem) (s : Slot) : Except IoError (Name × Inode) :=
  match s.last with
  | .name n =>
    match fs.step s.dir (.name n) with
    | .ok i => .ok (n, i)
    | .error e => .error e
  | _ => .error (.system .isDirectory)

/-- Removes an entry that is no directory. -/
def removeFile (fs : FileSystem) (p : Path) : Except IoError FileSystem := do
  let s ← fs.slot .name p
  let (name, i) ← fs.takenName s
  if s.slash then
    .error (.system (if fs.isDirectory i then .isDirectory else .notDirectory))
  else
    fs.checkWritable s.dir
    if fs.isDirectory i then .error (.system .isDirectory)
    else .ok (fs.removeEntry s.dir name)

/-- True for a node of `dir` where another device begins. -/
def isMountPoint (fs : FileSystem) (dir i : Inode) : Bool :=
  fs.device i != fs.device dir

/-- Removes an empty directory. -/
def removeDirectory (fs : FileSystem) (p : Path) : Except IoError FileSystem := do
  let s ← fs.slot .name p
  match s.last with
  | .here => .error (.system (if p.segments.isEmpty then .busy else .invalidArgument))
  | .up => .error (.system .notEmpty)
  | .name n =>
    let i ← fs.step s.dir (.name n)
    fs.checkWritable s.dir
    if !fs.isDirectory i then .error (.system .notDirectory)
    else if fs.isMountPoint s.dir i then .error (.system .busy)
    else if !(fs.entries i).isEmpty then .error (.system .notEmpty)
    else .ok (fs.removeEntry s.dir n)

/-- True when the directory `i` lies in the directory `above`, or is it; `fuel` bounds the number of
directories between them. -/
def isWithin (fs : FileSystem) (above : Inode) : (fuel : Nat) → Inode → Bool
  | 0, i => i == above
  | fuel + 1, i => i == above || (i != root && fs.isWithin above fuel (fs.parent i))

/-- Refuses to put the node `i` in the place of the node `j`, an entry of `dir`. -/
def checkReplace (fs : FileSystem) (i dir j : Inode) : Except IoError Unit :=
  if fs.isDirectory i && !fs.isDirectory j then .error (.system .notDirectory)
  else if !fs.isDirectory i && fs.isDirectory j then .error (.system .isDirectory)
  else if fs.isMountPoint dir j then .error (.system .busy)
  else if !(fs.entries j).isEmpty then .error (.system .notEmpty)
  else .ok ()

/-- Moves the node `i` from one entry to another. -/
def moveEntry (fs : FileSystem) (i oldDir : Inode) (oldName : Name) (newDir : Inode)
    (newName : Name) : FileSystem :=
  let freed := (fs.removeEntry oldDir oldName).removeEntry newDir newName
  let moved := freed.addEntry newDir newName i
  match moved.content? i with
  | some (.directory _ es) => moved.setContent i (.directory newDir es)
  | _ => moved

/-- The node that a rename to the slot `new` replaces, if the name there is taken. -/
def replaced? (fs : FileSystem) (new : Slot) : Except IoError (Option Inode) :=
  match fs.step new.dir new.last with
  | .ok j => .ok (some j)
  | .error (.system .noEntry) => .ok none
  | .error e => .error e

/-- Renames the entry `p` to `q`, in the place of what `q` names. Two entries of one node are left
as they are. -/
def rename (fs : FileSystem) (p q : Path) : Except IoError FileSystem := do
  p.checkBytes
  q.checkBytes
  let old ← fs.slot .name p
  let new ← fs.slot .name q
  if fs.device old.dir ≠ fs.device new.dir then .error (.system .crossDevice)
  else
    match old.last, new.last with
    | .name oldName, .name newName =>
      let i ← fs.step old.dir old.last
      let taken ← fs.replaced? new
      if !fs.isDirectory i && (old.slash || new.slash) then .error (.system .notDirectory)
      else if fs.isDirectory i && fs.isWithin i fs.nodes.size new.dir then
        .error (.system .invalidArgument)
      else if taken.any fun j => fs.isDirectory j && fs.isWithin j fs.nodes.size old.dir then
        .error (.system .notEmpty)
      else if taken = some i then .ok fs
      else
        fs.checkWritable old.dir
        fs.checkWritable new.dir
        if fs.isDirectory i && old.dir ≠ new.dir then fs.checkWritable i
        if fs.isMountPoint old.dir i then .error (.system .busy)
        else
          match taken with
          | some j => fs.checkReplace i new.dir j
          | none => .ok ()
          .ok (fs.moveEntry i old.dir oldName new.dir newName)
    | _, _ => .error (.system .busy)

/-! ## Writing -/

/-- Puts the bytes into a file. The null device drops them. -/
def store (fs : FileSystem) (i : Inode) (bytes : List UInt8) : FileSystem :=
  match fs.content? i with
  | some (.file _) => fs.setContent i (.file bytes)
  | _ => fs

/-- Sets the permissions of a file, and of nothing else. -/
def storeMode (fs : FileSystem) (i : Inode) (mode : Mode) : FileSystem :=
  match fs.content? i with
  | some (.file _) => fs.setMode i mode
  | _ => fs

/-- The file that a path leads to, opened for writing from its start; it is made if it does not
exist. -/
def openWrite (fs : FileSystem) (mode : Mode) (p : Path) : Except IoError (Inode × FileSystem) := do
  let s ← fs.slot .write p
  match s.last, s.slash with
  | .name n, false =>
    if n.length > Path.nameLimit then .error (.system .nameTooLong)
    else
      match fs.child? s.dir n with
      | none =>
        fs.checkWritable s.dir
        .ok (fs.nextInode, fs.create s.dir n mode (.file []))
      | some i =>
        if fs.isDirectory i then .error (.system .isDirectory)
        else if !fs.allows i Mode.write then .error (.system .accessDenied)
        else .ok (i, fs.store i [])
  | _, _ => .error (.system .isDirectory)

def writeFile (fs : FileSystem) (p : Path) (bytes : List UInt8) : Except IoError FileSystem := do
  let (i, fs) ← fs.openWrite .ofNewFile p
  .ok (fs.store i bytes)

/-- Makes a file that must not exist yet. -/
def createFile (fs : FileSystem) (p : Path) (mode : Mode) (bytes : List UInt8) :
    Except IoError FileSystem := do
  let s ← fs.slot .name p
  if s.slash then .error (.system .isDirectory)
  else
    let name ← fs.vacantName s
    fs.checkWritable s.dir
    .ok (fs.create s.dir name mode (.file bytes))

/-- Copies the bytes and the permissions of the file `p` to the file `q`. The target is opened, and
so emptied, before the first byte is read. Once it is open, nothing fails: a copy that ends in the
middle, for instance on a full disk, is left out. -/
def copyFile (fs : FileSystem) (p q : Path) : Except IoError FileSystem := do
  let i ← fs.openRead p
  match fs.node? i with
  | some ⟨_, mode, _, .file _⟩ =>
    let (j, fs) ← fs.openWrite mode q
    match fs.content? i with
    | some (.file bytes) => .ok ((fs.store j bytes).storeMode j mode)
    | _ => .ok fs
  | _ => .error .notARegularFile

/-- Sets the permissions of the file that a path leads to. -/
def changeMode (fs : FileSystem) (p : Path) (mode : Mode) : Except IoError FileSystem := do
  let i ← fs.find .follow p
  .ok (fs.setMode i mode)

/-- Sets the modification time of the file that a path leads to. -/
def changeModified (fs : FileSystem) (p : Path) (time : Timestamp) : Except IoError FileSystem := do
  let i ← fs.find .follow p
  .ok (fs.setModified i time)

end Hardlinks.FileSystem
