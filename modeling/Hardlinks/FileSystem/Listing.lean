-- SUMMARY: Everything below a directory: what a traversal finds, and the listing in the order of paths.
import Hardlinks.Failure
import Hardlinks.FileSystem.Calls
import Hardlinks.Path.Order

/-!
# Listings

A traversal finds everything below a directory, one entry after the other. In which order it does so
is its own affair, and it can fail on the way. A listing has what was found by the path from the
directory; the first failure ends it. It is sorted before it is used, by the components of the
paths, and so that a directory comes after what is no directory and has the same path.

`FileSystem.traverse` is a traversal with the user's permissions. It opens each directory by its
path, takes the entries in the order in which they were made, and does not follow symbolic links.
-/

namespace Hardlinks

/-- An entry that a traversal has found, by a path that begins with the path of the root. -/
structure Found where
  path : Path
  isDirectory : Bool
deriving DecidableEq, Repr

/-- A failure of a traversal, with the path at which it failed if there is one. -/
structure TraversalError where
  path? : Option Path
  cause : IoError
deriving DecidableEq, Repr

/-- What is found below a directory, and the failures on the way. -/
abbrev Traversal := FileSystem → Path → List (Except TraversalError Found)

/-- An entry by its path from the root of the listing. -/
structure Listed where
  path : Path
  isDirectory : Bool
deriving DecidableEq, Repr

namespace Listed

/-- The entry of a listing of `root` for what was found. -/
def ofFound (root : Path) : Except TraversalError Found → Except Failure Listed
  | .error e => .error (.walk (e.path?.getD root) e.cause)
  | .ok found =>
    match found.path.stripPrefix? root with
    | none => .error (.walk found.path (.described .other "entry outside source root"))
    | some path => .ok ⟨path, found.isDirectory⟩

/-- The listing of `root` for all that was found. -/
def all (root : Path) (found : List (Except TraversalError Found)) :
    Except Failure (List Listed) :=
  found.mapM (ofFound root)

/-- The order of a listing. -/
def le (k l : Listed) : Bool :=
  k.path.rank < l.path.rank || (k.path.rank = l.path.rank && (!k.isDirectory || l.isDirectory))

/-- Puts an entry in front of the first one that it does not come after. -/
def insert (l : Listed) : List Listed → List Listed
  | [] => [l]
  | k :: rest => if l.le k then l :: k :: rest else k :: insert l rest

/-- The entries in their order; equal ones keep theirs. -/
def sort (listed : List Listed) : List Listed :=
  listed.foldr insert []

end Listed

namespace FileSystem

/-- What lies below the directory `dir`; `depth` bounds the depth of the tree. -/
def traverseBelow (fs : FileSystem) :
    (depth : Nat) → (dir : Path) → List (Except TraversalError Found)
  | 0, _ => []
  | depth + 1, dir =>
    match fs.openDirectory dir with
    | .error e =>
      [.error ⟨some dir, .described e.kind
        ("IO error for operation on " ++ dir.display ++ ": " ++ e.message)⟩]
    | .ok i =>
      (fs.entries i).flatMap fun (name, j) =>
        let path := dir.join ⟨name⟩
        .ok ⟨path, fs.isDirectory j⟩ ::
          if fs.isDirectory j then fs.traverseBelow depth path else []

/-- The traversal of the tree below a directory. No tree is deeper than there are nodes. -/
def traverse : Traversal := fun fs root =>
  fs.traverseBelow fs.nodes.size root

end FileSystem

end Hardlinks
