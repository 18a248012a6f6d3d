-- SUMMARY: What changes do to single nodes, what they leave of them, and two ways to make a file.
import Hardlinks.Proofs.FileSystem.Directories
import Hardlinks.Proofs.FileSystem.Removal

/-!
# Nodes

One equation for each change and node. Two file systems with the same nodes are the same
(`ext_node?`), so a file that is made, filled and renamed within its directory could have been made
with its bytes and its last name at once (`fill_create`, `rename_create`). New entries change no
more of a node than the entries it holds, which its shape leaves out (`Grows.shape?`).
-/

namespace Hardlinks

/-- The content with other entries, if it is a directory's. -/
def Content.mapEntries (f : List (Name × Inode) → List (Name × Inode)) : Content → Content
  | .directory parent entries => .directory parent (f entries)
  | c => c

/-- The node without its entries. -/
def Node.bare (node : Node) : Node :=
  { node with content := node.content.mapEntries fun _ => [] }

/-- The content without what a directory holds, and where it lies itself. -/
def Content.shape : Content → Content
  | .directory _ _ => .directory FileSystem.root []
  | c => c

/-- What a node is, whatever its place in the tree. -/
def Node.shape (node : Node) : Node :=
  { node with content := node.content.shape }

theorem Node.Grows.shape {a b : Node} (h : a.Grows b) : b.shape = a.shape := by
  obtain ⟨hdevice, hmode, hmodified, hcontent⟩ := h
  obtain ⟨device, mode, modified, content⟩ := a
  obtain ⟨device', mode', modified', content'⟩ := b
  cases hdevice
  cases hmode
  cases hmodified
  cases hcontent <;> rfl

namespace FileSystem

def shape? (fs : FileSystem) (i : Inode) : Option Node :=
  (fs.node? i).map Node.shape

variable {fs fs' : FileSystem} {d i j : Inode} {n m : Name} {mode : Mode} {content : Content}
  {bytes : List UInt8}

/-- File systems that start in one place and have the same nodes are the same. -/
theorem ext_node? (hstart : fs.start = fs'.start) (hnodes : ∀ i, fs.node? i = fs'.node? i) :
    fs = fs' := by
  obtain ⟨nodes, start⟩ := fs
  obtain ⟨nodes', start'⟩ := fs'
  obtain rfl : nodes = nodes' := Array.ext_getElem? hnodes
  obtain rfl : start = start' := hstart
  rfl

theorem node?_modifyEntries_eq (d : Inode) (f : List (Name × Inode) → List (Name × Inode))
    (i : Inode) :
    (fs.modifyEntries d f).node? i = (fs.node? i).map fun node =>
      if i = d then { node with content := node.content.mapEntries f } else node := by
  by_cases hi : i = d
  · subst hi
    unfold modifyEntries
    cases hnode : fs.node? i with
    | none => simp [FileSystem.content?, hnode]
    | some node =>
        obtain ⟨device, mode, modified, content⟩ := node
        cases content <;>
          simp [FileSystem.content?, hnode, node?_setContent, Content.mapEntries]
  · simp [node?_modifyEntries hi, hi]

theorem bare_modifyEntries (d : Inode) (f : List (Name × Inode) → List (Name × Inode))
    (i : Inode) : ((fs.modifyEntries d f).node? i).map Node.bare = (fs.node? i).map Node.bare := by
  rw [node?_modifyEntries_eq, Option.map_map]
  congr 1
  funext node
  obtain ⟨device, mode, modified, content⟩ := node
  by_cases hi : i = d <;> cases content <;> simp [Node.bare, Content.mapEntries, hi]

theorem node?_create (d : Inode) (n : Name) (mode : Mode) (content : Content) (i : Inode)
    (hd : d ≠ fs.nextInode) :
    (fs.create d n mode content).node? i =
      if i = fs.nextInode then some ⟨fs.device d, mode, default, content⟩
      else (fs.addEntry d n fs.nextInode).node? i := by
  rw [create, addEntry, addEntry, node?_modifyEntries_eq, node?_modifyEntries_eq, node?_addNode]
  by_cases hi : i = fs.nextInode
  · simp [hi, Ne.symm hd]
  · simp [hi]

theorem node?_create_nextInode (hd : d ≠ fs.nextInode) :
    (fs.create d n mode content).node? fs.nextInode =
      some ⟨fs.device d, mode, default, content⟩ := by
  rw [node?_create d n mode content _ hd, if_pos rfl]

theorem node?_setMode (i j : Inode) (mode : Mode) :
    (fs.setMode i mode).node? j =
      if i = j then (fs.node? j).map fun node => { node with mode := mode } else fs.node? j := by
  simp only [FileSystem.node?, setMode, Array.getElem?_modify]

/-- A new file that is filled could have been made with its bytes. -/
theorem setContent_create {old : Content} (hd : d ≠ fs.nextInode) :
    (fs.create d n mode old).setContent fs.nextInode content = fs.create d n mode content := by
  apply ext_node?
  · simp only [setContent, create, addEntry, start_modifyEntries, addNode]
  · intro i
    rw [node?_setContent, node?_create _ _ _ _ _ hd, node?_create _ _ _ _ _ hd]
    by_cases hi : i = fs.nextInode
    · simp [hi]
    · simp [hi, Ne.symm hi]

/-- A new file that is filled and gets its permissions again could have been made as it is. -/
theorem fill_create (hd : d ≠ fs.nextInode) :
    ((fs.create d n mode (.file [])).setContent fs.nextInode (.file bytes)).setMode fs.nextInode
        mode = fs.create d n mode (.file bytes) := by
  rw [setContent_create hd]
  apply ext_node?
  · simp only [setMode]
  · intro i
    rw [node?_setMode, node?_create _ _ _ _ _ hd]
    by_cases hi : i = fs.nextInode
    · simp [hi]
    · simp [hi, Ne.symm hi]

theorem filter_entries_of_free (hfree : fs.child? d n = none) :
    (fs.entries d).filter (fun e => e.1 != n) = fs.entries d := by
  refine List.filter_eq_self.2 fun e he => ?_
  exact bne_iff_ne.2 (Ne.symm (bne_iff_ne.1 (List.lookup_eq_none_iff.1 hfree e he)))

/-- An entry that is made and removed again leaves nothing. -/
theorem removeEntry_addEntry (hfree : fs.child? d n = none) (i : Inode) :
    (fs.addEntry d n i).removeEntry d n = fs := by
  have hothers := filter_entries_of_free hfree
  apply ext_node?
  · simp only [addEntry, removeEntry, start_modifyEntries]
  · intro j
    rw [removeEntry, node?_modifyEntries_eq, addEntry, node?_modifyEntries_eq, Option.map_map]
    cases hnode : fs.node? j with
    | none => rfl
    | some node =>
        by_cases hj : j = d
        · subst hj
          rw [FileSystem.entries, FileSystem.content?, hnode] at hothers
          obtain ⟨device, mode', modified, c⟩ := node
          cases c with
          | directory parent es =>
              have hothers : es.filter (fun e => e.1 != n) = es := hothers
              simp [Content.mapEntries, List.filter_append, hothers]
          | file | symlink | null => simp [Content.mapEntries]
        · simp [hj]

/-- Of a new file whose entry is removed again, the node is left. -/
theorem removeEntry_create (hc : ∀ p es, content = .directory p es → es = [])
    (hfree : fs.child? d n = none) :
    (fs.create d n mode content).removeEntry d n =
      fs.addNode ⟨fs.device d, mode, default, content⟩ := by
  apply removeEntry_addEntry
  rw [child?_addNode hc, hfree]

/-- A new file that gets another name and loses its first one could have been made with it. -/
theorem rename_create (hd : d ≠ fs.nextInode) (hfree : fs.child? d n = none) (hne : m ≠ n) :
    ((fs.create d n mode content).addEntry d m fs.nextInode).removeEntry d n =
      fs.create d m mode content := by
  apply ext_node?
  · simp only [create, addEntry, removeEntry, start_modifyEntries]
  · intro i
    rw [removeEntry, node?_modifyEntries_eq, addEntry, node?_modifyEntries_eq,
      node?_create _ _ _ _ _ hd, node?_create _ _ _ _ _ hd]
    by_cases hi : i = fs.nextInode
    · simp [hi, Ne.symm hd]
    · simp only [hi, if_false, addEntry, node?_modifyEntries_eq, Option.map_map]
      cases hnode : fs.node? i with
      | none => rfl
      | some node =>
        by_cases hid : i = d
        · subst hid
          obtain ⟨device, mode', modified, c⟩ := node
          cases c with
          | directory parent es =>
              have hothers := filter_entries_of_free hfree
              rw [FileSystem.entries, FileSystem.content?, hnode] at hothers
              have hothers : es.filter (fun e => e.1 != n) = es := hothers
              simp [Content.mapEntries, List.filter_append, hothers, hne]
          | file | symlink | null => simp [Content.mapEntries]
        · simp [hid]

/-! ## Shapes -/

theorem exists_shape? (h : i < fs.nextInode) : ∃ node, fs.shape? i = some node := by
  obtain ⟨c, hc⟩ := exists_content? h
  obtain ⟨node, hnode, _⟩ := Option.map_eq_some_iff.1 hc
  exact ⟨node.shape, by rw [shape?, hnode]; rfl⟩

theorem Grows.shape? {node : Node} (h : fs.Grows fs') (hi : fs.shape? i = some node) :
    fs'.shape? i = some node := by
  obtain ⟨old, hold, rfl⟩ := Option.map_eq_some_iff.1 hi
  obtain ⟨new, hnew, hgrows⟩ := h.node? hold
  rw [FileSystem.shape?, hnew, Option.map_some, hgrows.shape]

theorem shape?_modifyEntries (f : List (Name × Inode) → List (Name × Inode)) :
    (fs.modifyEntries d f).shape? i = fs.shape? i := by
  rw [shape?, node?_modifyEntries_eq, Option.map_map, shape?]
  congr 1
  funext node
  obtain ⟨device, mode, modified, content⟩ := node
  by_cases hi : i = d <;> cases content <;>
    simp [Node.shape, Content.shape, Content.mapEntries, hi]

theorem isDirectory_eq_of_shape? (h : fs.shape? i = fs'.shape? j) :
    fs.isDirectory i = fs'.isDirectory j := by
  have hshape : ∀ (fs : FileSystem) (i : Inode), fs.isDirectory i =
      (fs.shape? i).any fun node => node.content == .directory root [] := by
    intro fs i
    unfold isDirectory FileSystem.content? shape?
    cases fs.node? i with
    | none => rfl
    | some node =>
        obtain ⟨device, mode, modified, content⟩ := node
        cases content <;> simp [Node.shape, Content.shape]
  rw [hshape, hshape, h]

theorem device_eq_of_shape? (h : fs.shape? i = fs'.shape? j) : fs.device i = fs'.device j := by
  have hshape : ∀ (fs : FileSystem) (i : Inode),
      fs.device i = ((fs.shape? i).map Node.device).getD 0 := by
    intro fs i
    rw [device, shape?, Option.map_map]
    rfl
  rw [hshape, hshape, h]

theorem allows_eq_of_shape? (h : fs.shape? i = fs'.shape? j) : fs.allows i = fs'.allows j := by
  have hshape : ∀ (fs : FileSystem) (i : Inode) (permission : Mode → Bool), fs.allows i permission =
      ((fs.shape? i).map fun node => permission node.mode).getD false := by
    intro fs i permission
    rw [allows, shape?, Option.map_map]
    rfl
  funext permission
  rw [hshape, hshape, h]

theorem enter_eq_of_shape? (h : fs.shape? i = fs'.shape? j) : fs.enter i = fs'.enter j := by
  rw [enter, enter, isDirectory_eq_of_shape? h, allows_eq_of_shape? h]

/-! ## Growth -/

theorem Grows.device (h : fs.Grows fs') (hc : fs.content? i = some content) :
    fs'.device i = fs.device i := by
  obtain ⟨node, hnode, _⟩ := Option.map_eq_some_iff.1 hc
  obtain ⟨node', hnode', hgrows⟩ := h.node? hnode
  simp [FileSystem.device, hnode, hnode', hgrows.device]

theorem Grows.allows (h : fs.Grows fs') (hc : fs.content? i = some content) :
    fs'.allows i = fs.allows i := by
  obtain ⟨node, hnode, _⟩ := Option.map_eq_some_iff.1 hc
  obtain ⟨node', hnode', hgrows⟩ := h.node? hnode
  funext permission
  simp [FileSystem.allows, hnode, hnode', hgrows.mode]

end FileSystem

end Hardlinks
