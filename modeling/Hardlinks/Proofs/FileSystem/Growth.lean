-- SUMMARY: Changes that only add nodes and directory entries, and what they leave as it was.
import Hardlinks.FileSystem.Lemmas
import Hardlinks.Proofs.Resolution.Extension

/-!
# Growth

A file system grows when nodes and directory entries are added to it: every node that was there
keeps its device, permissions, time and content, except that a directory may hold further entries
after those it had. New nodes are no symbolic links. A grown file system extends the old one, so
paths keep their meaning (`Grows.extends`), and no file loses its bytes (`Grows.content?_file`).
-/

namespace Hardlinks

/-- A directory may have gained entries; every other content is the same. -/
inductive Content.Grows : Content → Content → Prop
  | same (c : Content) : Grows c c
  | directory (parent : Inode) (entries more : List (Name × Inode)) :
      Grows (.directory parent entries) (.directory parent (entries ++ more))

theorem Content.Grows.trans {a b c : Content} (h : a.Grows b) (h' : b.Grows c) : a.Grows c := by
  cases h with
  | same => exact h'
  | directory parent entries more =>
      cases h' with
      | same => exact .directory parent entries more
      | directory _ _ more' =>
          rw [List.append_assoc]
          exact .directory parent entries (more ++ more')

structure Node.Grows (a b : Node) : Prop where
  device : b.device = a.device
  mode : b.mode = a.mode
  modified : b.modified = a.modified
  content : a.content.Grows b.content

theorem Node.Grows.refl (a : Node) : a.Grows a :=
  ⟨rfl, rfl, rfl, .same _⟩

theorem Node.Grows.trans {a b c : Node} (h : a.Grows b) (h' : b.Grows c) : a.Grows c :=
  ⟨h'.device.trans h.device, h'.mode.trans h.mode, h'.modified.trans h.modified,
    h.content.trans h'.content⟩

namespace FileSystem

structure Grows (fs fs' : FileSystem) : Prop where
  start : fs'.start = fs.start
  node? : ∀ {i node}, fs.node? i = some node → ∃ node', fs'.node? i = some node' ∧ node.Grows node'
  /-- A new node is no symbolic link. -/
  target? : ∀ {i}, fs.node? i = none → fs'.target? i = none

variable {fs fs' fs'' : FileSystem} {dir i j : Inode} {name : Name}

theorem Grows.refl (fs : FileSystem) : fs.Grows fs :=
  ⟨rfl, fun {_ node} h => ⟨node, h, .refl node⟩, fun h => by simp [FileSystem.target?, content?, h]⟩

theorem Grows.content? (h : fs.Grows fs') {c : Content} (hc : fs.content? i = some c) :
    ∃ c', fs'.content? i = some c' ∧ c.Grows c' := by
  obtain ⟨node, hnode, rfl⟩ := Option.map_eq_some_iff.1 hc
  obtain ⟨node', hnode', hgrows⟩ := h.node? hnode
  exact ⟨node'.content, by simp [FileSystem.content?, hnode'], hgrows.content⟩

/-- No file loses its bytes. -/
theorem Grows.content?_file (h : fs.Grows fs') {bytes : List UInt8}
    (hc : fs.content? i = some (.file bytes)) : fs'.content? i = some (.file bytes) := by
  obtain ⟨c', hc', hgrows⟩ := h.content? hc
  cases hgrows
  exact hc'

theorem Grows.bytes? (h : fs.Grows fs') {bytes : List UInt8} (hi : fs.bytes? i = some bytes) :
    fs'.bytes? i = some bytes := by
  rcases bytes?_eq_some_iff.1 hi with hfile | ⟨hnull, rfl⟩
  · exact bytes?_of_content? (h.content?_file hfile)
  · obtain ⟨c', hc', hgrows⟩ := h.content? hnull
    cases hgrows
    exact bytes?_eq_some_iff.2 (.inr ⟨hc', rfl⟩)

theorem Grows.entries (h : fs.Grows fs') (dir : Inode) : fs.entries dir <+: fs'.entries dir := by
  cases hc : fs.content? dir with
  | none => simp [FileSystem.entries, hc]
  | some c =>
      obtain ⟨c', hc', hgrows⟩ := h.content? hc
      cases hgrows with
      | same => simp [FileSystem.entries, hc, hc']
      | directory parent entries more => simp [FileSystem.entries, hc, hc']

theorem Grows.target?_eq (h : fs.Grows fs') (i : Inode) : fs'.target? i = fs.target? i := by
  cases hc : fs.content? i with
  | none =>
      rw [h.target? (by simpa [FileSystem.content?] using hc)]
      simp [FileSystem.target?, hc]
  | some c =>
      obtain ⟨c', hc', hgrows⟩ := h.content? hc
      cases hgrows <;> simp [FileSystem.target?, hc, hc']

theorem lookup_eq_of_prefix {es es' : List (Name × Inode)} (h : es <+: es')
    (hi : es.lookup name = some i) : es'.lookup name = some i := by
  obtain ⟨more, rfl⟩ := h
  simp [List.lookup_append, hi]

/-- A grown file system extends the old one. -/
theorem Grows.extends (h : fs.Grows fs') : fs.Extends fs' where
  start := h.start
  child? hi := lookup_eq_of_prefix (h.entries _) hi
  isDirectory hi := by
    obtain ⟨p, es, hc⟩ := isDirectory_iff.1 hi
    obtain ⟨c', hc', hgrows⟩ := h.content? hc
    cases hgrows with
    | same => exact isDirectory_iff.2 ⟨p, es, hc'⟩
    | directory _ _ more => exact isDirectory_iff.2 ⟨p, es ++ more, hc'⟩
  parent hi := by
    obtain ⟨p, es, hc⟩ := isDirectory_iff.1 hi
    obtain ⟨c', hc', hgrows⟩ := h.content? hc
    cases hgrows <;> simp [FileSystem.parent, hc, hc']
  allows hi := by
    obtain ⟨p, es, hc⟩ := isDirectory_iff.1 hi
    obtain ⟨node, hnode, _⟩ := Option.map_eq_some_iff.1 hc
    obtain ⟨node', hnode', hgrows⟩ := h.node? hnode
    funext permission
    simp [FileSystem.allows, hnode, hnode', hgrows.mode]
  target? := h.target?_eq

theorem Grows.trans (h : fs.Grows fs') (h' : fs'.Grows fs'') : fs.Grows fs'' where
  start := h'.start.trans h.start
  node? hi := by
    obtain ⟨node', hnode', hgrows⟩ := h.node? hi
    obtain ⟨node'', hnode'', hgrows'⟩ := h'.node? hnode'
    exact ⟨node'', hnode'', hgrows.trans hgrows'⟩
  target? hi := (h'.target?_eq _).trans (h.target? hi)

theorem Grows.nextInode_le (h : fs.Grows fs') : fs.nextInode ≤ fs'.nextInode := by
  apply Nat.le_of_not_lt
  intro hlt
  have hold : fs'.nextInode < fs.nodes.size := hlt
  obtain ⟨node', hnode', _⟩ := h.node? (Array.getElem?_eq_getElem hold)
  simp [FileSystem.node?, nextInode] at hnode'

theorem isDirectory_lt_nextInode (h : fs.isDirectory i = true) : i < fs.nextInode := by
  obtain ⟨p, es, hc⟩ := isDirectory_iff.1 h
  apply Nat.lt_of_not_le
  intro hle
  simp [FileSystem.content?, node?, Array.getElem?_eq_none hle] at hc

theorem exists_content? (h : i < fs.nextInode) : ∃ c, fs.content? i = some c := by
  have hlt : i < fs.nodes.size := h
  exact ⟨_, by rw [FileSystem.content?, node?, Array.getElem?_eq_getElem hlt]; rfl⟩

/-- What is there stays a directory, or something else. -/
theorem Grows.isDirectory_eq (h : fs.Grows fs') (hi : i < fs.nextInode) :
    fs'.isDirectory i = fs.isDirectory i := by
  obtain ⟨c, hc⟩ := exists_content? hi
  obtain ⟨c', hc', hgrows⟩ := h.content? hc
  cases hgrows <;> simp [isDirectory, hc, hc']

/-! ## Single changes -/

theorem node?_setContent (i j : Inode) (content : Content) :
    (fs.setContent i content).node? j =
      if i = j then (fs.node? j).map fun node => { node with content := content }
      else fs.node? j := by
  simp only [node?, setContent, Array.getElem?_modify]

theorem node?_addNode (node : Node) (i : Inode) :
    (fs.addNode node).node? i = if i = fs.nextInode then some node else fs.node? i :=
  Array.getElem?_push

theorem node?_nextInode : fs.node? fs.nextInode = none := by
  simp [node?, nextInode]

/-- The entries of one directory are nothing to another node. -/
theorem node?_modifyEntries {f : List (Name × Inode) → List (Name × Inode)} (h : i ≠ dir) :
    (fs.modifyEntries dir f).node? i = fs.node? i := by
  unfold modifyEntries
  split
  · rw [node?_setContent, if_neg (Ne.symm h)]
  · rfl

theorem grows_addEntry (dir : Inode) (name : Name) (i : Inode) :
    fs.Grows (fs.addEntry dir name i) := by
  unfold addEntry modifyEntries
  split
  · next p es hdir =>
    obtain ⟨node, hnode, hcontent⟩ := Option.map_eq_some_iff.1 hdir
    refine ⟨rfl, fun {j node'} hj => ?_, fun {j} hj => ?_⟩
    · rw [node?_setContent]
      split
      · next heq =>
        subst heq
        obtain rfl := Option.some.inj (hnode.symm.trans hj)
        refine ⟨{ node with content := .directory p (es ++ [(name, i)]) }, by simp [hj],
          rfl, rfl, rfl, ?_⟩
        rw [hcontent]
        exact .directory p es _
      · exact ⟨node', hj, .refl node'⟩
    · rw [FileSystem.target?, content?_setContent]
      simp [FileSystem.content?, hj]
  · exact .refl fs

theorem grows_addNode {node : Node} (hlink : ∀ target, node.content ≠ .symlink target) :
    fs.Grows (fs.addNode node) := by
  refine ⟨rfl, fun {j node'} hj => ⟨node', ?_, .refl node'⟩, fun {j} hj => ?_⟩
  · rw [node?_addNode, if_neg]
    · exact hj
    · rintro rfl
      simp [node?_nextInode] at hj
  · have hold : fs.content? j = none := by simp [FileSystem.content?, hj]
    rw [FileSystem.target?, content?_addNode, hold]
    split
    · next target htarget =>
      split at htarget
      · exact absurd (Option.some.inj htarget) (hlink target)
      · cases htarget
    · rfl

theorem grows_create {mode : Mode} {content : Content}
    (hlink : ∀ target, content ≠ .symlink target) :
    fs.Grows (fs.create dir name mode content) :=
  (grows_addNode hlink).trans (grows_addEntry _ _ _)

end FileSystem

end Hardlinks
