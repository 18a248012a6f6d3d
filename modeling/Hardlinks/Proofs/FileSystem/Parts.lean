-- SUMMARY: File systems that hold all of another one and anything else, and the paths that this leaves as they were.
import Hardlinks.Proofs.FileSystem.WellFormed

/-!
# Parts

A file system is part of another one if the other has all its nodes, with their devices, permissions
and contents, and all its directory entries. What else the other one has is left open: it may have
come there by other hands and in any order, and unlike what a growing file system gains it may
include symbolic links. A path does not come to such a link where it led somewhere before, so it
still leads there (`PartOf.keepsWalks`), and texts stay what they are (`PartOf.readText`).
-/

namespace Hardlinks

/-- A directory may have further entries; every other content is the same. -/
inductive Content.PartOf : Content → Content → Prop
  | same (c : Content) : PartOf c c
  | directory {parent : Inode} {es es' : List (Name × Inode)} :
      (∀ {n i}, es.lookup n = some i → es'.lookup n = some i) →
      PartOf (.directory parent es) (.directory parent es')

theorem Content.PartOf.trans {a b c : Content} (h : a.PartOf b) (h' : b.PartOf c) :
    a.PartOf c := by
  cases h with
  | same => exact h'
  | directory hlookup =>
      cases h' with
      | same => exact .directory hlookup
      | directory hlookup' => exact .directory fun hi => hlookup' (hlookup hi)

structure Node.PartOf (a b : Node) : Prop where
  device : b.device = a.device
  mode : b.mode = a.mode
  content : a.content.PartOf b.content

theorem Node.PartOf.refl (a : Node) : a.PartOf a :=
  ⟨rfl, rfl, .same _⟩

theorem Node.PartOf.trans {a b c : Node} (h : a.PartOf b) (h' : b.PartOf c) : a.PartOf c :=
  ⟨h'.device.trans h.device, h'.mode.trans h.mode, h.content.trans h'.content⟩

theorem Content.Grows.partOf {a b : Content} (h : a.Grows b) : a.PartOf b := by
  cases h with
  | same => exact .same _
  | directory parent entries more =>
      exact .directory fun hi => FileSystem.lookup_eq_of_prefix (List.prefix_append entries more) hi

namespace FileSystem

structure PartOf (fs fs' : FileSystem) : Prop where
  start : fs'.start = fs.start
  node? : ∀ {i node}, fs.node? i = some node → ∃ node', fs'.node? i = some node' ∧ node.PartOf node'

variable {fs fs' fs'' : FileSystem} {d i : Inode} {n : Name} {p : Path} {c : Content}

theorem PartOf.trans (h : fs.PartOf fs') (h' : fs'.PartOf fs'') : fs.PartOf fs'' where
  start := h'.start.trans h.start
  node? hi := by
    obtain ⟨node', hnode', hpart⟩ := h.node? hi
    obtain ⟨node'', hnode'', hpart'⟩ := h'.node? hnode'
    exact ⟨node'', hnode'', hpart.trans hpart'⟩

theorem Grows.partOf (h : fs.Grows fs') : fs.PartOf fs' where
  start := h.start
  node? hi := by
    obtain ⟨node', hnode', hgrows⟩ := h.node? hi
    exact ⟨node', hnode', hgrows.device, hgrows.mode, hgrows.content.partOf⟩

/-! ## Views -/

theorem PartOf.content? (h : fs.PartOf fs') (hc : fs.content? i = some c) :
    ∃ c', fs'.content? i = some c' ∧ c.PartOf c' := by
  obtain ⟨node, hnode, rfl⟩ := Option.map_eq_some_iff.1 hc
  obtain ⟨node', hnode', hpart⟩ := h.node? hnode
  exact ⟨node'.content, by simp [FileSystem.content?, hnode'], hpart.content⟩

/-- What a node allows is a matter of its permissions. -/
theorem PartOf.allows (h : fs.PartOf fs') (hc : fs.content? i = some c) :
    fs'.allows i = fs.allows i := by
  obtain ⟨node, hnode, _⟩ := Option.map_eq_some_iff.1 hc
  obtain ⟨node', hnode', hpart⟩ := h.node? hnode
  funext permission
  simp [FileSystem.allows, hnode, hnode', hpart.mode]

theorem PartOf.target? (h : fs.PartOf fs') (hc : fs.content? i = some c) :
    fs'.target? i = fs.target? i := by
  obtain ⟨c', hc', hpart⟩ := h.content? hc
  cases hpart <;> simp [FileSystem.target?, hc, hc']

theorem PartOf.isDirectory (h : fs.PartOf fs') (hi : fs.isDirectory i = true) :
    fs'.isDirectory i = true := by
  obtain ⟨p, es, hc⟩ := isDirectory_iff.1 hi
  obtain ⟨c', hc', hpart⟩ := h.content? hc
  cases hpart with
  | same => exact isDirectory_iff.2 ⟨p, es, hc'⟩
  | directory _ => exact isDirectory_iff.2 ⟨p, _, hc'⟩

theorem PartOf.parent (h : fs.PartOf fs') (hi : fs.isDirectory i = true) :
    fs'.parent i = fs.parent i := by
  obtain ⟨p, es, hc⟩ := isDirectory_iff.1 hi
  obtain ⟨c', hc', hpart⟩ := h.content? hc
  cases hpart <;> simp [FileSystem.parent, hc, hc']

theorem PartOf.child? (h : fs.PartOf fs') (hi : fs.child? d n = some i) :
    fs'.child? d n = some i := by
  unfold FileSystem.child? FileSystem.entries at hi ⊢
  split at hi
  · next p es hc =>
    obtain ⟨c', hc', hpart⟩ := h.content? hc
    cases hpart with
    | same => rwa [hc']
    | directory hlookup =>
        rw [hc']
        exact hlookup hi
  · cases hi

/-! ## Paths -/

theorem PartOf.enter (h : fs.PartOf fs') (hd : fs.enter d = .ok ()) : fs'.enter d = .ok () := by
  obtain ⟨hdir, hsearch⟩ := enter_eq_ok_iff.1 hd
  obtain ⟨p, es, hc⟩ := isDirectory_iff.1 hdir
  apply enter_eq_ok_iff.2
  exact ⟨h.isDirectory hdir, by rw [h.allows hc, hsearch]⟩

/-- The nodes that walks come to are there already, so none of them is a new link. -/
theorem PartOf.keepsWalks (h : fs.PartOf fs') (hfs : fs.WellFormed) : fs.KeepsWalks fs' where
  start := h.start
  isDirectory := h.isDirectory
  enter := h.enter
  step {dir segment i} hd hi := by
    cases segment with
    | here => exact hi
    | up => simpa [FileSystem.step, h.parent (enter_eq_ok_iff.1 hd).1] using hi
    | name n =>
        obtain ⟨hlength, hchild⟩ := step_name_eq_ok_iff.1 hi
        exact step_name_eq_ok_iff.2 ⟨hlength, h.child? hchild⟩
  target? {dir segment i} hd hi := by
    have hlt : i < fs.nodes.size := hfs.step hd hi
    have hnode : fs.node? i = some fs.nodes[i] := Array.getElem?_eq_getElem hlt
    exact h.target? (c := fs.nodes[i].content) (by simp [FileSystem.content?, hnode])

theorem PartOf.readText (h : fs.PartOf fs') (hfs : fs.WellFormed) {text : List UInt8}
    (ht : fs.readText p = .ok text) : fs'.readText p = .ok text := by
  refine (h.keepsWalks hfs).readText ?_ ht
  intro i bytes hbytes
  rcases bytes?_eq_some_iff.1 hbytes with hc | ⟨hc, rfl⟩
  · obtain ⟨c', hc', hpart⟩ := h.content? hc
    cases hpart
    exact ⟨bytes?_of_content? hc', h.allows hc⟩
  · obtain ⟨c', hc', hpart⟩ := h.content? hc
    cases hpart
    exact ⟨bytes?_eq_some_iff.2 (.inr ⟨hc', rfl⟩), h.allows hc⟩

/-! ## New links -/

theorem partOf_addNode (node : Node) : fs.PartOf (fs.addNode node) := by
  refine ⟨rfl, fun {i old} hold => ⟨old, ?_, .refl old⟩⟩
  rw [node?_addNode, if_neg]
  · exact hold
  · rintro rfl
    simp [node?_nextInode] at hold

/-- A new symbolic link changes nothing that was there. -/
theorem partOf_of_makeSymlink {target : Path} (h : fs.makeSymlink target p = .ok fs') :
    fs.PartOf fs' := by
  obtain ⟨s, name, _, _, rfl⟩ := makeSymlink_eq_ok h
  exact (partOf_addNode _).trans (grows_addEntry s.dir name _).partOf

end FileSystem

end Hardlinks
