-- SUMMARY: Growth by directories and links that the system lets be made, and what that says of them.
import Hardlinks.Proofs.FileSystem.Nodes
import Hardlinks.Proofs.FileSystem.Rewriting
import Hardlinks.Proofs.FileSystem.Site

/-!
# Lawful growth

What is added by making directories and links keeps to the rules of the two calls: every new entry
has a name within the limit, lies in a directory that can be changed and names a node on the
directory's device (`GrowsLawfully.entry`), and every new node is a directory with the permissions
of a new one (`GrowsLawfully.node`). So where an entry is new in a file system that has grown
lawfully, the same entry could be made in the same place before. None of this hangs on what the
files hold (`GrowsLawfully.setContent`).
-/

namespace Hardlinks.FileSystem

structure GrowsLawfully (fs after : FileSystem) : Prop where
  grows : fs.Grows after
  entry : ∀ {a n i}, after.child? a n = some i → fs.child? a n = some i ∨
    n.length ≤ Path.nameLimit ∧ after.allows a Mode.write = true ∧ after.device i = after.device a ∧
      ∃ c, after.content? i = some c
  node : ∀ {i node}, fs.node? i = none → after.node? i = some node →
    (∃ p es, node.content = .directory p es) ∧ node.mode = .ofNewDirectory ∧ node.modified = default

variable {fs mid after made : FileSystem} {a d i m : Inode} {n : Name} {p q dir : Path}
  {links : List (Inode × Segment)} {old : List UInt8} {result : Except Failure Unit}

theorem GrowsLawfully.refl (fs : FileSystem) : fs.GrowsLawfully fs :=
  ⟨.refl fs, .inl, fun hnone hnode => by simp [hnone] at hnode⟩

theorem GrowsLawfully.trans (h : fs.GrowsLawfully mid) (h' : mid.GrowsLawfully after) :
    fs.GrowsLawfully after where
  grows := h.grows.trans h'.grows
  entry {a n i} hi := by
    rcases h'.entry hi with hmid | hnew
    · rcases h.entry hmid with hold | ⟨hlength, hwrite, hdevice, c, hc⟩
      · exact .inl hold
      · obtain ⟨p, es, ha⟩ := isDirectory_iff.1 (isDirectory_of_child? hmid)
        obtain ⟨c', hc', _⟩ := h'.grows.content? hc
        refine .inr ⟨hlength, ?_, ?_, c', hc'⟩
        · rw [h'.grows.allows ha, hwrite]
        · rw [h'.grows.device hc, h'.grows.device ha, hdevice]
    · exact .inr hnew
  node {i node} hnone hnode := by
    cases hmid : mid.node? i with
    | none => exact h'.node hmid hnode
    | some node' =>
        obtain ⟨⟨p, es, hcontent⟩, hmode, hmodified⟩ := h.node hnone hmid
        obtain ⟨node'', hnode'', hgrows⟩ := h'.grows.node? hmid
        obtain rfl := Option.some.inj (hnode.symm.trans hnode'')
        refine ⟨?_, hgrows.mode.trans hmode, hgrows.modified.trans hmodified⟩
        have hcontents := hgrows.content
        rw [hcontent] at hcontents
        generalize node.content = c at hcontents
        cases hcontents with
        | same => exact ⟨p, es, rfl⟩
        | directory _ _ more => exact ⟨p, es ++ more, rfl⟩

/-- New nodes are directories. -/
theorem GrowsLawfully.isDirectory (h : fs.GrowsLawfully after) (hnone : fs.content? i = none)
    {c : Content} (hc : after.content? i = some c) : after.isDirectory i = true := by
  obtain ⟨node, hnode, rfl⟩ := Option.map_eq_some_iff.1 hc
  obtain ⟨⟨p, es, hcontent⟩, _⟩ := h.node (by simpa [content?] using hnone) hnode
  exact isDirectory_iff.2 ⟨p, es, by rw [hc, hcontent]⟩

theorem growsLawfully_of_makeDirectory (h : fs.makeDirectory p = .ok after) :
    fs.GrowsLawfully after := by
  have hgrows := grows_of_makeDirectory h
  obtain ⟨s, name, hslot, hname, hwrite, rfl⟩ := makeDirectory_eq_ok_iff.1 h
  obtain ⟨hlast, hlength, _⟩ := vacantName_eq_ok_iff.1 hname
  have hdir := isDirectory_of_slot hslot hlast
  have hne := dir_ne_nextInode hslot hname
  obtain ⟨q, es, hcontent⟩ := isDirectory_iff.1 hdir
  refine ⟨hgrows, fun {a n i} hi => ?_, fun {i node} hnone hnode => ?_⟩
  · rw [child?_create (by simp) hslot hname] at hi
    split at hi
    · next heq =>
      obtain ⟨rfl, rfl⟩ := heq
      cases hi
      refine .inr ⟨hlength, by rw [hgrows.allows hcontent, hwrite], ?_, .directory s.dir [], ?_⟩
      · rw [hgrows.device hcontent]
        simp [device, node?_create_nextInode hne]
      · simp [content?, node?_create_nextInode hne]
    · exact .inl hi
  · rw [node?_create _ _ _ _ _ hne] at hnode
    split at hnode
    · cases hnode
      exact ⟨⟨s.dir, [], rfl⟩, rfl, rfl⟩
    · rw [addEntry, node?_modifyEntries_eq, hnone] at hnode
      cases hnode

theorem growsLawfully_of_linkFile (hfs : fs.WellFormed) (h : fs.linkFile p q = .ok after) :
    fs.GrowsLawfully after := by
  have hgrows := grows_of_linkFile h
  obtain ⟨k, s, name, hk, hslot, hname, _, hdevice, hwrite, _, rfl⟩ := linkFile_eq_ok_iff.1 h
  obtain ⟨hlast, hlength, _⟩ := vacantName_eq_ok_iff.1 hname
  obtain ⟨r, es, hcontent⟩ := isDirectory_iff.1 (isDirectory_of_slot hslot hlast)
  refine ⟨hgrows, fun {a n i} hi => ?_, fun {i node} hnone hnode => ?_⟩
  · rw [child?_addEntry_of_vacant hslot hname] at hi
    split at hi
    · next heq =>
      obtain ⟨rfl, rfl⟩ := heq
      cases hi
      obtain ⟨c, hc⟩ := exists_content? (hfs.find hk)
      obtain ⟨c', hc', _⟩ := hgrows.content? hc
      exact .inr ⟨hlength, by rw [hgrows.allows hcontent, hwrite],
        by rw [hgrows.device hc, hgrows.device hcontent, hdevice], c', hc'⟩
    · exact .inl hi
  · rw [addEntry, node?_modifyEntries_eq, hnone] at hnode
    cases hnode

theorem growsLawfully_of_provideParent (h : fs.provideParent p = (result, made)) :
    fs.GrowsLawfully made := by
  apply provideParent_induction h (.refl fs)
  intro mid made q hmid hmade
  exact hmid.trans (growsLawfully_of_makeDirectory hmade)

/-! ## Another content of a file -/

theorem SameTree.descend?_eq (h : fs.SameTree after) (d : Inode) (ns : List Name) :
    after.descend? d ns = fs.descend? d ns := by
  have hchild : after.child? = fs.child? := funext fun a => funext fun n => h.child? a n
  rw [FileSystem.descend?, hchild, FileSystem.descend?]

theorem shape?_setContent (hne : i ≠ m) (c : Content) :
    (fs.setContent m c).shape? i = fs.shape? i := by
  rw [shape?, node?_setContent, if_neg (Ne.symm hne), shape?]

theorem Site.setContent (h : fs.Site dir links d) (hold : fs.content? m = some (.file old))
    (bytes : List UInt8) : (fs.setContent m (.file bytes)).Site dir links d := by
  have htree := sameTree_setContent_file hold bytes
  have hfile : fs.isDirectory m = false := by simp [FileSystem.isDirectory, hold]
  have hwell := h.hierarchical.wellFormed.setContent (i := m) (c := .file bytes) trivial
  refine ⟨h.hierarchical.of_sameDirectories hwell (sameDirectories_setContent hfile (by simp)),
    h.leads.extend htree.extends, fun ns i hi => ?_⟩
  rw [htree.target?]
  exact h.plain ns i (htree.descend?_eq d ns ▸ hi)

theorem Grows.setContent (h : fs.Grows after) (hold : fs.content? m = some (.file old))
    (bytes : List UInt8) :
    (fs.setContent m (.file bytes)).Grows (after.setContent m (.file bytes)) where
  start := h.start
  node? {i node} hnode := by
    simp only [node?_setContent] at hnode ⊢
    by_cases hi : m = i
    · rw [if_pos hi] at hnode ⊢
      obtain ⟨old', hold', rfl⟩ := Option.map_eq_some_iff.1 hnode
      obtain ⟨node', hnode', hgrows⟩ := h.node? hold'
      refine ⟨{ node' with content := .file bytes }, by rw [hnode']; rfl, ?_⟩
      exact ⟨hgrows.device, hgrows.mode, hgrows.modified, .same _⟩
    · rw [if_neg hi] at hnode ⊢
      exact h.node? hnode
  target? {i} hnone := by
    rw [(sameTree_setContent_file (h.content?_file hold) bytes).target?]
    apply h.target?
    rw [node?_setContent] at hnone
    split at hnone
    · simpa using hnone
    · exact hnone

theorem GrowsLawfully.setContent (h : fs.GrowsLawfully after)
    (hold : fs.content? m = some (.file old)) (bytes : List UInt8) :
    (fs.setContent m (.file bytes)).GrowsLawfully (after.setContent m (.file bytes)) where
  grows := h.grows.setContent hold bytes
  entry {a n i} hi := by
    have htree := sameTree_setContent_file (h.grows.content?_file hold) bytes
    rw [htree.child?] at hi
    rw [(sameTree_setContent_file hold bytes).child?, allows_setContent, device_setContent,
      device_setContent]
    rcases h.entry hi with hthere | ⟨hlength, hwrite, hdevice, c, hc⟩
    · exact .inl hthere
    · refine .inr ⟨hlength, hwrite, hdevice, ?_⟩
      rw [content?_setContent, hc]
      split
      · exact ⟨_, rfl⟩
      · exact ⟨_, rfl⟩
  node {i node} hnone hnode := by
    obtain ⟨old', hold', _⟩ := Option.map_eq_some_iff.1 hold
    have hne : m ≠ i := by
      rintro rfl
      simp [node?_setContent, hold'] at hnone
    rw [node?_setContent, if_neg hne] at hnone hnode
    exact h.node hnone hnode

end Hardlinks.FileSystem
