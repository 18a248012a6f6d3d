-- SUMMARY: What each change of a file system does to the views of it.
import Hardlinks.FileSystem.Basic

/-!
# Views of changed file systems

One equation per change and view: a new node is seen under its number only, a changed content under
the node's number only, and an added or removed entry under its directory and name only.
-/

namespace Hardlinks.FileSystem

variable {fs : FileSystem}

/-! ## Contents -/

theorem content?_addNode (node : Node) (i : Inode) :
    (fs.addNode node).content? i =
      if i = fs.nextInode then some node.content else fs.content? i := by
  simp only [content?, node?, addNode, nextInode, Array.getElem?_push]
  by_cases h : i = fs.nodes.size <;> simp [h]

theorem content?_setContent (i j : Inode) (content : Content) :
    (fs.setContent i content).content? j =
      if i = j then (fs.content? j).map fun _ => content else fs.content? j := by
  simp only [content?, node?, setContent, Array.getElem?_modify]
  split <;> simp [Function.comp_def]

theorem content?_setMode {i j : Inode} {mode : Mode} :
    (fs.setMode i mode).content? j = fs.content? j := by
  simp only [content?, node?, setMode, Array.getElem?_modify]
  split
  · cases fs.nodes[j]? <;> rfl
  · rfl

theorem content?_setModified {i j : Inode} (time : Timestamp) :
    (fs.setModified i time).content? j = fs.content? j := by
  simp only [content?, node?, setModified, Array.getElem?_modify]
  split
  · cases fs.nodes[j]? <;> rfl
  · rfl

theorem content?_nextInode : fs.content? fs.nextInode = none := by
  simp [content?, node?, nextInode]

theorem isDirectory_iff {dir : Inode} :
    fs.isDirectory dir = true ↔ ∃ p es, fs.content? dir = some (.directory p es) := by
  unfold isDirectory
  split
  · simp_all
  · next h => simpa using fun p es => h p es

theorem bytes?_eq_some_iff {i : Inode} {bytes : List UInt8} :
    fs.bytes? i = some bytes ↔
      fs.content? i = some (.file bytes) ∨ fs.content? i = some .null ∧ bytes = [] := by
  unfold bytes?
  split
  · next old h => simp [h]
  · next h => simp [h, eq_comm]
  · next hfile hnull => simpa using ⟨hfile bytes, fun h => absurd h hnull⟩

theorem bytes?_of_content? {i : Inode} {bytes : List UInt8}
    (h : fs.content? i = some (.file bytes)) : fs.bytes? i = some bytes :=
  bytes?_eq_some_iff.2 (.inl h)

/-- What can be read is no directory and no symbolic link. -/
theorem kind_of_bytes? {i : Inode} {bytes : List UInt8} (h : fs.bytes? i = some bytes) :
    fs.isDirectory i = false ∧ fs.target? i = none := by
  rcases bytes?_eq_some_iff.1 h with hc | ⟨hc, _⟩
  · simp [isDirectory, target?, hc]
  · simp [isDirectory, target?, hc]

/-! ## Entries -/

theorem content?_modifyEntries (dir i : Inode) (f : List (Name × Inode) → List (Name × Inode)) :
    (fs.modifyEntries dir f).content? i =
      match fs.content? i with
      | some (.directory p es) => some (.directory p (if dir = i then f es else es))
      | other => other := by
  unfold modifyEntries
  split
  · next p es h =>
    rw [content?_setContent]
    split
    · next hi => subst hi; simp [h]
    · next hi => split <;> simp_all
  · next h =>
    split
    · next p es hi =>
      split
      · next heq => exact absurd (heq ▸ hi) (h p es)
      · exact hi
    · rfl

theorem entries_modifyEntries (dir i : Inode)
    (f : List (Name × Inode) → List (Name × Inode)) :
    (fs.modifyEntries dir f).entries i =
      if dir = i ∧ fs.isDirectory dir = true then f (fs.entries i) else fs.entries i := by
  simp only [entries, content?_modifyEntries]
  by_cases hi : dir = i
  · subst hi
    unfold isDirectory
    split
    · next p es h => split at h <;> simp_all
    · next h => split at h <;> simp_all
  · simp only [hi, false_and, if_false]
    split
    · next p es h => split at h <;> simp_all
    · next h => split at h <;> simp_all

theorem isDirectory_modifyEntries (dir i : Inode)
    (f : List (Name × Inode) → List (Name × Inode)) :
    (fs.modifyEntries dir f).isDirectory i = fs.isDirectory i := by
  simp only [isDirectory, content?_modifyEntries]
  cases h : fs.content? i with
  | none => rfl
  | some c => cases c <;> rfl

theorem target?_modifyEntries (dir i : Inode) (f : List (Name × Inode) → List (Name × Inode)) :
    (fs.modifyEntries dir f).target? i = fs.target? i := by
  simp only [target?, content?_modifyEntries]
  cases h : fs.content? i with
  | none => rfl
  | some c => cases c <;> rfl

theorem bytes?_modifyEntries (dir i : Inode) (f : List (Name × Inode) → List (Name × Inode)) :
    (fs.modifyEntries dir f).bytes? i = fs.bytes? i := by
  simp only [bytes?, content?_modifyEntries]
  cases h : fs.content? i with
  | none => rfl
  | some c => cases c <;> rfl

theorem parent_modifyEntries (dir i : Inode) (f : List (Name × Inode) → List (Name × Inode)) :
    (fs.modifyEntries dir f).parent i = fs.parent i := by
  simp only [parent, content?_modifyEntries]
  cases h : fs.content? i with
  | none => rfl
  | some c => cases c <;> rfl

/-- An added entry is found under its name if the name was free. -/
theorem child?_addEntry {dir : Inode} {name : Name} (i : Inode)
    (hdir : fs.isDirectory dir = true) (hfree : fs.child? dir name = none) (d : Inode)
    (n : Name) :
    (fs.addEntry dir name i).child? d n =
      if d = dir ∧ n = name then some i else fs.child? d n := by
  simp only [child?, addEntry, entries_modifyEntries] at hfree ⊢
  by_cases hd : dir = d
  · subst hd
    simp only [hdir, and_self, if_true, true_and, List.lookup_append, List.lookup_cons,
      List.lookup_nil]
    by_cases hn : n = name
    · subst hn; simp [hfree]
    · simp [hn, beq_false_of_ne hn]
  · simp [hd, Ne.symm hd]

/-- Looking up a name among the entries that have another name than `name`. -/
theorem lookup_filter_ne (name n : Name) (es : List (Name × Inode)) :
    (es.filter fun e => e.1 != name).lookup n = if n = name then none else es.lookup n := by
  induction es with
  | nil => simp
  | cons e es ih =>
      obtain ⟨m, i⟩ := e
      by_cases hm : m = name
      · subst hm
        simp only [bne_self_eq_false, Bool.false_eq_true, not_false_eq_true,
          List.filter_cons_of_neg, ih, List.lookup_cons]
        by_cases hn : n = m
        · simp [hn]
        · simp [hn, beq_false_of_ne hn]
      · simp only [bne_iff_ne, ne_eq, hm, not_false_eq_true, List.filter_cons_of_pos,
          List.lookup_cons, ih]
        by_cases hn : n = m
        · subst hn; simp [hm]
        · simp [beq_false_of_ne hn]

/-- A removed entry is gone, and no other. -/
theorem child?_removeEntry (dir : Inode) (name : Name) (d : Inode) (n : Name) :
    (fs.removeEntry dir name).child? d n =
      if d = dir ∧ n = name then none else fs.child? d n := by
  simp only [child?, removeEntry, entries_modifyEntries]
  by_cases hd : dir = d
  · subst hd
    by_cases hdir : fs.isDirectory dir = true
    · simp only [hdir, and_self, if_true, lookup_filter_ne, true_and]
    · simp only [hdir, true_and]
      have hnil : fs.entries dir = [] := by
        unfold entries
        split
        · next p es h => exact absurd (isDirectory_iff.2 ⟨p, es, h⟩) hdir
        · rfl
      simp [hnil]
  · simp [hd, Ne.symm hd]

end Hardlinks.FileSystem
