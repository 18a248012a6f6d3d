-- SUMMARY: Directories form a tree: no directory has two entries, and each is reached in one way.
import Mathlib.Data.Fintype.Card
import Mathlib.Logic.Function.Iterate
import Hardlinks.Proofs.FileSystem.Directories
import Hardlinks.Proofs.FileSystem.WellFormed
import Hardlinks.Proofs.Resolution.Descent

/-!
# Hierarchies

Files can have several names, directories cannot: each has at most one entry, which lies in the
directory that it knows as its parent, and from parent to parent one gets to the root. So there is
one list of names at most that leads from one directory to another (`Hierarchical.descend?_inj`).
The file system that nothing has happened to is like that, and every file call keeps it so
(`Hierarchical.call`): a link is made for files only, a new directory has one entry, and a directory
that is moved has no other one and is not moved into itself.
-/

namespace Hardlinks.FileSystem

structure Hierarchical (fs : FileSystem) : Prop where
  wellFormed : fs.WellFormed
  isDirectory_root : fs.isDirectory root = true
  parent_root : fs.parent root = root
  /-- The root has no entry. -/
  child?_ne_root : ∀ {d n}, fs.child? d n ≠ some root
  /-- The entry of a directory lies in its parent. -/
  parent : ∀ {d n i}, fs.child? d n = some i → fs.isDirectory i = true → fs.parent i = d
  /-- A directory has one name there. -/
  name : ∀ {d n m i}, fs.child? d n = some i → fs.child? d m = some i → fs.isDirectory i = true →
    n = m
  rooted : ∀ {i}, fs.isDirectory i = true → ∃ k, fs.parent^[k] i = root

/-- The two file systems have the same directories, and the second has no more entries for them. -/
structure SameDirectories (fs fs' : FileSystem) : Prop where
  isDirectory : ∀ i, fs'.isDirectory i = fs.isDirectory i
  parent : ∀ i, fs'.parent i = fs.parent i
  child? : ∀ {d n i}, fs'.child? d n = some i → fs.isDirectory i = true → fs.child? d n = some i

/-- In the second file system the directory `i` has one entry, `n` in `d`, and the other ones have
no entries but their old ones. -/
structure Puts (fs fs' : FileSystem) (d : Inode) (n : Name) (i : Inode) : Prop where
  ne_root : root ≠ i
  isDirectory_root : fs'.isDirectory root = true
  child? : ∀ {a m j}, fs'.child? a m = some j → fs'.isDirectory j = true →
    a = d ∧ m = n ∧ j = i ∨ fs.child? a m = some j ∧ fs.isDirectory j = true ∧ j ≠ i
  parent : ∀ {j}, j ≠ i → fs'.parent j = fs.parent j
  parent_put : fs'.isDirectory i = true → fs'.parent i = d

variable {fs fs' fs'' base : FileSystem} {d d' i j : Inode} {n m : Name} {ns ms : List Name} {p q : Path}
  {mode : Mode} {c : Content} {k : Nat} {s : Slot}

/-! ## One way down -/

theorem Hierarchical.iterate_parent (h : fs.Hierarchical) (hi : fs.descend? d ns = some i)
    (hdir : fs.isDirectory i = true) : fs.parent^[ns.length] i = d := by
  induction ns using List.reverseRecOn generalizing i with
  | nil =>
      cases hi
      rfl
  | append_singleton ns n ih =>
      obtain ⟨a, ha, hchild⟩ := descend?_concat_eq_some_iff.1 hi
      rw [List.length_append, List.length_singleton, Function.iterate_succ_apply,
        h.parent hchild hdir]
      exact ih ha (isDirectory_of_child? hchild)

/-- No directory lies below itself. -/
theorem Hierarchical.eq_nil_of_descend? (h : fs.Hierarchical) (hd : fs.descend? d ns = some d)
    (hdir : fs.isDirectory d = true) : ns = [] := by
  rcases List.eq_nil_or_concat ns with hnil | ⟨front, n, hconcat⟩
  · exact hnil
  · have hcycle := h.iterate_parent hd hdir
    obtain ⟨k, hk⟩ := h.rooted hdir
    -- Going around the cycle often enough gets to the root.
    have hfixed : fs.parent^[ns.length * k] d = d := by
      rw [Function.iterate_mul]
      exact Function.iterate_fixed hcycle k
    have hlength : k ≤ ns.length * k := by
      apply Nat.le_mul_of_pos_left
      simp [hconcat]
    have hroot : fs.parent^[ns.length * k] d = root := by
      rw [← Nat.sub_add_cancel hlength, Function.iterate_add_apply, hk]
      exact Function.iterate_fixed h.parent_root _
    rw [hconcat, List.concat_eq_append] at hd
    obtain ⟨a, _, hchild⟩ := descend?_concat_eq_some_iff.1 hd
    rw [← hfixed, hroot] at hchild
    exact absurd hchild h.child?_ne_root

/-- One list of names at most leads from a directory to another one. -/
theorem Hierarchical.descend?_inj (h : fs.Hierarchical) (hns : fs.descend? d ns = some i)
    (hms : fs.descend? d ms = some i) (hdir : fs.isDirectory i = true) : ns = ms := by
  induction ns using List.reverseRecOn generalizing ms i with
  | nil =>
      cases hns
      exact (h.eq_nil_of_descend? hms hdir).symm
  | append_singleton ns n ih =>
      rcases List.eq_nil_or_concat ms with rfl | ⟨front, m, rfl⟩
      · cases hms
        exact h.eq_nil_of_descend? hns hdir
      · rw [List.concat_eq_append] at hms ⊢
        obtain ⟨a, ha, hn⟩ := descend?_concat_eq_some_iff.1 hns
        obtain ⟨b, hb, hm⟩ := descend?_concat_eq_some_iff.1 hms
        obtain rfl : a = b := (h.parent hn hdir).symm.trans (h.parent hm hdir)
        rw [h.name hn hm hdir, ih ha hb (isDirectory_of_child? hn)]

/-- A way down passes no directory twice, so it has fewer names than there are nodes. -/
theorem Hierarchical.length_lt_size (h : fs.Hierarchical) (hi : fs.descend? d ns = some i)
    (hdir : fs.isDirectory i = true) : ns.length < fs.nodes.size := by
  have hway : ∀ k : Fin (ns.length + 1), ∃ a : Fin fs.nodes.size,
      fs.descend? d (ns.take k) = some a.1 ∧ fs.isDirectory a.1 = true := by
    intro k
    obtain ⟨a, ha, hadir⟩ :
        ∃ a, fs.descend? d (ns.take k) = some a ∧ fs.isDirectory a = true := by
      by_cases hall : ns.take k = ns
      · exact ⟨i, by rw [hall, hi], hdir⟩
      · exact isDirectory_of_prefix (List.take_prefix _ _) hall hi
    exact ⟨⟨a, isDirectory_lt_nextInode hadir⟩, ha, hadir⟩
  choose f hf using hway
  have hinjective : Function.Injective f := by
    intro k l heq
    have hnames := h.descend?_inj (hf k).1 (heq ▸ (hf l).1) (hf k).2
    have hlength := congrArg List.length hnames
    simp only [List.length_take] at hlength
    omega
  simpa [Nat.succ_le_iff] using Fintype.card_le_of_injective f hinjective

/-! ## Changes that make and move no directory -/

theorem SameDirectories.trans (h : fs.SameDirectories fs') (h' : fs'.SameDirectories fs'') :
    fs.SameDirectories fs'' where
  isDirectory i := (h'.isDirectory i).trans (h.isDirectory i)
  parent i := (h'.parent i).trans (h.parent i)
  child? hi hdir := h.child? (h'.child? hi ((h.isDirectory _).trans hdir)) hdir

theorem Hierarchical.of_sameDirectories (h : fs.Hierarchical) (hwell : fs'.WellFormed)
    (hsame : fs.SameDirectories fs') : fs'.Hierarchical where
  wellFormed := hwell
  isDirectory_root := (hsame.isDirectory root).trans h.isDirectory_root
  parent_root := (hsame.parent root).trans h.parent_root
  child?_ne_root hroot := h.child?_ne_root (hsame.child? hroot h.isDirectory_root)
  parent hi hdir := by
    rw [hsame.isDirectory] at hdir
    rw [hsame.parent]
    exact h.parent (hsame.child? hi hdir) hdir
  name hn hm hdir := by
    rw [hsame.isDirectory] at hdir
    exact h.name (hsame.child? hn hdir) (hsame.child? hm hdir) hdir
  rooted hdir := by
    rw [hsame.isDirectory] at hdir
    rw [funext hsame.parent]
    exact h.rooted hdir

theorem parent_eq_self (h : fs.isDirectory i = false) : fs.parent i = i := by
  unfold FileSystem.isDirectory at h
  unfold FileSystem.parent
  split at h <;> simp_all

/-- An added entry is the only new one. -/
theorem child?_addEntry_or (h : (fs.addEntry d n i).child? d' m = some j) :
    fs.child? d' m = some j ∨ d' = d ∧ m = n ∧ j = i := by
  simp only [FileSystem.child?, addEntry, entries_modifyEntries] at h
  split at h
  · next hd =>
    rw [List.lookup_append, Option.or_eq_some_iff] at h
    rcases h with h | ⟨_, h⟩
    · exact .inl h
    · rw [List.lookup_cons] at h
      split at h
      · next hm => exact .inr ⟨hd.1.symm, by simpa using hm, (Option.some.inj h).symm⟩
      · cases h
  · exact .inl h

theorem sameDirectories_addEntry (h : fs.isDirectory i = false) :
    fs.SameDirectories (fs.addEntry d n i) where
  isDirectory _ := isDirectory_modifyEntries _ _ _
  parent _ := parent_modifyEntries _ _ _
  child? hj hdir := by
    rcases child?_addEntry_or hj with hold | ⟨_, _, rfl⟩
    · exact hold
    · simp [h] at hdir

theorem sameDirectories_removeEntry : fs.SameDirectories (fs.removeEntry d n) where
  isDirectory _ := isDirectory_modifyEntries _ _ _
  parent _ := parent_modifyEntries _ _ _
  child? hj _ := (extends_removeEntry d n).child? hj

/-- The content of a node that was no directory and is none. -/
theorem sameDirectories_of_content? (h : ∀ i, fs'.content? i = fs.content? i ∨
      fs.isDirectory i = false ∧ fs'.isDirectory i = false) : fs.SameDirectories fs' := by
  have hentries : ∀ i, fs'.entries i = fs.entries i := by
    have hnil : ∀ {fs : FileSystem} {i : Inode}, fs.isDirectory i = false → fs.entries i = [] := by
      intro fs i hdir
      unfold FileSystem.isDirectory at hdir
      unfold FileSystem.entries
      split at hdir <;> simp_all
    intro i
    rcases h i with hc | ⟨hold, hnew⟩
    · rw [FileSystem.entries, hc, FileSystem.entries]
    · rw [hnil hold, hnil hnew]
  refine ⟨fun i => ?_, fun i => ?_, fun hi _ => ?_⟩
  · rcases h i with hc | ⟨hold, hnew⟩
    · rw [FileSystem.isDirectory, hc, FileSystem.isDirectory]
    · rw [hold, hnew]
  · rcases h i with hc | ⟨hold, hnew⟩
    · rw [FileSystem.parent, hc, FileSystem.parent]
    · rw [parent_eq_self hold, parent_eq_self hnew]
  · rwa [FileSystem.child?, hentries] at hi

theorem sameDirectories_setContent (h : fs.isDirectory i = false)
    (hc : ∀ p es, c ≠ .directory p es) : fs.SameDirectories (fs.setContent i c) := by
  apply sameDirectories_of_content?
  intro j
  by_cases hij : i = j
  · subst hij
    refine .inr ⟨h, ?_⟩
    unfold FileSystem.isDirectory
    rw [content?_setContent, if_pos rfl]
    cases fs.content? i <;> cases c <;> simp_all
  · exact .inl (by rw [content?_setContent, if_neg hij])

theorem sameDirectories_setMode : fs.SameDirectories (fs.setMode i mode) :=
  sameDirectories_of_content? fun _ => .inl content?_setMode

theorem isDirectory_nextInode : fs.isDirectory fs.nextInode = false := by
  rw [FileSystem.isDirectory, content?_nextInode]

theorem sameDirectories_create (hc : ∀ p es, c ≠ .directory p es) :
    fs.SameDirectories (fs.create d n mode c) := by
  have hnode : fs.SameDirectories (fs.addNode ⟨fs.device d, mode, default, c⟩) := by
    apply sameDirectories_of_content?
    intro j
    by_cases hj : j = fs.nextInode
    · refine .inr ⟨hj ▸ isDirectory_nextInode, ?_⟩
      rw [FileSystem.isDirectory, content?_addNode, if_pos hj]
      cases c <;> simp_all
    · exact .inl (by rw [content?_addNode, if_neg hj])
  refine hnode.trans (sameDirectories_addEntry ?_)
  rw [hnode.isDirectory, isDirectory_nextInode]

/-! ## New directories -/

/-- A new directory lies in the directory that it is made in. -/
theorem parent_create (i : Inode) :
    (fs.create d n mode (.directory d [])).parent i =
      if i = fs.nextInode then d else fs.parent i := by
  rw [create, addEntry, parent_modifyEntries, FileSystem.parent, content?_addNode,
    FileSystem.parent]
  by_cases hi : i = fs.nextInode
  · rw [if_pos hi, if_pos hi]
  · rw [if_neg hi, if_neg hi]

theorem isDirectory_create (i : Inode) :
    (fs.create d n mode (.directory d [])).isDirectory i = true ↔
      i = fs.nextInode ∨ fs.isDirectory i = true := by
  rw [create, isDirectory_addEntry, FileSystem.isDirectory, content?_addNode]
  by_cases hi : i = fs.nextInode
  · simp [hi]
  · rw [if_neg hi, FileSystem.isDirectory]
    simp [hi]

theorem rooted_iff :
    (∃ k, fs.parent^[k] i = root) ↔ i = root ∨ ∃ k, fs.parent^[k] (fs.parent i) = root := by
  constructor
  · rintro ⟨_ | k, hk⟩
    · exact .inl hk
    · exact .inr ⟨k, hk⟩
  · rintro (hi | ⟨k, hk⟩)
    · exact ⟨0, hi⟩
    · exact ⟨k + 1, hk⟩

/-- Who got to the root gets there still, if that is so for all on the way with a new parent. -/
theorem rooted_of_parent {P : Inode → Prop} (hk : fs.parent^[k] i = root) (hi : P i)
    (hparent : ∀ j, P j → fs'.parent j = fs.parent j ∧ P (fs.parent j) ∨
      ∃ k, fs'.parent^[k] j = root) : ∃ k, fs'.parent^[k] i = root := by
  induction k generalizing i with
  | zero => exact ⟨0, hk⟩
  | succ k ih =>
      rcases hparent i hi with ⟨heq, hnext⟩ | hrooted
      · rw [rooted_iff, heq]
        exact .inr (ih hk hnext)
      · exact hrooted

theorem WellFormed.parent_lt (h : fs.WellFormed) (hi : i < fs.nextInode) :
    fs.parent i < fs.nextInode := by
  cases hdir : fs.isDirectory i with
  | true => exact h.parent hdir
  | false => rwa [parent_eq_self hdir]

/-- A hierarchy stays one if one directory is put into one place from which one gets to the root. -/
theorem Hierarchical.of_puts (h : fs.Hierarchical) (hwell : fs'.WellFormed)
    (hputs : fs.Puts fs' d n i)
    (hrooted : ∀ {j}, fs'.isDirectory j = true → ∃ k, fs'.parent^[k] j = root) :
    fs'.Hierarchical where
  wellFormed := hwell
  isDirectory_root := hputs.isDirectory_root
  parent_root := by rw [hputs.parent hputs.ne_root, h.parent_root]
  child?_ne_root := by
    intro a m hroot
    rcases hputs.child? hroot hputs.isDirectory_root with ⟨_, _, heq⟩ | ⟨hold, _⟩
    · exact hputs.ne_root heq
    · exact h.child?_ne_root hold
  parent := by
    intro a m j hj hdir
    rcases hputs.child? hj hdir with ⟨rfl, _, rfl⟩ | ⟨hold, hdir', hne⟩
    · exact hputs.parent_put hdir
    · rw [hputs.parent hne, h.parent hold hdir']
  name := by
    intro a m x j hm hx hdir
    rcases hputs.child? hm hdir with ⟨_, rfl, rfl⟩ | ⟨hold, hdir', hne⟩
    · rcases hputs.child? hx hdir with ⟨_, rfl, _⟩ | ⟨_, _, hne⟩
      · rfl
      · exact absurd rfl hne
    · rcases hputs.child? hx hdir with ⟨_, _, rfl⟩ | ⟨hold', _⟩
      · exact absurd rfl hne
      · exact h.name hold hold' hdir'
  rooted := hrooted

theorem puts_create (h : fs.Hierarchical) (hslot : fs.slot .name p = .ok s)
    (hname : fs.vacantName s = .ok n) :
    fs.Puts (fs.create s.dir n .ofNewDirectory (.directory s.dir [])) s.dir n fs.nextInode where
  ne_root := Nat.ne_of_lt (isDirectory_lt_nextInode h.isDirectory_root)
  isDirectory_root := (isDirectory_create root).2 (.inr h.isDirectory_root)
  child? := by
    intro a m j hj hdir
    rw [child?_create (by simp) hslot hname] at hj
    split at hj
    · next heq => exact .inl ⟨heq.1, heq.2, (Option.some.inj hj).symm⟩
    · have hne : j ≠ fs.nextInode := Nat.ne_of_lt (h.wellFormed.child? hj)
      exact .inr ⟨hj, ((isDirectory_create j).1 hdir).resolve_left hne, hne⟩
  parent := by
    intro j hne
    rw [parent_create, if_neg hne]
  parent_put := by
    intro _
    rw [parent_create, if_pos rfl]

theorem Hierarchical.makeDirectory (h : fs.Hierarchical) (hmake : fs.makeDirectory p = .ok fs') :
    fs'.Hierarchical := by
  have hwell := h.wellFormed.call (.makeDirectory hmake)
  obtain ⟨s, name, hslot, hname, _, rfl⟩ := makeDirectory_eq_ok_iff.1 hmake
  have hputs := puts_create h hslot hname
  have hkept : ∀ {j}, fs.isDirectory j = true →
      ∃ k, (fs.create s.dir name .ofNewDirectory (.directory s.dir [])).parent^[k] j = root := by
    intro j hdir
    obtain ⟨k, hk⟩ := h.rooted hdir
    apply rooted_of_parent (P := (· < fs.nextInode)) hk (isDirectory_lt_nextInode hdir)
    intro l hl
    exact .inl ⟨hputs.parent (Nat.ne_of_lt hl), h.wellFormed.parent_lt hl⟩
  apply h.of_puts hwell hputs
  intro j hdir
  rcases (isDirectory_create j).1 hdir with rfl | hold
  · rw [rooted_iff, hputs.parent_put hdir]
    exact .inr (hkept (isDirectory_of_slot hslot (vacantName_eq_ok_iff.1 hname).1))
  · exact hkept hold

/-! ## Moved directories -/

/-- There are no more directories on the way to the root than there are nodes. -/
theorem Hierarchical.exists_le_size (h : fs.Hierarchical) (hdir : fs.isDirectory i = true) :
    ∃ k ≤ fs.nodes.size, fs.parent^[k] i = root ∧ ∀ l < k, fs.parent^[l] i ≠ root := by
  have hrooted := h.rooted hdir
  refine ⟨Nat.find hrooted, ?_, Nat.find_spec hrooted, fun l hl => Nat.find_min hrooted hl⟩
  have hlt : ∀ l, fs.parent^[l] i < fs.nodes.size := by
    intro l
    induction l with
    | zero => exact isDirectory_lt_nextInode hdir
    | succ l ih =>
        rw [Function.iterate_succ_apply']
        exact h.wellFormed.parent_lt ih
  -- Had the way a node twice, it could be shortened.
  have hinjective : Function.Injective fun l : Fin (Nat.find hrooted) =>
      (⟨fs.parent^[l] i, hlt l⟩ : Fin fs.nodes.size) := by
    have hne : ∀ {a b : Nat}, a < b → b < Nat.find hrooted →
        fs.parent^[a] i ≠ fs.parent^[b] i := by
      intro a b hab hb heq
      refine Nat.find_min hrooted (m := a + (Nat.find hrooted - b)) (by omega) ?_
      rw [Nat.add_comm, Function.iterate_add_apply, heq, ← Function.iterate_add_apply,
        Nat.sub_add_cancel hb.le]
      exact Nat.find_spec hrooted
    intro a b heq
    have heq' : fs.parent^[a] i = fs.parent^[b] i := by simpa using heq
    rcases Nat.lt_trichotomy a b with hab | hab | hab
    · exact absurd heq' (hne hab b.2)
    · exact Fin.ext hab
    · exact absurd heq'.symm (hne hab a.2)
  simpa using Fintype.card_le_of_injective _ hinjective

/-- The way to the root from a directory that does not lie within `i` does not pass by `i`. -/
theorem rooted_of_isWithin {fuel : Nat} (hk : fs.parent^[k] j = root)
    (hfirst : ∀ l < k, fs.parent^[l] j ≠ root) (hfuel : k ≤ fuel)
    (hwithin : fs.isWithin i fuel j = false) (hparent : ∀ l, l ≠ i → fs'.parent l = fs.parent l) :
    ∃ k, fs'.parent^[k] j = root := by
  induction k generalizing j fuel with
  | zero => exact ⟨0, hk⟩
  | succ k ih =>
      cases fuel with
      | zero => omega
      | succ fuel =>
          have hroot : j ≠ root := hfirst 0 (Nat.zero_lt_succ k)
          obtain ⟨hne, habove⟩ : j ≠ i ∧ fs.isWithin i fuel (fs.parent j) = false := by
            simpa [isWithin, hroot] using hwithin
          rw [rooted_iff, hparent j hne]
          exact .inr (ih hk (fun l hl => hfirst (l + 1) (Nat.succ_lt_succ hl))
            (Nat.le_of_succ_le_succ hfuel) habove)

theorem parent_moveEntry (l : Inode) :
    (fs.moveEntry i d n d' m).parent l =
      if l = i ∧ fs.isDirectory i = true then d' else fs.parent l := by
  have hfreed : ∀ l, (((fs.removeEntry d n).removeEntry d' m).addEntry d' m i).parent l =
      fs.parent l := by
    intro l
    simp only [addEntry, removeEntry, parent_modifyEntries]
  have hdir : (((fs.removeEntry d n).removeEntry d' m).addEntry d' m i).isDirectory i =
      fs.isDirectory i := by
    simp only [addEntry, removeEntry, isDirectory_modifyEntries]
  unfold moveEntry
  dsimp only
  split
  · next p es hc =>
    have hmoved : fs.isDirectory i = true := by
      rw [← hdir, isDirectory_iff]
      exact ⟨p, es, hc⟩
    rw [FileSystem.parent, content?_setContent]
    by_cases hl : l = i
    · subst hl
      simp [hc, hmoved]
    · rw [if_neg (Ne.symm hl), if_neg (by simp [hl]), ← hfreed l, FileSystem.parent]
  · next hc =>
    have hmoved : fs.isDirectory i ≠ true := by
      rw [← hdir, Ne, isDirectory_iff]
      rintro ⟨p, es, hc'⟩
      exact hc p es hc'
    simp [hmoved, hfreed]

theorem isDirectory_moveEntry (l : Inode) :
    (fs.moveEntry i d n d' m).isDirectory l = fs.isDirectory l := by
  have hfreed : ∀ l, (((fs.removeEntry d n).removeEntry d' m).addEntry d' m i).isDirectory l =
      fs.isDirectory l := by
    intro l
    simp only [addEntry, removeEntry, isDirectory_modifyEntries]
  unfold moveEntry
  dsimp only
  split
  · next p es hc =>
    rw [← hfreed l, FileSystem.isDirectory, content?_setContent]
    by_cases hl : i = l
    · subst hl
      rw [if_pos rfl, FileSystem.isDirectory, hc]
      rfl
    · rw [if_neg hl, FileSystem.isDirectory]
  · exact hfreed l

theorem entries_setContent_directory {p q : Inode} {es : List (Name × Inode)}
    (hc : fs.content? i = some (.directory p es)) (l : Inode) :
    (fs.setContent i (.directory q es)).entries l = fs.entries l := by
  rw [FileSystem.entries, content?_setContent]
  by_cases hl : i = l
  · subst hl
    rw [if_pos rfl, FileSystem.entries, hc]
    rfl
  · rw [if_neg hl, FileSystem.entries]

/-- A moved entry is taken from its old place and put into a place that is free. -/
theorem entries_moveEntry (l : Inode) :
    (fs.moveEntry i d n d' m).entries l =
      (((fs.removeEntry d n).removeEntry d' m).addEntry d' m i).entries l := by
  unfold moveEntry
  dsimp only
  split
  · next p es hc => exact entries_setContent_directory hc l
  · rfl

/-- A moved entry is the one that is new, and it is not in its old place any more. -/
theorem child?_moveEntry {a : Inode} {x : Name}
    (h : (fs.moveEntry i d n d' m).child? a x = some j) :
    a = d' ∧ x = m ∧ j = i ∨ fs.child? a x = some j ∧ ¬(a = d ∧ x = n) := by
  have hmoved : (((fs.removeEntry d n).removeEntry d' m).addEntry d' m i).child? a x = some j := by
    rwa [FileSystem.child?, entries_moveEntry] at h
  rcases child?_addEntry_or hmoved with hold | hnew
  · rw [child?_removeEntry] at hold
    split at hold
    · cases hold
    · rw [child?_removeEntry] at hold
      split at hold
      · cases hold
      · next hne => exact .inr ⟨hold, hne⟩
  · exact .inl hnew

/-- A directory that is moved is not in two places. -/
theorem puts_moveEntry (h : fs.Hierarchical) (hi : fs.child? d n = some i) :
    fs.Puts (fs.moveEntry i d n d' m) d' m i where
  ne_root := by
    rintro rfl
    exact h.child?_ne_root hi
  isDirectory_root := by rw [isDirectory_moveEntry, h.isDirectory_root]
  child? := by
    intro a x j hj hdir
    rw [isDirectory_moveEntry] at hdir
    rcases child?_moveEntry hj with hmoved | ⟨hkept, hne⟩
    · exact .inl hmoved
    · refine .inr ⟨hkept, hdir, ?_⟩
      rintro rfl
      obtain rfl := (h.parent hi hdir).symm.trans (h.parent hkept hdir)
      exact hne ⟨rfl, h.name hkept hi hdir⟩
  parent := by
    intro j hne
    rw [parent_moveEntry, if_neg fun heq => hne heq.1]
  parent_put := by
    intro hdir
    rw [isDirectory_moveEntry] at hdir
    rw [parent_moveEntry, if_pos ⟨rfl, hdir⟩]

theorem Hierarchical.rename (h : fs.Hierarchical) (hrename : fs.rename p q = .ok fs') :
    fs'.Hierarchical := by
  have hwell := h.wellFormed.rename hrename
  rcases rename_cases hrename with
    rfl | ⟨old, new, oldName, newName, i, hold, holdLast, hnew, hnewLast, hi, hwithin, rfl⟩
  · exact h
  rw [holdLast] at hi
  have hputs : fs.Puts (fs.moveEntry i old.dir oldName new.dir newName) new.dir newName i :=
    puts_moveEntry h (step_name_eq_ok_iff.1 hi).2
  apply h.of_puts hwell hputs
  intro j hdir
  rw [isDirectory_moveEntry] at hdir
  obtain ⟨k, hk⟩ := h.rooted hdir
  apply rooted_of_parent (P := fun _ => True) hk trivial
  intro l _
  by_cases hl : l = i ∧ fs.isDirectory i = true
  · -- The moved directory lies where it can get to the root without itself.
    obtain ⟨rfl, hmoved⟩ := hl
    obtain ⟨k, hle, hk, hfirst⟩ := h.exists_le_size (isDirectory_of_slot hnew hnewLast)
    rw [rooted_iff, parent_moveEntry, if_pos ⟨rfl, hmoved⟩]
    exact .inr (.inr (rooted_of_isWithin hk hfirst hle (hwithin hmoved) fun a ha =>
      hputs.parent ha))
  · rw [parent_moveEntry, if_neg hl]
    exact .inl ⟨rfl, trivial⟩

/-! ## Calls -/

theorem SameTree.sameDirectories (h : fs.SameTree fs') : fs.SameDirectories fs' where
  isDirectory := h.isDirectory
  parent := h.parent
  child? hi _ := (h.child? _ _).symm.trans hi

/-- Opening a file and writing to it is nothing to directories. -/
theorem Opens.sameDirectories (hopens : fs.Opens p d n j base) (htree : base.SameTree fs') :
    fs.SameDirectories fs' := by
  cases hopens with
  | new => exact (sameDirectories_create (by simp)).trans htree.sameDirectories
  | old => exact htree.sameDirectories

/-- Every file call keeps the directories a tree. -/
theorem Hierarchical.call (h : fs.Hierarchical) (hcall : Call fs fs') : fs'.Hierarchical := by
  have hwell := h.wellFormed.call hcall
  cases hcall with
  | makeDirectory hmake => exact h.makeDirectory hmake
  | rename hrename => exact h.rename hrename
  | makeSymlink hmake =>
      obtain ⟨s, name, _, _, rfl⟩ := makeSymlink_eq_ok hmake
      exact h.of_sameDirectories hwell (sameDirectories_create (by simp))
  | linkFile hlink =>
      obtain ⟨i, s, name, _, _, _, _, _, _, hfile, rfl⟩ := linkFile_eq_ok_iff.1 hlink
      exact h.of_sameDirectories hwell (sameDirectories_addEntry hfile)
  | removeFile hremove =>
      obtain ⟨s, name, i, _, _, _, _, _, _, rfl⟩ := removeFile_eq_ok_iff.1 hremove
      exact h.of_sameDirectories hwell sameDirectories_removeEntry
  | removeDirectory hremove =>
      obtain ⟨d, n, rfl⟩ := removeDirectory_eq_ok hremove
      exact h.of_sameDirectories hwell sameDirectories_removeEntry
  | writeFile hwrite =>
      obtain ⟨_, _, _, _, hopens, hwritten⟩ := writeFile_spec hwrite
      exact h.of_sameDirectories hwell (hopens.sameDirectories hwritten.tree)
  | createFile hcreate =>
      obtain ⟨s, name, _, _, _, _, rfl⟩ := createFile_eq_ok_iff.1 hcreate
      exact h.of_sameDirectories hwell (sameDirectories_create (by simp))
  | copyFile hcopy =>
      obtain ⟨_, _, _, _, _, _, _, _, hopens, hwritten⟩ := copyFile_spec hcopy
      exact h.of_sameDirectories hwell (hopens.sameDirectories hwritten.tree)
  | changeMode hchange =>
      obtain ⟨i, _, hchange⟩ := bind_eq_ok_iff.1 hchange
      cases hchange
      exact h.of_sameDirectories hwell sameDirectories_setMode
  | changeModified hchange =>
      obtain ⟨i, _, hchange⟩ := bind_eq_ok_iff.1 hchange
      cases hchange
      exact h.of_sameDirectories hwell
        (sameDirectories_of_content? fun _ => .inl (content?_setModified _))

theorem child?_empty (h : empty.child? d n = some i) :
    d = 0 ∧ n = Utf8.encode "work" ∧ i = 1 ∨ d = 0 ∧ n = Utf8.encode "dev" ∧ i = 2 ∨
      d = 2 ∧ n = Utf8.encode "null" ∧ i = 3 := by
  obtain ⟨before, after, hentries, _⟩ := List.lookup_eq_some_iff.1 h
  have hmem : (n, i) ∈ empty.entries d := by simp [hentries]
  match d with
  | 0 =>
      have hroot : empty.entries 0 = [(Utf8.encode "work", 1), (Utf8.encode "dev", 2)] := rfl
      rw [hroot] at hmem
      simpa using hmem
  | 1 => cases hmem
  | 2 =>
      have hdevices : empty.entries 2 = [(Utf8.encode "null", 3)] := rfl
      rw [hdevices] at hmem
      simpa using hmem
  | 3 => cases hmem
  | d + 4 => cases hmem

theorem hierarchical_empty : empty.Hierarchical where
  wellFormed := wellFormed_empty
  isDirectory_root := rfl
  parent_root := rfl
  child?_ne_root h := by
    rcases child?_empty h with ⟨_, _, hi⟩ | ⟨_, _, hi⟩ | ⟨_, _, hi⟩
    · exact absurd hi (by decide)
    · exact absurd hi (by decide)
    · exact absurd hi (by decide)
  parent h hdir := by
    rcases child?_empty h with ⟨rfl, _, rfl⟩ | ⟨rfl, _, rfl⟩ | ⟨rfl, _, rfl⟩
    · rfl
    · rfl
    · cases hdir
  name hn hm _ := by
    rcases child?_empty hn with ⟨rfl, rfl, rfl⟩ | ⟨rfl, rfl, rfl⟩ | ⟨rfl, rfl, rfl⟩ <;>
      simpa [eq_comm] using child?_empty hm
  rooted {i} h := by
    match i with
    | 0 => exact ⟨0, rfl⟩
    | 1 => exact ⟨1, rfl⟩
    | 2 => exact ⟨1, rfl⟩
    | 3 => cases h
    | i + 4 => cases h

theorem hierarchical_withFiles (files : List (String × String)) : (withFiles files).Hierarchical :=
  withFiles_induction hierarchical_empty Hierarchical.call files

end Hardlinks.FileSystem
