-- SUMMARY: Every directory lists proper names, each of them once, and all file calls keep it so.
import Hardlinks.Proofs.FileSystem.Hierarchy
import Hardlinks.Proofs.Path.Proper

/-!
# Regular file systems

A directory is a list of entries, and a name is looked up by taking the first entry that has it. In
a regular file system no entry is behind another one of its name, so the list says the same as the
lookups (`Regular.mem_entries_iff`), and every name is one that a path can lead to. An entry is made
only under the last name of a path, and only where that name is free, which is why every file call
keeps a file system regular (`Regular.call`).
-/

namespace Hardlinks.FileSystem

/-- Entries with proper names, no two of them the same. -/
structure Proper (es : List (Name × Inode)) : Prop where
  isProper : ∀ e ∈ es, Path.IsProper e.1
  nodup : (es.map Prod.fst).Nodup

structure Regular (fs : FileSystem) : Prop extends Hierarchical fs where
  proper : ∀ d, Proper (fs.entries d)

variable {fs fs' base : FileSystem} {ending : Ending} {d i j : Inode} {n : Name} {ns : List Name}
  {p q : Path} {s : Slot} {mode : Mode} {c : Content} {es es' : List (Name × Inode)}

/-! ## Entries -/

theorem Proper.nil : Proper [] :=
  ⟨by simp, by simp⟩

theorem Proper.sublist (h : Proper es) (hsub : List.Sublist es' es) : Proper es' :=
  ⟨fun e he => h.isProper e (hsub.subset he), h.nodup.sublist (hsub.map Prod.fst)⟩

/-- A name that is not found is added. -/
theorem Proper.concat (h : Proper es) (hn : Path.IsProper n) (hfree : es.lookup n = none) :
    Proper (es ++ [(n, i)]) where
  isProper e he := by
    cases List.mem_append.1 he with
    | inl hold => exact h.isProper e hold
    | inr hnew =>
        obtain rfl := List.mem_singleton.1 hnew
        exact hn
  nodup := by
    have hfresh : n ∉ es.map Prod.fst := by
      intro hmem
      obtain ⟨e, he, rfl⟩ := List.mem_map.1 hmem
      simpa using List.lookup_eq_none_iff.1 hfree e he
    rw [List.map_append, List.nodup_append]
    refine ⟨h.nodup, by simp, ?_⟩
    intro a ha b hb heq
    obtain rfl := List.mem_singleton.1 hb
    exact hfresh (heq ▸ ha)

theorem Proper.lookup_eq_some_iff (h : Proper es) : es.lookup n = some i ↔ (n, i) ∈ es := by
  induction es with
  | nil => simp
  | cons e es ih =>
      obtain ⟨m, j⟩ := e
      have htail := ih (h.sublist (List.sublist_cons_self _ es))
      have hfresh : m ∉ es.map Prod.fst := (List.nodup_cons.1 h.nodup).1
      rw [List.lookup_cons, List.mem_cons]
      by_cases hn : n = m
      · subst hn
        have hnone : (n, i) ∉ es := fun hmem => hfresh (List.mem_map_of_mem hmem)
        simp [hnone, eq_comm]
      · simp [beq_false_of_ne hn, hn, htail]

theorem Regular.mem_entries_iff (h : fs.Regular) :
    (n, i) ∈ fs.entries d ↔ fs.child? d n = some i :=
  (h.proper d).lookup_eq_some_iff.symm

/-- All names that lead down a directory are proper. -/
theorem Regular.isProper_of_descend? (h : fs.Regular) (hi : fs.descend? d ns = some i) :
    ∀ n ∈ ns, Path.IsProper n := by
  induction ns generalizing d with
  | nil => simp
  | cons n ns ih =>
      obtain ⟨a, ha, hrest⟩ := descend?_cons_eq_some_iff.1 hi
      have hn : Path.IsProper n := (h.proper d).isProper (n, a) (h.mem_entries_iff.2 ha)
      exact List.forall_mem_cons.2 ⟨hn, ih hrest⟩

/-! ## Changes -/

/-- The last name of a path is proper, whether the path has it or a link on the way. -/
theorem isProper_of_slot (hslot : fs.slot ending p = .ok s) (hlast : s.last = .name n) :
    Path.IsProper n := by
  obtain ⟨_, links, hroute, _⟩ := slot_eq_ok_iff.1 hslot
  rcases Route.last_mem hroute with hhere | hmem | ⟨_, target, _, hmem⟩
  · simp [hlast] at hhere
  · exact Path.isProper_of_mem_segments (hlast ▸ hmem)
  · exact Path.isProper_of_mem_segments (hlast ▸ hmem)

theorem proper_addEntry (h : ∀ a, Proper (fs.entries a)) (hn : Path.IsProper n)
    (hfree : fs.child? d n = none) (a : Inode) : Proper ((fs.addEntry d n i).entries a) := by
  rw [addEntry, entries_modifyEntries]
  split
  · next heq =>
    rw [← heq.1]
    exact (h d).concat hn hfree
  · exact h a

theorem proper_removeEntry (h : ∀ a, Proper (fs.entries a)) (a : Inode) :
    Proper ((fs.removeEntry d n).entries a) := by
  rw [removeEntry, entries_modifyEntries]
  split
  · exact (h a).sublist List.filter_sublist
  · exact h a

theorem proper_create (h : ∀ a, Proper (fs.entries a)) (hc : ∀ p es, c = .directory p es → es = [])
    (hslot : fs.slot ending p = .ok s) (hlast : s.last = .name n)
    (hfree : fs.child? s.dir n = none) (a : Inode) :
    Proper ((fs.create s.dir n mode c).entries a) := by
  apply proper_addEntry _ (isProper_of_slot hslot hlast)
  · rw [child?_addNode hc, hfree]
  · intro b
    rw [entries_addNode hc]
    exact h b

theorem proper_of_content? (h : ∀ a, Proper (fs.entries a))
    (hsame : ∀ a, fs'.content? a = fs.content? a) (a : Inode) : Proper (fs'.entries a) := by
  rw [FileSystem.entries, hsame]
  exact h a

/-- The place of a moved entry has been freed. -/
theorem proper_moveEntry {d' : Inode} {m : Name} (h : ∀ a, Proper (fs.entries a))
    (hm : Path.IsProper m) (a : Inode) : Proper ((fs.moveEntry i d n d' m).entries a) := by
  rw [entries_moveEntry]
  apply proper_addEntry _ hm
  · rw [child?_removeEntry, if_pos ⟨rfl, rfl⟩]
  · exact proper_removeEntry (proper_removeEntry h)

/-- Opening a file and writing to it makes one entry at most. -/
theorem proper_opens (h : ∀ a, Proper (fs.entries a)) (hopens : fs.Opens p d n j base)
    (htree : base.SameTree fs') (a : Inode) : Proper (fs'.entries a) := by
  rw [htree.entries]
  cases hopens with
  | new hslot _ hfree => exact proper_create h (by simp) hslot rfl hfree a
  | old => exact h a

/-! ## Calls -/

/-- Every file call keeps the names of every directory proper, and each of them single. -/
theorem proper_call (h : ∀ a, Proper (fs.entries a)) (hcall : Call fs fs') (a : Inode) :
    Proper (fs'.entries a) := by
  cases hcall with
  | makeDirectory hmake =>
      obtain ⟨s, name, hslot, hname, _, rfl⟩ := makeDirectory_eq_ok_iff.1 hmake
      obtain ⟨hlast, _, hfree⟩ := vacantName_eq_ok_iff.1 hname
      exact proper_create h (by simp) hslot hlast hfree a
  | makeSymlink hmake =>
      obtain ⟨s, name, hslot, hname, rfl⟩ := makeSymlink_eq_ok hmake
      obtain ⟨hlast, _, hfree⟩ := vacantName_eq_ok_iff.1 hname
      exact proper_create h (by simp) hslot hlast hfree a
  | linkFile hlink =>
      obtain ⟨i, s, name, _, hslot, hname, _, _, _, _, rfl⟩ := linkFile_eq_ok_iff.1 hlink
      obtain ⟨hlast, _, hfree⟩ := vacantName_eq_ok_iff.1 hname
      exact proper_addEntry h (isProper_of_slot hslot hlast) hfree a
  | removeFile hremove =>
      obtain ⟨s, name, i, _, _, _, _, _, _, rfl⟩ := removeFile_eq_ok_iff.1 hremove
      exact proper_removeEntry h a
  | removeDirectory hremove =>
      obtain ⟨d, n, rfl⟩ := removeDirectory_eq_ok hremove
      exact proper_removeEntry h a
  | rename hrename =>
      rcases rename_cases hrename with rfl | ⟨_, new, _, _, _, _, _, hnew, hlast, _, _, rfl⟩
      · exact h a
      · exact proper_moveEntry h (isProper_of_slot hnew hlast) a
  | writeFile hwrite =>
      obtain ⟨_, _, _, _, hopens, hwritten⟩ := writeFile_spec hwrite
      exact proper_opens h hopens hwritten.tree a
  | createFile hcreate =>
      obtain ⟨s, name, hslot, _, hname, _, rfl⟩ := createFile_eq_ok_iff.1 hcreate
      obtain ⟨hlast, _, hfree⟩ := vacantName_eq_ok_iff.1 hname
      exact proper_create h (by simp) hslot hlast hfree a
  | copyFile hcopy =>
      obtain ⟨_, _, _, _, _, _, _, _, hopens, hwritten⟩ := copyFile_spec hcopy
      exact proper_opens h hopens hwritten.tree a
  | changeMode hchange =>
      obtain ⟨i, _, hchange⟩ := bind_eq_ok_iff.1 hchange
      cases hchange
      exact proper_of_content? h (fun _ => content?_setMode) a
  | changeModified hchange =>
      obtain ⟨i, _, hchange⟩ := bind_eq_ok_iff.1 hchange
      cases hchange
      exact proper_of_content? h (fun _ => content?_setModified _) a

/-- Every file call keeps a file system regular. -/
theorem Regular.call (h : fs.Regular) (hcall : Call fs fs') : fs'.Regular :=
  ⟨h.toHierarchical.call hcall, proper_call h.proper hcall⟩

theorem regular_empty : empty.Regular where
  toHierarchical := hierarchical_empty
  proper d := by
    match d with
    | 0 =>
        have hwork : Path.IsProper (Utf8.encode "work") := ⟨by decide, by decide⟩
        have hdev : Path.IsProper (Utf8.encode "dev") := ⟨by decide, by decide⟩
        exact (Proper.nil.concat hwork rfl).concat hdev (by decide)
    | 1 => exact .nil
    | 2 =>
        have hnull : Path.IsProper (Utf8.encode "null") := ⟨by decide, by decide⟩
        exact Proper.nil.concat hnull rfl
    | 3 => exact .nil
    | d + 4 => exact .nil

theorem regular_withFiles (files : List (String × String)) : (withFiles files).Regular :=
  withFiles_induction regular_empty Regular.call files

end Hardlinks.FileSystem
