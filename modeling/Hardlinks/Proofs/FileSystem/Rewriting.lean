-- SUMMARY: Writing to a file changes no path, and what a copied file holds.
import Hardlinks.Proofs.FileSystem.Directories

/-!
# Rewritten files

Two file systems have the same tree if they differ only in what their files hold and who may use
them. Every path then leads to the same place in both. Whatever writes to a path opens it first,
which makes a file there if nothing exists (`Opens`), and then overwrites what it has opened
(`Overwrites`): a file holds other bytes, and the null device is as it was. A copy does both, and
what it writes is what its source held, unless the source is the target (`copyFile_spec`).
-/

namespace Hardlinks.FileSystem

/-- The two file systems differ at most in what files hold and in the permissions of files. -/
structure SameTree (fs fs' : FileSystem) : Prop where
  start : fs'.start = fs.start
  entries : ∀ d, fs'.entries d = fs.entries d
  isDirectory : ∀ i, fs'.isDirectory i = fs.isDirectory i
  parent : ∀ i, fs'.parent i = fs.parent i
  target? : ∀ i, fs'.target? i = fs.target? i
  device : ∀ i, fs'.device i = fs.device i
  allows : ∀ {i}, fs.isDirectory i = true → fs'.allows i = fs.allows i

/-- The path `p` leads to the node `j`, which is to be written to, under the name `n` in the
directory `d`. The second file system is the first one, with a new file if nothing was there. -/
inductive Opens (fs : FileSystem) (p : Path) (d : Inode) (n : Name) : Inode → FileSystem → Prop
  | new {mode} : fs.slot .write p = .ok ⟨d, .name n, false⟩ → n.length ≤ Path.nameLimit →
      fs.child? d n = none → fs.allows d Mode.write = true →
      Opens fs p d n fs.nextInode (fs.create d n mode (.file []))
  | old {j} : fs.slot .write p = .ok ⟨d, .name n, false⟩ → n.length ≤ Path.nameLimit →
      fs.child? d n = some j → fs.isDirectory j = false → Opens fs p d n j fs

/-- The bytes have been written to the node `j`. If that is a file, it holds them now. -/
structure Overwrites (fs : FileSystem) (j : Inode) (bytes : List UInt8) (fs' : FileSystem) :
    Prop where
  tree : fs.SameTree fs'
  file : ∀ {old}, fs.content? j = some (.file old) → fs'.content? j = some (.file bytes)
  device : fs.content? j = some .null → fs'.content? j = some .null
  other : ∀ {k}, k ≠ j → fs'.content? k = fs.content? k

variable {fs fs' fs'' base : FileSystem} {dir d i j k : Inode} {n : Name}
  {segments : List Segment} {slash : Bool} {links : List (Inode × Segment)} {s : Slot} {p q : Path}
  {mode : Mode} {bytes bytes' : List UInt8}

theorem SameTree.refl (fs : FileSystem) : fs.SameTree fs :=
  ⟨rfl, fun _ => rfl, fun _ => rfl, fun _ => rfl, fun _ => rfl, fun _ => rfl, fun _ => rfl⟩

theorem SameTree.trans (h : fs.SameTree fs') (h' : fs'.SameTree fs'') : fs.SameTree fs'' where
  start := h'.start.trans h.start
  entries d := (h'.entries d).trans (h.entries d)
  isDirectory i := (h'.isDirectory i).trans (h.isDirectory i)
  parent i := (h'.parent i).trans (h.parent i)
  target? i := (h'.target? i).trans (h.target? i)
  device i := (h'.device i).trans (h.device i)
  allows hi := (h'.allows ((h.isDirectory _).trans hi)).trans (h.allows hi)

theorem SameTree.symm (h : fs.SameTree fs') : fs'.SameTree fs where
  start := h.start.symm
  entries d := (h.entries d).symm
  isDirectory i := (h.isDirectory i).symm
  parent i := (h.parent i).symm
  target? i := (h.target? i).symm
  device i := (h.device i).symm
  allows hi := (h.allows ((h.isDirectory _).symm.trans hi)).symm

theorem SameTree.child? (h : fs.SameTree fs') (d : Inode) (n : Name) :
    fs'.child? d n = fs.child? d n := by
  rw [FileSystem.child?, h.entries, FileSystem.child?]

theorem SameTree.extends (h : fs.SameTree fs') : fs.Extends fs' where
  start := h.start
  child? hi := (h.child? _ _).trans hi
  isDirectory hi := (h.isDirectory _).trans hi
  parent _ := h.parent _
  allows hi := h.allows hi
  target? := h.target?

/-- A link that can be made can be made in the same tree, too. -/
theorem SameTree.linkFile {p' : Path} (h : fs.SameTree fs') (hlink : fs'.linkFile p q = .ok fs'')
    (hi : fs'.find .keep p = .ok i) (hi' : fs.find .keep p' = .ok i) :
    ∃ linked, fs.linkFile p' q = .ok linked := by
  obtain ⟨j, s, name, hj, hslot, hname, hslash, hdevice, hwrite, hdir, _⟩ :=
    linkFile_eq_ok_iff.1 hlink
  obtain rfl := Except.ok.inj (hi.symm.trans hj)
  obtain ⟨hlast, hlength, hfree⟩ := vacantName_eq_ok_iff.1 hname
  have hsdir : fs.isDirectory s.dir = true :=
    (h.isDirectory _).symm.trans (isDirectory_of_slot hslot hlast)
  refine ⟨_, linkFile_eq_ok_iff.2 ⟨i, s, name, hi', slot_name_extend h.symm.extends hslot,
    vacantName_eq_ok_iff.2 ⟨hlast, hlength, ?_⟩, hslash, ?_, ?_, ?_, rfl⟩⟩
  · rw [← h.child?, hfree]
  · rw [← h.device, ← h.device, hdevice]
  · rw [← h.allows hsdir, hwrite]
  · rw [← h.isDirectory, hdir]

/-! ## Writing -/

theorem device_setContent (c : Content) : (fs.setContent i c).device j = fs.device j := by
  simp only [device, node?_setContent]
  split
  · cases fs.node? j <;> rfl
  · rfl

theorem allows_setContent (c : Content) : (fs.setContent i c).allows j = fs.allows j := by
  funext permission
  simp only [allows, node?_setContent]
  split
  · cases fs.node? j <;> rfl
  · rfl

/-- What a file holds is nothing to the tree. -/
theorem sameTree_setContent_file {old : List UInt8} (hold : fs.content? i = some (.file old))
    (bytes : List UInt8) : fs.SameTree (fs.setContent i (.file bytes)) := by
  have hcontent : ∀ j, (fs.setContent i (.file bytes)).content? j = fs.content? j ∨
      fs.content? j = some (.file old) ∧
        (fs.setContent i (.file bytes)).content? j = some (.file bytes) := by
    intro j
    rw [content?_setContent]
    by_cases hi : i = j
    · subst hi
      simp [hold]
    · simp [hi]
  refine ⟨rfl, ?_, ?_, ?_, ?_, fun _ => device_setContent _, fun _ => allows_setContent _⟩
  all_goals
    intro j
    rcases hcontent j with hc | ⟨hold, hc⟩
  · rw [entries, hc, entries]
  · rw [entries, hc, entries, hold]
  · rw [isDirectory, hc, isDirectory]
  · rw [isDirectory, hc, isDirectory, hold]
  · rw [parent, hc, parent]
  · rw [parent, hc, parent, hold]
  · rw [target?, hc, target?]
  · rw [target?, hc, target?, hold]

theorem sameTree_setMode (h : fs.isDirectory i = false) : fs.SameTree (fs.setMode i mode) where
  start := rfl
  entries d := by simp only [entries, content?_setMode]
  isDirectory j := by simp only [isDirectory, content?_setMode]
  parent j := by simp only [parent, content?_setMode]
  target? j := by simp only [target?, content?_setMode]
  device j := by
    simp only [device, node?, setMode, Array.getElem?_modify]
    split
    · cases fs.nodes[j]? <;> rfl
    · rfl
  allows {j} hj := by
    have hne : i ≠ j := fun heq => by simp [heq, hj] at h
    funext permission
    simp [allows, node?, setMode, Array.getElem?_modify, hne]

/-- Where no link is left to be replaced, a walk for writing is a walk to what is there. -/
theorem Route.follow_of_write (h : fs.Route .write dir segments slash links s)
    (hslash : s.slash = false) : fs.Route .follow dir segments slash links s := by
  induction h with
  | stay => exact .stay
  | stop henter hlink =>
      refine .stop henter ?_
      intro target htarget
      have hnot := hlink target htarget
      simp_all [Ending.follows]
  | follow henter htarget _ _ ih => exact .follow henter htarget rfl (ih hslash)
  | step henter hi htarget _ ih => exact .step henter hi htarget (ih hslash)
  | jump henter hi htarget _ ih => exact .jump henter hi htarget (ih hslash)

/-- A walk to what is there leaves no link in its last place. -/
theorem Route.linkAt?_of_follow (h : fs.Route .follow dir segments slash links s)
    (hlast : s.last = .name n) : fs.linkAt? s.dir s.last = none := by
  induction h with
  | stay => cases hlast
  | stop henter hlink =>
      apply Option.eq_none_iff_forall_ne_some.2
      intro target htarget
      cases hlink target htarget
  | follow _ _ _ _ ih => exact ih hlast
  | step _ _ _ _ ih => exact ih hlast
  | jump _ _ _ _ ih => exact ih hlast

/-! ## Opening -/

theorem content?_create_nextInode :
    (fs.create d n mode (.file bytes)).content? fs.nextInode = some (.file bytes) := by
  rw [create, addEntry, content?_modifyEntries, content?_addNode, if_pos rfl]

section Opens

variable (h : fs.Opens p d n j base)
include h

theorem Opens.slot : fs.slot .write p = .ok ⟨d, .name n, false⟩ := by
  cases h with
  | new hslot => exact hslot
  | old hslot => exact hslot

theorem Opens.length : n.length ≤ Path.nameLimit := by
  cases h with
  | new _ hlength => exact hlength
  | old _ hlength => exact hlength

theorem Opens.grows : fs.Grows base := by
  cases h with
  | new => exact grows_create (by simp)
  | old => exact .refl fs

theorem Opens.extends : fs.Extends base :=
  h.grows.extends

theorem Opens.isDirectory (i : Inode) : base.isDirectory i = fs.isDirectory i := by
  cases h with
  | old => rfl
  | new =>
      rw [create, addEntry, isDirectory_modifyEntries, FileSystem.isDirectory, content?_addNode,
        FileSystem.isDirectory]
      by_cases hi : i = fs.nextInode
      · rw [if_pos hi, hi, content?_nextInode]
      · rw [if_neg hi]

theorem Opens.content? (hi : fs.content? i = some (.file bytes)) :
    base.content? i = some (.file bytes) := by
  cases h with
  | new => exact content?_create_of_file hi
  | old => exact hi

/-- What was opened for writing is no directory and no symbolic link. -/
theorem Opens.kind : base.isDirectory j = false ∧ base.target? j = none := by
  cases h with
  | new => exact kind_of_bytes? (bytes?_of_content? content?_create_nextInode)
  | old hslot hlength hj hdir =>
      obtain ⟨_, links, hroute, _⟩ := slot_eq_ok_iff.1 hslot
      have hlink := (Route.follow_of_write hroute rfl).linkAt?_of_follow rfl
      have hstep : fs.step d (.name n) = .ok j := step_name_eq_ok_iff.2 ⟨hlength, hj⟩
      exact ⟨hdir, by simpa [linkAt?, hstep] using hlink⟩

theorem Opens.child?_eq (a : Inode) (b : Name) :
    base.child? a b = if a = d ∧ b = n then some j else fs.child? a b := by
  cases h with
  | new hslot hlength hfree =>
      have hname : fs.vacantName ⟨d, .name n, false⟩ = .ok n :=
        vacantName_eq_ok_iff.2 ⟨rfl, hlength, hfree⟩
      rw [child?_create (by simp) hslot hname]
  | old _ _ hj =>
      split
      · next heq => rw [heq.1, heq.2, hj]
      · rfl

theorem Opens.child? : base.child? d n = some j := by
  rw [h.child?_eq, if_pos ⟨rfl, rfl⟩]

/-- The path still leads to where it was opened. -/
theorem Opens.exists_route (hextends : base.Extends fs') :
    ∃ links, p.check = .ok () ∧ links.length ≤ linkLimit ∧
      fs'.PathRoute .follow p links ⟨d, .name n, false⟩ ∧ fs'.step d (.name n) = .ok j := by
  obtain ⟨hcheck, links, hroute, hlinks⟩ := slot_eq_ok_iff.1 h.slot
  have hstep : fs'.step d (.name n) = .ok j :=
    step_name_eq_ok_iff.2 ⟨h.length, hextends.child? h.child?⟩
  have hlink : fs'.linkAt? d (.name n) = none := by
    simp [linkAt?, hstep, hextends.target?, h.kind.2]
  exact ⟨links, hcheck, hlinks, PathRoute.extend (h.extends.trans hextends)
    (Route.follow_of_write hroute rfl) (.inr (.inr hlink)), hstep⟩

/-- What was opened is found where it was opened. -/
theorem Opens.find (hextends : base.Extends fs') : fs'.find .follow p = .ok j := by
  obtain ⟨links, hcheck, hlinks, hroute, hstep⟩ := h.exists_route hextends
  exact find_eq_ok_iff.2 ⟨_, slot_eq_ok_iff.2 ⟨hcheck, links, hroute, hlinks⟩,
    nodeAt_eq_ok_iff.2 ⟨hstep, by simp⟩⟩

/-- Where a path leads to something already, that is what is opened. -/
theorem Opens.eq_of_find (hk : fs.find .follow p = .ok k) : k = j :=
  Except.ok.inj ((find_extend h.extends hk).symm.trans (h.find (.refl base)))

/-- What was opened was there before, or is a new file. -/
theorem Opens.found_or_new : fs.find .follow p = .ok j ∧ fs.child? d n = some j ∧ base = fs ∨
    j = fs.nextInode ∧ base.content? j = some (.file []) := by
  cases h with
  | new => exact .inr ⟨rfl, content?_create_nextInode⟩
  | old hslot hlength hj hdir =>
      exact .inl ⟨Opens.find (.old hslot hlength hj hdir) (.refl fs), hj, rfl⟩

end Opens

/-! ## Overwriting -/

theorem sameTree_store (fs : FileSystem) (i : Inode) (bytes : List UInt8) :
    fs.SameTree (fs.store i bytes) := by
  rcases store_cases fs i bytes with heq | ⟨⟨old, hold⟩, heq⟩
  · rw [heq]
    exact .refl fs
  · rw [heq]
    exact sameTree_setContent_file hold bytes

theorem sameTree_storeMode (fs : FileSystem) (i : Inode) (mode : Mode) :
    fs.SameTree (fs.storeMode i mode) := by
  rcases storeMode_cases fs i mode with heq | ⟨⟨bytes, hbytes⟩, heq⟩
  · rw [heq]
    exact .refl fs
  · rw [heq]
    exact sameTree_setMode (by rw [FileSystem.isDirectory, hbytes])

theorem content?_storeMode : (fs.storeMode i mode).content? j = fs.content? j := by
  rcases storeMode_cases fs i mode with heq | ⟨_, heq⟩
  · rw [heq]
  · rw [heq, content?_setMode]

theorem overwrites_store (fs : FileSystem) (j : Inode) (bytes : List UInt8) :
    fs.Overwrites j bytes (fs.store j bytes) where
  tree := sameTree_store fs j bytes
  file hold := content?_store hold bytes
  device hnull := by simp [store, hnull]
  other hne := content?_store_of_ne (Ne.symm hne) bytes

theorem Overwrites.trans (h : fs.Overwrites j bytes fs') (h' : fs'.Overwrites j bytes' fs'') :
    fs.Overwrites j bytes' fs'' where
  tree := h.tree.trans h'.tree
  file hold := h'.file (h.file hold)
  device hnull := h'.device (h.device hnull)
  other hne := (h'.other hne).trans (h.other hne)

theorem Overwrites.storeMode (h : fs.Overwrites j bytes fs') (mode : Mode) :
    fs.Overwrites j bytes (fs'.storeMode j mode) where
  tree := h.tree.trans (sameTree_storeMode fs' j mode)
  file hold := content?_storeMode.trans (h.file hold)
  device hnull := content?_storeMode.trans (h.device hnull)
  other hne := content?_storeMode.trans (h.other hne)

/-- A node that is opened for writing is emptied. -/
theorem openWrite_spec (h : fs.openWrite mode p = .ok (j, fs')) :
    ∃ d n base, fs.Opens p d n j base ∧ base.Overwrites j [] fs' := by
  obtain ⟨s, n, hslot, hlast, hslash, hlength, hcases⟩ := openWrite_cases h
  have hs : s = ⟨s.dir, .name n, false⟩ := by rw [← hlast, ← hslash]
  rw [hs] at hslot
  rcases hcases with ⟨hfree, hwrite, rfl, rfl⟩ | ⟨hj, hdir, rfl⟩
  · refine ⟨s.dir, n, _, .new hslot hlength hfree hwrite, .refl _, ?_, ?_, fun _ => rfl⟩
    · exact fun _ => content?_create_nextInode
    · exact id
  · exact ⟨s.dir, n, fs, .old hslot hlength hj hdir, overwrites_store fs j []⟩

theorem writeFile_spec (h : fs.writeFile p bytes = .ok fs') :
    ∃ d n j base, fs.Opens p d n j base ∧ base.Overwrites j bytes fs' := by
  obtain ⟨⟨j, opened⟩, hopen, h⟩ := bind_eq_ok_iff.1 h
  cases h
  obtain ⟨d, n, base, hopens, hemptied⟩ := openWrite_spec hopen
  exact ⟨d, n, j, base, hopens, hemptied.trans (overwrites_store opened j bytes)⟩

/-- A copied file is in the tree as it was, or with the new file, and holds the bytes of the
original, unless it is the original. -/
theorem copyFile_spec (h : fs.copyFile p q = .ok fs') :
    ∃ i bytes d n j base, fs.find .follow p = .ok i ∧ fs.content? i = some (.file bytes) ∧
      fs.Opens q d n j base ∧ base.Overwrites j (if i = j then [] else bytes) fs' := by
  obtain ⟨i, bytes, mode, j, opened, hi, _, hfile, hopen, rfl⟩ := copyFile_cases h
  obtain ⟨d, n, base, hopens, hemptied⟩ := openWrite_spec hopen
  exact ⟨i, bytes, d, n, j, base, hi, hfile, hopens,
    (hemptied.trans (overwrites_store opened j _)).storeMode mode⟩

/-- A file that was copied to can be read, as the original could. -/
theorem allows_copyFile {bytes : List UInt8} (h : fs.copyFile p q = .ok fs')
    (hj : fs'.find .follow q = .ok j) (hfile : fs'.content? j = some (.file bytes)) :
    fs'.allows j Mode.read = true := by
  obtain ⟨i, old, mode, k, opened, _, hread, _, hopen, rfl⟩ := copyFile_cases h
  obtain ⟨d, n, base, hopens, hemptied⟩ := openWrite_spec hopen
  have hfilled := hemptied.trans (overwrites_store opened k (if i = k then [] else old))
  have hextends := (hfilled.storeMode mode).tree.extends
  obtain rfl := Except.ok.inj ((hopens.find hextends).symm.trans hj)
  rw [content?_storeMode] at hfile
  obtain ⟨node, hnode, _⟩ := Option.map_eq_some_iff.1 hfile
  rw [node?] at hnode
  simp [storeMode, hfile, allows, node?, setMode, Array.getElem?_modify, hnode, hread]

end Hardlinks.FileSystem
