-- SUMMARY: Every directory entry names a node: the invariant that all file calls keep.
import Hardlinks.Proofs.FileSystem.Rewriting

/-!
# Well-formed file systems

In a well-formed file system everything that is named is there: the nodes of all entries, the
directories above all directories, and the working directory. The file system that nothing has
happened to is well formed, and every file call keeps it so (`WellFormed.call`), since entries are
made only for nodes that were found or just added. It is what makes a new node nobody's but its
maker's: no entry can name it beforehand.
-/

namespace Hardlinks

/-- All that a directory names lies below a number. -/
def Content.Bounded (bound : Nat) : Content → Prop
  | .directory p es => p < bound ∧ ∀ e ∈ es, e.2 < bound
  | _ => True

theorem Content.Bounded.mono {c : Content} {m n : Nat} (h : c.Bounded m) (hle : m ≤ n) :
    c.Bounded n := by
  cases c with
  | directory p es =>
      exact ⟨Nat.lt_of_lt_of_le h.1 hle, fun e he => Nat.lt_of_lt_of_le (h.2 e he) hle⟩
  | file | symlink | null => trivial

namespace FileSystem

structure WellFormed (fs : FileSystem) : Prop where
  start : fs.start < fs.nextInode
  content? : ∀ {i c}, fs.content? i = some c → c.Bounded fs.nextInode

/-- The changes that a single file call can make. -/
inductive Call : FileSystem → FileSystem → Prop
  | makeDirectory {fs fs' p} : makeDirectory fs p = .ok fs' → Call fs fs'
  | makeSymlink {fs fs' target p} : makeSymlink fs target p = .ok fs' → Call fs fs'
  | linkFile {fs fs' p q} : linkFile fs p q = .ok fs' → Call fs fs'
  | removeFile {fs fs' p} : removeFile fs p = .ok fs' → Call fs fs'
  | removeDirectory {fs fs' p} : removeDirectory fs p = .ok fs' → Call fs fs'
  | rename {fs fs' p q} : rename fs p q = .ok fs' → Call fs fs'
  | writeFile {fs fs' p bytes} : writeFile fs p bytes = .ok fs' → Call fs fs'
  | createFile {fs fs' p mode bytes} : createFile fs p mode bytes = .ok fs' → Call fs fs'
  | copyFile {fs fs' p q} : copyFile fs p q = .ok fs' → Call fs fs'
  | changeMode {fs fs' p mode} : changeMode fs p mode = .ok fs' → Call fs fs'
  | changeModified {fs fs' p time} : changeModified fs p time = .ok fs' → Call fs fs'

variable {fs fs' : FileSystem} {ending : Ending} {d i j : Inode} {n m : Name} {p q : Path}
  {mode : Mode} {bytes : List UInt8} {segment : Segment} {c : Content}

theorem WellFormed.entries (h : fs.WellFormed) {e : Name × Inode} (he : e ∈ fs.entries d) :
    e.2 < fs.nextInode := by
  unfold FileSystem.entries at he
  split at he
  · next hc => exact (h.content? hc).2 e he
  · cases he

theorem WellFormed.child? (h : fs.WellFormed) (hi : fs.child? d n = some i) : i < fs.nextInode := by
  obtain ⟨es, _, hes, _⟩ := List.lookup_eq_some_iff.1 hi
  have he : (n, i) ∈ fs.entries d := by simp [hes]
  exact h.entries he

theorem wellFormed_empty : empty.WellFormed where
  start := by decide
  content? {i c} hc := by
    match i with
    | 0 =>
        cases hc
        exact ⟨by decide, by decide⟩
    | 1 =>
        cases hc
        exact ⟨by decide, by decide⟩
    | 2 =>
        cases hc
        exact ⟨by decide, by decide⟩
    | 3 =>
        cases hc
        trivial
    | i + 4 => cases hc

/-! ## Changes -/

theorem nextInode_setContent (i : Inode) (c : Content) :
    (fs.setContent i c).nextInode = fs.nextInode :=
  Array.size_modify

theorem nextInode_modifyEntries (f : List (Name × Inode) → List (Name × Inode)) :
    (fs.modifyEntries d f).nextInode = fs.nextInode := by
  unfold modifyEntries
  split
  · exact nextInode_setContent _ _
  · rfl

theorem nextInode_addNode (node : Node) : (fs.addNode node).nextInode = fs.nextInode + 1 :=
  Array.size_push _

theorem WellFormed.setMode (h : fs.WellFormed) : (fs.setMode i mode).WellFormed where
  start := by simpa [FileSystem.setMode, nextInode] using h.start
  content? hc := by
    rw [content?_setMode] at hc
    simpa [FileSystem.setMode, nextInode] using h.content? hc

theorem WellFormed.setModified (h : fs.WellFormed) {time : Timestamp} :
    (fs.setModified i time).WellFormed where
  start := by simpa [FileSystem.setModified, nextInode] using h.start
  content? hc := by
    rw [content?_setModified] at hc
    simpa [FileSystem.setModified, nextInode] using h.content? hc

theorem WellFormed.setContent (h : fs.WellFormed) (hc : c.Bounded fs.nextInode) :
    (fs.setContent i c).WellFormed where
  start := by
    rw [nextInode_setContent]
    exact h.start
  content? {j c'} hc' := by
    rw [content?_setContent] at hc'
    rw [nextInode_setContent]
    split at hc'
    · obtain ⟨_, _, rfl⟩ := Option.map_eq_some_iff.1 hc'
      exact hc
    · exact h.content? hc'

theorem WellFormed.modifyEntries (h : fs.WellFormed) {f : List (Name × Inode) → List (Name × Inode)}
    (hf : ∀ es, (∀ e ∈ es, e.2 < fs.nextInode) → ∀ e ∈ f es, e.2 < fs.nextInode) :
    (fs.modifyEntries d f).WellFormed := by
  unfold FileSystem.modifyEntries
  split
  · next p es hc =>
    obtain ⟨hp, hes⟩ := h.content? hc
    exact h.setContent ⟨hp, hf es hes⟩
  · exact h

theorem WellFormed.addEntry (h : fs.WellFormed) (hi : i < fs.nextInode) :
    (fs.addEntry d n i).WellFormed := by
  apply h.modifyEntries
  intro es hes e he
  rcases List.mem_append.1 he with he | he
  · exact hes e he
  · obtain rfl := List.mem_singleton.1 he
    exact hi

theorem WellFormed.removeEntry (h : fs.WellFormed) : (fs.removeEntry d n).WellFormed :=
  h.modifyEntries fun _ hes e he => hes e (List.mem_filter.1 he).1

theorem WellFormed.addNode (h : fs.WellFormed) {node : Node}
    (hc : node.content.Bounded fs.nextInode) : (fs.addNode node).WellFormed where
  start := by
    rw [nextInode_addNode]
    exact Nat.lt_succ_of_lt h.start
  content? {j c'} hc' := by
    rw [nextInode_addNode]
    rw [content?_addNode] at hc'
    split at hc'
    · cases hc'
      exact hc.mono (Nat.le_succ _)
    · exact (h.content? hc').mono (Nat.le_succ _)

theorem WellFormed.create (h : fs.WellFormed) (hc : c.Bounded fs.nextInode) :
    (fs.create d n mode c).WellFormed := by
  refine WellFormed.addEntry (h.addNode hc) ?_
  rw [nextInode_addNode]
  exact Nat.lt_succ_self _

/-- A moved directory lies in its new place. -/
theorem WellFormed.moveEntry (h : fs.WellFormed) (hi : i < fs.nextInode) (hj : j < fs.nextInode) :
    (fs.moveEntry i d n j m).WellFormed := by
  have hnext :
      (((fs.removeEntry d n).removeEntry j m).addEntry j m i).nextInode = fs.nextInode := by
    simp only [FileSystem.removeEntry, FileSystem.addEntry, nextInode_modifyEntries]
  have hmoved : (((fs.removeEntry d n).removeEntry j m).addEntry j m i).WellFormed := by
    refine h.removeEntry.removeEntry.addEntry ?_
    simpa only [FileSystem.removeEntry, nextInode_modifyEntries] using hi
  unfold FileSystem.moveEntry
  dsimp only
  split
  · next p es hc => exact hmoved.setContent ⟨by rwa [hnext], (hmoved.content? hc).2⟩
  · exact hmoved

/-! ## Calls -/

theorem WellFormed.parent (h : fs.WellFormed) (hd : fs.isDirectory d = true) :
    fs.parent d < fs.nextInode := by
  obtain ⟨p, es, hc⟩ := isDirectory_iff.1 hd
  simpa [FileSystem.parent, hc] using (h.content? hc).1

theorem WellFormed.step (h : fs.WellFormed) (hd : fs.enter d = .ok ())
    (hi : fs.step d segment = .ok i) : i < fs.nextInode := by
  have hdir := (enter_eq_ok_iff.1 hd).1
  cases segment with
  | here =>
      cases hi
      exact isDirectory_lt_nextInode hdir
  | up =>
      cases hi
      exact h.parent hdir
  | name n => exact h.child? (step_name_eq_ok_iff.1 hi).2

theorem WellFormed.linkBase (h : fs.WellFormed) (hd : d < fs.nextInode) (target : Path) :
    linkBase d target < fs.nextInode := by
  unfold FileSystem.linkBase
  split
  · exact Nat.lt_of_le_of_lt (Nat.zero_le _) h.start
  · exact hd

theorem Route.dir_lt_nextInode {segments : List Segment} {slash : Bool}
    {links : List (Inode × Segment)} {s : Slot} (hfs : fs.WellFormed) (hd : d < fs.nextInode)
    (h : fs.Route ending d segments slash links s) : s.dir < fs.nextInode := by
  induction h with
  | stay => exact hd
  | stop => exact hd
  | follow _ _ _ _ ih => exact ih (hfs.linkBase hd _)
  | step henter hi _ _ ih => exact ih (hfs.step henter hi)
  | jump _ _ _ _ ih => exact ih (hfs.linkBase hd _)

/-- What a path names is a node. -/
theorem WellFormed.find (h : fs.WellFormed) (hi : fs.find ending p = .ok i) : i < fs.nextInode := by
  obtain ⟨s, hslot, hnode⟩ := find_eq_ok_iff.1 hi
  obtain ⟨_, links, hroute, _⟩ := slot_eq_ok_iff.1 hslot
  have hstep := (nodeAt_eq_ok_iff.1 hnode).1
  rcases Route.slot_enter hroute with hhere | henter
  · have horigin : fs.origin p < fs.nextInode := by
      unfold origin
      split
      · exact Nat.lt_of_le_of_lt (Nat.zero_le _) h.start
      · exact h.start
    rw [hhere] at hstep
    cases hstep
    exact Route.dir_lt_nextInode h horigin hroute
  · exact h.step henter hstep

theorem WellFormed.store (h : fs.WellFormed) : (fs.store i bytes).WellFormed := by
  rcases store_cases fs i bytes with heq | ⟨_, heq⟩
  · rwa [heq]
  · rw [heq]
    exact h.setContent trivial

theorem WellFormed.storeMode (h : fs.WellFormed) : (fs.storeMode i mode).WellFormed := by
  rcases storeMode_cases fs i mode with heq | ⟨_, heq⟩
  · rwa [heq]
  · rw [heq]
    exact h.setMode

theorem WellFormed.openWrite (h : fs.WellFormed) (hopen : fs.openWrite mode p = .ok (j, fs')) :
    fs'.WellFormed := by
  obtain ⟨s, n, _, _, _, _, ⟨_, _, _, rfl⟩ | ⟨_, _, rfl⟩⟩ := openWrite_cases hopen
  · exact h.create trivial
  · exact h.store

/-- What is opened for writing is a file or the null device. -/
theorem WellFormed.content?_opens {base : FileSystem} (h : fs.WellFormed)
    (hopens : fs.Opens p d n j base) :
    (∃ old, base.content? j = some (.file old)) ∨ base.content? j = some .null := by
  rcases hopens.found_or_new with ⟨_, hj, rfl⟩ | ⟨_, hnew⟩
  · obtain ⟨hdir, htarget⟩ := hopens.kind
    obtain ⟨c, hcontent⟩ := exists_content? (h.child? hj)
    cases c with
    | file old => exact .inl ⟨old, hcontent⟩
    | null => exact .inr hcontent
    | directory => simp [FileSystem.isDirectory, hcontent] at hdir
    | symlink => simp [FileSystem.target?, hcontent] at htarget
  · exact .inl ⟨[], hnew⟩

theorem WellFormed.copyFile (h : fs.WellFormed) (hcopy : fs.copyFile p q = .ok fs') :
    fs'.WellFormed := by
  obtain ⟨_, _, mode, j, opened, _, _, _, hopen, rfl⟩ := copyFile_cases hcopy
  exact (h.openWrite hopen).store.storeMode

theorem removeDirectory_eq_ok (h : fs.removeDirectory p = .ok fs') :
    ∃ d n, fs' = fs.removeEntry d n := by
  obtain ⟨s, _, h⟩ := bind_eq_ok_iff.1 h
  split at h
  · cases h
  · cases h
  · obtain ⟨i, _, h⟩ := bind_eq_ok_iff.1 h
    obtain ⟨_, _, h⟩ := bind_eq_ok_iff.1 h
    split at h
    · cases h
    · split at h
      · cases h
      · split at h <;> cases h
        exact ⟨_, _, rfl⟩

theorem makeSymlink_eq_ok {target : Path} (h : fs.makeSymlink target p = .ok fs') :
    ∃ s name, fs.slot .name p = .ok s ∧ fs.vacantName s = .ok name ∧
      fs' = fs.create s.dir name ⟨true, true, true⟩ (.symlink target) := by
  obtain ⟨_, _, h⟩ := bind_eq_ok_iff.1 h
  obtain ⟨_, _, h⟩ := bind_eq_ok_iff.1 h
  obtain ⟨_, _, h⟩ := bind_eq_ok_iff.1 h
  obtain ⟨s, hslot, h⟩ := bind_eq_ok_iff.1 h
  obtain ⟨name, hname, h⟩ := bind_eq_ok_iff.1 h
  split at h
  · cases h
  · obtain ⟨_, _, h⟩ := bind_eq_ok_iff.1 h
    cases h
    exact ⟨s, name, hslot, hname, rfl⟩

/-- A rename changes nothing, or it moves one entry; a directory is not moved into itself. -/
theorem rename_cases (h : fs.rename p q = .ok fs') :
    fs' = fs ∨ ∃ old new oldName newName i,
      fs.slot .name p = .ok old ∧ old.last = .name oldName ∧
      fs.slot .name q = .ok new ∧ new.last = .name newName ∧
      fs.step old.dir old.last = .ok i ∧
      (fs.isDirectory i = true → fs.isWithin i fs.nodes.size new.dir = false) ∧
      fs' = fs.moveEntry i old.dir oldName new.dir newName := by
  obtain ⟨_, _, h⟩ := bind_eq_ok_iff.1 h
  obtain ⟨_, _, h⟩ := bind_eq_ok_iff.1 h
  obtain ⟨old, hold, h⟩ := bind_eq_ok_iff.1 h
  obtain ⟨new, hnew, h⟩ := bind_eq_ok_iff.1 h
  split at h
  · cases h
  · split at h
    · next oldName newName holdLast hnewLast =>
      obtain ⟨i, hi, h⟩ := bind_eq_ok_iff.1 h
      obtain ⟨taken, _, h⟩ := bind_eq_ok_iff.1 h
      split at h
      · cases h
      split at h
      · cases h
      · next hwithin =>
        have hapart : fs.isDirectory i = true → fs.isWithin i fs.nodes.size new.dir = false := by
          simpa using hwithin
        split at h
        · cases h
        split at h
        · cases h
          exact .inl rfl
        obtain ⟨_, _, hnewDir⟩ := bind_eq_ok_iff.1 h
        obtain ⟨_, _, hrest⟩ := bind_eq_ok_iff.1 hnewDir
        -- Whatever is still to be checked, in the end the entry is moved.
        have hmove : ∀ r r' : Except IoError Unit, (r >>= fun _ =>
            if fs.isMountPoint old.dir i = true then Except.error (IoError.system Errno.busy)
            else r' >>= fun _ => .ok (fs.moveEntry i old.dir oldName new.dir newName)) =
              .ok fs' → fs' = fs.moveEntry i old.dir oldName new.dir newName := by
          intro r r' hr
          obtain ⟨_, _, hr⟩ := bind_eq_ok_iff.1 hr
          split at hr
          · cases hr
          · obtain ⟨_, _, hr⟩ := bind_eq_ok_iff.1 hr
            cases hr
            rfl
        refine .inr ⟨old, new, oldName, newName, i, hold, holdLast, hnew, hnewLast, hi, hapart, ?_⟩
        dsimp only at hrest
        split at hrest
        · cases taken with
          | none => exact hmove (fs.checkWritable i) (.ok ()) hrest
          | some j => exact hmove (fs.checkWritable i) (fs.checkReplace i new.dir j) hrest
        · cases taken with
          | none => exact hmove (.ok ()) (.ok ()) hrest
          | some j => exact hmove (.ok ()) (fs.checkReplace i new.dir j) hrest
    · cases h

theorem WellFormed.rename (h : fs.WellFormed) (hrename : fs.rename p q = .ok fs') :
    fs'.WellFormed := by
  rcases rename_cases hrename with
    rfl | ⟨old, new, _, _, i, hold, holdLast, hnew, hnewLast, hi, _, rfl⟩
  · exact h
  · exact h.moveEntry (h.step (enter_of_slot hold holdLast) hi)
      (isDirectory_lt_nextInode (isDirectory_of_slot hnew hnewLast))

/-- Every file call keeps a file system well formed. -/
theorem WellFormed.call (h : fs.WellFormed) (hcall : Call fs fs') : fs'.WellFormed := by
  cases hcall with
  | makeDirectory hmake =>
      obtain ⟨s, name, hslot, hname, _, rfl⟩ := makeDirectory_eq_ok_iff.1 hmake
      obtain ⟨hlast, _⟩ := vacantName_eq_ok_iff.1 hname
      exact h.create ⟨isDirectory_lt_nextInode (isDirectory_of_slot hslot hlast), by simp⟩
  | makeSymlink hmake =>
      obtain ⟨s, name, _, _, rfl⟩ := makeSymlink_eq_ok hmake
      exact h.create trivial
  | linkFile hlink =>
      obtain ⟨i, s, name, hi, _, _, _, _, _, _, rfl⟩ := linkFile_eq_ok_iff.1 hlink
      exact h.addEntry (h.find hi)
  | removeFile hremove =>
      obtain ⟨s, name, i, _, _, _, _, _, _, rfl⟩ := removeFile_eq_ok_iff.1 hremove
      exact h.removeEntry
  | removeDirectory hremove =>
      obtain ⟨d, n, rfl⟩ := removeDirectory_eq_ok hremove
      exact h.removeEntry
  | rename hrename => exact h.rename hrename
  | writeFile hwrite =>
      obtain ⟨⟨j, opened⟩, hopen, hwrite⟩ := bind_eq_ok_iff.1 hwrite
      cases hwrite
      exact (h.openWrite hopen).store
  | createFile hcreate =>
      obtain ⟨s, name, _, _, _, _, rfl⟩ := createFile_eq_ok_iff.1 hcreate
      exact h.create trivial
  | copyFile hcopy => exact h.copyFile hcopy
  | changeMode hchange =>
      obtain ⟨i, _, hchange⟩ := bind_eq_ok_iff.1 hchange
      cases hchange
      exact h.setMode
  | changeModified hchange =>
      obtain ⟨i, _, hchange⟩ := bind_eq_ok_iff.1 hchange
      cases hchange
      exact h.setModified

theorem WellFormed.makeFirst (h : fs.WellFormed) (ps : List Path) :
    (fs.makeFirst ps).2.WellFormed := by
  apply makeFirst_induction h
  intro mid made p _ _ hmid hmade
  exact hmid.call (.makeDirectory hmade)

theorem WellFormed.provideParent {made : FileSystem} {result : Except Failure Unit}
    (h : fs.WellFormed) (hparent : fs.provideParent p = (result, made)) : made.WellFormed := by
  apply provideParent_induction hparent h
  intro mid made q hmid hmade
  exact hmid.call (.makeDirectory hmade)

/-- The file system in which nothing has happened but that some files were written. -/
def withFiles (files : List (String × String)) : FileSystem :=
  files.foldl (fun fs file =>
    (fs.writeFile (.ofString file.1) (Utf8.encode file.2)).toOption.getD fs) empty

/-- What the file system without files has, and writing a file keeps, all of these have. -/
theorem withFiles_induction {P : FileSystem → Prop} (hempty : P empty)
    (hcall : ∀ {fs fs' : FileSystem}, P fs → Call fs fs' → P fs') (files : List (String × String)) :
    P (withFiles files) := by
  unfold withFiles
  generalize empty = fs at hempty
  induction files generalizing fs with
  | nil => exact hempty
  | cons file files ih =>
      rw [List.foldl_cons]
      cases hwrite : fs.writeFile (.ofString file.1) (Utf8.encode file.2) with
      | error e => exact ih fs hempty
      | ok written => exact ih written (hcall hempty (.writeFile hwrite))

theorem wellFormed_withFiles (files : List (String × String)) : (withFiles files).WellFormed :=
  withFiles_induction wellFormed_empty WellFormed.call files

end FileSystem

end Hardlinks
