-- SUMMARY: When the file calls succeed, and what they have done then.
import Mathlib.Data.List.Forall2
import Hardlinks.Proofs.FileSystem.Growth

/-!
# Successful calls

One equivalence per call: the slot that its path leads to, the conditions that hold there, and the
file system after it. Making and linking only add (`grows_of_makeDirectory`, `grows_of_linkFile`).
-/

namespace Hardlinks.FileSystem

variable {fs fs' : FileSystem} {ending : Ending} {dir i j : Inode} {name : Name} {s : Slot}
  {p q : Path}

theorem bind_eq_ok_iff {ε α β : Type} {x : Except ε α} {f : α → Except ε β} {b : β} :
    (x >>= f) = .ok b ↔ ∃ a, x = .ok a ∧ f a = .ok b := by
  cases x <;> simp [bind, Except.bind]

theorem bind_eq_error_iff {ε α β : Type} {x : Except ε α} {f : α → Except ε β} {e : ε} :
    (x >>= f) = .error e ↔ x = .error e ∨ ∃ a, x = .ok a ∧ f a = .error e := by
  cases x <;> simp [bind, Except.bind]

theorem mapM_eq_ok_iff {ε α β : Type} {f : α → Except ε β} {xs : List α} {ys : List β} :
    xs.mapM f = .ok ys ↔ List.Forall₂ (fun x y => f x = .ok y) xs ys := by
  induction xs generalizing ys with
  | nil => cases ys <;> simp [pure, Except.pure]
  | cons x xs ih =>
      rw [List.mapM_cons, bind_eq_ok_iff]
      constructor
      · rintro ⟨y, hy, h⟩
        obtain ⟨ys', hys, h⟩ := bind_eq_ok_iff.1 h
        cases h
        exact .cons hy (ih.1 hys)
      · rintro (_ | ⟨hy, hys⟩)
        exact ⟨_, hy, bind_eq_ok_iff.2 ⟨_, ih.2 hys, rfl⟩⟩

/-- What fails is the first element that does. -/
theorem mapM_eq_error_iff {ε α β : Type} {f : α → Except ε β} {xs : List α} {e : ε} :
    xs.mapM f = .error e ↔ ∃ front x rest, xs = front ++ x :: rest ∧
      (∀ other ∈ front, ∃ y, f other = .ok y) ∧ f x = .error e := by
  induction xs with
  | nil => simp [pure, Except.pure]
  | cons x xs ih =>
      rw [List.mapM_cons, bind_eq_error_iff]
      constructor
      · rintro (hx | ⟨y, hy, h⟩)
        · exact ⟨[], x, xs, rfl, by simp, hx⟩
        · rcases bind_eq_error_iff.1 h with h | ⟨_, _, h⟩
          · obtain ⟨front, x', rest, rfl, hfront, hx'⟩ := ih.1 h
            exact ⟨x :: front, x', rest, rfl, List.forall_mem_cons.2 ⟨⟨y, hy⟩, hfront⟩, hx'⟩
          · cases h
      · rintro ⟨front, x', rest, hxs, hfront, hx'⟩
        cases front with
        | nil =>
            obtain ⟨rfl, rfl⟩ := List.cons.inj hxs
            exact .inl hx'
        | cons first front =>
            obtain ⟨rfl, rfl⟩ := List.cons.inj hxs
            obtain ⟨⟨y, hy⟩, hfront⟩ := List.forall_mem_cons.1 hfront
            have hrest := ih.2 ⟨front, x', rest, rfl, hfront, hx'⟩
            exact .inr ⟨y, hy, bind_eq_error_iff.2 (.inl hrest)⟩

/-! ## Slots of names -/

theorem vacantName_eq_ok_iff :
    fs.vacantName s = .ok name ↔
      s.last = .name name ∧ name.length ≤ Path.nameLimit ∧ fs.child? s.dir name = none := by
  constructor
  · intro h
    unfold vacantName at h
    split at h
    · next n hlast =>
      split at h
      · cases h
      · next hlong =>
        split at h
        · cases h
        · next hfree =>
          cases h
          exact ⟨hlast, Nat.le_of_not_lt hlong, by simpa using hfree⟩
    · cases h
  · rintro ⟨hlast, hlength, hfree⟩
    simp [vacantName, hlast, hfree, Nat.not_lt.2 hlength]

theorem vacantName_of_step (h : fs.step s.dir s.last = .ok i) :
    fs.vacantName s = .error (.system .exists) := by
  unfold vacantName
  split
  · next n hlast =>
    obtain ⟨hlength, hchild⟩ := step_name_eq_ok_iff.1 (hlast ▸ h)
    simp [hchild, Nat.not_lt.2 hlength]
  · rfl

theorem names_of_vacantName (hslot : fs.slot .name p = .ok s)
    (hname : fs.vacantName s = .ok name) : fs.Names p s.dir name := by
  obtain ⟨hlast, _⟩ := vacantName_eq_ok_iff.1 hname
  exact ⟨s.slash, by rw [hslot, ← hlast]⟩

/-- A name is refused for what is there, not for what is missing. -/
theorem kind_of_vacantName {e : IoError} (h : fs.vacantName s = .error e) : e.kind ≠ .notFound := by
  unfold vacantName at h
  split at h
  · split at h
    · cases h
      simp [IoError.kind, Errno.kind]
    · split at h <;> cases h
      simp [IoError.kind, Errno.kind]
  · cases h
    simp [IoError.kind, Errno.kind]

theorem takenName_eq_ok_iff :
    fs.takenName s = .ok (name, i) ↔ s.last = .name name ∧ fs.step s.dir s.last = .ok i := by
  constructor
  · intro h
    unfold takenName at h
    split at h
    · next n hlast =>
      split at h
      · next j hj =>
        cases h
        exact ⟨hlast, by rw [hlast, hj]⟩
      · cases h
    · cases h
  · rintro ⟨hlast, hi⟩
    rw [hlast] at hi
    simp [takenName, hlast, hi]

theorem checkWritable_eq_ok_iff {u : Unit} :
    fs.checkWritable dir = .ok u ↔ fs.allows dir Mode.write = true := by
  unfold checkWritable
  cases fs.allows dir Mode.write <;> simp

theorem checkWritable_eq_error_iff {e : IoError} :
    fs.checkWritable dir = .error e ↔
      fs.allows dir Mode.write = false ∧ e = .system .accessDenied := by
  unfold checkWritable
  cases fs.allows dir Mode.write <;> simp [eq_comm]

/-- The directory of a slot with a name can be looked into. -/
theorem enter_of_slot (hslot : fs.slot ending p = .ok s) (hlast : s.last = .name name) :
    fs.enter s.dir = .ok () := by
  obtain ⟨_, links, hroute, _⟩ := slot_eq_ok_iff.1 hslot
  rcases Route.slot_enter hroute with hhere | henter
  · simp [hlast] at hhere
  · exact henter

theorem isDirectory_of_slot (hslot : fs.slot ending p = .ok s) (hlast : s.last = .name name) :
    fs.isDirectory s.dir = true :=
  (enter_eq_ok_iff.1 (enter_of_slot hslot hlast)).1

/-- A directory in which a name is free is no new node. -/
theorem dir_ne_nextInode (hslot : fs.slot ending p = .ok s) (hname : fs.vacantName s = .ok name) :
    s.dir ≠ fs.nextInode :=
  Nat.ne_of_lt
    (isDirectory_lt_nextInode (isDirectory_of_slot hslot (vacantName_eq_ok_iff.1 hname).1))

theorem checkBytes_of_slot (hslot : fs.slot ending p = .ok s) : p.checkBytes = .ok () := by
  obtain ⟨hcheck, _⟩ := slot_eq_ok_iff.1 hslot
  unfold Path.check at hcheck
  obtain ⟨u, hbytes, _⟩ := bind_eq_ok_iff.1 hcheck
  exact hbytes

/-- A name whose entry is no link to be replaced is found where the name is. -/
theorem find_of_slot_name (hslot : fs.slot .name p = .ok s) (hi : fs.step s.dir s.last = .ok i)
    (hslash : s.slash = true → fs.isDirectory i = true)
    (hkept : ending.follows s.slash = false ∨ fs.target? i = none) : fs.find ending p = .ok i := by
  obtain ⟨hcheck, links, hroute, hlinks⟩ := slot_eq_ok_iff.1 hslot
  refine find_eq_ok_iff.2 ⟨s, slot_eq_ok_iff.2 ⟨hcheck, links, ?_, hlinks⟩,
    nodeAt_eq_ok_iff.2 ⟨hi, hslash⟩⟩
  apply Route.of_name hroute
  intro target htarget
  rcases hkept with hfollows | hnone
  · rwa [← Route.slash_of_name hroute]
  · rw [Settled.linkAt? ⟨hi, hnone⟩] at htarget
    cases htarget

/-- Whatever a path names, there is an entry at its last name. -/
theorem exists_slot_name (hi : fs.find ending p = .ok i) :
    ∃ t j, fs.slot .name p = .ok t ∧ fs.step t.dir t.last = .ok j := by
  obtain ⟨s, hslot, hnode⟩ := find_eq_ok_iff.1 hi
  obtain ⟨hcheck, links, hroute, hlinks⟩ := slot_eq_ok_iff.1 hslot
  obtain ⟨links', t, hname, hend⟩ := Route.split_last hroute
  rcases hend with ⟨rfl, rfl⟩ | ⟨target, links'', hlink, _, rfl, _⟩
  · exact ⟨s, i, slot_eq_ok_iff.2 ⟨hcheck, links, hname, hlinks⟩, (nodeAt_eq_ok_iff.1 hnode).1⟩
  · obtain ⟨j, hj, _⟩ := linkAt?_eq_some_iff.1 hlink
    refine ⟨t, j, slot_eq_ok_iff.2 ⟨hcheck, links', hname, ?_⟩, hj⟩
    simp only [List.length_append] at hlinks
    omega

/-- A slash at the end has all links replaced. -/
theorem Route.keep_of_slash {d : Inode} {segments : List Segment} {slash : Bool}
    {links : List (Inode × Segment)} (h : fs.Route .follow d segments slash links s)
    (hslash : slash = true) : fs.Route .keep d segments slash links s := by
  induction h with
  | stay => exact .stay
  | stop henter hlink =>
      refine .stop henter ?_
      intro target htarget
      cases hlink target htarget
  | follow henter htarget _ _ ih => exact .follow henter htarget hslash (ih (by simp [hslash]))
  | step henter hi htarget _ ih => exact .step henter hi htarget (ih hslash)
  | jump henter hi htarget _ ih => exact .jump henter hi htarget (ih hslash)

/-- A path that leads somewhere also names something. -/
theorem exists_find_keep (hi : fs.find .follow p = .ok i) : ∃ j, fs.find .keep p = .ok j := by
  obtain ⟨s, hslot, hnode⟩ := find_eq_ok_iff.1 hi
  obtain ⟨hcheck, links, hroute, hlinks⟩ := slot_eq_ok_iff.1 hslot
  cases hends : p.endsInSlash with
  | true =>
      have hkeep : fs.PathRoute .keep p links s := Route.keep_of_slash hroute hends
      exact ⟨i, find_eq_ok_iff.2 ⟨s, slot_eq_ok_iff.2 ⟨hcheck, links, hkeep, hlinks⟩, hnode⟩⟩
  | false =>
      obtain ⟨t, j, hname, hj⟩ := exists_slot_name hi
      obtain ⟨_, _, hnameRoute, _⟩ := slot_eq_ok_iff.1 hname
      have hslash : t.slash = false := (Route.slash_of_name hnameRoute).trans hends
      exact ⟨j, find_of_slot_name hname hj (by simp [hslash]) (.inl hslash)⟩

/-! ## Reading -/

theorem readFile_eq_ok_iff {bytes : List UInt8} :
    fs.readFile p = .ok bytes ↔
      ∃ i, fs.find .follow p = .ok i ∧ fs.allows i Mode.read = true ∧
        fs.bytes? i = some bytes := by
  unfold readFile openRead
  simp only [bind_eq_ok_iff]
  constructor
  · rintro ⟨i, ⟨j, hj, hallows⟩, hcontent⟩
    split at hallows
    · next hread =>
      cases hallows
      split at hcontent
      · next hfile =>
        cases hcontent
        exact ⟨i, hj, hread, hfile⟩
      · cases hcontent
    · cases hallows
  · rintro ⟨i, hi, hread, hfile⟩
    exact ⟨i, ⟨i, hi, by rw [if_pos hread]⟩, by rw [hfile]⟩

theorem syncFile_eq_ok_iff :
    fs.syncFile p = .ok () ↔
      ∃ i, fs.find .follow p = .ok i ∧ fs.allows i Mode.read = true ∧
        fs.content? i ≠ some .null := by
  unfold syncFile openRead
  simp only [bind_eq_ok_iff]
  constructor
  · rintro ⟨i, ⟨j, hj, hallows⟩, hcontent⟩
    split at hallows
    · next hread =>
      cases hallows
      split at hcontent
      · cases hcontent
      · next hdevice => exact ⟨i, hj, hread, hdevice⟩
    · cases hallows
  · rintro ⟨i, hi, hread, hdevice⟩
    exact ⟨i, ⟨i, hi, by rw [if_pos hread]⟩, by rw [if_neg hdevice]⟩

theorem readText_eq_ok_iff {text : List UInt8} :
    fs.readText p = .ok text ↔ fs.readFile p = .ok text ∧ Utf8.isValid text = true := by
  unfold readText
  simp only [bind_eq_ok_iff]
  constructor
  · rintro ⟨bytes, hbytes, htext⟩
    split at htext
    · next hvalid =>
      cases htext
      exact ⟨hbytes, hvalid⟩
    · cases htext
  · rintro ⟨hbytes, hvalid⟩
    exact ⟨text, hbytes, if_pos hvalid⟩

/-- What is there fails to be read for another reason than that it is missing. -/
theorem kind_of_readText {e : IoError} (hi : fs.find .follow p = .ok i)
    (h : fs.readText p = .error e) : e.kind ≠ .notFound := by
  rcases bind_eq_error_iff.1 h with hread | ⟨bytes, _, htext⟩
  · rcases bind_eq_error_iff.1 hread with hopen | ⟨j, _, hbytes⟩
    · rcases bind_eq_error_iff.1 hopen with hfind | ⟨j, _, hallows⟩
      · simp [hi] at hfind
      · split at hallows <;> cases hallows
        simp [IoError.kind, Errno.kind]
    · split at hbytes <;> cases hbytes
      simp [IoError.kind, Errno.kind]
  · split at htext <;> cases htext
    simp [IoError.notText, IoError.kind]

/-- A text stays what it is where walks are kept, and bytes with their permissions. -/
theorem KeepsWalks.readText (h : fs.KeepsWalks fs')
    (hkept : ∀ {i bytes}, fs.bytes? i = some bytes →
      fs'.bytes? i = some bytes ∧ fs'.allows i = fs.allows i)
    {text : List UInt8} (ht : fs.readText p = .ok text) : fs'.readText p = .ok text := by
  obtain ⟨hread, hvalid⟩ := readText_eq_ok_iff.1 ht
  obtain ⟨i, hi, hallows, hbytes⟩ := readFile_eq_ok_iff.1 hread
  obtain ⟨hbytes', hmode⟩ := hkept hbytes
  rw [← hmode] at hallows
  exact readText_eq_ok_iff.2 ⟨readFile_eq_ok_iff.2 ⟨i, h.find hi, hallows, hbytes'⟩, hvalid⟩

/-- A text stays what it is while nodes and entries are added. -/
theorem readText_of_grows (h : fs.Grows fs') {text : List UInt8} (ht : fs.readText p = .ok text) :
    fs'.readText p = .ok text := by
  refine h.extends.keepsWalks.readText ?_ ht
  intro i bytes hbytes
  refine ⟨h.bytes? hbytes, ?_⟩
  cases hnode : fs.node? i with
  | none => simp [FileSystem.bytes?, FileSystem.content?, hnode] at hbytes
  | some node =>
      obtain ⟨node', hnode', hgrows⟩ := h.node? hnode
      funext permission
      simp [FileSystem.allows, hnode, hnode', hgrows.mode]

/-! ## Making directories -/

theorem makeDirectory_eq_ok_iff :
    fs.makeDirectory p = .ok fs' ↔
      ∃ s name, fs.slot .name p = .ok s ∧ fs.vacantName s = .ok name ∧
        fs.allows s.dir Mode.write = true ∧
        fs' = fs.create s.dir name .ofNewDirectory (.directory s.dir []) := by
  unfold makeDirectory
  simp only [bind_eq_ok_iff, checkWritable_eq_ok_iff, Except.ok.injEq]
  constructor
  · rintro ⟨s, hslot, name, hname, _, hwrite, rfl⟩
    exact ⟨s, name, hslot, hname, hwrite, rfl⟩
  · rintro ⟨s, name, hslot, hname, hwrite, rfl⟩
    exact ⟨s, hslot, name, hname, (), hwrite, rfl⟩

theorem grows_of_makeDirectory (h : fs.makeDirectory p = .ok fs') : fs.Grows fs' := by
  obtain ⟨s, name, _, _, _, rfl⟩ := makeDirectory_eq_ok_iff.1 h
  exact grows_create (by simp)

/-- A name that is taken is not made again. -/
theorem makeDirectory_of_find (hi : fs.find ending p = .ok i) :
    fs.makeDirectory p = .error (.system .exists) := by
  obtain ⟨t, j, hslot, hj⟩ := exists_slot_name hi
  simp [makeDirectory, hslot, vacantName_of_step hj, bind, Except.bind]

/-! ## Linking -/

theorem linkFile_eq_ok_iff :
    fs.linkFile p q = .ok fs' ↔
      ∃ i s name, fs.find .keep p = .ok i ∧ fs.slot .name q = .ok s ∧ fs.vacantName s = .ok name ∧
        s.slash = false ∧ fs.device i = fs.device s.dir ∧ fs.allows s.dir Mode.write = true ∧
        fs.isDirectory i = false ∧ fs' = fs.addEntry s.dir name i := by
  unfold linkFile
  simp only [bind_eq_ok_iff]
  constructor
  · rintro ⟨_, _, _, _, i, hi, s, hslot, name, hname, h⟩
    split at h
    · cases h
    · next hslash =>
      split at h
      · cases h
      · next hdevice =>
        obtain ⟨_, hwrite, h⟩ := bind_eq_ok_iff.1 h
        split at h
        · cases h
        · next hdir =>
          cases h
          exact ⟨i, s, name, hi, hslot, hname, by simpa using hslash, by simpa using hdevice,
            checkWritable_eq_ok_iff.1 hwrite, by simpa using hdir, rfl⟩
  · rintro ⟨i, s, name, hi, hslot, hname, hslash, hdevice, hwrite, hdir, rfl⟩
    obtain ⟨t, hfrom, _⟩ := find_eq_ok_iff.1 hi
    refine ⟨(), checkBytes_of_slot hfrom, (), checkBytes_of_slot hslot, i, hi, s, hslot, name,
      hname, ?_⟩
    simp [hslash, hdevice, hdir, checkWritable, hwrite, bind, Except.bind]

theorem grows_of_linkFile (h : fs.linkFile p q = .ok fs') : fs.Grows fs' := by
  obtain ⟨i, s, name, _, _, _, _, _, _, _, rfl⟩ := linkFile_eq_ok_iff.1 h
  exact grows_addEntry _ _ _

/-- A name that is taken is not linked again. -/
theorem linkFile_of_find (hi : fs.find .keep p = .ok i) (hj : fs.find ending q = .ok j) :
    fs.linkFile p q = .error (.system .exists) := by
  obtain ⟨s, hfrom, _⟩ := find_eq_ok_iff.1 hi
  obtain ⟨t, k, hto, hk⟩ := exists_slot_name hj
  simp [linkFile, checkBytes_of_slot hfrom, checkBytes_of_slot hto, hi, hto, vacantName_of_step hk,
    bind, Except.bind]

/-! ## Making and opening files -/

theorem createFile_eq_ok_iff {mode : Mode} {bytes : List UInt8} :
    fs.createFile p mode bytes = .ok fs' ↔
      ∃ s name, fs.slot .name p = .ok s ∧ s.slash = false ∧ fs.vacantName s = .ok name ∧
        fs.allows s.dir Mode.write = true ∧ fs' = fs.create s.dir name mode (.file bytes) := by
  unfold createFile
  simp only [bind_eq_ok_iff]
  constructor
  · rintro ⟨s, hslot, h⟩
    split at h
    · cases h
    · next hslash =>
      obtain ⟨name, hname, _, hwrite, h⟩ := by simpa only [bind_eq_ok_iff] using h
      cases h
      exact ⟨s, name, hslot, by simpa using hslash, hname, checkWritable_eq_ok_iff.1 hwrite, rfl⟩
  · rintro ⟨s, name, hslot, hslash, hname, hwrite, rfl⟩
    refine ⟨s, hslot, ?_⟩
    simp [hslash, hname, checkWritable, hwrite, bind, Except.bind]

theorem grows_of_createFile {mode : Mode} {bytes : List UInt8}
    (h : fs.createFile p mode bytes = .ok fs') : fs.Grows fs' := by
  obtain ⟨s, name, _, _, _, _, rfl⟩ := createFile_eq_ok_iff.1 h
  exact grows_create (by simp)

/-- What is written changes the content of a file, or nothing. -/
theorem store_cases (fs : FileSystem) (i : Inode) (bytes : List UInt8) :
    fs.store i bytes = fs ∨ (∃ old, fs.content? i = some (.file old)) ∧
      fs.store i bytes = fs.setContent i (.file bytes) := by
  unfold store
  split
  · next old hold => exact .inr ⟨⟨old, hold⟩, rfl⟩
  · exact .inl rfl

theorem storeMode_cases (fs : FileSystem) (i : Inode) (mode : Mode) :
    fs.storeMode i mode = fs ∨ (∃ bytes, fs.content? i = some (.file bytes)) ∧
      fs.storeMode i mode = fs.setMode i mode := by
  unfold storeMode
  split
  · next bytes hbytes => exact .inr ⟨⟨bytes, hbytes⟩, rfl⟩
  · exact .inl rfl

theorem content?_store {old : List UInt8} (h : fs.content? i = some (.file old))
    (bytes : List UInt8) : (fs.store i bytes).content? i = some (.file bytes) := by
  simp [store, h, content?_setContent]

theorem content?_store_of_ne (hne : i ≠ j) (bytes : List UInt8) :
    (fs.store i bytes).content? j = fs.content? j := by
  rcases store_cases fs i bytes with heq | ⟨_, heq⟩
  · rw [heq]
  · rw [heq, content?_setContent, if_neg hne]

theorem content?_create_of_file {d : Inode} {n : Name} {mode : Mode} {c : Content}
    {bytes : List UInt8} (hfile : fs.content? i = some (.file bytes)) :
    (fs.create d n mode c).content? i = some (.file bytes) := by
  have hne : i ≠ fs.nextInode := fun heq => by simp [heq, content?_nextInode] at hfile
  rw [create, addEntry, content?_modifyEntries, content?_addNode, if_neg hne, hfile]

/-- A file that is opened for writing is new, or it is emptied. -/
theorem openWrite_cases {mode : Mode} (h : fs.openWrite mode p = .ok (j, fs')) :
    ∃ s n, fs.slot .write p = .ok s ∧ s.last = .name n ∧ s.slash = false ∧
      n.length ≤ Path.nameLimit ∧
      ((fs.child? s.dir n = none ∧ fs.allows s.dir Mode.write = true ∧ j = fs.nextInode ∧
          fs' = fs.create s.dir n mode (.file [])) ∨
        (fs.child? s.dir n = some j ∧ fs.isDirectory j = false ∧
          fs' = fs.store j [])) := by
  obtain ⟨s, hslot, h⟩ := bind_eq_ok_iff.1 h
  split at h
  · next n hlast hslash =>
    split at h
    · cases h
    · next hlength =>
      refine ⟨s, n, hslot, hlast, hslash, Nat.le_of_not_lt hlength, ?_⟩
      split at h
      · next hfree =>
        obtain ⟨_, hwrite, h⟩ := bind_eq_ok_iff.1 h
        cases h
        exact .inl ⟨hfree, checkWritable_eq_ok_iff.1 hwrite, rfl, rfl⟩
      · next i hi =>
        split at h
        · cases h
        · next hdir =>
          split at h <;> cases h
          exact .inr ⟨hi, by simpa using hdir, rfl⟩
  · cases h

/-- Opening a file for writing leaves a file that was there, if perhaps an empty one. -/
theorem content?_openWrite {mode : Mode} {old : List UInt8}
    (h : fs.openWrite mode p = .ok (j, fs')) (hi : fs.content? i = some (.file old)) :
    fs'.content? i = some (.file (if i = j then [] else old)) := by
  obtain ⟨s, n, _, _, _, _, ⟨_, _, rfl, rfl⟩ | ⟨_, _, rfl⟩⟩ := openWrite_cases h
  · have hne : i ≠ fs.nextInode := fun heq => by simp [heq, content?_nextInode] at hi
    rw [if_neg hne, content?_create_of_file hi]
  · by_cases heq : i = j
    · subst heq
      rw [if_pos rfl, content?_store hi]
    · rw [if_neg heq, content?_store_of_ne (Ne.symm heq), hi]

/-- A copy opens its target and writes to it what its source holds then. -/
theorem copyFile_cases (h : fs.copyFile p q = .ok fs') :
    ∃ i bytes mode j opened, fs.find .follow p = .ok i ∧ mode.read = true ∧
      fs.content? i = some (.file bytes) ∧ fs.openWrite mode q = .ok (j, opened) ∧
      fs' = (opened.store j (if i = j then [] else bytes)).storeMode j mode := by
  obtain ⟨i, hopenRead, h⟩ := bind_eq_ok_iff.1 h
  obtain ⟨_, hi, hallows⟩ := bind_eq_ok_iff.1 hopenRead
  split at hallows
  · next hread =>
    cases hallows
    split at h
    · next mode _ bytes hnode =>
      have hfile : fs.content? i = some (.file bytes) := by simp [content?, hnode]
      obtain ⟨⟨j, opened⟩, hopen, h⟩ := bind_eq_ok_iff.1 h
      have hmode : mode.read = true := by simpa [allows, hnode] using hread
      simp only [content?_openWrite hopen hfile, Except.ok.injEq] at h
      exact ⟨i, bytes, mode, j, opened, hi, hmode, hfile, hopen, h.symm⟩
    · cases h
  · cases hallows

/-! ## Removing -/

theorem removeFile_eq_ok_iff :
    fs.removeFile p = .ok fs' ↔
      ∃ s name i, fs.slot .name p = .ok s ∧ s.last = .name name ∧ fs.step s.dir s.last = .ok i ∧
        s.slash = false ∧ fs.allows s.dir Mode.write = true ∧ fs.isDirectory i = false ∧
        fs' = fs.removeEntry s.dir name := by
  unfold removeFile
  simp only [bind_eq_ok_iff]
  constructor
  · rintro ⟨s, hslot, ⟨name, i⟩, hname, h⟩
    obtain ⟨hlast, hi⟩ := takenName_eq_ok_iff.1 hname
    simp only at h
    split at h
    · cases h
    · next hslash =>
      obtain ⟨_, hwrite, h⟩ := bind_eq_ok_iff.1 h
      split at h
      · cases h
      · next hdir =>
        cases h
        exact ⟨s, name, i, hslot, hlast, hi, by simpa using hslash,
          checkWritable_eq_ok_iff.1 hwrite, by simpa using hdir, rfl⟩
  · rintro ⟨s, name, i, hslot, hlast, hi, hslash, hwrite, hdir, rfl⟩
    refine ⟨s, hslot, (name, i), takenName_eq_ok_iff.2 ⟨hlast, hi⟩, ?_⟩
    simp [hslash, hdir, checkWritable, hwrite, bind, Except.bind]

end Hardlinks.FileSystem
