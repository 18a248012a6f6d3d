-- SUMMARY: Making missing directories: what it adds, and that it can be cut short and begun again.
import Mathlib.Data.List.Chain
import Hardlinks.FileSystem.Directories
import Hardlinks.Proofs.FileSystem.Calls
import Hardlinks.Proofs.Path.Segments

/-!
# Missing directories

Making a directory with its missing ancestors only adds entries, each a new directory at the name of
one of the paths (`child?_makeFirst`). It takes several calls, and between two of them it can be cut
short. Begun again from any file system in between, it ends in the same one (`Midway.resume`): as
long as an ancestor is missing the directory cannot be made, so the second attempt goes up to just
that ancestor.
-/

namespace Hardlinks.FileSystem

variable {fs mid made linked : FileSystem} {ending : Ending} {i j : Inode} {name : Name} {d : Inode}
  {n : Name} {s : Slot} {p q : Path} {ps ancestors : List Path} {e : IoError}
  {result : Except Failure Unit}

/-! ## New entries -/

/-- A new entry in a directory is the one entry that was not there. -/
theorem child?_addEntry_of_vacant (hslot : fs.slot ending p = .ok s)
    (hname : fs.vacantName s = .ok name) :
    (fs.addEntry s.dir name i).child? d n =
      if d = s.dir ∧ n = name then some i else fs.child? d n := by
  obtain ⟨hlast, _, hfree⟩ := vacantName_eq_ok_iff.1 hname
  exact child?_addEntry i (isDirectory_of_slot hslot hlast) hfree d n

theorem entries_addNode {node : Node} (hempty : ∀ p es, node.content = .directory p es → es = []) :
    (fs.addNode node).entries d = fs.entries d := by
  unfold entries
  rw [content?_addNode]
  by_cases hd : d = fs.nextInode
  · rw [if_pos hd, hd, content?_nextInode]
    cases hc : node.content with
    | directory p es => exact hempty p es hc
    | file | symlink | null => rfl
  · rw [if_neg hd]

theorem child?_addNode {node : Node} (hempty : ∀ p es, node.content = .directory p es → es = []) :
    (fs.addNode node).child? d n = fs.child? d n := by
  rw [child?, entries_addNode hempty, child?]

/-- The entry of a new node is the one entry that was not there. -/
theorem child?_create {mode : Mode} {content : Content}
    (hempty : ∀ p es, content = .directory p es → es = []) (hslot : fs.slot ending p = .ok s)
    (hname : fs.vacantName s = .ok name) :
    (fs.create s.dir name mode content).child? d n =
      if d = s.dir ∧ n = name then some fs.nextInode else fs.child? d n := by
  obtain ⟨hlast, _, hfree⟩ := vacantName_eq_ok_iff.1 hname
  have hdir := isDirectory_of_slot hslot hlast
  have hne := dir_ne_nextInode hslot hname
  rw [create, child?_addEntry, child?_addNode hempty]
  · rw [isDirectory, content?_addNode, if_neg hne]
    exact hdir
  · rw [child?_addNode hempty, hfree]

/-- Under its name the new entry is reached. -/
theorem step_addEntry_of_vacant (hslot : fs.slot ending p = .ok s)
    (hname : fs.vacantName s = .ok name) :
    (fs.addEntry s.dir name i).step s.dir s.last = .ok i := by
  obtain ⟨hlast, hlength, _⟩ := vacantName_eq_ok_iff.1 hname
  rw [hlast, step_name_eq_ok_iff, child?_addEntry_of_vacant hslot hname, if_pos ⟨rfl, rfl⟩]
  exact ⟨hlength, rfl⟩

theorem step_create {mode : Mode} {content : Content}
    (hempty : ∀ p es, content = .directory p es → es = []) (hslot : fs.slot ending p = .ok s)
    (hname : fs.vacantName s = .ok name) :
    (fs.create s.dir name mode content).step s.dir s.last = .ok fs.nextInode := by
  obtain ⟨hlast, hlength, _⟩ := vacantName_eq_ok_iff.1 hname
  rw [hlast, step_name_eq_ok_iff, child?_create hempty hslot hname, if_pos ⟨rfl, rfl⟩]
  exact ⟨hlength, rfl⟩

theorem isDirectory_addEntry : (fs.addEntry d n i).isDirectory j = fs.isDirectory j :=
  isDirectory_modifyEntries _ _ _

theorem isDirectory_create_nextInode {mode : Mode} {p : Inode} {es : List (Name × Inode)} :
    (fs.create d n mode (.directory p es)).isDirectory fs.nextInode = true := by
  rw [create, isDirectory_addEntry, isDirectory, content?_addNode, if_pos rfl]

/-! ## One directory -/

/-- A directory that is made is one new entry, at the name of the path. -/
theorem child?_makeDirectory (h : fs.makeDirectory p = .ok made) (hi : made.child? d n = some i) :
    fs.child? d n = some i ∨
      made.Names p d n ∧ made.isDirectory i = true ∧ fs.nextInode ≤ i := by
  have hgrows := grows_of_makeDirectory h
  obtain ⟨s, name, hslot, hname, _, rfl⟩ := makeDirectory_eq_ok_iff.1 h
  rw [child?_create (by simp) hslot hname] at hi
  split at hi
  · next heq =>
    obtain ⟨rfl, rfl⟩ := heq
    cases hi
    exact .inr ⟨(names_of_vacantName hslot hname).extend hgrows.extends,
      isDirectory_create_nextInode, Nat.le_refl _⟩
  · exact .inl hi

/-- A new directory is found under its path. -/
theorem find_of_makeDirectory (h : fs.makeDirectory p = .ok made) :
    made.find .follow p = .ok fs.nextInode ∧ made.isDirectory fs.nextInode = true := by
  have hextends := (grows_of_makeDirectory h).extends
  obtain ⟨s, name, hslot, hname, _, rfl⟩ := makeDirectory_eq_ok_iff.1 h
  have hdir : (fs.create s.dir name .ofNewDirectory (.directory s.dir [])).isDirectory
      fs.nextInode = true := isDirectory_create_nextInode
  have hstep : (fs.create s.dir name .ofNewDirectory (.directory s.dir [])).step s.dir s.last =
      .ok fs.nextInode := step_create (by simp) hslot hname
  exact ⟨find_of_slot_name (slot_name_extend hextends hslot) hstep (fun _ => hdir)
    (.inr (target?_eq_none_of_isDirectory hdir)), hdir⟩

/-- A directory that has been made is one. -/
theorem isDirectoryAt_of_makeDirectory (h : fs.makeDirectory p = .ok made) :
    made.isDirectoryAt p = true :=
  isDirectoryAt_iff.2 ⟨_, find_of_makeDirectory h⟩

/-- A directory that exists is not made again. -/
theorem makeDirectory_of_isDirectoryAt (h : fs.isDirectoryAt p = true) :
    fs.makeDirectory p = .error (.system .exists) := by
  obtain ⟨i, hi, _⟩ := isDirectoryAt_iff.1 h
  exact makeDirectory_of_find hi

/-! ## One link -/

/-- A link names the node of its source. -/
theorem find_of_linkFile (h : fs.linkFile p q = .ok linked) :
    ∃ i, linked.find .keep p = .ok i ∧ linked.find .keep q = .ok i := by
  have hextends := (grows_of_linkFile h).extends
  obtain ⟨i, s, name, hi, hslot, hname, hslash, _, _, hdir, rfl⟩ := linkFile_eq_ok_iff.1 h
  have hstep : (fs.addEntry s.dir name i).step s.dir s.last = .ok i :=
    step_addEntry_of_vacant hslot hname
  refine ⟨i, find_extend hextends hi, ?_⟩
  exact find_of_slot_name (slot_name_extend hextends hslot) hstep (by simp [hslash])
    (.inl (by rw [hslash]; rfl))

/-- A new link is one new entry, at the name of the destination. -/
theorem child?_linkFile (h : fs.linkFile p q = .ok linked)
    (hi : linked.child? d n = some i) :
    fs.child? d n = some i ∨ linked.Names q d n ∧ linked.find .keep p = .ok i := by
  have hextends := (grows_of_linkFile h).extends
  obtain ⟨j, s, name, hj, hslot, hname, _, _, _, _, rfl⟩ := linkFile_eq_ok_iff.1 h
  rw [child?_addEntry_of_vacant hslot hname] at hi
  split at hi
  · next heq =>
    obtain ⟨rfl, rfl⟩ := heq
    cases hi
    exact .inr ⟨(names_of_vacantName hslot hname).extend hextends, find_extend hextends hj⟩
  · exact .inl hi

/-! ## A directory and its ancestors -/

/-- What every single directory that is made keeps holds in the end. -/
theorem makeFirst_induction {P : FileSystem → Prop} (hstart : P fs)
    (hstep : ∀ {mid made p}, p ∈ ps → p.isEmpty = false → P mid → mid.makeDirectory p = .ok made →
      P made) : P (fs.makeFirst ps).2 := by
  have htail : ∀ {p : Path} {ancestors : List Path}, (∀ {mid made q}, q ∈ p :: ancestors →
      q.isEmpty = false → P mid → mid.makeDirectory q = .ok made → P made) →
      ∀ {mid made q}, q ∈ ancestors → q.isEmpty = false → P mid →
        mid.makeDirectory q = .ok made → P made := by
    intro p ancestors hstep mid made q hq
    exact hstep (List.mem_cons_of_mem p hq)
  fun_induction makeFirst fs ps with
  | case1 => exact hstart
  | case2 => exact hstart
  | case3 p ancestors hne made hmade =>
      exact hstep List.mem_cons_self (by simpa using hne) hstart hmade
  | case4 p ancestors _ e _ _ e' below hbelow ih => simpa [hbelow] using ih (htail hstep)
  | case5 p ancestors hne e _ _ below hbelow made hmade ih =>
      have hbelow' : P below := by simpa [hbelow] using ih (htail hstep)
      exact hstep List.mem_cons_self (by simpa using hne) hbelow' hmade
  | case6 p ancestors _ e _ _ below hbelow e' _ ih =>
      simpa [hbelow] using ih (htail hstep)
  | case7 => exact hstart

theorem grows_makeFirst (fs : FileSystem) (ps : List Path) : fs.Grows (fs.makeFirst ps).2 := by
  apply makeFirst_induction (.refl fs)
  intro mid made p _ _ hgrows hmade
  exact hgrows.trans (grows_of_makeDirectory hmade)

/-- What is added are new directories at the names of the paths. -/
theorem child?_makeFirst (hi : (fs.makeFirst ps).2.child? d n = some i) :
    fs.child? d n = some i ∨
      ∃ p ∈ ps, (fs.makeFirst ps).2.Names p d n ∧ (fs.makeFirst ps).2.isDirectory i = true ∧
        fs.nextInode ≤ i := by
  suffices hinvariant : fs.Grows (fs.makeFirst ps).2 ∧
      ((fs.makeFirst ps).2.child? d n = some i → fs.child? d n = some i ∨
        ∃ p ∈ ps, (fs.makeFirst ps).2.Names p d n ∧ (fs.makeFirst ps).2.isDirectory i = true ∧
          fs.nextInode ≤ i) from hinvariant.2 hi
  apply makeFirst_induction (P := fun mid => fs.Grows mid ∧ (mid.child? d n = some i →
    fs.child? d n = some i ∨
      ∃ p ∈ ps, mid.Names p d n ∧ mid.isDirectory i = true ∧ fs.nextInode ≤ i))
  · exact ⟨.refl fs, .inl⟩
  · rintro mid made p hp _ ⟨hgrows, hold⟩ hmade
    have hmore := grows_of_makeDirectory hmade
    refine ⟨hgrows.trans hmore, ?_⟩
    intro hi
    rcases child?_makeDirectory hmade hi with hmid | ⟨hnames, hdir, hnew⟩
    · rcases hold hmid with hold | ⟨q, hq, hnames, hdir, hnew⟩
      · exact .inl hold
      · exact .inr ⟨q, hq, hnames.extend hmore.extends, hmore.extends.isDirectory hdir, hnew⟩
    · exact .inr ⟨p, hp, hnames, hdir, Nat.le_trans hgrows.nextInode_le hnew⟩

/-- When it works, the first of the paths is a directory. -/
theorem isDirectoryAt_of_makeFirst (hne : p.isEmpty = false)
    (h : fs.makeFirst (p :: ancestors) = (.ok (), made)) : made.isDirectoryAt p = true := by
  rw [makeFirst, hne] at h
  simp only [Bool.false_eq_true, if_false] at h
  split at h
  · next hmade =>
    cases h
    exact isDirectoryAt_of_makeDirectory hmade
  · split at h
    · split at h
      · cases h
      · split at h
        · next hmade =>
          cases h
          exact isDirectoryAt_of_makeDirectory hmade
        · split at h <;> cases h
          assumption
    · split at h <;> cases h
      assumption

/-! ## Missing ancestors -/

theorem check_of_notFound (hne : p.isEmpty = false) (h : p.check = .error e) :
    e.kind ≠ .notFound := by
  unfold Path.check Path.checkBytes at h
  split at h
  · cases h
    simp [IoError.nulInPath, IoError.kind]
  · simp only [bind, Except.bind, hne, Bool.false_eq_true, if_false] at h
    split at h <;> cases h
    simp [IoError.kind, Errno.kind]

/-- A directory that could be made, if it were not for a missing ancestor. -/
def Makeable (fs : FileSystem) (p : Path) : Prop :=
  (∃ made, fs.makeDirectory p = .ok made) ∨
    ∃ e, fs.makeDirectory p = .error e ∧ e.kind = .notFound

/-- Only the walk to a path finds that something is missing. -/
theorem slot_of_makeDirectory_notFound (h : fs.makeDirectory p = .error e)
    (hkind : e.kind = .notFound) : fs.slot .name p = .error e := by
  unfold makeDirectory at h
  rcases bind_eq_error_iff.1 h with hslot | ⟨s, _, h⟩
  · exact hslot
  · exfalso
    rcases bind_eq_error_iff.1 h with hname | ⟨name, _, h⟩
    · exact kind_of_vacantName hname hkind
    · rcases bind_eq_error_iff.1 h with hwrite | ⟨_, _, h⟩
      · rw [(checkWritable_eq_error_iff.1 hwrite).2] at hkind
        cases hkind
      · cases h

theorem check_of_makeable (hne : p.isEmpty = false) (h : fs.Makeable p) : p.check = .ok () := by
  rcases h with ⟨made, hmade⟩ | ⟨e, hmissing, hkind⟩
  · obtain ⟨s, name, hslot, _⟩ := makeDirectory_eq_ok_iff.1 hmade
    exact (slot_eq_ok_iff.1 hslot).1
  · cases hcheck : p.check with
    | ok => rfl
    | error e' =>
        have hslot := slot_of_makeDirectory_notFound hmissing hkind
        simp only [slot, hcheck, Except.error.injEq] at hslot
        exact absurd (hslot ▸ hkind) (check_of_notFound hne hcheck)

/-- A directory that is still to be made is missing from the paths into it. -/
theorem makeDirectory_of_parent_makeable (hparent : p.parent? = some q) (hne : q.isEmpty = false)
    (hcheck : p.check = .ok ()) (hq : fs.Makeable q) :
    ∃ e, fs.makeDirectory p = .error e ∧ e.kind = .notFound := by
  obtain ⟨habsolute, rest, ⟨_, hmem, _⟩, hsegments⟩ := Path.segments_of_parent? hparent hne
  have hrest := List.ne_nil_of_mem hmem
  have hqcheck := check_of_makeable hne hq
  suffices hslot : ∃ e, fs.slot .name p = .error e ∧ e.kind = .notFound by
    obtain ⟨e, hslot, hkind⟩ := hslot
    exact ⟨e, by simp [makeDirectory, hslot, bind, Except.bind], hkind⟩
  have hwalk : fs.slot .name p =
      fs.walk .name linkLimit (fs.origin q) (q.segments ++ rest) p.endsInSlash := by
    rw [slot, hcheck, ← hsegments, origin, habsolute]
  rcases hq with ⟨made, hmade⟩ | ⟨e, hmissing, hkind⟩
  · obtain ⟨s, name, hslot, hname, _⟩ := makeDirectory_eq_ok_iff.1 hmade
    obtain ⟨hlast, hlength, hfree⟩ := vacantName_eq_ok_iff.1 hname
    obtain ⟨_, links, hroute, hlinks⟩ := slot_eq_ok_iff.1 hslot
    have hstep : fs.step s.dir s.last = .error (.system .noEntry) := by
      simp [hlast, step, hfree, Nat.not_lt.2 hlength]
    exact ⟨_, hwalk.trans (Route.walk_append_of_missing hroute hstep hlinks hrest), rfl⟩
  · have hslot := slot_of_makeDirectory_notFound hmissing hkind
    rw [slot, hqcheck] at hslot
    exact ⟨e, hwalk.trans (walk_append_of_error hslot), hkind⟩

/-! ## Interruptions -/

/-- The file systems between the calls that make the first directory of a list. -/
inductive Midway (fs : FileSystem) : List Path → FileSystem → Prop
  | start (ps : List Path) : Midway fs ps fs
  | done (ps : List Path) : Midway fs ps (fs.makeFirst ps).2
  /-- The directory waits for an ancestor that is being made. -/
  | above {p : Path} {ancestors : List Path} {e : IoError} {mid : FileSystem} :
      p.isEmpty = false → fs.makeDirectory p = .error e → e.kind = .notFound →
      Midway fs ancestors mid → Midway fs (p :: ancestors) mid

theorem Midway.grows (h : fs.Midway ps mid) : fs.Grows mid := by
  induction h with
  | start => exact .refl fs
  | done => exact grows_makeFirst fs _
  | above _ _ _ _ ih => exact ih

/-- A list of paths in which each is the parent directory of the one before it. -/
abbrev Lineage (ps : List Path) : Prop :=
  ps.IsChain fun p q => p.parent? = some q

theorem lineage_ancestors (p : Path) :
    ∃ rest, p.ancestors = p :: rest ∧ Lineage (p :: rest) := by
  unfold Path.ancestors
  generalize p.parts.length = fuel
  induction fuel generalizing p with
  | zero => exact ⟨[], rfl, .singleton p⟩
  | succ fuel ih =>
      rw [Path.ancestorsUpTo]
      cases hparent : p.parent? with
      | none => exact ⟨[], rfl, .singleton p⟩
      | some q =>
          obtain ⟨rest, heq, hlineage⟩ := ih q
          exact ⟨q :: rest, by simp only [heq], .cons_cons hparent hlineage⟩

theorem makeFirst_cons (hne : p.isEmpty = false) :
    fs.makeFirst (p :: ancestors) =
      match fs.makeDirectory p with
      | .ok made => (.ok (), made)
      | .error e =>
        if e.kind = .notFound then
          match fs.makeFirst ancestors with
          | (.error e, below) => (.error e, below)
          | (.ok (), below) =>
            match below.makeDirectory p with
            | .ok made => (.ok (), made)
            | .error e => (if below.isDirectoryAt p then .ok () else .error e, below)
        else (if fs.isDirectoryAt p then .ok () else .error e, fs) := by
  rw [makeFirst, hne]
  rfl

/-- If the first directory is missing an ancestor, its ancestors are made, and then it is. -/
theorem makeFirst_of_missing (hne : p.isEmpty = false) (hmissing : fs.makeDirectory p = .error e)
    (hkind : e.kind = .notFound) :
    fs.makeFirst (p :: ancestors) = (.ok (), made) ↔
      ∃ below, fs.makeFirst ancestors = (.ok (), below) ∧
        (below.makeDirectory p = .ok made ∨
          (∃ e, below.makeDirectory p = .error e) ∧ below.isDirectoryAt p = true ∧
            below = made) := by
  rw [makeFirst_cons hne, hmissing]
  simp only [hkind, if_true]
  split
  · next heq => simp [heq]
  · next below heq =>
    simp only [heq, Prod.mk.injEq, true_and, exists_eq_left']
    cases hmade : below.makeDirectory p with
    | ok made' => simp
    | error e' => cases hdir : below.isDirectoryAt p <;> simp

/-- The ways in which a directory is there in the end: it was, it is made last, or it is there once
its ancestors are made. -/
theorem makeFirst_cases (hne : p.isEmpty = false) (h : fs.makeFirst (p :: ps) = (.ok (), made)) :
    made = fs ∨ (∃ mid : FileSystem, mid.makeDirectory p = .ok made) ∨
      fs.makeFirst ps = (.ok (), made) ∧ made.isDirectoryAt p = true := by
  cases hmade : fs.makeDirectory p with
  | ok made' =>
      rw [makeFirst_cons hne, hmade] at h
      cases h
      exact .inr (.inl ⟨fs, hmade⟩)
  | error e =>
      by_cases hkind : e.kind = .notFound
      · obtain ⟨below, hbelow, hmade | ⟨_, hdir, rfl⟩⟩ := (makeFirst_of_missing hne hmade hkind).1 h
        · exact .inr (.inl ⟨below, hmade⟩)
        · exact .inr (.inr ⟨hbelow, hdir⟩)
      · rw [makeFirst_cons hne, hmade] at h
        simp only [hkind, if_false, Prod.mk.injEq] at h
        exact .inl h.2.symm

theorem makeFirst_of_isDirectoryAt (hne : p.isEmpty = false) (hdir : fs.isDirectoryAt p = true) :
    fs.makeFirst (p :: ps) = (.ok (), fs) := by
  rw [makeFirst_cons hne, makeDirectory_of_isDirectoryAt hdir]
  simp [hdir, IoError.kind, Errno.kind]

/-- In between, either all is done, or the first directory is still to be made and making it from
there ends the same. -/
theorem Midway.resume_or (hlineage : Lineage ps) (h : fs.makeFirst ps = (.ok (), made))
    (hmid : fs.Midway ps mid) :
    mid = made ∨ mid.makeFirst ps = (.ok (), made) ∧
      ∃ p ancestors, ps = p :: ancestors ∧ p.isEmpty = false ∧ mid.Makeable p := by
  induction hmid generalizing made with
  | start ps =>
      cases ps with
      | nil =>
          cases h
          exact .inl rfl
      | cons p ancestors =>
          cases hne : p.isEmpty with
          | true =>
              rw [makeFirst, hne] at h
              cases h
              exact .inl rfl
          | false =>
              cases hmade : fs.makeDirectory p with
              | ok made' => exact .inr ⟨h, p, ancestors, rfl, hne, .inl ⟨made', hmade⟩⟩
              | error e =>
                  by_cases hkind : e.kind = .notFound
                  · exact .inr ⟨h, p, ancestors, rfl, hne, .inr ⟨e, hmade, hkind⟩⟩
                  · rw [makeFirst_cons hne, hmade] at h
                    simp only [hkind, if_false, Prod.mk.injEq] at h
                    exact .inl h.2
  | done => exact .inl (by rw [h])
  | @above p ancestors e mid hne hmissing hkind hmid ih =>
      obtain ⟨below, hbelow, hmade⟩ := (makeFirst_of_missing hne hmissing hkind).1 h
      rcases ih hlineage.tail hbelow with rfl | ⟨hresume, q, rest, rfl, hqne, hq⟩
      · -- The ancestors are all there.
        rcases hmade with hmade | ⟨_, hdir, rfl⟩
        · exact .inr ⟨by rw [makeFirst_cons hne, hmade], p, ancestors, rfl, hne, .inl ⟨made, hmade⟩⟩
        · exact .inl rfl
      · have hcheck := check_of_makeable hne (.inr ⟨e, hmissing, hkind⟩)
        obtain ⟨e', hmissing', hkind'⟩ :=
          makeDirectory_of_parent_makeable (List.isChain_cons_cons.1 hlineage).1 hqne hcheck hq
        exact .inr ⟨(makeFirst_of_missing hne hmissing' hkind').2 ⟨below, hresume, hmade⟩,
          p, q :: rest, rfl, hne, .inr ⟨e', hmissing', hkind'⟩⟩

/-! ## Parent directories -/

theorem provideDirectory_eq_ok_iff :
    fs.provideDirectory p = (.ok (), made) ↔ fs.makeFirst p.ancestors = (.ok (), made) := by
  unfold provideDirectory makeDirectories
  split <;> simp_all

theorem provideDirectory_snd : (fs.provideDirectory p).2 = (fs.makeFirst p.ancestors).2 := by
  unfold provideDirectory makeDirectories
  split <;> simp_all

/-- A directory that is there is not made, and the empty path needs none. -/
theorem provideDirectory_of_isDirectoryAt (h : p.isEmpty = true ∨ fs.isDirectoryAt p = true) :
    fs.provideDirectory p = (.ok (), fs) := by
  obtain ⟨rest, hancestors, _⟩ := lineage_ancestors p
  rw [provideDirectory_eq_ok_iff, hancestors]
  cases hne : p.isEmpty with
  | true => simp [makeFirst, hne]
  | false =>
      have hdir : fs.isDirectoryAt p = true := by simpa [hne] using h
      exact makeFirst_of_isDirectoryAt hne hdir

/-- Only the directories above a path are made for it. -/
theorem provideParent_snd (fs : FileSystem) (p : Path) :
    (fs.provideParent p).2 = fs ∨ (fs.provideParent p).2 = (fs.makeFirst p.enclosing).2 := by
  unfold provideParent Path.enclosing
  cases p.parent? with
  | none => exact .inl rfl
  | some dir =>
      cases hne : dir.isEmpty <;> cases hdir : fs.isDirectoryAt dir <;>
        simp [hne, hdir, provideDirectory_snd]

theorem provideParent_cases (h : fs.provideParent p = (result, made)) :
    made = fs ∨ made = (fs.makeFirst p.enclosing).2 := by
  simpa [h] using provideParent_snd fs p

/-- What every single directory that is made keeps holds in the end. -/
theorem provideParent_induction {P : FileSystem → Prop} (h : fs.provideParent p = (result, made))
    (hstart : P fs)
    (hstep : ∀ {mid made q}, P mid → mid.makeDirectory q = .ok made → P made) : P made := by
  rcases provideParent_cases h with rfl | rfl
  · exact hstart
  · exact makeFirst_induction hstart fun _ _ hmid hmade => hstep hmid hmade

theorem grows_of_provideParent (h : fs.provideParent p = (result, made)) : fs.Grows made := by
  apply provideParent_induction h (.refl fs)
  intro mid made q hgrows hmade
  exact hgrows.trans (grows_of_makeDirectory hmade)

theorem child?_provideParent (h : fs.provideParent p = (result, made))
    (hi : made.child? d n = some i) :
    fs.child? d n = some i ∨
      ∃ q ∈ p.enclosing, made.Names q d n ∧ made.isDirectory i = true ∧ fs.nextInode ≤ i := by
  rcases provideParent_cases h with rfl | rfl
  · exact .inl hi
  · exact child?_makeFirst hi

/-- A failure names the directory that was to hold the path. -/
theorem provideParent_eq_error {f : Failure} (h : (fs.provideParent p).1 = .error f) :
    ∃ dir e, p.parent? = some dir ∧ f = .createDirectory dir e := by
  unfold provideParent at h
  split at h
  · cases h
  · next dir hparent =>
    split at h
    · cases h
    · unfold provideDirectory at h
      split at h <;> cases h
      exact ⟨dir, _, hparent, rfl⟩

/-- A directory that is there is not made. -/
theorem provideParent_of_parent? (hparent : p.parent? = some q) (hdir : fs.isDirectoryAt q = true) :
    fs.provideParent p = (.ok (), fs) := by
  simp [provideParent, hparent, hdir]

/-- The directory that is to hold `p` is made only once. -/
theorem provideParent_again (h : fs.provideParent p = (.ok (), made))
    (hmade : made.KeepsWalks mid) : mid.provideParent p = (.ok (), mid) := by
  unfold provideParent at h ⊢
  cases hparent : p.parent? with
  | none => rfl
  | some dir =>
      rw [hparent] at h
      cases hne : dir.isEmpty with
      | true => simp [hne]
      | false =>
          suffices hdir : made.isDirectoryAt dir = true by
            simp [hmade.isDirectoryAt hdir]
          simp only [hne, Bool.false_or] at h
          split at h
          · next hdir =>
            cases h
            exact hdir
          · obtain ⟨rest, hancestors, _⟩ := lineage_ancestors dir
            rw [provideDirectory_eq_ok_iff, hancestors] at h
            exact isDirectoryAt_of_makeFirst hne h

/-- The file systems between the calls that make the directory that is to hold `p`. -/
def MidParent (fs : FileSystem) (p : Path) (mid : FileSystem) : Prop :=
  ∃ dir, p.parent? = some dir ∧ dir.isEmpty = false ∧ fs.isDirectoryAt dir = false ∧
    fs.Midway dir.ancestors mid

theorem MidParent.grows (h : fs.MidParent p mid) : fs.Grows mid := by
  obtain ⟨dir, _, _, _, hmid⟩ := h
  exact hmid.grows

/-- Begun again from in between, the making of the parent directory ends the same. -/
theorem MidParent.resume (h : fs.provideParent p = (.ok (), made)) (hmid : fs.MidParent p mid) :
    mid.provideParent p = (.ok (), made) := by
  obtain ⟨dir, hparent, hne, hdir, hmid⟩ := hmid
  obtain ⟨rest, hancestors, hlineage⟩ := lineage_ancestors dir
  have hmade : fs.makeFirst dir.ancestors = (.ok (), made) := by
    simpa [provideParent, hparent, hne, hdir, provideDirectory_eq_ok_iff] using h
  rcases hmid.resume_or (hancestors ▸ hlineage) hmade with
    rfl | ⟨hresume, q, rest', hcons, _, hmakeable⟩
  · exact provideParent_again h (Extends.refl mid).keepsWalks
  · obtain ⟨rfl, rfl⟩ := List.cons.inj (hancestors.symm.trans hcons)
    have hmissing : mid.isDirectoryAt dir = false := by
      apply Bool.eq_false_iff.2
      intro hthere
      have hexists := makeDirectory_of_isDirectoryAt hthere
      rcases hmakeable with ⟨made', hmade'⟩ | ⟨e, he, hkind⟩
      · simp [hexists] at hmade'
      · rw [hexists] at he
        cases he
        cases hkind
    simpa [provideParent, hparent, hne, hmissing, provideDirectory_eq_ok_iff] using hresume

end Hardlinks.FileSystem
