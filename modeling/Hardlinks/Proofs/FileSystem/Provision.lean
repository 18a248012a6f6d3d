-- SUMMARY: When the missing directories above a path can be made, and that they are there then.
import Hardlinks.Proofs.FileSystem.Nodes
import Hardlinks.Proofs.Path.Parents
import Hardlinks.Proofs.Resolution.Passage

/-!
# Providing directories

Below a directory without symbolic links, the directory that is to hold a path can be made if all
that lies along its names can be looked into, and whatever holds a missing one of them can be
changed (`Fillable`). Making it then succeeds, from the first missing name on
(`Site.makeFirst_ancestors`), and leaves a directory that was there, or a new one with nothing in it
(`Site.provideParent_of_fillable`). Where the path itself can be walked to, nothing is made
(`provideParent_of_slot`).
-/

namespace Hardlinks.FileSystem

/-- What lies along the names can be looked into, and where a name is missing it can be made. -/
structure Fillable (fs : FileSystem) (d : Inode) (ns : List Name) : Prop where
  length_le : ∀ n ∈ ns, n.length ≤ Path.nameLimit
  enter : ∀ {ms a}, ms <+: ns → fs.descend? d ms = some a → fs.enter a = .ok ()
  write : ∀ {ms n a}, ms ++ [n] <+: ns → fs.descend? d ms = some a → fs.child? a n = none →
    fs.allows a Mode.write = true

/-- The names lead to a directory that was there, or to a new one that can be changed and has
nothing in it. -/
def Filled (fs : FileSystem) (d : Inode) (ns : List Name) (made : FileSystem) : Prop :=
  ∃ a, made.Passage d ns a ∧
    (made = fs ∨ made.allows a Mode.write = true ∧ ∀ n, made.child? a n = none)

variable {fs made : FileSystem} {ending : Ending} {dir p q : Path} {a d i : Inode} {n : Name}
  {m : Name} {ns ms : List Name} {front : List Segment} {links : List (Inode × Segment)} {s : Slot}

theorem Fillable.of_prefix (h : fs.Fillable d ns) (hms : ms <+: ns) : fs.Fillable d ms where
  length_le n hn := h.length_le n (hms.subset hn)
  enter hpre := h.enter (hpre.trans hms)
  write hpre := h.write (hpre.trans hms)

theorem Fillable.passage_or_missing (h : fs.Fillable d ns) :
    (∃ a, fs.Passage d ns a) ∨
      ∃ ms n rest a, ns = ms ++ n :: rest ∧ fs.Passage d ms a ∧ fs.child? a n = none :=
  FileSystem.passage_or_missing h.length_le h.enter

/-- A new directory has nothing in it. -/
theorem child?_nextInode_of_makeDirectory (h : fs.makeDirectory p = .ok made) (n : Name) :
    made.child? fs.nextInode n = none := by
  obtain ⟨s, name, hslot, hname, _, rfl⟩ := makeDirectory_eq_ok_iff.1 h
  have hne := dir_ne_nextInode hslot hname
  rw [child?_create (by simp) hslot hname, if_neg fun heq => hne heq.1.symm]
  exact child?_of_file isDirectory_nextInode n

/-- A new directory can be looked into and changed, and has nothing in it. -/
theorem filled_of_makeDirectory (hmake : fs.makeDirectory p = .ok made)
    (hslot : fs.slot .name p = .ok s) (hlast : s.last = .name n)
    (hns : fs.Passage d ns s.dir) (start : FileSystem) : start.Filled d (ns ++ [n]) made := by
  have hextends := (grows_of_makeDirectory hmake).extends
  obtain ⟨s', name, hslot', hname, _, hmade⟩ := makeDirectory_eq_ok_iff.1 hmake
  obtain rfl := Except.ok.inj (hslot.symm.trans hslot')
  have hne := dir_ne_nextInode hslot hname
  have hallows : ∀ permission, made.allows fs.nextInode permission = permission .ofNewDirectory := by
    intro permission
    simp [hmade, allows, node?_create_nextInode hne]
  have hstep : made.step s.dir (.name n) = .ok fs.nextInode := by
    rw [hmade, ← hlast]
    exact step_create (by simp) hslot hname
  have henter : made.enter fs.nextInode = .ok () := by
    refine enter_eq_ok_iff.2 ⟨?_, hallows _⟩
    rw [hmade]
    exact isDirectory_create_nextInode
  refine ⟨fs.nextInode, passage_concat_iff.2 ⟨s.dir, hns.extend hextends, hstep, henter⟩,
    .inr ⟨hallows _, child?_nextInode_of_makeDirectory hmake⟩⟩

theorem makeDirectory_of_slot (hslot : fs.slot .name p = .ok s) (hlast : s.last = .name n)
    (hlength : n.length ≤ Path.nameLimit) (hfree : fs.child? s.dir n = none)
    (hwrite : fs.allows s.dir Mode.write = true) : ∃ made, fs.makeDirectory p = .ok made :=
  ⟨_, makeDirectory_eq_ok_iff.2
    ⟨s, n, hslot, vacantName_eq_ok_iff.2 ⟨hlast, hlength, hfree⟩, hwrite, rfl⟩⟩

/-- A directory at the end of names that can be filled is found there or made. -/
theorem Site.makeDirectory_or (h : fs.Site dir links d) (hlinks : links.length ≤ linkLimit)
    (hp : Path.Past dir (front ++ [.name n]) p) (hcheck : p.check = .ok ())
    (hfill : fs.Fillable d (front.filterMap Segment.name? ++ [n]))
    (hfront : fs.Passage d (front.filterMap Segment.name?) a) :
    fs.makeDirectory p = .error (.system .exists) ∧ fs.isDirectoryAt p = true ∧
        fs.Filled d (front.filterMap Segment.name? ++ [n]) fs ∨
      ∃ made, fs.makeDirectory p = .ok made ∧ made.Site dir links d ∧
        fs.Filled d (front.filterMap Segment.name? ++ [n]) made := by
  have hlength : n.length ≤ Path.nameLimit := hfill.length_le n (by simp)
  have hslot : fs.slot .name p = .ok ⟨a, .name n, p.endsInSlash⟩ :=
    (h.slot_eq_ok_iff hp).2 ⟨hcheck, hlinks, hfront, rfl, rfl⟩
  cases hchild : fs.child? a n with
  | some b =>
      have hb := descend?_concat_eq_some_iff.2 ⟨a, hfront.descend?, hchild⟩
      have henter := hfill.enter List.prefix_rfl hb
      have hstep := step_name_eq_ok_iff.2 ⟨hlength, hchild⟩
      have hfind : fs.find .follow p = .ok b :=
        (h.find_eq_ok_iff hp).2 ⟨hcheck, hlinks, a, hfront, hstep,
          fun _ => (enter_eq_ok_iff.1 henter).1⟩
      exact .inl ⟨makeDirectory_of_find hfind,
        isDirectoryAt_iff.2 ⟨b, hfind, (enter_eq_ok_iff.1 henter).1⟩,
        b, passage_concat_iff.2 ⟨a, hfront, hstep, henter⟩, .inl rfl⟩
  | none =>
      have hwrite := hfill.write List.prefix_rfl hfront.descend? hchild
      obtain ⟨made, hmake⟩ := makeDirectory_of_slot hslot rfl hlength hchild hwrite
      exact .inr ⟨made, hmake, (h.makeDirectory_at hmake hslot rfl hfront.descend?).1,
        filled_of_makeDirectory hmake hslot rfl hfront fs⟩

/-- The directory at the end of names that can be filled is made, with those above it that are
missing. -/
theorem Site.makeFirst_ancestors {fuel : Nat} (h : fs.Site dir links d)
    (hlinks : links.length ≤ linkLimit) (hp : Path.Past dir (front ++ [.name n]) p)
    (hcheck : p.check = .ok ()) (hfuel : p.parts.length ≤ fuel)
    (hfill : fs.Fillable d (front.filterMap Segment.name? ++ [n])) :
    ∃ made, fs.makeFirst (Path.ancestorsUpTo fuel p) = (.ok (), made) ∧
      made.Site dir links d ∧ fs.Filled d (front.filterMap Segment.name? ++ [n]) made := by
  have hne := (Path.check_eq_ok_iff.1 hcheck).2.1
  induction fuel generalizing p front n with
  | zero => exact absurd (List.length_eq_zero_iff.1 (Nat.le_zero.1 hfuel)) (List.splitOn_ne_nil _ _)
  | succ fuel ih =>
      rcases (hfill.of_prefix (List.prefix_append _ [n])).passage_or_missing with
        ⟨a, hfront⟩ | ⟨ms, m, more, a, hnames, hms, hfree⟩
      · obtain ⟨rest, hrest⟩ : ∃ rest, Path.ancestorsUpTo (fuel + 1) p = p :: rest := by
          rw [Path.ancestorsUpTo]
          split <;> exact ⟨_, rfl⟩
        rw [hrest, makeFirst_cons hne]
        rcases h.makeDirectory_or hlinks hp hcheck hfill hfront with
          ⟨hexists, hdir, hfilled⟩ | ⟨made, hmake, hsite, hfilled⟩
        · exact ⟨fs, by simp [hexists, hdir, IoError.kind, Errno.kind], h, hfilled⟩
        · exact ⟨made, by rw [hmake], hsite, hfilled⟩
      · -- A directory above is missing, so the parent directory is made first.
        have hmissing : fs.makeDirectory p = .error (.system .noEntry) := by
          have hslot : fs.slot .name p = .error (.system .noEntry) :=
            h.slot_of_missing hlinks hp hcheck hms hfree (hfill.length_le m (by simp [hnames])) hnames
          simp [FileSystem.makeDirectory, hslot, bind, Except.bind]
        obtain ⟨init, last, hlast⟩ :=
          (List.eq_nil_or_concat' (front.filterMap Segment.name?)).resolve_left (by simp [hnames])
        obtain ⟨q, hq, hqne⟩ := hp.exists_parent? (by simp [hnames])
        obtain ⟨back, hback, rfl⟩ := hp.parent? hq hqne hlast
        have hparts := Path.length_parts_of_parent? hq hqne (by simp [hback.segments])
        obtain ⟨below, hbelow, hsite, a', hfront, hfresh⟩ :=
          ih hback (Path.check_of_parent? hq hqne hcheck) (by omega)
            (hlast ▸ hfill.of_prefix (List.prefix_append _ [n])) hqne
        rw [← hlast] at hfront
        have hnew : below.allows a' Mode.write = true ∧ ∀ m, below.child? a' m = none := by
          rcases hfresh with rfl | hnew
          · have hthere := hfront.descend?
            rw [hnames, hms.descend?_of_missing hfree] at hthere
            cases hthere
          · exact hnew
        have hlength : n.length ≤ Path.nameLimit := hfill.length_le n (by simp)
        have hslot : below.slot .name p = .ok ⟨a', .name n, p.endsInSlash⟩ :=
          (hsite.slot_eq_ok_iff hp).2 ⟨hcheck, hlinks, hfront, rfl, rfl⟩
        obtain ⟨made, hmake⟩ := makeDirectory_of_slot hslot rfl hlength (hnew.2 n) hnew.1
        refine ⟨made, ?_, (hsite.makeDirectory_at hmake hslot rfl hfront.descend?).1, ?_⟩
        · rw [Path.ancestorsUpTo, hq]
          exact (makeFirst_of_missing hne hmissing rfl).2 ⟨below, hbelow, .inl hmake⟩
        · exact filled_of_makeDirectory hmake hslot rfl hfront fs

/-! ## The directory that is to hold a path -/

/-- For a path that can be walked to, nothing is made. -/
theorem provideParent_of_slot (hslot : fs.slot ending p = .ok s) :
    fs.provideParent p = (.ok (), fs) := by
  unfold provideParent
  cases hparent : p.parent? with
  | none => rfl
  | some q =>
      cases hne : q.isEmpty with
      | true => simp [hne]
      | false =>
          obtain ⟨habsolute, rest, ⟨_, hmem, _⟩, hsegments⟩ := Path.segments_of_parent? hparent hne
          have hcheck := Path.check_of_parent? hparent hne (FileSystem.slot_eq_ok_iff.1 hslot).1
          have hdir := isDirectoryAt_of_slot hslot habsolute hsegments (List.ne_nil_of_mem hmem) hcheck
          simp [hne, hdir]

/-- For a path below, the names in front of its last one are filled. -/
theorem Site.provideParent_of_fillable (h : fs.Site dir links d) (hlinks : links.length ≤ linkLimit)
    (hp : Path.Past dir (front ++ [.name n]) p) (hcheck : p.check = .ok ())
    (hfill : fs.Fillable d (front.filterMap Segment.name?)) :
    ∃ made, fs.provideParent p = (.ok (), made) ∧
      fs.Filled d (front.filterMap Segment.name?) made := by
  rcases hfill.passage_or_missing with ⟨a, hfront⟩ | ⟨ms, m, more, a, hnames, hms, hfree⟩
  · have hslot : fs.slot .name p = .ok ⟨a, .name n, p.endsInSlash⟩ :=
      (h.slot_eq_ok_iff hp).2 ⟨hcheck, hlinks, hfront, rfl, rfl⟩
    exact ⟨fs, provideParent_of_slot hslot, a, hfront, .inl rfl⟩
  · obtain ⟨init, last, hlast⟩ :=
      (List.eq_nil_or_concat' (front.filterMap Segment.name?)).resolve_left (by simp [hnames])
    obtain ⟨q, hq, hqne⟩ := hp.exists_parent? (by simp [hnames])
    obtain ⟨back, hback, rfl⟩ := hp.parent? hq hqne hlast
    have hdir : fs.isDirectoryAt q = false := by
      apply Bool.eq_false_iff.2
      intro hdir
      obtain ⟨i, hi, _⟩ := isDirectoryAt_iff.1 hdir
      obtain ⟨_, _, b, hb, hstep, _⟩ := (h.find_eq_ok_iff hback).1 hi
      have hthere := descend?_concat_eq_some_iff.2 ⟨b, hb.descend?, (step_name_eq_ok_iff.1 hstep).2⟩
      rw [← hlast, hnames, hms.descend?_of_missing hfree] at hthere
      cases hthere
    rw [hlast] at hfill ⊢
    obtain ⟨made, hmade, _, hfilled⟩ := h.makeFirst_ancestors hlinks hback
      (Path.check_of_parent? hq hqne hcheck) (Nat.le_refl _) hfill
    refine ⟨made, ?_, hfilled⟩
    simpa [FileSystem.provideParent, hq, hqne, hdir] using provideDirectory_eq_ok_iff.2 hmade

/-! ## Links there -/

/-- A name that was missing is so in the directory that has been provided. -/
theorem Filled.vacant (h : fs.Filled d ns made) (habsent : fs.descend? d (ns ++ [n]) = none) :
    ∃ a, made.Passage d ns a ∧ made.child? a n = none := by
  obtain ⟨a, hpassage, hmade⟩ := h
  refine ⟨a, hpassage, ?_⟩
  rcases hmade with rfl | ⟨_, hempty⟩
  · apply Option.eq_none_iff_forall_ne_some.2
    intro i hi
    rw [descend?_concat_eq_some_iff.2 ⟨a, hpassage.descend?, hi⟩] at habsent
    cases habsent
  · exact hempty n

/-- A link is made in a directory that has room for it. -/
theorem Site.exists_linkFile (h : fs.Site dir links d) (hlinks : links.length ≤ linkLimit)
    (hq : Path.Past dir (front ++ [.name n]) q) (hcheck : q.check = .ok ())
    (hslash : q.endsInSlash = false) (hlength : n.length ≤ Path.nameLimit)
    (hfront : fs.Passage d (front.filterMap Segment.name?) a) (hfree : fs.child? a n = none)
    (hi : fs.find .keep p = .ok i) (hfile : fs.isDirectory i = false)
    (hdevice : fs.device i = fs.device a) (hwrite : fs.allows a Mode.write = true) :
    ∃ linked, fs.linkFile p q = .ok linked := by
  have hslot : fs.slot .name q = .ok ⟨a, .name n, q.endsInSlash⟩ :=
    (h.slot_eq_ok_iff hq).2 ⟨hcheck, hlinks, hfront, rfl, rfl⟩
  have hname := vacantName_eq_ok_iff.2
    ⟨(rfl : Slot.last ⟨a, .name n, q.endsInSlash⟩ = .name n), hlength, hfree⟩
  exact ⟨_, linkFile_eq_ok_iff.2 ⟨i, _, n, hi, hslot, hname, hslash, hdevice, hwrite, hfile, rfl⟩⟩

end Hardlinks.FileSystem
