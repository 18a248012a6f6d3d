-- SUMMARY: Making, linking and removing entries below one directory, and that nothing else changes.
import Hardlinks.Proofs.FileSystem.Hierarchy

/-!
# Work below one directory

A site is a directory that a path leads to, with no symbolic link below it. All paths that stay
inside it go by their names alone, so what a call does there can be said by the names below the
directory: a call that makes something adds names (`GrowsBelow`), a call that removes a file takes
one away (`ShrinksBelow`). Neither does anything to a node that is not a directory of the site, and
the site stays one.
-/

namespace Hardlinks.FileSystem

/-- The path `dir` leads to the directory `d`, by way of the given links, and no symbolic link lies
below it. -/
structure Site (fs : FileSystem) (dir : Path) (links : List (Inode × Segment)) (d : Inode) :
    Prop where
  hierarchical : fs.Hierarchical
  leads : fs.LeadsTo dir links d
  plain : fs.Plain d

/-- The node is the directory `d`, or a directory below it. -/
def IsDirectoryBelow (fs : FileSystem) (d i : Inode) : Prop :=
  fs.isDirectory i = true ∧ ∃ ns, fs.descend? d ns = some i

/-- What was made below the directory `d`, at names for which `Added` holds. -/
structure GrowsBelow (d : Inode) (Added : List Name → Prop) (fs after : FileSystem) : Prop where
  grows : fs.Grows after
  /-- A new entry names no directory that was there. -/
  added : ∀ {ns i}, after.descend? d ns = some i →
    fs.descend? d ns = some i ∨ Added ns ∧ fs.isDirectory i = false
  untouched : ∀ {i node}, ¬fs.IsDirectoryBelow d i → fs.node? i = some node →
    after.node? i = some node

/-- What was removed below the directory `d`, to which `dir` leads: the names for which `Gone`
holds. -/
structure ShrinksBelow (dir : Path) (d : Inode) (Gone : List Name → Prop) (fs after : FileSystem) :
    Prop where
  extended : after.Extends fs
  isDirectory : ∀ i, after.isDirectory i = fs.isDirectory i
  /-- No directory goes. -/
  file : ∀ {ns i}, Gone ns → fs.descend? d ns = some i → fs.isDirectory i = false
  descend?_iff : ∀ {ns i}, after.descend? d ns = some i ↔ fs.descend? d ns = some i ∧ ¬Gone ns
  untouched : ∀ {i node}, ¬fs.IsDirectoryBelow d i → fs.node? i = some node →
    after.node? i = some node
  /-- A path that names nothing of that is found still. -/
  find : ∀ {p i}, p.Inside → ¬Gone p.names → fs.find .keep (dir.join p) = .ok i →
    after.find .keep (dir.join p) = .ok i

/-- The path is found from the directory `dir`, unless its names lead nowhere below `d`. -/
def AbsentOrFound (fs : FileSystem) (dir : Path) (d : Inode) (p : Path) : Prop :=
  fs.descend? d p.names = none ∨ ∃ i, fs.find .keep (dir.join p) = .ok i

variable {fs mid after : FileSystem} {dir p q : Path} {links : List (Inode × Segment)}
  {a d i : Inode} {n : Name} {ns ms : List Name} {s : Slot}
  {Added Added' Gone Gone' : List Name → Prop}

/-! ## Growing and shrinking -/

theorem isDirectory_of_node?_eq (h : after.node? i = fs.node? i) :
    after.isDirectory i = fs.isDirectory i := by
  simp only [isDirectory, content?, h]

theorem GrowsBelow.refl (d : Inode) (Added : List Name → Prop) (fs : FileSystem) :
    GrowsBelow d Added fs fs :=
  ⟨.refl fs, .inl, fun _ => id⟩

theorem GrowsBelow.mono (h : GrowsBelow d Added fs after) (hadded : ∀ ns, Added ns → Added' ns) :
    GrowsBelow d Added' fs after where
  grows := h.grows
  added hi := (h.added hi).imp_right (And.imp_left (hadded _))
  untouched := h.untouched

/-- What was there becomes no directory below `d` if it was none. -/
theorem GrowsBelow.not_isDirectoryBelow {node : Node} (h : GrowsBelow d Added fs after)
    (hnot : ¬fs.IsDirectoryBelow d i) (hi : fs.node? i = some node) :
    ¬after.IsDirectoryBelow d i := by
  rintro ⟨hdir, ns, hns⟩
  rw [isDirectory_of_node?_eq ((h.untouched hnot hi).trans hi.symm)] at hdir
  rcases h.added hns with hold | ⟨_, hfile⟩
  · exact hnot ⟨hdir, ns, hold⟩
  · simp [hdir] at hfile

theorem GrowsBelow.trans (h : GrowsBelow d Added fs mid) (h' : GrowsBelow d Added mid after) :
    GrowsBelow d Added fs after where
  grows := h.grows.trans h'.grows
  added hi := by
    rcases h'.added hi with hmid | ⟨hadded, hfile⟩
    · exact h.added hmid
    · refine .inr ⟨hadded, ?_⟩
      apply Bool.eq_false_iff.2
      intro hdir
      simp [h.grows.extends.isDirectory hdir] at hfile
  untouched hnot hi := h'.untouched (h.not_isDirectoryBelow hnot hi) (h.untouched hnot hi)

theorem ShrinksBelow.refl (dir : Path) (d : Inode) (fs : FileSystem)
    (hgone : ∀ ns, Gone ns → fs.descend? d ns = none) : ShrinksBelow dir d Gone fs fs where
  extended := .refl fs
  isDirectory _ := rfl
  file {ns i} hns hi := by simp [hgone ns hns] at hi
  descend?_iff {ns i} := by
    constructor
    · intro hi
      refine ⟨hi, fun hns => ?_⟩
      simp [hgone ns hns] at hi
    · exact And.left
  untouched _ := id
  find _ _ := id

theorem ShrinksBelow.congr (h : ShrinksBelow dir d Gone fs after)
    (hgone : ∀ ns, Gone ns ↔ Gone' ns) : ShrinksBelow dir d Gone' fs after := by
  obtain rfl : Gone = Gone' := funext fun ns => propext (hgone ns)
  exact h

theorem ShrinksBelow.trans (h : ShrinksBelow dir d Gone fs mid)
    (h' : ShrinksBelow dir d Gone' mid after) :
    ShrinksBelow dir d (fun ns => Gone ns ∨ Gone' ns) fs after where
  extended := h'.extended.trans h.extended
  isDirectory i := (h'.isDirectory i).trans (h.isDirectory i)
  file {ns i} hns hi := by
    by_cases hfirst : Gone ns
    · exact h.file hfirst hi
    · rw [← h.isDirectory]
      exact h'.file (hns.resolve_left hfirst) (h.descend?_iff.2 ⟨hi, hfirst⟩)
  descend?_iff := by
    intro ns i
    rw [h'.descend?_iff, h.descend?_iff, and_assoc, not_or]
  untouched hnot hi := by
    have hmid := h.untouched hnot hi
    apply h'.untouched _ hmid
    rintro ⟨hdir, ns, hns⟩
    rw [isDirectory_of_node?_eq (hmid.trans hi.symm)] at hdir
    exact hnot ⟨hdir, ns, (h.descend?_iff.1 hns).1⟩
  find hp hnot hi := by
    obtain ⟨hfirst, hsecond⟩ := not_or.1 hnot
    exact h'.find hp hsecond (h.find hp hfirst hi)

/-- What was gone or found before is so afterwards. -/
theorem ShrinksBelow.absentOrFound (h : ShrinksBelow dir d Gone fs after) (hp : p.Inside)
    (hfs : fs.AbsentOrFound dir d p) : after.AbsentOrFound dir d p := by
  by_cases hgone : Gone p.names
  · left
    apply Option.eq_none_iff_forall_ne_some.2
    intro i hi
    exact (h.descend?_iff.1 hi).2 hgone
  · rcases hfs with hnone | ⟨i, hi⟩
    · left
      apply Option.eq_none_iff_forall_ne_some.2
      intro i hi
      simp [(h.descend?_iff.1 hi).1] at hnone
    · exact .inr ⟨i, h.find hp hgone hi⟩

/-! ## Sites -/

/-- Where the path is found, its names lead. -/
theorem Site.descend?_of_find {ending : Ending} (h : fs.Site dir links d) (hp : p.Inside)
    (hi : fs.find ending (dir.join p) = .ok i) : fs.descend? d p.names = some i :=
  h.leads.descend?_of_find h.plain hp hi

/-- A path inside leads to the name at its end. -/
theorem Site.descend?_of_slot {ending : Ending} (h : fs.Site dir links d) (hp : p.Inside)
    (hslot : fs.slot ending (dir.join p) = .ok s) (hlast : s.last = .name n) :
    fs.PathRoute ending (dir.join p) links s ∧
      ∃ ns, fs.descend? d ns = some s.dir ∧ p.names = ns ++ [n] := by
  obtain ⟨hroute, _, ns, hns, hnames⟩ := h.leads.descend?_of_slot h.plain hp hslot
  rw [hlast] at hnames
  exact ⟨hroute, ns, hns, hnames⟩

/-- Of the directories that a path inside lies in, those that can be made lie past the directory
that the path starts from. -/
theorem LeadsTo.route_of_enclosing (h : fs.LeadsTo dir links d) (hp : p.Inside)
    (hq : q ∈ (dir.join p).enclosing) (hne : q.isEmpty = false) (hslot : fs.slot .name q = .ok s)
    (hname : fs.vacantName s = .ok n) :
    ∃ below rest links', p.segments = below ++ rest ∧ (∃ segment ∈ rest, segment ≠ .here) ∧
      fs.PathRoute .name q (links ++ links') s ∧ fs.Route .name d below q.endsInSlash links' s := by
  obtain ⟨habsolute, rest, hon, hsegments⟩ := Path.segments_of_mem_enclosing hq hne
  rw [Path.isAbsolute_join hp.isAbsolute] at habsolute
  rw [Path.segments_join hp.isAbsolute] at hsegments
  -- Everything on the way to the directory is there, and cannot be made.
  have hbelow : ∀ more, dir.segments ≠ q.segments ++ more := by
    intro more heq
    obtain ⟨i, hi⟩ := h.exists_step habsolute heq hslot
    rw [vacantName_of_step hi] at hname
    cases hname
  rcases List.append_eq_append_iff.1 hsegments with ⟨below, hbelow', hrest⟩ | ⟨more, heq, _⟩
  · have hnil : below ≠ [] := by
      rintro rfl
      exact hbelow [] (by simp [hbelow'])
    obtain ⟨_, links', hroute, _⟩ := slot_eq_ok_iff.1 hslot
    obtain ⟨⟨t, hdirRoute, hd⟩, hdir⟩ := h
    have horigin : fs.origin q = fs.origin dir := by
      rw [origin, origin, habsolute]
    have hfrom := hroute
    rw [PathRoute, hbelow', horigin, Route.append_iff hdirRoute hd hdir hnil] at hfrom
    obtain ⟨links'', rfl, hend⟩ := hfrom
    exact ⟨below, rest, links'', hrest, hon, hroute, hend⟩
  · exact absurd heq (hbelow more)

/-- Of the directories that a path inside lies in, those that can be made are below the site, at
names in front of the path's own. -/
theorem Site.descend?_of_enclosing (h : fs.Site dir links d) (hp : p.Inside)
    (hq : q ∈ (dir.join p).enclosing) (hne : q.isEmpty = false) (hslot : fs.slot .name q = .ok s)
    (hname : fs.vacantName s = .ok n) :
    ∃ ns, fs.descend? d ns = some s.dir ∧ ns ++ [n] <+: p.names ∧ ns ++ [n] ≠ p.names := by
  obtain ⟨below, rest, _, hrest, ⟨segment, hsegment, hon⟩, _, hend⟩ :=
    h.leads.route_of_enclosing hp hq hne hslot hname
  have hup : .up ∉ below := fun hmem => hp.up (hrest ▸ List.mem_append_left rest hmem)
  obtain ⟨_, _, _, ns, hns, hnames⟩ := hend.descend? h.plain hup
  rw [(vacantName_eq_ok_iff.1 hname).1] at hnames
  have heq : p.names = ns ++ [n] ++ rest.filterMap Segment.name? := by
    rw [Path.names, hrest, List.filterMap_append, hnames]
    rfl
  refine ⟨ns, hns, ⟨_, heq.symm⟩, fun hall => ?_⟩
  -- What leads on from the directory is a name.
  have hnone : rest.filterMap Segment.name? = [] := by
    rw [← hall] at heq
    simpa using heq
  have hsegmentNone := List.filterMap_eq_nil_iff.1 hnone segment hsegment
  cases segment with
  | here => exact hon rfl
  | up => exact hp.up (hrest ▸ List.mem_append_right below hsegment)
  | name m => cases hsegmentNone

/-! ## New entries -/

/-- Where nothing lies below a new entry, it is one new list of names. -/
theorem descend?_of_inserted
    (hchild : ∀ b m, after.child? b m = if b = a ∧ m = n then some i else fs.child? b m)
    (honly : ∀ ms, fs.descend? d ms = some a → ms = ns) (hleaf : ∀ m, after.child? i m = none)
    {j : Inode} (h : after.descend? d ms = some j) :
    fs.descend? d ms = some j ∨ ms = ns ++ [n] ∧ j = i := by
  induction ms using List.reverseRecOn generalizing j with
  | nil => exact .inl h
  | append_singleton ms m ih =>
      obtain ⟨b, hb, hj⟩ := descend?_concat_eq_some_iff.1 h
      rcases ih hb with hold | ⟨_, rfl⟩
      · rw [hchild] at hj
        split at hj
        · next heq =>
          obtain ⟨rfl, rfl⟩ := heq
          rw [honly ms hold]
          exact .inr ⟨rfl, (Option.some.inj hj).symm⟩
        · exact .inl (descend?_concat_eq_some_iff.2 ⟨b, hold, hj⟩)
      · simp [hleaf] at hj

/-- A call that makes one entry below a site, for a node that was no directory. -/
theorem Site.insert (h : fs.Site dir links d) (hcall : Call fs after) (hgrows : fs.Grows after)
    (hns : fs.descend? d ns = some a) (hdir : fs.isDirectory a = true)
    (hchild : ∀ b m, after.child? b m = if b = a ∧ m = n then some i else fs.child? b m)
    (hfile : fs.isDirectory i = false) (htarget : fs.target? i = none)
    (hnode : ∀ {k node}, k ≠ a → fs.node? k = some node → after.node? k = some node) :
    after.Site dir links d ∧ GrowsBelow d (· = ns ++ [n]) fs after := by
  have hleaf : ∀ m, after.child? i m = none := by
    intro m
    have hne : i ≠ a := by
      rintro rfl
      simp [hdir] at hfile
    rw [hchild, if_neg fun heq => hne heq.1, child?_of_file hfile]
  have honly : ∀ ms, fs.descend? d ms = some a → ms = ns := by
    intro ms hms
    exact h.hierarchical.descend?_inj hms hns hdir
  have hbelow : GrowsBelow d (· = ns ++ [n]) fs after := by
    refine ⟨hgrows, ?_, ?_⟩
    · intro ms j hj
      rcases descend?_of_inserted hchild honly hleaf hj with hold | ⟨hms, rfl⟩
      · exact .inl hold
      · exact .inr ⟨hms, hfile⟩
    · intro k node hnot hk
      apply hnode _ hk
      rintro rfl
      exact hnot ⟨hdir, ns, hns⟩
  refine ⟨⟨h.hierarchical.call hcall, h.leads.extend hgrows.extends, ?_⟩, hbelow⟩
  intro ms j hj
  rw [hgrows.target?_eq]
  rcases descend?_of_inserted hchild honly hleaf hj with hold | ⟨_, rfl⟩
  · exact h.plain ms j hold
  · exact htarget

/-- A directory that is made below a site is one new list of names. -/
theorem Site.makeDirectory_at (h : fs.Site dir links d) (hmake : fs.makeDirectory q = .ok after)
    (hslot : fs.slot .name q = .ok s) (hlast : s.last = .name n)
    (hns : fs.descend? d ns = some s.dir) :
    after.Site dir links d ∧ GrowsBelow d (· = ns ++ [n]) fs after := by
  have hcall : Call fs after := .makeDirectory hmake
  have hgrows := grows_of_makeDirectory hmake
  obtain ⟨s', n', hslot', hname, _, rfl⟩ := makeDirectory_eq_ok_iff.1 hmake
  obtain rfl := Except.ok.inj (hslot.symm.trans hslot')
  obtain rfl : n = n' := by
    rw [(vacantName_eq_ok_iff.1 hname).1] at hlast
    exact (Segment.name.inj hlast).symm
  have htarget : fs.target? fs.nextInode = none := by
    rw [target?, content?_nextInode]
  have hnode : ∀ {k node}, k ≠ s.dir → fs.node? k = some node →
      (fs.create s.dir n .ofNewDirectory (.directory s.dir [])).node? k = some node := by
    intro k node hk hold
    have hlt : k ≠ fs.nextInode := by
      rintro rfl
      simp [node?_nextInode] at hold
    rw [create, addEntry, node?_modifyEntries hk, node?_addNode, if_neg hlt, hold]
  exact h.insert hcall hgrows hns (isDirectory_of_slot hslot hlast)
    (fun b m => child?_create (by simp) hslot hname) isDirectory_nextInode htarget hnode

/-- A directory that a path inside lies in is made at names in front of the path's own. -/
theorem Site.makeDirectory (h : fs.Site dir links d) (hp : p.Inside)
    (hq : q ∈ (dir.join p).enclosing) (hne : q.isEmpty = false)
    (hmake : fs.makeDirectory q = .ok after) :
    after.Site dir links d ∧
      GrowsBelow d (fun ns => ns <+: p.names ∧ ns ≠ p.names) fs after := by
  obtain ⟨s, n, hslot, hname, _⟩ := makeDirectory_eq_ok_iff.1 hmake
  obtain ⟨ns, hns, hfront⟩ := h.descend?_of_enclosing hp hq hne hslot hname
  obtain ⟨hsite, hbelow⟩ := h.makeDirectory_at hmake hslot (vacantName_eq_ok_iff.1 hname).1 hns
  refine ⟨hsite, hbelow.mono ?_⟩
  rintro ms rfl
  exact hfront

/-- The parent directory of a path inside is made at names in front of the path's own. -/
theorem Site.provideParent (h : fs.Site dir links d) (hp : p.Inside) :
    (fs.provideParent (dir.join p)).2.Site dir links d ∧
      GrowsBelow d (fun ns => ns <+: p.names ∧ ns ≠ p.names) fs
        (fs.provideParent (dir.join p)).2 := by
  rcases provideParent_snd fs (dir.join p) with hsame | hmade
  · rw [hsame]
    exact ⟨h, .refl d _ fs⟩
  · rw [hmade]
    apply makeFirst_induction (P := fun mid => mid.Site dir links d ∧
      GrowsBelow d (fun ns => ns <+: p.names ∧ ns ≠ p.names) fs mid)
    · exact ⟨h, .refl d _ fs⟩
    · rintro mid made q hq hne ⟨hsite, hbelow⟩ hmade
      obtain ⟨hsite', hbelow'⟩ := hsite.makeDirectory hp hq hne hmade
      exact ⟨hsite', hbelow.trans hbelow'⟩

/-- A link between two paths inside is one new entry, at the names of the second. -/
theorem Site.linkFile (h : fs.Site dir links d) (hp : p.Inside) (hq : q.Inside)
    (hlink : fs.linkFile (dir.join p) (dir.join q) = .ok after) :
    after.Site dir links d ∧ GrowsBelow d (· = q.names) fs after := by
  have hcall : Call fs after := .linkFile hlink
  have hgrows := grows_of_linkFile hlink
  obtain ⟨i, s, n, hi, hslot, hname, _, _, _, hfile, rfl⟩ := linkFile_eq_ok_iff.1 hlink
  have hlast := (vacantName_eq_ok_iff.1 hname).1
  obtain ⟨_, ns, hns, hnames⟩ := h.descend?_of_slot hq hslot hlast
  have htarget := h.plain _ i (h.descend?_of_find hp hi)
  obtain ⟨hsite, hbelow⟩ := h.insert hcall hgrows hns (isDirectory_of_slot hslot hlast)
    (fun b m => child?_addEntry_of_vacant hslot hname) hfile htarget
    (fun hk hold => (node?_modifyEntries hk).trans hold)
  refine ⟨hsite, hbelow.mono ?_⟩
  rintro ms rfl
  rw [hnames]

/-! ## Removed files -/

/-- Without the entry of a file, its own names lead nowhere, and all others where they did. -/
theorem Site.descend?_removeEntry_iff (h : fs.Site dir links d) (hns : fs.descend? d ns = some a)
    (hi : fs.child? a n = some i) (hfile : fs.isDirectory i = false) {j : Inode} :
    (fs.removeEntry a n).descend? d ms = some j ↔
      fs.descend? d ms = some j ∧ ms ≠ ns ++ [n] := by
  have hextends : (fs.removeEntry a n).Extends fs := extends_removeEntry a n
  have hdir := isDirectory_of_child? hi
  constructor
  · intro hj
    refine ⟨descend?_extend hextends hj, ?_⟩
    rintro rfl
    obtain ⟨b, hb, hj⟩ := descend?_concat_eq_some_iff.1 hj
    obtain rfl := Option.some.inj ((descend?_extend hextends hb).symm.trans hns)
    simp [child?_removeEntry] at hj
  · rintro ⟨hj, hne⟩
    -- Put back, the entry would be the one new list of names.
    have hback : ∀ b m, fs.child? b m =
        if b = a ∧ m = n then some i else (fs.removeEntry a n).child? b m := by
      intro b m
      rw [child?_removeEntry]
      split
      · next heq => rw [heq.1, heq.2, hi]
      · rfl
    have honly : ∀ ms, (fs.removeEntry a n).descend? d ms = some a → ms = ns := by
      intro ms hms
      exact h.hierarchical.descend?_inj (descend?_extend hextends hms) hns hdir
    rcases descend?_of_inserted hback honly (child?_of_file hfile) hj with hkept | ⟨hms, _⟩
    · exact hkept
    · exact absurd hms hne

/-- Without the entry of a file, the paths inside that have other names are found still. -/
theorem Site.find_removeEntry (h : fs.Site dir links d) (hns : fs.descend? d ns = some a)
    (hi : fs.step a (.name n) = .ok i) (hfile : fs.isDirectory i = false) (hp : p.Inside)
    (hother : p.names ≠ ns ++ [n]) {j : Inode} (hj : fs.find .keep (dir.join p) = .ok j) :
    (fs.removeEntry a n).find .keep (dir.join p) = .ok j := by
  have hchild := (step_name_eq_ok_iff.1 hi).2
  have htarget := h.plain _ i (descend?_concat_eq_some_iff.2 ⟨a, hns, hchild⟩)
  apply (find_removeEntry_iff hj hi hfile).2
  rintro ⟨links', t, hroute, hmem⟩
  obtain ⟨t', hslot, _⟩ := find_eq_ok_iff.1 hj
  obtain ⟨hroute', _, ms, hms, hnames⟩ := h.leads.descend?_of_slot h.plain hp hslot
  obtain ⟨rfl, rfl⟩ := Route.unique hroute hroute'
  rcases List.mem_cons.1 hmem with heq | hmem
  · obtain ⟨hdir, hlast⟩ := Prod.mk.inj heq
    rw [← hdir] at hms
    have hsame : ms = ns := h.hierarchical.descend?_inj hms hns (isDirectory_of_child? hchild)
    rw [← hlast, hsame] at hnames
    exact hother hnames
  · exact Route.notMem_of_target? hroute hi htarget hmem

/-- A file that is removed takes its own names along, and no others. -/
theorem Site.removeFile (h : fs.Site dir links d) (hp : p.Inside)
    (hremove : fs.removeFile (dir.join p) = .ok after) :
    after.Site dir links d ∧ ShrinksBelow dir d (· = p.names) fs after := by
  have hcall : Call fs after := .removeFile hremove
  have hextends := extends_removeFile hremove
  obtain ⟨s, n, i, hslot, hlast, hi, _, _, hfile, rfl⟩ := removeFile_eq_ok_iff.1 hremove
  obtain ⟨_, ns, hns, hnames⟩ := h.descend?_of_slot hp hslot hlast
  rw [hlast] at hi
  have hchild := (step_name_eq_ok_iff.1 hi).2
  have hplace : fs.descend? d p.names = some i := by
    rw [hnames]
    exact descend?_concat_eq_some_iff.2 ⟨s.dir, hns, hchild⟩
  have htarget := h.plain _ i hplace
  have hplain : (fs.removeEntry s.dir n).Plain d := by
    intro ms j hj
    rw [← hextends.target?]
    exact h.plain ms j (descend?_extend hextends hj)
  refine ⟨⟨h.hierarchical.call hcall, h.leads.removeEntry hi hfile htarget, hplain⟩,
    hextends, fun _ => isDirectory_modifyEntries _ _ _, ?_, ?_, ?_, ?_⟩
  · rintro ms j rfl hj
    obtain rfl := Option.some.inj (hplace.symm.trans hj)
    exact hfile
  · intro ms j
    rw [hnames]
    exact h.descend?_removeEntry_iff hns hchild hfile
  · intro k node hnot hk
    have hne : k ≠ s.dir := by
      rintro rfl
      exact hnot ⟨isDirectory_of_child? hchild, ns, hns⟩
    rw [FileSystem.removeEntry, node?_modifyEntries hne, hk]
  · intro q j hq hother hj
    rw [hnames] at hother
    exact h.find_removeEntry hns hi hfile hq hother hj

end Hardlinks.FileSystem
