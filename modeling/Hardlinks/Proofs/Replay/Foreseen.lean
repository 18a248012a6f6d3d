-- SUMMARY: What passes over the same entries have in common, and that each of them can be finished.
import Hardlinks.Proofs.FileSystem.LawfulGrowth
import Hardlinks.Proofs.FileSystem.Provision
import Hardlinks.Proofs.Replay.Effect

/-!
# What a pass can come to

Every state that a pass over some entries goes through is foreseen by the entries alone, in whatever
order they are placed: it has destinations that name their sources and new directories in front of
destinations, and nothing else is new (`Foreseen`). If all the sources were there from the start,
two such states can only differ in which of the names they have and in how their new directories are
numbered (`Foreseen.corresponds`, `Foreseen.shape?_eq`). So whatever one pass has made can be made
in the course of any other one (`Foreseen.place`).
-/

namespace Hardlinks.FileSystem

variable {fs made : FileSystem} {dir p : Path} {links : List (Inode × Segment)} {d i : Inode}
  {ns : List Name} {result : Except Failure Unit}

theorem Site.lt_nextInode (h : fs.Site dir links d) (hi : fs.descend? d ns = some i) :
    i < fs.nextInode := by
  rcases List.eq_nil_or_concat' ns with rfl | ⟨ms, n, rfl⟩
  · cases hi
    exact isDirectory_lt_nextInode h.leads.isDirectory
  · obtain ⟨a, _, hchild⟩ := descend?_concat_eq_some_iff.1 hi
    exact h.hierarchical.wellFormed.child? hchild

/-- What the names lead to is new only if it has been made. -/
theorem descend?_of_provideParent (h : fs.provideParent p = (result, made))
    (hi : made.descend? d ns = some i) : fs.descend? d ns = some i ∨ fs.nextInode ≤ i := by
  induction ns using List.reverseRecOn generalizing i with
  | nil => exact .inl hi
  | append_singleton ns n ih =>
      obtain ⟨a, ha, hchild⟩ := descend?_concat_eq_some_iff.1 hi
      rcases child?_provideParent h hchild with hold | ⟨_, _, _, _, hnew⟩
      · rcases ih ha with hns | hnew
        · exact .inl (descend?_concat_eq_some_iff.2 ⟨a, hns, hold⟩)
        · have hlt := isDirectory_lt_nextInode (isDirectory_of_child? hold)
          exact absurd hnew (Nat.not_le.2 hlt)
      · exact .inr hnew

end Hardlinks.FileSystem

namespace Hardlinks.Replay

open FileSystem

/-- A state in a pass over some of the entries. -/
structure Foreseen (fs : FileSystem) (dir : Path) (links : List (Inode × Segment)) (d : Inode)
    (entries : List Entry) (s : FileSystem) : Prop where
  site : s.Site dir links d
  lawful : fs.GrowsLawfully s
  /-- What is there was there, or it is a destination or a new directory in front of one. -/
  descend? : ∀ {ns i}, s.descend? d ns = some i → fs.descend? d ns = some i ∨
    (∃ e ∈ entries, ns = e.destination.names ∧ s.find .keep (source dir e) = .ok i ∧
      fs.isDirectory i = false) ∨
    (fs.node? i = none ∧ ∃ e ∈ entries, ns <+: e.destination.names ∧ ns ≠ e.destination.names)

/-- A state at the end of a pass over all of the entries, of which the sources were there. -/
structure Finished (fs : FileSystem) (dir : Path) (links : List (Inode × Segment)) (d : Inode)
    (entries : List Entry) (s : FileSystem) : Prop extends Foreseen fs dir links d entries s where
  named : ∀ e ∈ entries, ∃ i, fs.find .keep (source dir e) = .ok i ∧
    s.find .keep (destination dir e) = .ok i

/-- One node, or two that are both new. -/
def Corresponds (fs : FileSystem) (i j : Inode) : Prop :=
  i = j ∨ fs.node? i = none ∧ fs.node? j = none

variable {policy : ExistingLinks} {dir p q : Path} {links : List (Inode × Segment)}
  {fs s t made linked : FileSystem} {e : Entry} {entries xs : List Entry} {a b d i j : Inode}
  {n : Name} {ns ms : List Name} {front : List Segment} {placement : Placement}
  {result : Except Failure Unit}

/-! ## Passes -/

theorem Foreseen.refl (h : fs.Site dir links d) (entries : List Entry) :
    Foreseen fs dir links d entries fs :=
  ⟨h, .refl fs, .inl⟩

theorem Foreseen.mono (h : Foreseen fs dir links d xs s) (hxs : xs ⊆ entries) :
    Foreseen fs dir links d entries s where
  site := h.site
  lawful := h.lawful
  descend? hi := by
    rcases h.descend? hi with hold | ⟨e, he, hlink⟩ | ⟨hnone, e, he, hfront⟩
    · exact .inl hold
    · exact .inr (.inl ⟨e, hxs he, hlink⟩)
    · exact .inr (.inr ⟨hnone, e, hxs he, hfront⟩)

/-- What was foreseen is so when more is added. -/
theorem Foreseen.later (h : Foreseen fs dir links d entries s) (hgrows : s.Grows t)
    (hi : s.descend? d ns = some i) : fs.descend? d ns = some i ∨
      (∃ e ∈ entries, ns = e.destination.names ∧ t.find .keep (source dir e) = .ok i ∧
        fs.isDirectory i = false) ∨
      (fs.node? i = none ∧
        ∃ e ∈ entries, ns <+: e.destination.names ∧ ns ≠ e.destination.names) := by
  rcases h.descend? hi with hold | ⟨e, he, hns, hfind, hfile⟩ | hnew
  · exact .inl hold
  · exact .inr (.inl ⟨e, he, hns, find_extend hgrows.extends hfind, hfile⟩)
  · exact .inr (.inr hnew)

theorem Foreseen.provideParent (h : Foreseen fs dir links d entries s) (he : e ∈ entries)
    (hinside : EntryInside e) (hparent : s.provideParent (destination dir e) = (result, made)) :
    Foreseen fs dir links d entries made := by
  have hgrows := grows_of_provideParent hparent
  obtain ⟨hsite, hbelow⟩ := h.site.provideParent hinside.destination
  have hlawful := h.lawful.trans (growsLawfully_of_provideParent hparent)
  rw [destination] at hparent
  rw [hparent] at hsite hbelow
  refine ⟨hsite, hlawful, fun {ns i} hi => ?_⟩
  rcases hbelow.added hi with hold | ⟨⟨hpre, hne⟩, _⟩
  · exact h.later hgrows hold
  · rcases descend?_of_provideParent hparent hi with hold | hnew
    · exact h.later hgrows hold
    · have hle := Nat.le_trans h.lawful.grows.nextInode_le hnew
      have hnone : fs.node? i = none := Array.getElem?_eq_none hle
      exact .inr (.inr ⟨hnone, e, he, hpre, hne⟩)

theorem Foreseen.linkFile (h : Foreseen fs dir links d entries s) (he : e ∈ entries)
    (hinside : EntryInside e)
    (hlink : s.linkFile (source dir e) (destination dir e) = .ok linked) :
    Foreseen fs dir links d entries linked := by
  have hgrows := grows_of_linkFile hlink
  obtain ⟨hsite, hbelow⟩ := h.site.linkFile hinside.source hinside.destination hlink
  have hlawful := h.lawful.trans (growsLawfully_of_linkFile h.site.hierarchical.wellFormed hlink)
  refine ⟨hsite, hlawful, fun {ns i} hi => ?_⟩
  rcases hbelow.added hi with hold | ⟨rfl, hfile⟩
  · exact h.later hgrows hold
  · obtain ⟨k, hsource, hdestination⟩ := find_of_linkFile hlink
    have hk := hsite.descend?_of_find hinside.destination hdestination
    obtain rfl := Option.some.inj (hi.symm.trans hk)
    refine .inr (.inl ⟨e, he, rfl, hsource, ?_⟩)
    apply Bool.eq_false_iff.2
    intro hdir
    simp [h.lawful.grows.extends.isDirectory hdir] at hfile

theorem Foreseen.place (h : Foreseen fs dir links d entries s) (he : e ∈ entries)
    (hinside : EntryInside e) : Foreseen fs dir links d entries (place policy dir s e).2 := by
  generalize houtcome : Replay.place policy dir s e = outcome
  cases places_of_eq houtcome with
  | linked hparent hlink => exact (h.provideParent he hinside hparent).linkFile he hinside hlink
  | present hparent => exact h.provideParent he hinside hparent
  | noParent hparent => exact h.provideParent he hinside hparent
  | refused hparent => exact h.provideParent he hinside hparent

theorem Foreseen.placeAll (h : Foreseen fs dir links d entries s) (hxs : xs ⊆ entries)
    (hinside : ∀ e ∈ xs, EntryInside e) :
    Foreseen fs dir links d entries (placeAll policy dir s xs).files := by
  induction xs generalizing s with
  | nil => exact h
  | cons e xs ih =>
      have hplaced : Foreseen fs dir links d entries (Replay.place policy dir s e).2 :=
        h.place (hxs List.mem_cons_self) (hinside e List.mem_cons_self)
      rcases hplace : Replay.place policy dir s e with ⟨f | placement, after⟩
      · rw [placeAll_cons_of_error hplace]
        rwa [hplace] at hplaced
      · rw [placeAll_cons_of_ok hplace]
        rw [hplace] at hplaced
        exact ih hplaced (List.subset_of_cons_subset hxs)
          fun e he => hinside e (List.mem_cons_of_mem _ he)

/-- The end of a pass that works. -/
theorem finished_of_placeAll (hsite : fs.Site dir links d) (hinside : ∀ e ∈ xs, EntryInside e)
    (hsources : ∀ e ∈ xs, ∃ i, fs.find .keep (source dir e) = .ok i)
    (h : (placeAll policy dir fs xs).failure? = none) :
    Finished fs dir links d xs (placeAll policy dir fs xs).files where
  toForeseen := (Foreseen.refl hsite xs).placeAll (List.Subset.refl xs) hinside
  named e he := by
    obtain ⟨i, hi⟩ := hsources e he
    obtain ⟨j, hsource, hdestination⟩ := find_of_placeAll h he
    have hextends := (grows_placeAll policy dir fs xs).extends
    obtain rfl := Except.ok.inj ((find_extend hextends hi).symm.trans hsource)
    exact ⟨i, hi, hdestination⟩

/-! ## Two states -/

theorem exists_node?_of_find {ending : Ending} (hsite : fs.Site dir links d)
    (hi : fs.find ending p = .ok i) : ∃ node, fs.node? i = some node := by
  obtain ⟨c, hc⟩ := exists_content? (hsite.hierarchical.wellFormed.find hi)
  obtain ⟨node, hnode, _⟩ := Option.map_eq_some_iff.1 hc
  exact ⟨node, hnode⟩

theorem Corresponds.eq {node : Node} (h : Corresponds fs i j) (hi : fs.node? i = some node) :
    i = j := by
  rcases h with rfl | ⟨hnone, _⟩
  · rfl
  · simp [hi] at hnone

theorem Corresponds.symm (h : Corresponds fs i j) : Corresponds fs j i :=
  h.imp Eq.symm And.symm

theorem Foreseen.shape?_old {node : Node} (h : Foreseen fs dir links d entries s)
    (hi : fs.node? i = some node) : s.shape? i = fs.shape? i := by
  have hshape : fs.shape? i = some node.shape := by rw [shape?, hi, Option.map_some]
  rw [h.lawful.grows.shape? hshape, hshape]

/-- New nodes are directories with the permissions of new ones. -/
theorem Foreseen.shape?_new (h : Foreseen fs dir links d entries s) (hi : s.descend? d ns = some i)
    (hnone : fs.node? i = none) :
    s.shape? i = some ⟨s.device i, .ofNewDirectory, default, .directory root []⟩ := by
  obtain ⟨c, hc⟩ := exists_content? (h.site.lt_nextInode hi)
  obtain ⟨node, hnode, _⟩ := Option.map_eq_some_iff.1 hc
  obtain ⟨⟨q, es, hcontent⟩, hmode, hmodified⟩ := h.lawful.node hnone hnode
  simp [shape?, hnode, FileSystem.device, Node.shape, Content.shape, hcontent, hmode, hmodified]

theorem Foreseen.isDirectory_new (hs : Foreseen fs dir links d entries s)
    (hi : s.descend? d ns = some i) (hnone : fs.node? i = none) : s.isDirectory i = true := by
  obtain ⟨c, hc⟩ := exists_content? (hs.site.lt_nextInode hi)
  exact hs.lawful.isDirectory (by rw [FileSystem.content?, hnone, Option.map_none]) hc

theorem Foreseen.allows_new (hs : Foreseen fs dir links d entries s) (hi : s.descend? d ns = some i)
    (hnone : fs.node? i = none) {permission : Mode → Bool} :
    s.allows i permission = permission .ofNewDirectory := by
  obtain ⟨c, hc⟩ := exists_content? (hs.site.lt_nextInode hi)
  obtain ⟨node, hnode, _⟩ := Option.map_eq_some_iff.1 hc
  obtain ⟨_, hmode, _⟩ := hs.lawful.node hnone hnode
  rw [FileSystem.allows, hnode, Option.map_some, Option.getD_some, hmode]

/-- Where one state has something, a finished one has the same. -/
theorem Foreseen.corresponds (hfs : fs.Site dir links d) (hs : Foreseen fs dir links d entries s)
    (ht : Finished fs dir links d entries t) (hinside : ∀ e ∈ entries, EntryInside e)
    (hi : s.descend? d ns = some i) : ∃ j, t.descend? d ns = some j ∧ Corresponds fs i j := by
  rcases hs.descend? hi with hold | ⟨e, he, rfl, hsource, _⟩ | ⟨hnone, e, he, hpre, hne⟩
  · exact ⟨i, descend?_extend ht.lawful.grows.extends hold, .inl rfl⟩
  · obtain ⟨k, hk, hdestination⟩ := ht.named e he
    obtain rfl := Except.ok.inj ((find_extend hs.lawful.grows.extends hk).symm.trans hsource)
    exact ⟨k, ht.site.descend?_of_find (hinside e he).destination hdestination, .inl rfl⟩
  · obtain ⟨k, _, hdestination⟩ := ht.named e he
    have hend := ht.site.descend?_of_find (hinside e he).destination hdestination
    obtain ⟨j, hj, hdir⟩ := isDirectory_of_prefix hpre hne hend
    refine ⟨j, hj, .inr ⟨hnone, ?_⟩⟩
    rcases ht.descend? hj with hold | ⟨e', he', _, hsource, hfile⟩ | ⟨hnew, _⟩
    · obtain rfl := Option.some.inj (hi.symm.trans (descend?_extend hs.lawful.grows.extends hold))
      exact hnone
    · -- A source that was there is no directory now if it was none.
      obtain ⟨k', hk', _⟩ := ht.named e' he'
      obtain rfl := Except.ok.inj ((find_extend ht.lawful.grows.extends hk').symm.trans hsource)
      obtain ⟨node, hnode⟩ := exists_node?_of_find hfs hk'
      rw [isDirectory_eq_of_shape? (ht.shape?_old hnode)] at hdir
      simp [hdir] at hfile
    · exact hnew

/-- What one state has is just what the finished one has there. -/
theorem Foreseen.shape?_eq (hfs : fs.Site dir links d) (hs : Foreseen fs dir links d entries s)
    (ht : Finished fs dir links d entries t) (hinside : ∀ e ∈ entries, EntryInside e)
    (hi : s.descend? d ns = some i) (hj : t.descend? d ns = some j) : s.shape? i = t.shape? j := by
  induction ns using List.reverseRecOn generalizing i j with
  | nil =>
      cases hi
      cases hj
      obtain ⟨c, hc⟩ := exists_content? (isDirectory_lt_nextInode hfs.leads.isDirectory)
      obtain ⟨node, hnode, _⟩ := Option.map_eq_some_iff.1 hc
      rw [hs.shape?_old hnode, ht.shape?_old hnode]
  | append_singleton ns n ih =>
      obtain ⟨j', hj', hsame⟩ := hs.corresponds hfs ht hinside hi
      obtain rfl := Option.some.inj (hj.symm.trans hj')
      cases hnode : fs.node? i with
      | some node =>
          obtain rfl := hsame.eq hnode
          rw [hs.shape?_old hnode, ht.shape?_old hnode]
      | none =>
          have hnone : fs.node? j = none := by
            rcases hsame with rfl | ⟨_, hnone⟩
            · exact hnode
            · exact hnone
          obtain ⟨a, ha, hachild⟩ := descend?_concat_eq_some_iff.1 hi
          obtain ⟨b, hb, hbchild⟩ := descend?_concat_eq_some_iff.1 hj
          have hnew : ∀ {a i}, fs.node? i = none → fs.child? a n ≠ some i := by
            intro a i hnone hchild
            obtain ⟨c, hc⟩ := exists_content? (hfs.hierarchical.wellFormed.child? hchild)
            simp [FileSystem.content?, hnone] at hc
          obtain ⟨_, _, hs', _⟩ := (hs.lawful.entry hachild).resolve_left (hnew hnode)
          obtain ⟨_, _, ht', _⟩ := (ht.lawful.entry hbchild).resolve_left (hnew hnone)
          -- A new directory is on the device of the one that holds it.
          have hdevice := device_eq_of_shape? (ih ha hb)
          rw [hs.shape?_new hi hnode, ht.shape?_new hj hnone, hs', ht', hdevice]

/-! ## The next entry -/

/-- An entry is linked where there is room for its destination. -/
theorem exists_place_linked (hs : s.Site dir links d) (hlinks : links.length ≤ linkLimit)
    (hinside : e.destination.Inside) (hsegments : e.destination.segments = front ++ [.name n])
    (hcheck : (destination dir e).check = .ok ()) (hslash : e.destination.endsInSlash = false)
    (hlength : n.length ≤ Path.nameLimit) (habsent : s.descend? d e.destination.names = none)
    (hfill : s.Fillable d (front.filterMap Segment.name?))
    (hsource : s.find .keep (source dir e) = .ok i) (hfile : s.isDirectory i = false)
    (hroom : ∀ {made a}, s.provideParent (destination dir e) = (.ok (), made) →
      made.Passage d (front.filterMap Segment.name?) a →
      made.device i = made.device a ∧ made.allows a Mode.write = true) :
    ∃ linked, place policy dir s e = (.ok .linked, linked) := by
  have hnames : e.destination.names = front.filterMap Segment.name? ++ [n] :=
    Path.names_of_segments hsegments
  have hpast : Path.Past dir (front ++ [.name n]) (destination dir e) := hsegments ▸ hinside.past dir
  obtain ⟨made, hparent, hfilled⟩ := hs.provideParent_of_fillable hlinks hpast hcheck hfill
  obtain ⟨a, hpassage, hfree⟩ := hfilled.vacant (hnames ▸ habsent)
  obtain ⟨hdevice, hwrite⟩ := hroom hparent hpassage
  have hgrows := grows_of_provideParent hparent
  have hsite : made.Site dir links d := by
    obtain ⟨hsite, _⟩ := hs.provideParent hinside
    rwa [← destination, hparent] at hsite
  have hfile' : made.isDirectory i = false := by
    obtain ⟨node, hnode⟩ := exists_shape? (hs.hierarchical.wellFormed.find hsource)
    rwa [isDirectory_eq_of_shape? ((hgrows.shape? hnode).trans hnode.symm)]
  have hend : (destination dir e).endsInSlash = false := by
    rw [destination, Path.endsInSlash_join hinside.isAbsolute hinside.isEmpty, hslash]
  obtain ⟨linked, hlink⟩ := hsite.exists_linkFile hlinks hpast hcheck hend hlength hpassage hfree
    (find_extend hgrows.extends hsource) hfile' hdevice hwrite
  exact ⟨linked, by simp only [place, hparent, hlink]⟩

/-- What lies on a passage of a finished state can be looked into. -/
theorem Foreseen.enter (hfs : fs.Site dir links d) (hs : Foreseen fs dir links d entries s)
    (ht : Finished fs dir links d entries t) (hinside : ∀ e ∈ entries, EntryInside e)
    (hb : t.Passage d ns b) (hms : ms <+: ns) (ha : s.descend? d ms = some a) :
    s.enter a = .ok () := by
  obtain ⟨c, hc⟩ := hb.of_prefix hms
  rw [enter_eq_of_shape? (hs.shape?_eq hfs ht hinside ha hc.descend?)]
  exact hc.enter

theorem Foreseen.passage (hfs : fs.Site dir links d) (hs : Foreseen fs dir links d entries s)
    (ht : Finished fs dir links d entries t) (hinside : ∀ e ∈ entries, EntryInside e)
    (hb : t.Passage d ns b) (ha : s.descend? d ns = some a) : s.Passage d ns a :=
  passage_of_descend? (fun _ => hb.length_le) (fun hms => hs.enter hfs ht hinside hb hms) ha

/-- What lies on a passage of a finished state can be made. -/
theorem Foreseen.fillable (hfs : fs.Site dir links d) (hs : Foreseen fs dir links d entries s)
    (ht : Finished fs dir links d entries t) (hinside : ∀ e ∈ entries, EntryInside e)
    (hb : t.Passage d ns b) : s.Fillable d ns where
  length_le _ := hb.length_le
  enter hms ha := hs.enter hfs ht hinside hb hms ha
  write {ms n a} hms ha hfree := by
    obtain ⟨c, hc⟩ := hb.of_prefix hms
    obtain ⟨b', hb', hchild⟩ := descend?_concat_eq_some_iff.1 hc.descend?
    have hshape := hs.shape?_eq hfs ht hinside ha hb'
    rcases ht.lawful.entry hchild with hold | ⟨_, hwrite, _⟩
    · obtain ⟨b'', hb'', hsame⟩ := hs.corresponds hfs ht hinside ha
      obtain rfl := Option.some.inj (hb'.symm.trans hb'')
      obtain ⟨c', hc'⟩ := exists_content? (isDirectory_lt_nextInode (isDirectory_of_child? hold))
      obtain ⟨node, hnode, _⟩ := Option.map_eq_some_iff.1 hc'
      obtain rfl := hsame.symm.eq hnode
      simp [hs.lawful.grows.extends.child? hold] at hfree
    · rw [allows_eq_of_shape? hshape, hwrite]

/-- A destination that is there is found where a finished state has it. -/
theorem Foreseen.find_destination (hfs : fs.Site dir links d)
    (hs : Foreseen fs dir links d entries s) (ht : Finished fs dir links d entries t)
    (hinside : ∀ e ∈ entries, EntryInside e) (he : e ∈ entries)
    (hsource : fs.find .keep (source dir e) = .ok i)
    (hdestination : t.find .keep (destination dir e) = .ok i)
    (hj : s.descend? d e.destination.names = some j) :
    s.find .keep (destination dir e) = .ok i := by
  obtain ⟨node, hnode⟩ := exists_node?_of_find hfs hsource
  have hend := ht.site.descend?_of_find (hinside e he).destination hdestination
  obtain ⟨j', hj', hsame⟩ := hs.corresponds hfs ht hinside hj
  obtain rfl := Option.some.inj (hend.symm.trans hj')
  obtain rfl := hsame.symm.eq hnode
  obtain ⟨front, x, hsegments⟩ := (hinside e he).destination.exists_concat
  have hpast : Path.Past dir (front ++ [x]) (destination dir e) :=
    hsegments ▸ (hinside e he).destination.past dir
  obtain ⟨hcheck, hlinks, b, hb, hstep, hslash⟩ := (ht.site.find_eq_ok_iff hpast).1 hdestination
  have hdir : s.isDirectory i = t.isDirectory i :=
    isDirectory_eq_of_shape? ((hs.shape?_old hnode).trans (ht.shape?_old hnode).symm)
  refine (hs.site.find_eq_ok_iff hpast).2 ⟨hcheck, hlinks, ?_⟩
  rw [hdir]
  rw [Path.names_of_segments hsegments] at hj
  cases x with
  | up => exact absurd (hpast.up) (by simp)
  | here =>
      have hj' : s.descend? d (front.filterMap Segment.name?) = some i := by
        simpa [Segment.name?] using hj
      exact ⟨i, hs.passage hfs ht hinside hb hj', rfl, hslash⟩
  | name n =>
      obtain ⟨a, ha, hchild⟩ := descend?_concat_eq_some_iff.1 hj
      exact ⟨a, hs.passage hfs ht hinside hb ha,
        step_name_eq_ok_iff.2 ⟨(step_name_eq_ok_iff.1 hstep).1, hchild⟩, hslash⟩

/-- What a finished state has for a name that another one lacks is new, so there was room for it. -/
theorem Foreseen.room (hs : Foreseen fs dir links d entries s)
    (ht : Foreseen fs dir links d entries t) (hb : t.descend? d ns = some b)
    (hi : t.child? b n = some i) (habsent : s.descend? d (ns ++ [n]) = none) :
    t.device i = t.device b ∧ t.allows b Mode.write = true := by
  have hnew : fs.child? b n ≠ some i := by
    intro hold
    have hdir := isDirectory_of_child? hold
    rcases ht.descend? hb with hns | ⟨_, _, _, _, hfile⟩ | ⟨hnone, _⟩
    · have hthere := descend?_concat_eq_some_iff.2 ⟨b, hns, hold⟩
      simp [descend?_extend hs.lawful.grows.extends hthere] at habsent
    · simp [hdir] at hfile
    · simp [isDirectory, FileSystem.content?, hnone] at hdir
  obtain ⟨_, hwrite, hdevice, _⟩ := (ht.lawful.entry hi).resolve_left hnew
  exact ⟨hdevice, hwrite⟩

/-- What is new lies on the device of what was there above it. -/
theorem Foreseen.device_eq (hfs : fs.Site dir links d) (hs : Foreseen fs dir links d entries s)
    (hi : s.descend? d ns = some i) : s.device i = fs.device (fs.nearest d ns) := by
  have hthere : ∀ {ns i}, fs.descend? d ns = some i → s.device i = fs.device (fs.nearest d ns) := by
    intro ns i hold
    obtain ⟨c, hc⟩ := exists_content? (hfs.lt_nextInode hold)
    rw [nearest_of_descend? hold, hs.lawful.grows.device hc]
  induction ns using List.reverseRecOn generalizing i with
  | nil => exact hthere hi
  | append_singleton ns n ih =>
      cases hold : fs.descend? d (ns ++ [n]) with
      | some j =>
          obtain rfl := Option.some.inj (hi.symm.trans (descend?_extend hs.lawful.grows.extends hold))
          exact hthere hold
      | none =>
          obtain ⟨b, hb, hchild⟩ := descend?_concat_eq_some_iff.1 hi
          obtain ⟨hdevice, _⟩ := (Foreseen.refl hfs entries).room hs hb hchild hold
          rw [nearest_concat hold, hdevice, ih hb]

/-- A destination that is missing from a state is none of a directory. -/
theorem Foreseen.isDirectory_of_absent {node : Node} (hs : Foreseen fs dir links d entries s)
    (ht : Foreseen fs dir links d entries t) (hi : t.descend? d ns = some i)
    (hnode : fs.node? i = some node) (habsent : s.descend? d ns = none) :
    fs.isDirectory i = false := by
  rcases ht.descend? hi with hold | ⟨_, _, _, _, hfile⟩ | ⟨hnone, _⟩
  · simp [descend?_extend hs.lawful.grows.extends hold] at habsent
  · exact hfile
  · simp [hnode] at hnone

/-- A destination that a finished state has and another one lacks can be linked there. -/
theorem Foreseen.exists_linked (hfs : fs.Site dir links d) (hs : Foreseen fs dir links d entries s)
    (ht : Finished fs dir links d entries t) (hinside : ∀ e ∈ entries, EntryInside e)
    (he : e ∈ entries) (hsource : fs.find .keep (source dir e) = .ok i)
    (hdestination : t.find .keep (destination dir e) = .ok i)
    (habsent : s.descend? d e.destination.names = none) :
    ∃ linked, Replay.place policy dir s e = (.ok .linked, linked) := by
  obtain ⟨node, hnode⟩ := exists_node?_of_find hfs hsource
  have hend := ht.site.descend?_of_find (hinside e he).destination hdestination
  have hfile := hs.isDirectory_of_absent ht.toForeseen hend hnode habsent
  have hfile' : t.isDirectory i = false := by
    rw [isDirectory_eq_of_shape? (ht.shape?_old hnode), hfile]
  obtain ⟨front, x, hsegments⟩ := (hinside e he).destination.exists_concat
  have hpast : Path.Past dir (front ++ [x]) (destination dir e) :=
    hsegments ▸ (hinside e he).destination.past dir
  obtain ⟨hcheck, hlinks, b, hb, hstep, hslash⟩ := (ht.site.find_eq_ok_iff hpast).1 hdestination
  cases x with
  | up => exact absurd hpast.up (by simp)
  | here =>
      obtain rfl := Except.ok.inj hstep
      simp [hb.isDirectory] at hfile'
  | name n =>
      obtain ⟨hlength, hchild⟩ := step_name_eq_ok_iff.1 hstep
      have hends : e.destination.endsInSlash = false := by
        rw [← Path.endsInSlash_join (p := dir) (hinside e he).destination.isAbsolute
          (hinside e he).destination.isEmpty]
        apply Bool.eq_false_iff.2
        intro hends
        simp [hslash hends] at hfile'
      refine exists_place_linked hs.site hlinks (hinside e he).destination hsegments hcheck hends
        hlength habsent (hs.fillable hfs ht hinside hb)
        (find_extend hs.lawful.grows.extends hsource)
        (by rw [isDirectory_eq_of_shape? (hs.shape?_old hnode), hfile]) ?_
      intro made a hparent hpassage
      have hmade := hs.provideParent he (hinside e he) hparent
      have hshape := hmade.shape?_eq hfs ht hinside hpassage.descend? hb.descend?
      have hshape' := (hmade.shape?_old hnode).trans (ht.shape?_old hnode).symm
      rw [Path.names_of_segments hsegments] at habsent
      obtain ⟨hdevice, hwrite⟩ := hs.room ht.toForeseen hb.descend? hchild habsent
      rw [device_eq_of_shape? hshape, device_eq_of_shape? hshape', allows_eq_of_shape? hshape]
      exact ⟨hdevice, hwrite⟩

/-- Whatever one pass has placed can be placed in the course of any other one. -/
theorem Foreseen.exists_place (hfs : fs.Site dir links d)
    (hs : Foreseen fs dir links d entries s) (ht : Finished fs dir links d entries t)
    (hinside : ∀ e ∈ entries, EntryInside e) (he : e ∈ entries) :
    ∃ placement after, Replay.place .acceptSame dir s e = (.ok placement, after) := by
  obtain ⟨i, hsource, hdestination⟩ := ht.named e he
  cases hj : s.descend? d e.destination.names with
  | some j =>
      have hfind := hs.find_destination hfs ht hinside he hsource hdestination hj
      have hsource' := find_extend hs.lawful.grows.extends hsource
      obtain ⟨r, hslot, _⟩ := find_eq_ok_iff.1 hfind
      exact ⟨.present, s, place_of_find (provideParent_of_slot hslot) hsource' hfind⟩
  | none => exact ⟨.linked, hs.exists_linked hfs ht hinside he hsource hdestination hj⟩

/-- A pass over some of the entries of a finished one works. -/
theorem Foreseen.failure?_placeAll (hfs : fs.Site dir links d)
    (hs : Foreseen fs dir links d entries s) (ht : Finished fs dir links d entries t)
    (hinside : ∀ e ∈ entries, EntryInside e) (hxs : xs ⊆ entries) :
    (Replay.placeAll .acceptSame dir s xs).failure? = none := by
  induction xs generalizing s with
  | nil => rfl
  | cons e xs ih =>
      have he := hxs List.mem_cons_self
      obtain ⟨placement, after, hplace⟩ := hs.exists_place hfs ht hinside he
      have hafter : Foreseen fs dir links d entries (Replay.place .acceptSame dir s e).2 :=
        hs.place he (hinside e he)
      rw [hplace] at hafter
      rw [placeAll_cons_of_ok hplace]
      exact ih hafter (List.subset_of_cons_subset hxs)

end Hardlinks.Replay
