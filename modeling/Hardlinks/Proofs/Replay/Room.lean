-- SUMMARY: A directory in which nothing stands in the way of the destinations of some entries.
import Hardlinks.Proofs.Replay.Disposal

/-!
# Room for destinations

In a directory where every directory can be searched and changed, where no destination is there yet
or lies below another one, and where only directories lie above them (`Room`), an entry can be
linked whatever entries have been placed before it, as long as its source is there and on the right
device (`Room.exists_linked`). The room that a pass takes up is that of the destinations it has
linked, and their new directories are as open as the old ones.
-/

namespace Hardlinks.Replay

open FileSystem

/-- Nothing stands in the way of the destinations of the entries. -/
structure Room (fs : FileSystem) (dir : Path) (links : List (Inode × Segment)) (d : Inode)
    (entries : List Entry) : Prop where
  site : fs.Site dir links d
  permitted : ∀ {ns a}, fs.descend? d ns = some a → fs.isDirectory a = true →
    fs.allows a Mode.search = true ∧ fs.allows a Mode.write = true
  absent : ∀ e ∈ entries, fs.descend? d e.destination.names = none
  /-- No destination lies below another one. -/
  apart : ∀ e ∈ entries, ∀ e' ∈ entries, e.destination.names <+: e'.destination.names →
    e.destination.names = e'.destination.names
  /-- What is there above a destination is a directory. -/
  above : ∀ e ∈ entries, ∀ {ns a}, ns <+: e.destination.names → fs.descend? d ns = some a →
    fs.isDirectory a = true
  name_le : ∀ e ∈ entries, ∀ n ∈ e.destination.names, n.length ≤ Path.nameLimit

variable {cfg : CheckedConfig} {dir p : Path} {links : List (Inode × Segment)}
  {fs s : FileSystem} {entries xs done : List Entry} {e : Entry} {a d i : Inode} {n : Name}
  {ns : List Name} {text : List UInt8}

/-! ## States of a pass -/

/-- A directory that is there can be looked into and changed. -/
theorem Room.allows (h : Room fs dir links d entries) (hs : Foreseen fs dir links d xs s)
    (ha : s.descend? d ns = some a) (hdir : s.isDirectory a = true) :
    s.enter a = .ok () ∧ s.allows a Mode.write = true := by
  rw [enter_eq_ok_iff, and_assoc]
  refine ⟨hdir, ?_⟩
  cases hnode : fs.node? a with
  | none => exact ⟨hs.allows_new ha hnode, hs.allows_new ha hnode⟩
  | some node =>
      have hshape := hs.shape?_old hnode
      have hdir' : fs.isDirectory a = true := by rw [← isDirectory_eq_of_shape? hshape, hdir]
      rw [allows_eq_of_shape? hshape]
      rcases hs.descend? ha with hold | ⟨_, _, _, _, hfile⟩ | ⟨hnone, _⟩
      · exact h.permitted hold hdir'
      · simp [hdir'] at hfile
      · simp [hnode] at hnone

theorem Room.isDirectory_above (h : Room fs dir links d entries)
    (hs : Foreseen fs dir links d xs s) (hxs : xs ⊆ entries) (he : e ∈ entries)
    (hns : ns <+: e.destination.names) (hne : ns ≠ e.destination.names)
    (ha : s.descend? d ns = some a) : s.isDirectory a = true := by
  rcases hs.descend? ha with hold | ⟨e', he', rfl, _⟩ | ⟨hnone, _⟩
  · exact hs.lawful.grows.extends.isDirectory (h.above e he hns hold)
  · exact absurd (h.apart e' (hxs he') e he hns) hne
  · exact hs.isDirectory_new ha hnone

/-- Of an entry that has not been placed the destination is still missing. -/
theorem Room.absent_of_foreseen (h : Room fs dir links d entries)
    (hs : Foreseen fs dir links d xs s) (hxs : xs ⊆ entries) (he : e ∈ entries)
    (hother : ∀ e' ∈ xs, e'.destination.names ≠ e.destination.names) :
    s.descend? d e.destination.names = none := by
  refine Option.eq_none_iff_forall_ne_some.2 fun i hi => ?_
  rcases hs.descend? hi with hold | ⟨e', he', hnames, _⟩ | ⟨_, e', he', hpre, hne⟩
  · simp [h.absent e he] at hold
  · exact hother e' he' hnames.symm
  · exact hne (h.apart e he e' (hxs he') hpre)

theorem Room.fillable (h : Room fs dir links d entries) (hs : Foreseen fs dir links d xs s)
    (hxs : xs ⊆ entries) (he : e ∈ entries) (hnames : e.destination.names = ns ++ [n]) :
    s.Fillable d ns := by
  have hopen : ∀ {ms a}, ms <+: ns → s.descend? d ms = some a →
      s.enter a = .ok () ∧ s.allows a Mode.write = true := by
    intro ms a hms ha
    have hpre : ms <+: e.destination.names := hnames ▸ hms.trans (List.prefix_append ns [n])
    have hne : ms ≠ e.destination.names := by
      rintro rfl
      exact absurd hms.length_le (by simp [hnames])
    exact h.allows hs ha (h.isDirectory_above hs hxs he hpre hne ha)
  refine ⟨fun n' hn' => ?_, fun hms ha => (hopen hms ha).1, fun hms ha _ => ?_⟩
  · exact h.name_le e he n' (hnames ▸ List.mem_append_left [n] hn')
  · exact (hopen ((List.prefix_append _ _).trans hms) ha).2

/-! ## Links -/

/-- The next entry can be linked, whatever has been placed, if its source is an old file on the
device of the directory that is nearest to its destination. -/
theorem Room.exists_linked (policy : ExistingLinks) (h : Room fs dir links d entries)
    (hlinks : links.length ≤ linkLimit) (hs : Foreseen fs dir links d done s)
    (hdone : done ⊆ entries) (he : e ∈ entries)
    (hother : ∀ e' ∈ done, e'.destination.names ≠ e.destination.names) (hinside : EntryInside e)
    (hend : e.destination.EndsInName) (hcheck : (destination dir e).check = .ok ())
    (hi : fs.find .keep p = .ok i) (hfile : fs.isDirectory i = false)
    (hdevice : fs.device i = fs.device (fs.nearest d e.destination.names))
    (hsource : s.find .keep (source dir e) = .ok i) :
    ∃ linked, place policy dir s e = (.ok .linked, linked) := by
  obtain ⟨node, hnode⟩ := exists_node?_of_find h.site hi
  obtain ⟨front, n, hsegments⟩ := hend.exists_concat hinside.destination
  have hnames : e.destination.names = front.filterMap Segment.name? ++ [n] :=
    Path.names_of_segments hsegments
  have hfile' : s.isDirectory i = false := by
    rw [isDirectory_eq_of_shape? (hs.shape?_old hnode), hfile]
  refine exists_place_linked hs.site hlinks hinside.destination hsegments hcheck hend.1
    (h.name_le e he n (by simp [hnames])) (h.absent_of_foreseen hs hdone he hother)
    (h.fillable hs hdone he hnames) hsource hfile' ?_
  intro made a hparent ha
  have hmade : Foreseen fs dir links d (done ++ [e]) made :=
    (hs.mono (List.subset_append_left done [e])).provideParent (by simp) hinside hparent
  refine ⟨?_, (h.allows hmade ha.descend? ha.isDirectory).2⟩
  rw [device_eq_of_shape? (hmade.shape?_old hnode), hmade.device_eq h.site ha.descend?, hdevice,
    hnames, nearest_concat (hnames ▸ h.absent e he)]

/-! ## Removals -/

/-- Every file that is there can be removed. -/
theorem Room.removable (h : Room fs dir links d entries) (hs : Foreseen fs dir links d xs s)
    (hi : s.descend? d ns = some i) (hfile : s.isDirectory i = false) :
    s.removable d ns = true := by
  rcases List.eq_nil_or_concat' ns with rfl | ⟨ms, n, rfl⟩
  · cases hi
    simp [hs.site.leads.isDirectory] at hfile
  · obtain ⟨a, ha, hchild⟩ := descend?_concat_eq_some_iff.1 hi
    rw [removable_concat ha hi, (h.allows hs ha (isDirectory_of_child? hchild)).2, hfile]
    rfl

/-- The manifest that has been read can be removed. -/
theorem Room.removeFile_manifest (h : Room fs dir links d entries)
    (hread : fs.readText (cfg.manifestPath dir) = .ok text)
    (hs : Foreseen fs dir links d xs s) :
    ∃ i unlisted, s.find .keep (cfg.manifestPath dir) = .ok i ∧
      s.removeFile (cfg.manifestPath dir) = .ok unlisted ∧
      fs.descend? d (Path.ofString cfg.manifestName).names = some i := by
  obtain ⟨hmanifest, _⟩ := cfg.inside_manifestName
  obtain ⟨hfile, _⟩ := readText_eq_ok_iff.1 hread
  obtain ⟨i, hfollow, _, hbytes⟩ := readFile_eq_ok_iff.1 hfile
  have hi : fs.find .keep (dir.join (.ofString cfg.manifestName)) = .ok i :=
    h.site.find_of_find hmanifest hfollow
  have hthere := h.site.descend?_of_find hmanifest hi
  have hremovable := h.removable (.refl h.site xs) hthere (kind_of_bytes? hbytes).1
  obtain ⟨unlisted, hremove⟩ := (hs.exists_removeFile_iff h.site hmanifest hi).2 hremovable
  exact ⟨i, unlisted, find_extend hs.lawful.grows.extends hi, hremove, hthere⟩

/-- The path of a manifest that has been read replaces no more links than a walk may. -/
theorem Room.length_links_le (h : Room fs dir links d entries)
    (hread : fs.readText (cfg.manifestPath dir) = .ok text) : links.length ≤ linkLimit := by
  obtain ⟨hfile, _⟩ := readText_eq_ok_iff.1 hread
  obtain ⟨i, hi, _⟩ := readFile_eq_ok_iff.1 hfile
  exact h.site.length_links_le cfg.inside_manifestName.1 hi

end Hardlinks.Replay
