-- SUMMARY: What the removal of sources comes to, told by names and in whatever order it is done.
import Hardlinks.Proofs.Replay.Cleanup
import Hardlinks.Proofs.Replay.Foreseen

/-!
# Disposal of sources

Whether a source that is there can be removed is up to the place that its names lead to, however it
is spelled (`Site.exists_removeFile_iff`). So which names are gone after a cleanup, how many sources
it removes and how many it fails to remove can all be told from the names alone
(`disposed_deleteAll`), and entries in another order leave the same names to remove
(`names_disposable_perm`).
-/

namespace Hardlinks.FileSystem

/-- True when the entry at the names can be removed: it is no directory, and the directory that
holds it can be changed. -/
def removable (fs : FileSystem) (d : Inode) (ns : List Name) : Bool :=
  match fs.descend? d ns.dropLast, fs.descend? d ns with
  | some a, some i => fs.allows a Mode.write && !fs.isDirectory i
  | _, _ => false

variable {fs fs' after : FileSystem} {dir p q : Path} {links : List (Inode × Segment)}
  {a d i : Inode} {n : Name} {ns : List Name} {Gone : List Name → Prop}

theorem removable_concat (ha : fs.descend? d ns = some a)
    (hi : fs.descend? d (ns ++ [n]) = some i) :
    fs.removable d (ns ++ [n]) = (fs.allows a Mode.write && !fs.isDirectory i) := by
  rw [removable, List.dropLast_concat, ha, hi]

theorem removable_of_isDirectory (hi : fs.descend? d ns = some i)
    (hdir : fs.isDirectory i = true) : fs.removable d ns = false := by
  rw [removable, hi]
  split
  · next heq =>
    cases heq
    simp [hdir]
  · rfl

/-- Whether an entry can be removed is the same where more is there. -/
theorem Extends.removable_eq (h : fs.Extends fs') (hd : fs.isDirectory d = true)
    (hi : fs.descend? d ns = some i) (hdir : fs'.isDirectory i = fs.isDirectory i) :
    fs'.removable d ns = fs.removable d ns := by
  have hi' := descend?_extend h hi
  rcases List.eq_nil_or_concat' ns with rfl | ⟨ms, n, rfl⟩
  · rw [removable_of_isDirectory (rfl : fs.descend? d [] = some d) hd,
      removable_of_isDirectory (rfl : fs'.descend? d [] = some d) (h.isDirectory hd)]
  · obtain ⟨a, ha, hchild⟩ := descend?_concat_eq_some_iff.1 hi
    rw [removable_concat ha hi, removable_concat (descend?_extend h ha) hi', hdir,
      h.allows (isDirectory_of_child? hchild)]

/-- A path inside can be removed if the place that its names lead to can. -/
theorem Site.exists_removeFile_iff (h : fs.Site dir links d) (hp : p.Inside)
    (hi : fs.find .keep (dir.join p) = .ok i) :
    (∃ removed, fs.removeFile (dir.join p) = .ok removed) ↔ fs.removable d p.names = true := by
  obtain ⟨front, x, hsegments⟩ := hp.exists_concat
  have hpast : Path.Past dir (front ++ [x]) (dir.join p) := hsegments ▸ hp.past dir
  obtain ⟨hcheck, hlinks, a, ha, hstep, hslash⟩ := (h.find_eq_ok_iff hpast).1 hi
  have hslot : fs.slot .name (dir.join p) = .ok ⟨a, x, (dir.join p).endsInSlash⟩ :=
    (h.slot_eq_ok_iff hpast).2 ⟨hcheck, hlinks, ha, rfl, rfl⟩
  have hthere := h.descend?_of_find hp hi
  cases x with
  | up => exact absurd hpast.up (by simp)
  | here =>
      obtain rfl := Except.ok.inj hstep
      rw [removable_of_isDirectory hthere ha.isDirectory]
      refine iff_of_false ?_ (by simp)
      rintro ⟨removed, hremove⟩
      obtain ⟨s, n, _, hs, hlast, _⟩ := removeFile_eq_ok_iff.1 hremove
      obtain rfl := Except.ok.inj (hslot.symm.trans hs)
      cases hlast
  | name n =>
      obtain ⟨hlength, hchild⟩ := step_name_eq_ok_iff.1 hstep
      rw [Path.names_of_segments hsegments] at hthere ⊢
      rw [FileSystem.exists_removeFile_iff hslot hchild]
      have hremovable := removable_concat ha.descend? hthere
      rw [Segment.name?, Option.toList_some, hremovable, Bool.and_eq_true, Bool.not_eq_true']
      constructor
      · rintro ⟨_, _, hwrite, hfile⟩
        exact ⟨hwrite, hfile⟩
      · rintro ⟨hwrite, hfile⟩
        refine ⟨hlength, ?_, hwrite, hfile⟩
        apply Bool.eq_false_iff.2
        intro hends
        simp [hslash hends] at hfile

/-- Where something has been removed, all else can be reached as before. -/
theorem ShrinksBelow.passage (h : ShrinksBelow dir d Gone fs after) (ha : fs.Passage d ns a) :
    after.Passage d ns a := by
  have hback : ∀ {b}, fs.enter b = .ok () → after.enter b = .ok () := by
    intro b hb
    obtain ⟨hdir, hsearch⟩ := enter_eq_ok_iff.1 hb
    have hdir' : after.isDirectory b = true := by rw [h.isDirectory, hdir]
    exact enter_eq_ok_iff.2 ⟨hdir', by rw [← h.extended.allows hdir', hsearch]⟩
  apply passage_of_descend? fun _ => ha.length_le
  · intro ms b hms hb
    obtain ⟨c, hc⟩ := ha.of_prefix hms
    obtain rfl := Option.some.inj (hc.descend?.symm.trans (h.descend?_iff.1 hb).1)
    exact hback hc.enter
  · refine h.descend?_iff.2 ⟨ha.descend?, fun hgone => ?_⟩
    have hfile := h.file hgone ha.descend?
    simp [ha.isDirectory] at hfile

/-- What has been removed is found to be missing. -/
theorem ShrinksBelow.removeFile_of_gone (h : ShrinksBelow dir d Gone fs after)
    (hfs : fs.Site dir links d) (hafter : after.Site dir links d) (hp : p.Inside)
    (hi : fs.find .keep (dir.join p) = .ok i) (hgone : Gone p.names) :
    after.removeFile (dir.join p) = .error (.system .noEntry) := by
  obtain ⟨front, x, hsegments⟩ := hp.exists_concat
  have hpast : Path.Past dir (front ++ [x]) (dir.join p) := hsegments ▸ hp.past dir
  obtain ⟨hcheck, hlinks, a, ha, hstep, hslash⟩ := (hfs.find_eq_ok_iff hpast).1 hi
  have hfile := h.file hgone (hfs.descend?_of_find hp hi)
  cases x with
  | up => exact absurd hpast.up (by simp)
  | here =>
      obtain rfl := Except.ok.inj hstep
      simp [ha.isDirectory] at hfile
  | name n =>
      have hslot : after.slot .name (dir.join p) = .ok ⟨a, .name n, (dir.join p).endsInSlash⟩ :=
        (hafter.slot_eq_ok_iff hpast).2 ⟨hcheck, hlinks, h.passage ha, rfl, rfl⟩
      have hfree : after.child? a n = none := by
        apply Option.eq_none_iff_forall_ne_some.2
        intro j hj
        have hthere := descend?_concat_eq_some_iff.2 ⟨a, (h.passage ha).descend?, hj⟩
        refine (h.descend?_iff.1 hthere).2 ?_
        rwa [Path.names_of_segments hsegments] at hgone
      have hlength := Nat.not_lt.2 (step_name_eq_ok_iff.1 hstep).1
      simp [FileSystem.removeFile, hslot, takenName, step, hlength, hfree, bind, Except.bind]

end Hardlinks.FileSystem

namespace Hardlinks.Replay

open FileSystem

variable {dir p q manifest : Path} {links : List (Inode × Segment)}
  {fs u s after unlisted : FileSystem} {d i : Inode}
  {e : Entry} {entries xs ys zs ws : List Entry} {gone names : List (List Name)}
  {ns : List Name} {ps qs : List Path}

/-- What a cleanup comes to that is to remove the given names, when some others are gone already. -/
structure Disposed (u : FileSystem) (dir : Path) (d : Inode) (gone names : List (List Name))
    (cleanup : Cleanup) : Prop where
  shrinks : ShrinksBelow dir d (fun ns => ns ∈ gone ∨ ns ∈ names ∧ u.removable d ns = true) u
    cleanup.files
  deleted : ∃ more : List (List Name), more.Nodup ∧ more.length = cleanup.deleted ∧
    ∀ ns, ns ∈ more ↔ ns ∉ gone ∧ ns ∈ names ∧ u.removable d ns = true
  failures : cleanup.failures = names.countP fun ns => !u.removable d ns

/-! ## Removing -/

/-- What becomes of a source that was there before some others were removed. -/
theorem delete_of_shrinksBelow (hu : u.Site dir links d) (hs : s.Site dir links d)
    (hshrinks : ShrinksBelow dir d (· ∈ gone) u s) (hp : p.Inside)
    (hi : u.find .keep (dir.join p) = .ok i) :
    p.names ∈ gone ∧ delete s (dir.join p) = (.missing, s) ∨
      p.names ∉ gone ∧ u.removable d p.names = true ∧
        (∃ removed, s.removeFile (dir.join p) = .ok removed ∧
          delete s (dir.join p) = (.deleted, removed)) ∨
      p.names ∉ gone ∧ u.removable d p.names = false ∧
        ∃ cause, delete s (dir.join p) = (.failed cause, s) := by
  by_cases hgone : p.names ∈ gone
  · have hmissing := hshrinks.removeFile_of_gone hu hs hp hi hgone
    exact .inl ⟨hgone, by simp [delete, hmissing, IoError.kind, Errno.kind]⟩
  · have hfind := hshrinks.find hp hgone hi
    have hsame := hshrinks.extended.removable_eq hs.leads.isDirectory (hs.descend?_of_find hp hfind)
      (hshrinks.isDirectory i).symm
    have hremove := hs.exists_removeFile_iff hp hfind
    rw [← hsame] at hremove
    cases hremoveFile : s.removeFile (dir.join p) with
    | ok removed =>
        refine .inr (.inl ⟨hgone, hremove.1 ⟨removed, hremoveFile⟩, removed, rfl, ?_⟩)
        rw [delete, hremoveFile]
    | error cause =>
        have hkind := kind_of_removeFile hfind hremoveFile
        refine .inr (.inr ⟨hgone, ?_, cause, by simp [delete, hremoveFile, hkind]⟩)
        apply Bool.eq_false_iff.2
        intro hremovable
        obtain ⟨removed, hok⟩ := hremove.2 hremovable
        simp [hremoveFile] at hok

theorem files_cons (q : Path) (qs : List Path) :
    (deleteAll s (q :: qs)).files = (deleteAll (delete s q).2 qs).files :=
  rfl

theorem deleted_cons (q : Path) (qs : List Path) :
    (deleteAll s (q :: qs)).deleted =
      (deleteAll (delete s q).2 qs).deleted + if (delete s q).1 = .deleted then 1 else 0 := by
  rw [deleteAll_cons]
  simp [Cleanup.deleted, List.countP_cons]

theorem failures_cons (q : Path) (qs : List Path) :
    (deleteAll s (q :: qs)).failures =
      (deleteAll (delete s q).2 qs).failures +
        match (delete s q).1 with
        | .failed _ => 1
        | _ => 0 := by
  rw [deleteAll_cons]
  cases hremoval : (delete s q).1 <;> simp [Cleanup.failures, Cleanup.events]

/-- A name that is gone already, by another spelling, is not removed again. -/
theorem Disposed.missing (h : Disposed u dir d gone names (deleteAll s qs))
    (hdelete : delete s q = (.missing, s)) (hns : ns ∈ gone) (hremovable : u.removable d ns = true) :
    Disposed u dir d gone (ns :: names) (deleteAll s (q :: qs)) := by
  obtain ⟨hshrinks, ⟨more, hnodup, hlength, hmore⟩, hfailures⟩ := h
  refine ⟨?_, ⟨more, hnodup, ?_, fun ms => ?_⟩, ?_⟩
  · rw [files_cons, hdelete]
    refine hshrinks.congr fun ms => ?_
    by_cases hms : ms = ns <;> simp [hms, hns]
  · rw [deleted_cons, hdelete, hlength]
    rfl
  · rw [hmore]
    by_cases hms : ms = ns <;> simp [hms, hns]
  · rw [failures_cons, hdelete, hfailures]
    simp [hremovable]

theorem Disposed.removed (h : Disposed u dir d (ns :: gone) names (deleteAll after qs))
    (hdelete : delete s q = (.deleted, after)) (hns : ns ∉ gone)
    (hremovable : u.removable d ns = true) :
    Disposed u dir d gone (ns :: names) (deleteAll s (q :: qs)) := by
  obtain ⟨hshrinks, ⟨more, hnodup, hlength, hmore⟩, hfailures⟩ := h
  have hfresh : ns ∉ more := fun hmem => ((hmore ns).1 hmem).1 List.mem_cons_self
  refine ⟨?_, ⟨ns :: more, List.nodup_cons.2 ⟨hfresh, hnodup⟩, ?_, fun ms => ?_⟩, ?_⟩
  · rw [files_cons, hdelete]
    refine hshrinks.congr fun ms => ?_
    by_cases hms : ms = ns <;> simp [hms, hremovable]
  · rw [deleted_cons, hdelete, List.length_cons, hlength]
    rfl
  · rw [List.mem_cons, hmore]
    by_cases hms : ms = ns <;> simp [hms, hns, hremovable]
  · rw [failures_cons, hdelete, hfailures]
    simp [hremovable]

theorem Disposed.failed {cause : IoError} (h : Disposed u dir d gone names (deleteAll s qs))
    (hdelete : delete s q = (.failed cause, s)) (hkept : u.removable d ns = false) :
    Disposed u dir d gone (ns :: names) (deleteAll s (q :: qs)) := by
  obtain ⟨hshrinks, ⟨more, hnodup, hlength, hmore⟩, hfailures⟩ := h
  refine ⟨?_, ⟨more, hnodup, ?_, fun ms => ?_⟩, ?_⟩
  · rw [files_cons, hdelete]
    refine hshrinks.congr fun ms => ?_
    by_cases hms : ms = ns <;> simp [hms, hkept]
  · rw [deleted_cons, hdelete, hlength]
    rfl
  · rw [hmore]
    by_cases hms : ms = ns <;> simp [hms, hkept]
  · rw [failures_cons, hdelete, hfailures]
    simp [hkept]

/-- The names that can be removed are gone in the end. -/
theorem disposed_deleteAll (hu : u.Site dir links d) (hs : s.Site dir links d)
    (hshrinks : ShrinksBelow dir d (· ∈ gone) u s)
    (hgone : ∀ ns ∈ gone, u.removable d ns = true)
    (hps : ∀ p ∈ ps, p.Inside ∧ ∃ i, u.find .keep (dir.join p) = .ok i) :
    Disposed u dir d gone (ps.map Path.names) (deleteAll s (ps.map dir.join)) := by
  induction ps generalizing s gone with
  | nil => exact ⟨hshrinks.congr (by simp), ⟨[], by simp, rfl, by simp⟩, rfl⟩
  | cons p ps ih =>
      obtain ⟨hp, i, hi⟩ := hps p List.mem_cons_self
      have hps' := fun q hq => hps q (List.mem_cons_of_mem p hq)
      rw [List.map_cons, List.map_cons]
      rcases delete_of_shrinksBelow hu hs hshrinks hp hi with
        ⟨hmem, hdelete⟩ | ⟨hnew, hremovable, removed, hremove, hdelete⟩ |
          ⟨hnew, hkept, cause, hdelete⟩
      · exact (ih hs hshrinks hgone hps').missing hdelete hmem (hgone _ hmem)
      · obtain ⟨hsite, hbelow⟩ := hs.removeFile hp hremove
        have hgone' : ∀ ns ∈ p.names :: gone, u.removable d ns = true := by
          intro ns hns
          rcases List.mem_cons.1 hns with rfl | hns
          · exact hremovable
          · exact hgone ns hns
        have hshrinks' : ShrinksBelow dir d (· ∈ p.names :: gone) u removed :=
          (hshrinks.trans hbelow).congr (by simp [or_comm])
        exact (ih hsite hshrinks' hgone' hps').removed hdelete hnew hremovable
      · exact (ih hs hshrinks hgone hps').failed hdelete hkept

theorem site_deleteAll (hs : s.Site dir links d) (hps : ∀ p ∈ ps, p.Inside) :
    (deleteAll s (ps.map dir.join)).files.Site dir links d := by
  induction ps generalizing s with
  | nil => exact hs
  | cons p ps ih =>
      have hps' := fun q hq => hps q (List.mem_cons_of_mem p hq)
      rw [List.map_cons, files_cons]
      rcases delete_cases s (dir.join p) with ⟨removed, hremove, hdelete⟩ | ⟨_, hsame⟩
      · rw [hdelete]
        exact ih (hs.removeFile (hps p List.mem_cons_self) hremove).1 hps'
      · rw [hsame]
        exact ih hs hps'

/-! ## The sources to remove -/

theorem distinct_sublist (ps : List Path) : (distinct ps).Sublist ps := by
  induction ps with
  | nil => exact List.Sublist.refl []
  | cons p ps ih => exact (List.filter_sublist.trans ih).cons_cons p

/-- The sources to remove are those of some of the entries. -/
theorem exists_disposable (dir : Path) (entries : List Entry) :
    ∃ zs : List Entry, zs.Sublist entries ∧ disposable dir entries = zs.map (source dir) := by
  have hsub : (disposable dir entries).Sublist (entries.map (source dir)) :=
    List.filter_sublist.trans (distinct_sublist _)
  obtain ⟨zs, hzs, heq⟩ := List.sublist_map_iff.1 hsub
  exact ⟨zs, hzs, heq⟩

theorem clean_of_disposable (hdisposable : disposable dir xs = zs.map (source dir)) :
    clean true dir xs s = deleteAll s ((zs.map Entry.source).map dir.join) := by
  rw [clean, if_pos rfl, hdisposable, List.map_map]
  rfl

theorem components_mem_disposable_iff {c : List Component} :
    c ∈ (disposable dir entries).map Path.components ↔
      (∃ e ∈ entries, (source dir e).components = c) ∧
        ∀ e ∈ entries, (destination dir e).components ≠ c := by
  constructor
  · intro hc
    obtain ⟨q, hq, rfl⟩ := List.mem_map.1 hc
    obtain ⟨hdistinct, hother⟩ := mem_disposable_iff.1 hq
    obtain ⟨e, he, rfl⟩ := List.mem_map.1 (subset_distinct _ hdistinct)
    refine ⟨⟨e, he, rfl⟩, fun e' he' heq => ?_⟩
    have hfalse := hother e' he'
    rw [Path.same, heq, beq_self_eq_true] at hfalse
    cases hfalse
  · rintro ⟨⟨e, he, rfl⟩, hother⟩
    obtain ⟨q, hq, hsame⟩ := exists_mem_disposable he fun e' he' =>
      beq_eq_false_iff_ne.2 (hother e' he')
    exact List.mem_map.2 ⟨q, hq, beq_iff_eq.1 hsame⟩

theorem components_disposable_nodup (dir : Path) (entries : List Entry) :
    ((disposable dir entries).map Path.components).Nodup := by
  have hpairwise := (pairwise_distinct (entries.map (source dir))).sublist
    (List.filter_sublist : (disposable dir entries).Sublist _)
  refine List.pairwise_map.2 (hpairwise.imp fun hne heq => ?_)
  rw [Path.same, heq, beq_self_eq_true] at hne
  cases hne

/-- In another order, sources with the same names are to be removed. -/
theorem names_disposable_perm (hperm : xs.Perm ys) (hxs : ∀ e ∈ xs, e.source.isAbsolute = false)
    (hzs : zs.Sublist xs) (hdisposable : disposable dir xs = zs.map (source dir))
    (hws : ws.Sublist ys) (hdisposable' : disposable dir ys = ws.map (source dir)) :
    (zs.map fun e => e.source.names).Perm (ws.map fun e => e.source.names) := by
  have hcomponents : ((disposable dir xs).map Path.components).Perm
      ((disposable dir ys).map Path.components) := by
    refine (List.perm_ext_iff_of_nodup (components_disposable_nodup dir xs)
      (components_disposable_nodup dir ys)).2 fun c => ?_
    simp only [components_mem_disposable_iff, hperm.mem_iff]
  -- The names of a source are what the components have after those of the directory.
  have hnames : ∀ {vs : List Entry}, vs ⊆ xs →
      ((vs.map (source dir)).map Path.components).map
        (fun c => (c.filterMap Component.name?).drop dir.names.length) =
      vs.map fun e => e.source.names := by
    intro vs hvs
    rw [List.map_map, List.map_map]
    refine List.map_congr_left fun e he => ?_
    simp [Path.filterMap_components, source, Path.names_join (hxs e (hvs he))]
  rw [← hnames hzs.subset, ← hnames (List.Subset.trans hws.subset hperm.symm.subset), ← hdisposable,
    ← hdisposable']
  exact hcomponents.map _

/-- The names of the sources that are to be removed. -/
theorem mem_names_disposable_iff (hxs : ∀ e ∈ xs, e.source.isAbsolute = false)
    (hzs : zs.Sublist xs) (hdisposable : disposable dir xs = zs.map (source dir)) :
    ns ∈ (zs.map fun e => e.source.names) ↔
      ∃ e ∈ xs, e.source.names = ns ∧
        ∀ e' ∈ xs, (destination dir e').same (source dir e) = false := by
  constructor
  · intro hns
    obtain ⟨e, he, rfl⟩ := List.mem_map.1 hns
    have hmem : source dir e ∈ disposable dir xs := hdisposable ▸ List.mem_map_of_mem he
    exact ⟨e, hzs.subset he, rfl, (mem_disposable_iff.1 hmem).2⟩
  · rintro ⟨e, he, rfl, hother⟩
    obtain ⟨q, hq, hsame⟩ := exists_mem_disposable he hother
    rw [hdisposable] at hq
    obtain ⟨z, hz, rfl⟩ := List.mem_map.1 hq
    have hnames := Path.names_eq_of_same_join (hxs z (hzs.subset hz)) (hxs e he) hsame
    exact List.mem_map.2 ⟨z, hz, hnames⟩

/-! ## After a pass -/

/-- Whether an old entry can be removed after a pass is known before it. -/
theorem Foreseen.exists_removeFile_iff (hfs : fs.Site dir links d)
    (hs : Foreseen fs dir links d entries s) (hp : p.Inside)
    (hi : fs.find .keep (dir.join p) = .ok i) :
    (∃ removed, s.removeFile (dir.join p) = .ok removed) ↔ fs.removable d p.names = true := by
  obtain ⟨node, hnode⟩ := exists_node?_of_find hfs hi
  have hextends := hs.lawful.grows.extends
  rw [hs.site.exists_removeFile_iff hp (find_extend hextends hi),
    hextends.removable_eq hfs.leads.isDirectory (hfs.descend?_of_find hp hi)
      (isDirectory_eq_of_shape? (hs.shape?_old hnode))]

/-- The names that go after a pass: the manifest's and, if the sources are to be removed, that of
every source that can be removed and is not spelled like any destination. -/
def Goes (manifest dir : Path) (d : Inode) (deleteSources : Bool) (entries : List Entry)
    (s : FileSystem) (ns : List Name) : Prop :=
  ns = manifest.names ∨ deleteSources = true ∧ s.removable d ns = true ∧
    ∃ e ∈ entries, e.source.names = ns ∧
      ∀ e' ∈ entries, (destination dir e').same (source dir e) = false

/-- Once the manifest is gone, the sources that are to be removed are disposed of. -/
theorem exists_disposed_clean (hs : s.Site dir links d) (hmanifest : manifest.Inside)
    (hi : s.find .keep (dir.join manifest) = .ok i)
    (hremove : s.removeFile (dir.join manifest) = .ok unlisted)
    (hxs : ∀ e ∈ xs, e.source.Inside ∧ ∃ i, s.find .keep (source dir e) = .ok i) :
    ∃ zs : List Entry, zs.Sublist xs ∧ disposable dir xs = zs.map (source dir) ∧
      Disposed s dir d [manifest.names] (zs.map fun e => e.source.names)
        (clean true dir xs unlisted) := by
  obtain ⟨hsite, hbelow⟩ := hs.removeFile hmanifest hremove
  obtain ⟨zs, hzs, hdisposable⟩ := exists_disposable dir xs
  have hps : ∀ p ∈ zs.map Entry.source, p.Inside ∧ ∃ i, s.find .keep (dir.join p) = .ok i := by
    intro p hp
    obtain ⟨e, he, rfl⟩ := List.mem_map.1 hp
    exact hxs e (hzs.subset he)
  have hgone : s.removable d manifest.names = true :=
    (hs.exists_removeFile_iff hmanifest hi).1 ⟨unlisted, hremove⟩
  have hdisposed : Disposed s dir d [manifest.names] ((zs.map Entry.source).map Path.names)
      (deleteAll unlisted ((zs.map Entry.source).map dir.join)) :=
    disposed_deleteAll hs hsite (hbelow.congr (by simp)) (by simpa using hgone) hps
  rw [List.map_map] at hdisposed
  exact ⟨zs, hzs, hdisposable, by rwa [clean_of_disposable hdisposable]⟩

theorem shrinksBelow_clean_of_removeFile (deleteSources : Bool) (hs : s.Site dir links d)
    (hmanifest : manifest.Inside) (hi : s.find .keep (dir.join manifest) = .ok i)
    (hremove : s.removeFile (dir.join manifest) = .ok unlisted)
    (hxs : ∀ e ∈ xs, e.source.Inside ∧ ∃ i, s.find .keep (source dir e) = .ok i) :
    (clean deleteSources dir xs unlisted).files.Site dir links d ∧
      ShrinksBelow dir d (Goes manifest dir d deleteSources xs s) s
        (clean deleteSources dir xs unlisted).files := by
  obtain ⟨hsite, hbelow⟩ := hs.removeFile hmanifest hremove
  cases deleteSources with
  | false => exact ⟨hsite, hbelow.congr (by simp [Goes])⟩
  | true =>
      obtain ⟨zs, hzs, hdisposable, hdisposed⟩ := exists_disposed_clean hs hmanifest hi hremove hxs
      have hinside : ∀ p ∈ zs.map Entry.source, p.Inside := by
        intro p hp
        obtain ⟨e, he, rfl⟩ := List.mem_map.1 hp
        exact (hxs e (hzs.subset he)).1
      refine ⟨?_, hdisposed.shrinks.congr fun ns => ?_⟩
      · rw [clean_of_disposable hdisposable]
        exact site_deleteAll hsite hinside
      · rw [Goes, List.mem_singleton,
          mem_names_disposable_iff (fun e he => (hxs e he).1.isAbsolute) hzs hdisposable]
        simp only [true_and, and_comm]

/-- Where every source can be removed, no removal fails. -/
theorem failures_clean_of_removable (deleteSources : Bool) (hs : s.Site dir links d)
    (hmanifest : manifest.Inside) (hi : s.find .keep (dir.join manifest) = .ok i)
    (hremove : s.removeFile (dir.join manifest) = .ok unlisted)
    (hxs : ∀ e ∈ xs, e.source.Inside ∧ ∃ i, s.find .keep (source dir e) = .ok i)
    (hremovable : ∀ e ∈ xs, s.removable d e.source.names = true) :
    (clean deleteSources dir xs unlisted).failures = 0 := by
  cases deleteSources with
  | false => rfl
  | true =>
      obtain ⟨zs, hzs, _, hdisposed⟩ := exists_disposed_clean hs hmanifest hi hremove hxs
      rw [hdisposed.failures, List.countP_eq_zero]
      intro ns hns
      obtain ⟨e, he, rfl⟩ := List.mem_map.1 hns
      simp [hremovable e (hzs.subset he)]

end Hardlinks.Replay
