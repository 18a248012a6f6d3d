-- SUMMARY: The lines of a manifest in another order: the same report and the same tree.
import Hardlinks.Proofs.Replay.Counts
import Hardlinks.Proofs.Replay.Disposal
import Hardlinks.Proofs.Text.Utf8

/-!
# The order of lines

Where all sources are there from the start, the order of the lines of a manifest does not matter.
What a pass over the lines has made can be made in the course of a pass over them in another order,
so that pass works as well (`placeAll_of_perm`). Both fill the same empty places and leave the same
names to remove, so that they end with one report and trees that agree (`run_of_perm`), up to the
numbers of new directories and the manifest itself, which is not part of any tree in the end.
-/

namespace Hardlinks

open FileSystem

/-- The text that has the given lines. -/
abbrev Text.ofLines (lines : List (List UInt8)) : List UInt8 :=
  lines.flatMap fun line => line ++ [Text.newline]

/-- Lines in another order have the same entries, in another order, and as many are malformed. -/
theorem Manifest.read_perm {lines lines' : List (List UInt8)}
    (hlines : ∀ line ∈ lines, Text.newline ∉ line) (hperm : lines.Perm lines') :
    (read (Text.ofLines lines)).entries.Perm (read (Text.ofLines lines')).entries ∧
      (read (Text.ofLines lines)).malformed.length =
        (read (Text.ofLines lines')).malformed.length := by
  have hlines' : ∀ line ∈ lines', Text.newline ∉ line := by
    intro line hline
    exact hlines line (hperm.symm.subset hline)
  rw [read, read, Text.lines_flatMap hlines, Text.lines_flatMap hlines']
  have hmapped := hperm.map Text.dropReturn
  have hentries : (readLines 1 (lines.map Text.dropReturn)).entries.Perm
      (readLines 1 (lines'.map Text.dropReturn)).entries := by
    rw [entries_readLines, entries_readLines]
    exact hmapped.filterMap _
  refine ⟨hentries, ?_⟩
  have hlength := length_readLines 1 (lines.map Text.dropReturn)
  have hlength' := length_readLines 1 (lines'.map Text.dropReturn)
  rw [hmapped.length_eq] at hlength
  have hcount := hentries.length_eq
  omega

namespace Replay

variable {cfg : CheckedConfig} {policy : ExistingLinks} {dir : Path}
  {links : List (Inode × Segment)} {deleteSources : Bool}
  {fs fs' s s' t t' unlisted : FileSystem} {e : Entry} {entries xs ys zs : List Entry}
  {d m i : Inode} {old bytes : List UInt8} {ns : List Name} {result : ReplayReport}

/-! ## Passes -/

theorem Foreseen.setContent (h : Foreseen fs dir links d entries s)
    (hold : fs.content? m = some (.file old)) (bytes : List UInt8) :
    Foreseen (fs.setContent m (.file bytes)) dir links d entries (s.setContent m (.file bytes)) := by
  have hold' := h.lawful.grows.content?_file hold
  have htree := sameTree_setContent_file hold bytes
  have htree' := sameTree_setContent_file hold' bytes
  refine ⟨h.site.setContent hold' bytes, h.lawful.setContent hold bytes, fun {ns i} hi => ?_⟩
  rw [htree'.descend?_eq] at hi
  rw [htree.descend?_eq, htree.isDirectory]
  rcases h.descend? hi with hthere | ⟨e, he, hns, hsource, hfile⟩ | ⟨hnone, hfront⟩
  · exact .inl hthere
  · exact .inr (.inl ⟨e, he, hns, find_extend htree'.extends hsource, hfile⟩)
  · refine .inr (.inr ⟨?_, hfront⟩)
    rw [node?_setContent, hnone]
    split <;> rfl

theorem Finished.setContent (h : Finished fs dir links d entries s)
    (hold : fs.content? m = some (.file old)) (bytes : List UInt8) :
    Finished (fs.setContent m (.file bytes)) dir links d entries (s.setContent m (.file bytes)) where
  toForeseen := h.toForeseen.setContent hold bytes
  named e he := by
    obtain ⟨i, hsource, hdestination⟩ := h.named e he
    have hold' := h.lawful.grows.content?_file hold
    exact ⟨i, find_extend (sameTree_setContent_file hold bytes).extends hsource,
      find_extend (sameTree_setContent_file hold' bytes).extends hdestination⟩

theorem Finished.perm (h : Finished fs dir links d xs s) (hperm : xs.Perm ys) :
    Finished fs dir links d ys s where
  site := h.site
  lawful := h.lawful
  descend? hi := by simpa only [← hperm.mem_iff] using h.descend? hi
  named e he := h.named e (hperm.symm.subset he)

theorem sources_of_perm
    (hxs : ∀ e ∈ xs, EntryInside e ∧ ∃ i, fs.find .keep (source dir e) = .ok i)
    (hperm : xs.Perm ys) (hold : fs.content? m = some (.file old)) (bytes : List UInt8) :
    ∀ e ∈ ys, EntryInside e ∧
      ∃ i, (fs.setContent m (.file bytes)).find .keep (source dir e) = .ok i := by
  intro e he
  obtain ⟨hinside, i, hi⟩ := hxs e (hperm.symm.subset he)
  exact ⟨hinside, i, find_extend (sameTree_setContent_file hold bytes).extends hi⟩

/-- A pass in another order works too, whatever a file holds, and links as many entries. -/
theorem placeAll_acceptSame_of_perm (hfs : fs.Site dir links d)
    (hxs : ∀ e ∈ xs, EntryInside e ∧ ∃ i, fs.find .keep (source dir e) = .ok i)
    (hperm : xs.Perm ys) (hold : fs.content? m = some (.file old)) (bytes : List UInt8)
    (h : (placeAll .acceptSame dir fs xs).failure? = none) :
    (placeAll .acceptSame dir (fs.setContent m (.file bytes)) ys).failure? = none ∧
      ∀ placement, (placeAll .acceptSame dir (fs.setContent m (.file bytes)) ys).count placement =
        (placeAll .acceptSame dir fs xs).count placement := by
  have htree := sameTree_setContent_file hold bytes
  have hsite := hfs.setContent hold bytes
  have hys := sources_of_perm hxs hperm hold bytes
  have hfinished : Finished (fs.setContent m (.file bytes)) dir links d ys
      ((placeAll .acceptSame dir fs xs).files.setContent m (.file bytes)) :=
    ((finished_of_placeAll hfs (fun e he => (hxs e he).1) (fun e he => (hxs e he).2) h).setContent
      hold bytes).perm hperm
  have hfailure := (Foreseen.refl hsite ys).failure?_placeAll hsite hfinished
    (fun e he => (hys e he).1) (List.Subset.refl ys)
  refine ⟨hfailure, ?_⟩
  obtain ⟨places, hnodup, hlength, hplaces⟩ := exists_vacant hfs hxs h
  obtain ⟨places', hnodup', hlength', hplaces'⟩ := exists_vacant hsite hys hfailure
  have hvacant : ∀ ns, ns ∈ places' ↔ ns ∈ places := by
    intro ns
    rw [hplaces, hplaces', IsVacant, IsVacant, htree.descend?_eq]
    simp only [hperm.mem_iff]
  have hlinked := ((List.perm_ext_iff_of_nodup hnodup' hnodup).2 hvacant).length_eq
  have hcount := count_of_placeAll h
  have hcount' := count_of_placeAll hfailure
  rw [← hperm.length_eq] at hcount'
  intro placement
  cases placement <;> omega

/-- The policy makes no difference to that. -/
theorem placeAll_of_perm (hfs : fs.Site dir links d)
    (hxs : ∀ e ∈ xs, EntryInside e ∧ ∃ i, fs.find .keep (source dir e) = .ok i)
    (hperm : xs.Perm ys) (hold : fs.content? m = some (.file old)) (bytes : List UInt8)
    (h : (placeAll policy dir fs xs).failure? = none) :
    (placeAll policy dir (fs.setContent m (.file bytes)) ys).failure? = none ∧
      ∀ placement, (placeAll policy dir (fs.setContent m (.file bytes)) ys).count placement =
        (placeAll policy dir fs xs).count placement := by
  cases policy with
  | acceptSame => exact placeAll_acceptSame_of_perm hfs hxs hperm hold bytes h
  | refuse =>
      obtain ⟨hsame, hnone⟩ := placeAll_refuse h
      rw [← hsame] at h hnone ⊢
      obtain ⟨hfailure, hcount⟩ := placeAll_acceptSame_of_perm hfs hxs hperm hold bytes h
      rw [placeAll_of_count_present ((hcount .present).trans hnone)]
      exact ⟨hfailure, hcount⟩

/-! ## Trees that agree -/

/-- Two states in which the same names below the directory `d` lead to the same nodes, up to the
numbers of the nodes that are new since `fs` and the content of the file `m`. -/
structure Agrees (fs : FileSystem) (d m : Inode) (s t : FileSystem) : Prop where
  exists_iff : ∀ ns, (∃ i, s.descend? d ns = some i) ↔ ∃ i, t.descend? d ns = some i
  /-- Names that share a node in one share one in the other. -/
  shared_iff : ∀ ms ns, s.descend? d ms = s.descend? d ns ↔ t.descend? d ms = t.descend? d ns
  old_iff : ∀ {ns i node}, fs.node? i = some node →
    (s.descend? d ns = some i ↔ t.descend? d ns = some i)
  shape?_eq : ∀ {ns i j}, s.descend? d ns = some i → t.descend? d ns = some j → i ≠ m →
    s.shape? i = t.shape? j
  /-- All other nodes are as they were. -/
  untouched : ∀ {i node}, ¬fs.IsDirectoryBelow d i → i ≠ m → fs.node? i = some node →
    s.node? i = some node ∧ t.node? i = some node

/-- The one has all names of the other, for corresponding nodes. -/
def Covers (fs : FileSystem) (d : Inode) (s t : FileSystem) : Prop :=
  ∀ {ns i}, s.descend? d ns = some i → ∃ j, t.descend? d ns = some j ∧ Corresponds fs i j

/-- A node that is new since `fs` has one place. -/
def PlacesOnce (fs : FileSystem) (d : Inode) (s : FileSystem) : Prop :=
  ∀ {ms ns i}, fs.node? i = none → s.descend? d ms = some i → s.descend? d ns = some i → ms = ns

theorem Covers.shrinks {Gone : List Name → Prop} (h : Covers fs d s t)
    (hs : ShrinksBelow dir d Gone s s') (ht : ShrinksBelow dir d Gone t t') : Covers fs d s' t' := by
  intro ns i hi
  obtain ⟨hthere, hkept⟩ := hs.descend?_iff.1 hi
  obtain ⟨j, hj, hsame⟩ := h hthere
  exact ⟨j, ht.descend?_iff.2 ⟨hj, hkept⟩, hsame⟩

theorem Covers.descend?_eq (h : Covers fs d s t) (h' : Covers fs d t s) (hs : PlacesOnce fs d s)
    {ms : List Name} (heq : s.descend? d ms = s.descend? d ns) :
    t.descend? d ms = t.descend? d ns := by
  have hnone : ∀ {ns}, s.descend? d ns = none → t.descend? d ns = none := by
    intro ns hns
    apply Option.eq_none_iff_forall_ne_some.2
    intro j hj
    obtain ⟨i, hi, _⟩ := h' hj
    simp [hns] at hi
  cases hms : s.descend? d ms with
  | none => rw [hnone hms, hnone (heq.symm.trans hms)]
  | some i =>
      have hns := heq.symm.trans hms
      cases hi : fs.node? i with
      | none => rw [hs hi hms hns]
      | some node =>
          obtain ⟨j, hj, hsame⟩ := h hms
          obtain ⟨j', hj', hsame'⟩ := h hns
          rw [hj, hj', ← hsame.eq hi, ← hsame'.eq hi]

theorem Covers.kept (h : Covers fs d s t) {node : Node} (hi : fs.node? i = some node)
    (hs : s.descend? d ns = some i) : t.descend? d ns = some i := by
  obtain ⟨j, hj, hsame⟩ := h hs
  rw [hj, ← hsame.eq hi]

theorem Finished.covers (hfs : fs.Site dir links d) (hs : Finished fs dir links d entries s)
    (ht : Finished fs dir links d entries t) (hinside : ∀ e ∈ entries, EntryInside e) :
    Covers fs d s t :=
  hs.toForeseen.corresponds hfs ht hinside

theorem Foreseen.placesOnce (hs : Foreseen fs dir links d entries s) : PlacesOnce fs d s := by
  intro ms ns i hnone hms hns
  exact hs.site.hierarchical.descend?_inj hms hns (hs.isDirectory_new hms hnone)

theorem PlacesOnce.shrinks {Gone : List Name → Prop} (h : PlacesOnce fs d s)
    (hs : ShrinksBelow dir d Gone s s') : PlacesOnce fs d s' := fun hnone hms hns =>
  h hnone (hs.descend?_iff.1 hms).1 (hs.descend?_iff.1 hns).1

theorem agrees_of_covers (h : Covers fs d s t) (h' : Covers fs d t s) (hs : PlacesOnce fs d s)
    (ht : PlacesOnce fs d t)
    (hshape : ∀ {ns i j}, s.descend? d ns = some i → t.descend? d ns = some j → i ≠ m →
      s.shape? i = t.shape? j)
    (huntouched : ∀ {i node}, ¬fs.IsDirectoryBelow d i → i ≠ m → fs.node? i = some node →
      s.node? i = some node ∧ t.node? i = some node) : Agrees fs d m s t where
  exists_iff _ := ⟨fun ⟨_, hi⟩ => (h hi).imp fun _ => And.left,
    fun ⟨_, hj⟩ => (h' hj).imp fun _ => And.left⟩
  shared_iff _ _ := ⟨h.descend?_eq h' hs, h'.descend?_eq h ht⟩
  old_iff hnode := ⟨h.kept hnode, h'.kept hnode⟩
  shape?_eq := hshape
  untouched := huntouched

/-! ## Cleanups -/

/-- What a cleanup comes to that is to remove the sources with the given names: the manifest is
gone, and so are the sources that can be removed. -/
structure Cleaned (dir manifest : Path) (deleteSources : Bool) (fs : FileSystem) (d : Inode)
    (names : List (List Name)) (mid : FileSystem) (cleanup : Cleanup) : Prop where
  shrinks : ShrinksBelow dir d
    (fun ns => ns = manifest.names ∨ deleteSources = true ∧ ns ∈ names ∧ fs.removable d ns = true)
    mid cleanup.files
  shape? : ∀ i, cleanup.files.shape? i = mid.shape? i
  deleted : ∃ gone : List (List Name), gone.Nodup ∧ gone.length = cleanup.deleted ∧
    ∀ ns, ns ∈ gone ↔ deleteSources = true ∧ ns ∈ names ∧ fs.removable d ns = true
  failures : cleanup.failures =
    if deleteSources then names.countP (fun ns => !fs.removable d ns) else 0

theorem shape?_removeFile {p : Path} (h : s.removeFile p = .ok s') (i : Inode) :
    s'.shape? i = s.shape? i := by
  obtain ⟨_, _, _, _, _, _, _, rfl⟩ := removeFile_names h
  exact shape?_modifyEntries _

theorem shape?_deleteAll (s : FileSystem) (ps : List Path) (i : Inode) :
    (deleteAll s ps).files.shape? i = s.shape? i := by
  induction ps generalizing s with
  | nil => rfl
  | cons p ps ih =>
      rw [files_cons, ih]
      rcases delete_cases s p with ⟨removed, hremove, hdelete⟩ | ⟨_, hsame⟩
      · rw [hdelete, shape?_removeFile hremove]
      · rw [hsame]

/-- What can be removed can be told in another state that agrees on it. -/
theorem Disposed.cleaned {manifest : Path} {names : List (List Name)} {cleanup : Cleanup}
    (h : Disposed unlisted dir d [] names cleanup)
    (hbelow : ShrinksBelow dir d (· = manifest.names) s unlisted)
    (hshape : ∀ i, cleanup.files.shape? i = s.shape? i)
    (hremovable : ∀ ns ∈ names, unlisted.removable d ns = fs.removable d ns) :
    Cleaned dir manifest true fs d names s cleanup := by
  have hgone : ∀ ns, (ns ∈ names ∧ unlisted.removable d ns = true) ↔
      ns ∈ names ∧ fs.removable d ns = true := by
    intro ns
    refine and_congr_right fun hns => ?_
    rw [hremovable ns hns]
  obtain ⟨hshrinks, ⟨gone, hnodup, hlength, hmem⟩, hfailures⟩ := h
  refine ⟨(hbelow.trans hshrinks).congr fun ns => ?_, hshape,
    ⟨gone, hnodup, hlength, fun ns => ?_⟩, ?_⟩
  · simp only [hgone, List.not_mem_nil, false_or, true_and]
  · simp only [hmem, hgone, List.not_mem_nil, not_false_eq_true, true_and]
  · rw [hfailures, if_pos rfl]
    refine List.countP_congr fun ns hns => ?_
    rw [hremovable ns hns]

/-- Whether a source can be removed in the end can be told in the beginning. -/
theorem Finished.removable_eq {p manifest : Path} (hfs : fs.Site dir links d)
    (hs : Finished fs dir links d entries s) (hmanifest : manifest.Inside)
    (hremove : s.removeFile (dir.join manifest) = .ok unlisted) (hp : p.Inside)
    (hother : p.names ≠ manifest.names) (hi : fs.find .keep (dir.join p) = .ok i) :
    (∃ i, unlisted.find .keep (dir.join p) = .ok i) ∧
      unlisted.removable d p.names = fs.removable d p.names := by
  obtain ⟨hsite, hbelow⟩ := hs.site.removeFile hmanifest hremove
  have hi' := hbelow.find hp hother (find_extend hs.lawful.grows.extends hi)
  refine ⟨⟨i, hi'⟩, ?_⟩
  obtain ⟨node, hnode⟩ := exists_node?_of_find hfs hi
  rw [← hs.lawful.grows.extends.removable_eq hfs.leads.isDirectory (hfs.descend?_of_find hp hi)
      (isDirectory_eq_of_shape? (hs.shape?_old hnode)),
    ← hbelow.extended.removable_eq hsite.leads.isDirectory (hsite.descend?_of_find hp hi')
      (hbelow.isDirectory i).symm]

theorem cleaned_of_removeFile {manifest : Path} (hfs : fs.Site dir links d)
    (hs : Finished fs dir links d xs s) (hmanifest : manifest.Inside)
    (hremove : s.removeFile (dir.join manifest) = .ok unlisted)
    (hxs : ∀ e ∈ xs, e.source.Inside ∧ e.source.names ≠ manifest.names)
    (hzs : zs.Sublist xs) (hdisposable : disposable dir xs = zs.map (source dir)) :
    Cleaned dir manifest deleteSources fs d (zs.map fun e => e.source.names) s
      (clean deleteSources dir xs unlisted) := by
  obtain ⟨hsite, hbelow⟩ := hs.site.removeFile hmanifest hremove
  have hnames : (zs.map fun e => e.source.names) = (zs.map Entry.source).map Path.names := by
    rw [List.map_map]
    rfl
  have hsame : ∀ p ∈ zs.map Entry.source, p.Inside ∧
      (∃ i, unlisted.find .keep (dir.join p) = .ok i) ∧
        unlisted.removable d p.names = fs.removable d p.names := by
    intro p hp
    obtain ⟨e, he, rfl⟩ := List.mem_map.1 hp
    obtain ⟨hinside, hother⟩ := hxs e (hzs.subset he)
    obtain ⟨i, hi, _⟩ := hs.named e (hzs.subset he)
    exact ⟨hinside, hs.removable_eq hfs hmanifest hremove hinside hother hi⟩
  rw [hnames]
  cases deleteSources with
  | false =>
      refine ⟨hbelow.congr (by simp), shape?_removeFile hremove, ⟨[], by simp, rfl, by simp⟩, rfl⟩
  | true =>
      have hdisposed : Disposed unlisted dir d [] ((zs.map Entry.source).map Path.names)
          (deleteAll unlisted ((zs.map Entry.source).map dir.join)) :=
        disposed_deleteAll hsite hsite (.refl dir d unlisted (by simp)) (by simp)
          fun p hp => ⟨(hsame p hp).1, (hsame p hp).2.1⟩
      have hremovable : ∀ ns ∈ (zs.map Entry.source).map Path.names,
          unlisted.removable d ns = fs.removable d ns := by
        intro ns hns
        obtain ⟨p, hp, rfl⟩ := List.mem_map.1 hns
        exact (hsame p hp).2.2
      rw [clean_of_disposable hdisposable]
      refine hdisposed.cleaned hbelow (fun i => ?_) hremovable
      rw [shape?_deleteAll, shape?_removeFile hremove]

/-- Cleanups that are to remove the same names come to the same. -/
theorem Cleaned.perm {manifest : Path} {names names' : List (List Name)} {cleanup cleanup' : Cleanup}
    (h : Cleaned dir manifest deleteSources fs d names s cleanup)
    (h' : Cleaned dir manifest deleteSources fs' d names' t cleanup')
    (hperm : names.Perm names')
    (hremovable : ∀ ns ∈ names, fs'.removable d ns = fs.removable d ns) :
    cleanup'.deleted = cleanup.deleted ∧ cleanup'.failures = cleanup.failures ∧
      ShrinksBelow dir d
        (fun ns => ns = manifest.names ∨ deleteSources = true ∧ ns ∈ names ∧
          fs.removable d ns = true) t cleanup'.files := by
  have hgone : ∀ ns, ns ∈ names' ∧ fs'.removable d ns = true ↔
      ns ∈ names ∧ fs.removable d ns = true := by
    intro ns
    rw [← hperm.mem_iff]
    refine and_congr_right fun hns => ?_
    rw [hremovable ns hns]
  obtain ⟨gone, hnodup, hlength, hmem⟩ := h.deleted
  obtain ⟨gone', hnodup', hlength', hmem'⟩ := h'.deleted
  have hsame : ∀ ns, ns ∈ gone' ↔ ns ∈ gone := by
    intro ns
    rw [hmem, hmem', hgone]
  refine ⟨?_, ?_, h'.shrinks.congr fun ns => ?_⟩
  · rw [← hlength, ← hlength', ((List.perm_ext_iff_of_nodup hnodup' hnodup).2 hsame).length_eq]
  · rw [h.failures, h'.failures, ← hperm.countP_eq]
    split
    · refine List.countP_congr fun ns hns => ?_
      rw [hremovable ns hns]
    · rfl
  · rw [hgone]

/-! ## Replays -/

theorem node?_setContent_eq_none_iff {c : Content} :
    (fs.setContent m c).node? i = none ↔ fs.node? i = none := by
  rw [node?_setContent]
  split <;> simp

/-- What finished passes and the same removals after them leave agrees. -/
theorem agrees_of_finished {Gone Added Added' : List Name → Prop} (hfs : fs.Site dir links d)
    (hold : fs.content? m = some (.file old)) (hs : Finished fs dir links d entries s)
    (ht : Finished (fs.setContent m (.file bytes)) dir links d entries t)
    (hinside : ∀ e ∈ entries, EntryInside e) (hgrows : GrowsBelow d Added fs s)
    (hgrows' : GrowsBelow d Added' (fs.setContent m (.file bytes)) t)
    (h : ShrinksBelow dir d Gone s s') (hshape : ∀ i, s'.shape? i = s.shape? i)
    (h' : ShrinksBelow dir d Gone t t') (hshape' : ∀ i, t'.shape? i = t.shape? i) :
    Agrees fs d m s' t' := by
  have htree := sameTree_setContent_file hold bytes
  have htree' := sameTree_setContent_file (hs.lawful.grows.content?_file hold) bytes
  have hsite := hfs.setContent hold bytes
  have hs' := hs.setContent hold bytes
  have hcorresponds : ∀ {i j}, Corresponds (fs.setContent m (.file bytes)) i j →
      Corresponds fs i j := by
    intro i j hsame
    simpa only [Corresponds, node?_setContent_eq_none_iff] using hsame
  have hcovers : Covers fs d s' t' := by
    refine Covers.shrinks (fun {ns i} hi => ?_) h h'
    obtain ⟨j, hj, hsame⟩ := hs'.covers hsite ht hinside ((htree'.descend?_eq d ns).trans hi)
    exact ⟨j, hj, hcorresponds hsame⟩
  have hcovers' : Covers fs d t' s' := by
    refine Covers.shrinks (fun {ns i} hi => ?_) h' h
    obtain ⟨j, hj, hsame⟩ := ht.covers hsite hs' hinside hi
    exact ⟨j, (htree'.descend?_eq d ns).symm.trans hj, hcorresponds hsame⟩
  have honce : PlacesOnce fs d s := hs.placesOnce
  have honce' : PlacesOnce fs d t := fun hnone =>
    ht.placesOnce (node?_setContent_eq_none_iff.2 hnone)
  refine agrees_of_covers hcovers hcovers' (honce.shrinks h) (honce'.shrinks h') ?_ ?_
  · intro ns i j hi hj hne
    have hi' := (htree'.descend?_eq d ns).trans (h.descend?_iff.1 hi).1
    rw [hshape, hshape', ← shape?_setContent hne (.file bytes)]
    exact hs'.shape?_eq hsite ht hinside hi' (h'.descend?_iff.1 hj).1
  · intro i node hnot hne hnode
    have hnode' : (fs.setContent m (.file bytes)).node? i = some node := by
      rw [node?_setContent, if_neg (Ne.symm hne), hnode]
    have hnot' : ¬(fs.setContent m (.file bytes)).IsDirectoryBelow d i := by
      rintro ⟨hdir, ns, hns⟩
      exact hnot ⟨(htree.isDirectory i).symm.trans hdir, ns, (htree.descend?_eq d ns).symm.trans hns⟩
    exact ⟨h.untouched (hgrows.not_isDirectoryBelow hnot hnode) (hgrows.untouched hnot hnode),
      h'.untouched (hgrows'.not_isDirectoryBelow hnot' hnode') (hgrows'.untouched hnot' hnode')⟩

theorem readText_setContent {p : Path} {text : List UInt8} (hi : fs.find .follow p = .ok m)
    (hold : fs.content? m = some (.file old)) (hread : fs.readText p = .ok text)
    (hvalid : Utf8.isValid bytes = true) :
    (fs.setContent m (.file bytes)).readText p = .ok bytes := by
  obtain ⟨j, hj, hallows, _⟩ := readFile_eq_ok_iff.1 (readText_eq_ok_iff.1 hread).1
  obtain rfl := Except.ok.inj (hi.symm.trans hj)
  refine readText_eq_ok_iff.2 ⟨readFile_eq_ok_iff.2 ⟨m, ?_, ?_, bytes?_of_content? ?_⟩, hvalid⟩
  · exact find_extend (sameTree_setContent_file hold bytes).extends hi
  · rw [allows_setContent, hallows]
  · rw [content?_setContent, if_pos rfl, hold, Option.map_some]

/-- After passes in two orders the cleanups come to the same. -/
theorem clean_of_perm {manifest : Path} (hfs : fs.Site dir links d)
    (hold : fs.content? m = some (.file old)) (hmanifest : manifest.Inside)
    (hm : fs.find .keep (dir.join manifest) = .ok m)
    (hxs : ∀ e ∈ xs, EntryInside e ∧ ∃ i, fs.find .keep (source dir e) = .ok i)
    (hother : ∀ e ∈ xs, e.source.names ≠ manifest.names) (hperm : xs.Perm ys)
    (h : (placeAll policy dir fs xs).failure? = none)
    (hremove : (placeAll policy dir fs xs).files.removeFile (dir.join manifest) = .ok unlisted) :
    ∃ unlisted', (placeAll policy dir (fs.setContent m (.file bytes)) ys).files.removeFile
        (dir.join manifest) = .ok unlisted' ∧
      (clean deleteSources dir ys unlisted').deleted =
        (clean deleteSources dir xs unlisted).deleted ∧
      (clean deleteSources dir ys unlisted').failures =
        (clean deleteSources dir xs unlisted).failures ∧
      Agrees fs d m (clean deleteSources dir xs unlisted).files
        (clean deleteSources dir ys unlisted').files := by
  have htree := sameTree_setContent_file hold bytes
  have hsite := hfs.setContent hold bytes
  have hys := sources_of_perm hxs hperm hold bytes
  have hs := finished_of_placeAll hfs (fun e he => (hxs e he).1) (fun e he => (hxs e he).2) h
  obtain ⟨hfailure, _⟩ := placeAll_of_perm hfs hxs hperm hold bytes h
  have ht := finished_of_placeAll hsite (fun e he => (hys e he).1) (fun e he => (hys e he).2) hfailure
  have hremovable : ∀ {p i}, p.Inside → fs.find .keep (dir.join p) = .ok i →
      (fs.setContent m (.file bytes)).removable d p.names = fs.removable d p.names := by
    intro p i hp hi
    exact htree.extends.removable_eq hfs.leads.isDirectory (hfs.descend?_of_find hp hi)
      (htree.isDirectory i)
  obtain ⟨unlisted', hremove'⟩ : ∃ unlisted',
      (placeAll policy dir (fs.setContent m (.file bytes)) ys).files.removeFile
        (dir.join manifest) = .ok unlisted' := by
    rw [ht.exists_removeFile_iff hsite hmanifest (find_extend htree.extends hm),
      hremovable hmanifest hm, ← hs.exists_removeFile_iff hfs hmanifest hm]
    exact ⟨unlisted, hremove⟩
  obtain ⟨zs, hzs, hdisposable⟩ := exists_disposable dir xs
  obtain ⟨ws, hws, hdisposable'⟩ := exists_disposable dir ys
  have hcleaned : Cleaned dir manifest deleteSources fs d (zs.map fun e => e.source.names) _
      (clean deleteSources dir xs unlisted) :=
    cleaned_of_removeFile hfs hs hmanifest hremove
      (fun e he => ⟨(hxs e he).1.source, hother e he⟩) hzs hdisposable
  have hcleaned' : Cleaned dir manifest deleteSources (fs.setContent m (.file bytes)) d
      (ws.map fun e => e.source.names) _ (clean deleteSources dir ys unlisted') :=
    cleaned_of_removeFile hsite ht hmanifest hremove'
      (fun e he => ⟨(hys e he).1.source, hother e (hperm.symm.subset he)⟩) hws hdisposable'
  have hnames := names_disposable_perm hperm (fun e he => (hxs e he).1.source.isAbsolute) hzs
    hdisposable hws hdisposable'
  obtain ⟨hdeleted, hfailures, hshrinks⟩ := hcleaned.perm hcleaned' hnames (by
    intro ns hns
    obtain ⟨e, he, rfl⟩ := List.mem_map.1 hns
    obtain ⟨hinside, i, hi⟩ := hxs e (hzs.subset he)
    exact hremovable hinside.source hi)
  obtain ⟨_, hgrows⟩ := growsBelow_placeAll policy hfs fun e he => (hxs e he).1
  obtain ⟨_, hgrows'⟩ := growsBelow_placeAll policy hsite fun e he => (hys e he).1
  refine ⟨unlisted', hremove', hdeleted, hfailures, ?_⟩
  exact agrees_of_finished hfs hold hs (ht.perm hperm.symm) (fun e he => (hxs e he).1) hgrows hgrows'
    hcleaned.shrinks hcleaned.shape? hshrinks hcleaned'.shape?

/-- The lines of a manifest in another order lead to the same report and to a tree that agrees, if
all sources are there from the start. -/
theorem run_of_perm {lines lines' : List (List UInt8)} (hfs : fs.Site dir links d)
    (hm : fs.find .follow (cfg.manifestPath dir) = .ok m)
    (hold : fs.content? m = some (.file (Text.ofLines lines)))
    (hlines : ∀ line ∈ lines, Text.newline ∉ line) (hperm : lines.Perm lines')
    (hsources : ∀ e ∈ waiting cfg dir fs, (∃ i, fs.find .keep (source dir e) = .ok i) ∧
      e.source.names ≠ (Path.ofString cfg.manifestName).names)
    (h : (run cfg dir deleteSources fs).result = .ok result) :
    (run cfg dir deleteSources (fs.setContent m (.file (Text.ofLines lines')))).result =
        .ok result ∧
      Agrees fs d m (run cfg dir deleteSources fs).files
        (run cfg dir deleteSources (fs.setContent m (.file (Text.ofLines lines')))).files := by
  obtain ⟨n, hcomponents⟩ := cfg.components_manifestName
  obtain ⟨hmanifest, _⟩ := Path.inside_of_components hcomponents
  have hruns := runs_run cfg dir deleteSources fs
  rw [h] at hruns
  generalize (run cfg dir deleteSources fs).files = after at hruns ⊢
  cases hruns with
  | noManifest hread hkind => exact absurd hkind (kind_of_readText hm hread)
  | @applied text unlisted hread hfailure hremove =>
      obtain ⟨hreadFile, hvalid⟩ := readText_eq_ok_iff.1 hread
      obtain ⟨j, hj, _, htext⟩ := readFile_eq_ok_iff.1 hreadFile
      obtain rfl := Except.ok.inj (hm.symm.trans hj)
      obtain rfl : text = Text.ofLines lines :=
        Option.some.inj (htext.symm.trans (bytes?_of_content? hold))
      have hvalid' : Utf8.isValid (Text.ofLines lines') = true := by
        rw [Text.ofLines, Utf8.isValid_flatMap] at hvalid ⊢
        rw [← hvalid]
        exact (hperm.all_eq).symm
      have hread' := readText_setContent hm hold hread hvalid'
      obtain ⟨hentries, hmalformed⟩ := Manifest.read_perm hlines hperm
      rw [← waiting_of_readText hread, ← waiting_of_readText hread'] at hentries
      have hxs : ∀ e ∈ waiting cfg dir fs, EntryInside e ∧
          ∃ i, fs.find .keep (source dir e) = .ok i :=
        fun e he => ⟨entryInside_of_mem_waiting he, (hsources e he).1⟩
      have hkeep : fs.find .keep (cfg.manifestPath dir) = .ok m := by
        obtain ⟨front, x, hsegments⟩ := hmanifest.exists_concat
        have hpast : Path.Past dir (front ++ [x]) (cfg.manifestPath dir) :=
          hsegments ▸ hmanifest.past dir
        exact (hfs.find_eq_ok_iff hpast).2 ((hfs.find_eq_ok_iff hpast).1 hm)
      obtain ⟨hfailure', hcount⟩ :=
        placeAll_of_perm hfs hxs hentries hold (Text.ofLines lines') hfailure
      obtain ⟨unlisted', hremove', hdeleted, hfailures, hagrees⟩ :=
        clean_of_perm hfs hold hmanifest hkeep hxs (fun e he => (hsources e he).2) hentries hfailure
          hremove
      obtain ⟨hresult, hfiles⟩ := run_of_pass deleteSources hread' hfailure' hremove'
      rw [hresult, hfiles]
      refine ⟨?_, hagrees⟩
      simp only [report, pass, hcount, hmalformed, hdeleted, hfailures]

/-- Two files and a manifest, of which the entries need directories in one another. -/
def nestedLinks : FileSystem :=
  withFiles [("a", "alpha"), ("b", "beta"), ("hardLinkFile", "c/d\ta\nc/e/f\tb\ng\ta\n")]

/-- The last line first: the directories are made in another order. -/
theorem run_of_perm_nested :
    (run .default (.ofString ".") true nestedLinks).result = .ok ⟨true, 3, 0, 0, 2, 0⟩ ∧
      let reordered := nestedLinks.setContent 6
        (.file (Text.ofLines (["g\ta", "c/e/f\tb", "c/d\ta"].map Utf8.encode)))
      (run .default (.ofString ".") true reordered).result = .ok ⟨true, 3, 0, 0, 2, 0⟩ ∧
        Agrees nestedLinks 1 6 (run .default (.ofString ".") true nestedLinks).files
          (run .default (.ofString ".") true reordered).files := by
  have hrun : (run .default (.ofString ".") true nestedLinks).result =
      .ok ⟨true, 3, 0, 0, 2, 0⟩ := by rfl
  obtain ⟨links, hleads⟩ :=
    exists_leadsTo (by rfl : nestedLinks.find .follow (.ofString ".") = .ok 1) (by rfl)
  have hplain : nestedLinks.Plain 1 := plain_of_all (by rfl)
  have hwaiting : waiting .default (.ofString ".") nestedLinks =
      [⟨.ofString "c/d", .ofString "a"⟩, ⟨.ofString "c/e/f", .ofString "b"⟩,
        ⟨.ofString "g", .ofString "a"⟩] := by rfl
  have hold : nestedLinks.content? 6 = some (.file (Text.ofLines
      (["c/d\ta", "c/e/f\tb", "g\ta"].map Utf8.encode))) := by rfl
  refine ⟨hrun, run_of_perm ⟨hierarchical_withFiles _, hleads, hplain⟩ (by rfl) hold (by decide)
    (by decide) ?_ hrun⟩
  intro e he
  rw [hwaiting] at he
  simp only [List.mem_cons, List.not_mem_nil, or_false] at he
  rcases he with rfl | rfl | rfl
  · exact ⟨⟨4, by rfl⟩, by decide⟩
  · exact ⟨⟨5, by rfl⟩, by decide⟩
  · exact ⟨⟨4, by rfl⟩, by decide⟩

end Replay

end Hardlinks
