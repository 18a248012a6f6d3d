-- SUMMARY: All that a replay changes below its directory when it goes through, and nothing else.
import Hardlinks.Proofs.FileSystem.Site
import Hardlinks.Proofs.Installation
import Hardlinks.Proofs.Replay.Run

/-!
# The effect of a replay

Below a directory without symbolic links a replay that goes through can be described by names. The
pass adds the names of the destinations and those in front of them (`growsBelow_placeAll`), then the
manifest's name goes, and the names of all sources that could be removed (`shrinksBelow_deleteAll`).
No other name is made or removed, and no other node is touched (`effect_of_run`).
-/

namespace Hardlinks.Replay

open FileSystem

variable {cfg : CheckedConfig} {policy : ExistingLinks} {dir : Path}
  {links : List (Inode × Segment)} {deleteSources : Bool} {fs after unlisted : FileSystem}
  {e : Entry} {entries xs : List Entry} {p q : Path} {ps : List Path} {d i : Inode}
  {ns : List Name} {cause : IoError} {text : List UInt8} {result : ReplayReport}
  {removals : List (Path × Removal)} {removal : Removal}

/-! ## Entries -/

/-- Both paths of the entry stay inside the directory. -/
structure EntryInside (e : Entry) : Prop where
  destination : e.destination.Inside
  source : e.source.Inside

theorem entryInside_of_mem_waiting (h : e ∈ waiting cfg dir fs) : EntryInside e := by
  unfold waiting at h
  split at h
  · have hlegible := Manifest.legible_of_mem_read h
    exact ⟨Path.inside_of_isContained hlegible.destination_contained,
      Path.inside_of_isContained hlegible.source_contained⟩
  · cases h

/-! ## The pass -/

theorem growsBelow_place (policy : ExistingLinks) (h : fs.Site dir links d)
    (he : EntryInside e) :
    (place policy dir fs e).2.Site dir links d ∧
      GrowsBelow d (· <+: e.destination.names) fs (place policy dir fs e).2 := by
  obtain ⟨hmade, hbelow⟩ := h.provideParent he.destination
  have hprovide : ∀ {r made}, fs.provideParent (destination dir e) = (r, made) →
      made.Site dir links d ∧ GrowsBelow d (· <+: e.destination.names) fs made := by
    intro r made hparent
    rw [destination] at hparent
    rw [hparent] at hmade hbelow
    exact ⟨hmade, hbelow.mono fun ns hns => hns.1⟩
  generalize houtcome : place policy dir fs e = outcome
  cases places_of_eq houtcome with
  | linked hparent hlink =>
      obtain ⟨hmade, hbelow⟩ := hprovide hparent
      obtain ⟨hlinked, hmore⟩ := hmade.linkFile he.source he.destination hlink
      exact ⟨hlinked, hbelow.trans (hmore.mono fun ns hns => hns ▸ List.prefix_rfl)⟩
  | present hparent => exact hprovide hparent
  | noParent hparent => exact hprovide hparent
  | refused hparent => exact hprovide hparent

/-- A pass adds the names of the destinations, and those in front of them. -/
theorem growsBelow_placeAll (policy : ExistingLinks) (h : fs.Site dir links d)
    (hxs : ∀ e ∈ xs, EntryInside e) :
    (placeAll policy dir fs xs).files.Site dir links d ∧
      GrowsBelow d (fun ns => ∃ e ∈ xs, ns <+: e.destination.names) fs
        (placeAll policy dir fs xs).files := by
  induction xs generalizing fs with
  | nil => exact ⟨h, .refl d _ fs⟩
  | cons e xs ih =>
      obtain ⟨hsite, hbelow⟩ := growsBelow_place policy h (hxs e List.mem_cons_self)
      have hbelow' : GrowsBelow d (fun ns => ∃ e' ∈ e :: xs, ns <+: e'.destination.names) fs _ :=
        hbelow.mono fun ns hns => ⟨e, List.mem_cons_self, hns⟩
      rcases hplace : place policy dir fs e with ⟨f | placement, after⟩
      · rw [placeAll_cons_of_error hplace]
        rw [hplace] at hsite hbelow'
        exact ⟨hsite, hbelow'⟩
      · rw [placeAll_cons_of_ok hplace]
        rw [hplace] at hsite hbelow'
        obtain ⟨hsite', hmore⟩ := ih hsite fun e' he' => hxs e' (List.mem_cons_of_mem e he')
        refine ⟨hsite', hbelow'.trans (hmore.mono ?_)⟩
        rintro ns ⟨e', he', hns⟩
        exact ⟨e', List.mem_cons_of_mem e he', hns⟩

/-! ## The sources that are to be removed -/

theorem same_comm (p q : Path) : p.same q = q.same p :=
  Bool.beq_comm

theorem same_congr (h : p.same q = true) (r : Path) : r.same p = r.same q := by
  have hcomponents : p.components = q.components := beq_iff_eq.1 h
  rw [Path.same, Path.same, hcomponents]

theorem subset_distinct (ps : List Path) : distinct ps ⊆ ps := by
  induction ps with
  | nil => exact List.Subset.refl []
  | cons p ps ih =>
      intro q hq
      rcases List.mem_cons.1 hq with rfl | hq
      · exact List.mem_cons_self
      · exact List.mem_cons_of_mem p (ih (List.mem_of_mem_filter hq))

theorem exists_mem_distinct (h : p ∈ ps) : ∃ q ∈ distinct ps, q.same p = true := by
  induction ps with
  | nil => cases h
  | cons first ps ih =>
      rcases List.mem_cons.1 h with rfl | h
      · exact ⟨p, List.mem_cons_self, beq_self_eq_true _⟩
      · obtain ⟨q, hq, hsame⟩ := ih h
        cases hfirst : q.same first with
        | false =>
            have hkept : q ∈ (distinct ps).filter fun r => !r.same first :=
              List.mem_filter.2 ⟨hq, by simp [hfirst]⟩
            exact ⟨q, List.mem_cons_of_mem first hkept, hsame⟩
        | true =>
            refine ⟨first, List.mem_cons_self, ?_⟩
            rw [same_comm, ← same_congr hfirst, same_comm, hsame]

theorem pairwise_distinct (ps : List Path) :
    (distinct ps).Pairwise fun p q => p.same q = false := by
  induction ps with
  | nil => exact .nil
  | cons p ps ih =>
      refine .cons ?_ (ih.filter _)
      intro q hq
      rw [same_comm]
      simpa using (List.mem_filter.1 hq).2

theorem mem_disposable_iff : q ∈ disposable dir entries ↔
    q ∈ distinct (entries.map (source dir)) ∧
      ∀ e ∈ entries, (destination dir e).same q = false := by
  simp [disposable]

/-- A source that is no destination is to be removed, under one of its spellings. -/
theorem exists_mem_disposable (he : e ∈ entries)
    (hother : ∀ e' ∈ entries, (destination dir e').same (source dir e) = false) :
    ∃ q ∈ disposable dir entries, q.same (source dir e) = true := by
  obtain ⟨q, hq, hsame⟩ := exists_mem_distinct (List.mem_map_of_mem (f := source dir) he)
  refine ⟨q, mem_disposable_iff.2 ⟨hq, fun e' he' => ?_⟩, hsame⟩
  rw [same_congr hsame, hother e' he']

theorem map_fst_removals (fs : FileSystem) (ps : List Path) :
    (deleteAll fs ps).removals.map Prod.fst = ps := by
  induction ps generalizing fs with
  | nil => rfl
  | cons p ps ih =>
      rw [deleteAll, List.map_cons, ih]

/-- Each source is removed once, under one of its spellings. -/
theorem removal_unique {a b : Path × Removal}
    (ha : a ∈ (deleteAll fs (disposable dir entries)).removals)
    (hb : b ∈ (deleteAll fs (disposable dir entries)).removals) (h : a.1.same b.1 = true) :
    a = b := by
  have hpaths : ((deleteAll fs (disposable dir entries)).removals.map Prod.fst).Pairwise
      fun p q => p.same q = false := by
    rw [map_fst_removals]
    exact (pairwise_distinct _).filter _
  have hpairwise := List.pairwise_map.1 hpaths
  have hsymm : Std.Symm fun a b : Path × Removal => a.1.same b.1 = false :=
    ⟨fun a b hab => by rw [same_comm, hab]⟩
  apply Classical.byContradiction
  intro hne
  simp [hpairwise.forall ha hb hne] at h

/-! ## Their removal -/

/-- The names of a source that is not there any more after it was to be removed. -/
def Removed (dir : Path) (removals : List (Path × Removal)) (ns : List Name) : Prop :=
  ∃ p, p.Inside ∧ p.names = ns ∧
    ∃ removal, (dir.join p, removal) ∈ removals ∧ ∀ cause, removal ≠ .failed cause

theorem removed_cons_iff (hdir : dir.isEmpty = false) (hp : p.Inside) :
    Removed dir ((dir.join p, removal) :: removals) ns ↔
      (ns = p.names ∧ ∀ cause, removal ≠ .failed cause) ∨ Removed dir removals ns := by
  constructor
  · rintro ⟨q, hq, hnames, removal', hmem, hdone⟩
    rcases List.mem_cons.1 hmem with heq | hmem
    · obtain ⟨hpath, rfl⟩ := Prod.mk.inj heq
      have hsame : (dir.join q).same (dir.join p) = true := by
        rw [hpath]
        exact beq_self_eq_true _
      exact .inl ⟨hnames.symm.trans ((Path.same_join_iff hdir hq hp).1 hsame), hdone⟩
    · exact .inr ⟨q, hq, hnames, removal', hmem, hdone⟩
  · rintro (⟨rfl, hdone⟩ | ⟨q, hq, hnames, removal', hmem, hdone⟩)
    · exact ⟨p, hp, rfl, removal, List.mem_cons_self, hdone⟩
    · exact ⟨q, hq, hnames, removal', List.mem_cons_of_mem _ hmem, hdone⟩

/-- The removal of what is there fails for another reason than that it is missing. -/
theorem kind_of_removeFile (hi : fs.find .keep p = .ok i) (h : fs.removeFile p = .error cause) :
    cause.kind ≠ .notFound := by
  obtain ⟨t, j, hslot, hj⟩ := exists_slot_name hi
  unfold FileSystem.removeFile at h
  rcases bind_eq_error_iff.1 h with hnone | ⟨s, hs, h⟩
  · simp [hslot] at hnone
  · obtain rfl := Except.ok.inj (hslot.symm.trans hs)
    rcases bind_eq_error_iff.1 h with hname | ⟨⟨n, k⟩, _, h⟩
    · unfold takenName at hname
      split at hname
      · next n hlast =>
        rw [← hlast, hj] at hname
        cases hname
      · cases hname
        simp [IoError.kind, Errno.kind]
    · dsimp only at h
      split at h
      · cases h
        split <;> simp [IoError.kind, Errno.kind]
      · rcases bind_eq_error_iff.1 h with hwrite | ⟨_, _, h⟩
        · rw [(checkWritable_eq_error_iff.1 hwrite).2]
          simp [IoError.kind, Errno.kind]
        · split at h <;> cases h
          simp [IoError.kind, Errno.kind]

theorem shrinksBelow_delete (h : fs.Site dir links d) (hp : p.Inside)
    (hthere : fs.AbsentOrFound dir d p) :
    (delete fs (dir.join p)).2.Site dir links d ∧
      ShrinksBelow dir d
        (fun ns => ns = p.names ∧ ∀ cause, (delete fs (dir.join p)).1 ≠ .failed cause) fs
        (delete fs (dir.join p)).2 := by
  unfold delete
  cases hremove : fs.removeFile (dir.join p) with
  | ok removed =>
      obtain ⟨hsite, hbelow⟩ := h.removeFile hp hremove
      refine ⟨hsite, hbelow.congr fun ns => ?_⟩
      simp
  | error e =>
      refine ⟨h, .refl dir d fs ?_⟩
      rintro ns ⟨rfl, hdone⟩
      dsimp only at hdone
      split at hdone
      · next hkind =>
        rcases hthere with hnone | ⟨i, hi⟩
        · exact hnone
        · exact absurd hkind (kind_of_removeFile hi hremove)
      · exact absurd rfl (hdone e)

theorem deleteAll_cons (fs : FileSystem) (q : Path) (ps : List Path) :
    deleteAll fs (q :: ps) =
      { deleteAll (delete fs q).2 ps with
        removals := (q, (delete fs q).1) :: (deleteAll (delete fs q).2 ps).removals } :=
  rfl

/-- The removal of sources takes their names along, and no others. -/
theorem shrinksBelow_deleteAll (h : fs.Site dir links d) (hdir : dir.isEmpty = false)
    (hps : ∀ q ∈ ps, ∃ p, p.Inside ∧ q = dir.join p ∧ fs.AbsentOrFound dir d p) :
    (deleteAll fs ps).files.Site dir links d ∧
      ShrinksBelow dir d (Removed dir (deleteAll fs ps).removals) fs (deleteAll fs ps).files := by
  induction ps generalizing fs with
  | nil =>
      refine ⟨h, .refl dir d fs ?_⟩
      rintro ns ⟨p, _, _, removal, hmem, _⟩
      cases hmem
  | cons q ps ih =>
      obtain ⟨p, hp, rfl, hthere⟩ := hps q List.mem_cons_self
      obtain ⟨hsite, hbelow⟩ := shrinksBelow_delete h hp hthere
      rw [deleteAll_cons]
      obtain ⟨hsite', hmore⟩ := ih hsite fun q hq => by
        obtain ⟨p', hp', hq', hthere'⟩ := hps q (List.mem_cons_of_mem _ hq)
        exact ⟨p', hp', hq', hbelow.absentOrFound hp' hthere'⟩
      refine ⟨hsite', (hbelow.trans hmore).congr fun ns => ?_⟩
      exact (removed_cons_iff hdir hp).symm

/-- A source is removed exactly if it is no destination and its removal did not fail. -/
theorem removed_deleteAll_iff (hdir : dir.isEmpty = false)
    (hentries : ∀ e ∈ entries, EntryInside e) :
    Removed dir (deleteAll fs (disposable dir entries)).removals ns ↔
      ∃ e ∈ entries, e.source.names = ns ∧
        (∀ e' ∈ entries, (destination dir e').same (source dir e) = false) ∧
        ∀ q cause, (q, .failed cause) ∈ (deleteAll fs (disposable dir entries)).removals →
          q.same (source dir e) = false := by
  have hpaths := map_fst_removals fs (disposable dir entries)
  constructor
  · rintro ⟨p, hp, rfl, removal, hmem, hdone⟩
    have hdisposable : dir.join p ∈ disposable dir entries :=
      hpaths ▸ List.mem_map_of_mem (f := Prod.fst) hmem
    obtain ⟨hdistinct, hother⟩ := mem_disposable_iff.1 hdisposable
    obtain ⟨e, he, hsource⟩ := List.mem_map.1 (subset_distinct _ hdistinct)
    refine ⟨e, he, ?_, ?_, ?_⟩
    · apply (Path.same_join_iff hdir (hentries e he).source hp).1
      rw [← source, hsource]
      exact beq_self_eq_true _
    · rwa [hsource]
    · intro q cause hfailed
      apply Bool.eq_false_iff.2
      intro hsame
      rw [hsource] at hsame
      have heq := removal_unique hfailed hmem hsame
      exact hdone cause (Prod.mk.inj heq).2.symm
  · rintro ⟨e, he, rfl, hother, hdone⟩
    obtain ⟨q, hq, hsame⟩ := exists_mem_disposable he hother
    obtain ⟨⟨q', removal⟩, hmem, rfl⟩ := List.mem_map.1 (hpaths.symm ▸ hq)
    obtain ⟨e', he', rfl⟩ := List.mem_map.1 (subset_distinct _ (mem_disposable_iff.1 hq).1)
    refine ⟨e'.source, (hentries e' he').source, ?_, removal, hmem, ?_⟩
    · exact (Path.same_join_iff hdir (hentries e' he').source (hentries e he).source).1 hsame
    · rintro cause rfl
      simp [hdone _ cause hmem] at hsame

/-- What is done about the sources takes names along only if they are to be removed. -/
theorem shrinksBelow_clean (deleteSources : Bool) (h : fs.Site dir links d)
    (hdir : dir.isEmpty = false)
    (hentries : ∀ e ∈ entries, EntryInside e ∧ fs.AbsentOrFound dir d e.source) :
    ShrinksBelow dir d (Removed dir (clean deleteSources dir entries fs).removals) fs
      (clean deleteSources dir entries fs).files := by
  unfold clean
  split
  · refine (shrinksBelow_deleteAll h hdir ?_).2
    intro q hq
    obtain ⟨e, he, rfl⟩ := List.mem_map.1 (subset_distinct _ (mem_disposable_iff.1 hq).1)
    obtain ⟨hinside, hthere⟩ := hentries e he
    exact ⟨e.source, hinside.source, rfl, hthere⟩
  · apply ShrinksBelow.refl
    rintro ns ⟨p, _, _, removal, hmem, _⟩
    cases hmem

/-! ## Replays -/

/-- The event tells that a source could not be removed. -/
def isSourceNotDeleted : Event → Bool
  | .sourceNotDeleted _ _ => true
  | _ => false

/-- The names that a replay which goes through takes away: those of the manifest and, if sources are
to be removed, those of every source that is no destination and not reported as not deleted. -/
def Gone (cfg : CheckedConfig) (dir : Path) (deleteSources : Bool) (fs : FileSystem)
    (ns : List Name) : Prop :=
  ns = (Path.ofString cfg.manifestName).names ∨
    deleteSources = true ∧ ∃ e ∈ waiting cfg dir fs, e.source.names = ns ∧
      (∀ e' ∈ waiting cfg dir fs, (destination dir e').same (source dir e) = false) ∧
      ∀ q cause, .sourceNotDeleted q cause ∈ (run cfg dir deleteSources fs).events →
        q.same (source dir e) = false

/-- What a replay of the manifest in the directory `d`, to which `dir` leads, does to the file
system. -/
structure Effect (cfg : CheckedConfig) (dir : Path) (deleteSources : Bool) (fs : FileSystem)
    (d : Inode) (result : ReplayReport) (after : FileSystem) : Prop where
  /-- The entries below `d` are those that were there, the destinations, and what lies in front of
  the destinations, except for those that are gone. -/
  exists_iff : ∀ ns, (∃ i, after.descend? d ns = some i) ↔
    ((∃ i, fs.descend? d ns = some i) ∨ ∃ e ∈ waiting cfg dir fs, ns <+: e.destination.names) ∧
      ¬Gone cfg dir deleteSources fs ns
  /-- The entries that were there name the nodes that they named. -/
  kept : ∀ {ns i}, fs.descend? d ns = some i → ¬Gone cfg dir deleteSources fs ns →
    after.descend? d ns = some i
  /-- Every destination other than the manifest is there, and names the node that its source named
  when it was placed. -/
  linked : ∀ {k e}, (waiting cfg dir fs)[k]? = some e →
    ∃ i, (before cfg dir fs (k + 1)).files.find .keep (source dir e) = .ok i ∧
      (e.destination.names ≠ (Path.ofString cfg.manifestName).names →
        after.descend? d e.destination.names = some i ∧
          after.find .keep (destination dir e) = .ok i)
  /-- In front of the destinations lie directories, new ones where nothing was. -/
  above : ∀ {e ns}, e ∈ waiting cfg dir fs → ns <+: e.destination.names →
    ns ≠ e.destination.names → ∃ i, after.descend? d ns = some i ∧ after.isDirectory i = true ∧
      (fs.descend? d ns = none → fs.node? i = none)
  content? : ∀ {i bytes}, fs.content? i = some (.file bytes) →
    after.content? i = some (.file bytes)
  /-- Only directories change, and only `d` and those below it. -/
  untouched : ∀ {i node}, ¬fs.IsDirectoryBelow d i → fs.node? i = some node →
    after.node? i = some node
  counted : result.cleanupFailures =
    (run cfg dir deleteSources fs).events.countP isSourceNotDeleted

theorem sourceNotDeleted_mem_events_iff {cleanup : Cleanup} :
    .sourceNotDeleted q cause ∈ cleanup.events ↔ (q, .failed cause) ∈ cleanup.removals := by
  unfold Cleanup.events
  rw [List.mem_filterMap]
  constructor
  · rintro ⟨⟨p, removal⟩, hmem, hevent⟩
    cases removal <;> cases hevent
    exact hmem
  · intro hmem
    exact ⟨_, hmem, rfl⟩

/-- Of the events of a replay, those of its cleanup tell which sources were not deleted. -/
theorem filter_events (hread : fs.readText (cfg.manifestPath dir) = .ok text)
    (hfailure : (pass cfg dir fs).failure? = none)
    (hremove : (pass cfg dir fs).files.removeFile (cfg.manifestPath dir) = .ok unlisted) :
    (run cfg dir deleteSources fs).events.filter isSourceNotDeleted =
      (clean deleteSources dir (waiting cfg dir fs) unlisted).events := by
  have hskipped : ∀ lines : List MalformedLine, (lines.map (Event.lineSkipped
      (cfg.manifestPath dir))).filter isSourceNotDeleted = [] := by
    intro lines
    apply List.filter_eq_nil_iff.2
    intro event hevent
    obtain ⟨line, _, rfl⟩ := List.mem_map.1 hevent
    simp [isSourceNotDeleted]
  have hpresent : ((pass cfg dir fs).events dir).filter isSourceNotDeleted = [] := by
    apply List.filter_eq_nil_iff.2
    intro event hevent
    obtain ⟨⟨e, placement⟩, _, hevent⟩ := List.mem_filterMap.1 hevent
    cases placement <;> cases hevent
    simp [isSourceNotDeleted]
  have hcleanup : ∀ cleanup : Cleanup,
      cleanup.events.filter isSourceNotDeleted = cleanup.events := by
    intro cleanup
    apply List.filter_eq_self.2
    intro event hevent
    obtain ⟨⟨p, removal⟩, _, hevent⟩ := List.mem_filterMap.1 hevent
    cases removal <;> cases hevent
    rfl
  rw [events_of_pass deleteSources hread hfailure hremove, List.filter_append, List.filter_append,
    List.filter_append, hskipped, hpresent, hcleanup]
  simp [isSourceNotDeleted]

/-- What is gone is the manifest's name and the names of the removed sources. -/
theorem gone_iff (hdir : dir.isEmpty = false)
    (hread : fs.readText (cfg.manifestPath dir) = .ok text)
    (hfailure : (pass cfg dir fs).failure? = none)
    (hremove : (pass cfg dir fs).files.removeFile (cfg.manifestPath dir) = .ok unlisted) :
    (ns = (Path.ofString cfg.manifestName).names ∨
        Removed dir (clean deleteSources dir (waiting cfg dir fs) unlisted).removals ns) ↔
      Gone cfg dir deleteSources fs ns := by
  have hevents : ∀ q cause, .sourceNotDeleted q cause ∈ (run cfg dir deleteSources fs).events ↔
      (q, .failed cause) ∈
        (clean deleteSources dir (waiting cfg dir fs) unlisted).removals := by
    intro q cause
    rw [← sourceNotDeleted_mem_events_iff, ← filter_events hread hfailure hremove, List.mem_filter]
    simp [isSourceNotDeleted]
  unfold Gone
  simp only [hevents]
  cases deleteSources with
  | false => simp [clean, Removed]
  | true =>
      simp only [clean, if_true, true_and]
      rw [removed_deleteAll_iff hdir fun e he => entryInside_of_mem_waiting he]

/-- No destination other than the manifest goes. -/
theorem not_gone_of_destination (hdir : dir.isEmpty = false) (he : e ∈ waiting cfg dir fs)
    (hother : e.destination.names ≠ (Path.ofString cfg.manifestName).names) :
    ¬Gone cfg dir deleteSources fs e.destination.names := by
  rintro (hmanifest | ⟨_, e', he', hnames, hdestinations, _⟩)
  · exact hother hmanifest
  · have hsame : (destination dir e).same (source dir e') = true :=
      (Path.same_join_iff hdir (entryInside_of_mem_waiting he).destination
        (entryInside_of_mem_waiting he').source).2 hnames.symm
    simp [hdestinations e he] at hsame

/-- After a pass that works, every destination is there. -/
theorem descend?_destination_of_pass (hfailure : (pass cfg dir fs).failure? = none)
    (hpass : (pass cfg dir fs).files.Site dir links d) (he : e ∈ waiting cfg dir fs) :
    ∃ i, (pass cfg dir fs).files.descend? d e.destination.names = some i := by
  obtain ⟨i, _, hi⟩ := find_of_placeAll hfailure he
  exact ⟨i, hpass.descend?_of_find (entryInside_of_mem_waiting he).destination hi⟩

theorem exists_iff_of_pass (hfailure : (pass cfg dir fs).failure? = none)
    (hpass : (pass cfg dir fs).files.Site dir links d)
    (hgrows : GrowsBelow d (fun ns => ∃ e ∈ waiting cfg dir fs, ns <+: e.destination.names) fs
      (pass cfg dir fs).files)
    (hshrinks : ShrinksBelow dir d (Gone cfg dir deleteSources fs) (pass cfg dir fs).files after)
    (ns : List Name) :
    (∃ i, after.descend? d ns = some i) ↔
      ((∃ i, fs.descend? d ns = some i) ∨ ∃ e ∈ waiting cfg dir fs, ns <+: e.destination.names) ∧
        ¬Gone cfg dir deleteSources fs ns := by
  constructor
  · rintro ⟨i, hi⟩
    obtain ⟨hi, hnot⟩ := hshrinks.descend?_iff.1 hi
    refine ⟨?_, hnot⟩
    rcases hgrows.added hi with hold | ⟨hadded, _⟩
    · exact .inl ⟨i, hold⟩
    · exact .inr hadded
  · rintro ⟨hthere, hnot⟩
    suffices hpassed : ∃ i, (pass cfg dir fs).files.descend? d ns = some i by
      obtain ⟨i, hi⟩ := hpassed
      exact ⟨i, hshrinks.descend?_iff.2 ⟨hi, hnot⟩⟩
    rcases hthere with ⟨i, hi⟩ | ⟨e, he, hfront⟩
    · exact ⟨i, descend?_extend hgrows.grows.extends hi⟩
    · obtain ⟨j, hj⟩ := descend?_destination_of_pass hfailure hpass he
      exact descend?_of_prefix hfront hj

theorem linked_of_pass {k : Nat} (hdir : dir.isEmpty = false)
    (hfailure : (pass cfg dir fs).failure? = none)
    (hpass : (pass cfg dir fs).files.Site dir links d)
    (hshrinks : ShrinksBelow dir d (Gone cfg dir deleteSources fs) (pass cfg dir fs).files after)
    (hk : (waiting cfg dir fs)[k]? = some e) :
    ∃ i, (before cfg dir fs (k + 1)).files.find .keep (source dir e) = .ok i ∧
      (e.destination.names ≠ (Path.ofString cfg.manifestName).names →
        after.descend? d e.destination.names = some i ∧
          after.find .keep (destination dir e) = .ok i) := by
  have he := List.mem_of_getElem? hk
  have hmem : e ∈ (waiting cfg dir fs).take (k + 1) := by
    apply List.mem_of_getElem? (i := k)
    rw [List.getElem?_take_of_lt (Nat.lt_succ_self k), hk]
  obtain ⟨i, hsource, hdestination⟩ := find_of_placeAll (failure?_before hfailure (k + 1)).1 hmem
  refine ⟨i, hsource, ?_⟩
  intro hother
  have hinside := (entryInside_of_mem_waiting he).destination
  have hnot : ¬Gone cfg dir deleteSources fs e.destination.names :=
    not_gone_of_destination hdir he hother
  have hfind := find_extend (grows_before hfailure (k + 1)).extends hdestination
  exact ⟨hshrinks.descend?_iff.2 ⟨hpass.descend?_of_find hinside hfind, hnot⟩,
    hshrinks.find hinside hnot hfind⟩

theorem above_of_pass {ns : List Name} (hfailure : (pass cfg dir fs).failure? = none)
    (hpass : (pass cfg dir fs).files.Site dir links d)
    (hgrows : GrowsBelow d (fun ns => ∃ e ∈ waiting cfg dir fs, ns <+: e.destination.names) fs
      (pass cfg dir fs).files)
    (hshrinks : ShrinksBelow dir d (Gone cfg dir deleteSources fs) (pass cfg dir fs).files after)
    (he : e ∈ waiting cfg dir fs) (hfront : ns <+: e.destination.names)
    (hne : ns ≠ e.destination.names) :
    ∃ i, after.descend? d ns = some i ∧ after.isDirectory i = true ∧
      (fs.descend? d ns = none → fs.node? i = none) := by
  obtain ⟨j, hj⟩ := descend?_destination_of_pass hfailure hpass he
  obtain ⟨i, hi, hdirectory⟩ := isDirectory_of_prefix hfront hne hj
  have hnot : ¬Gone cfg dir deleteSources fs ns := by
    intro hgone
    simp [hshrinks.file hgone hi] at hdirectory
  refine ⟨i, hshrinks.descend?_iff.2 ⟨hi, hnot⟩, by rw [hshrinks.isDirectory, hdirectory], ?_⟩
  intro hmissing
  rcases hgrows.added hi with hold | ⟨_, hfile⟩
  · simp [hmissing] at hold
  · -- A file does not become a directory.
    apply Option.eq_none_iff_forall_ne_some.2
    intro node hnode
    have hsame := hgrows.untouched (fun hbelow => by simp [hbelow.1] at hfile) hnode
    rw [isDirectory_of_node?_eq (hsame.trans hnode.symm), hfile] at hdirectory
    cases hdirectory

/-- A pass that works and the removals after it make up the effect of a replay. -/
theorem effect_of_pass (hdir : dir.isEmpty = false) (hfailure : (pass cfg dir fs).failure? = none)
    (hpass : (pass cfg dir fs).files.Site dir links d)
    (hgrows : GrowsBelow d (fun ns => ∃ e ∈ waiting cfg dir fs, ns <+: e.destination.names) fs
      (pass cfg dir fs).files)
    (hshrinks : ShrinksBelow dir d (Gone cfg dir deleteSources fs) (pass cfg dir fs).files after)
    (hcounted : result.cleanupFailures =
      (run cfg dir deleteSources fs).events.countP isSourceNotDeleted) :
    Effect cfg dir deleteSources fs d result after := by
  have huntouched : ∀ {i node}, ¬fs.IsDirectoryBelow d i → fs.node? i = some node →
      after.node? i = some node := by
    intro i node hnot hi
    exact hshrinks.untouched (hgrows.not_isDirectoryBelow hnot hi) (hgrows.untouched hnot hi)
  refine ⟨exists_iff_of_pass hfailure hpass hgrows hshrinks, ?_,
    linked_of_pass hdir hfailure hpass hshrinks,
    above_of_pass hfailure hpass hgrows hshrinks, ?_, huntouched, hcounted⟩
  · intro ns i hi hnot
    exact hshrinks.descend?_iff.2 ⟨descend?_extend hgrows.grows.extends hi, hnot⟩
  · intro i bytes hi
    obtain ⟨node, hnode, hcontent⟩ := Option.map_eq_some_iff.1 hi
    have hfile : ¬fs.IsDirectoryBelow d i := by
      rintro ⟨hdirectory, _⟩
      simp [isDirectory, hi] at hdirectory
    rw [FileSystem.content?, huntouched hfile hnode, Option.map_some, hcontent]

/-- In a file system whose directories form a tree, a replay that goes through in a directory
without symbolic links below it changes just what its manifest says. -/
theorem effect_of_run (hfs : fs.Hierarchical) (hd : fs.find .follow dir = .ok d)
    (hdir : fs.isDirectory d = true) (hplain : fs.Plain d)
    (h : (run cfg dir deleteSources fs).result = .ok result)
    (hfound : result.manifestFound = true) :
    Effect cfg dir deleteSources fs d result (run cfg dir deleteSources fs).files := by
  obtain ⟨links, hleads⟩ := exists_leadsTo hd hdir
  have hsite : fs.Site dir links d := ⟨hfs, hleads, hplain⟩
  have hempty := isEmpty_of_find hd
  obtain ⟨n, hcomponents⟩ := cfg.components_manifestName
  obtain ⟨hmanifest, _⟩ := Path.inside_of_components hcomponents
  have hruns := runs_run cfg dir deleteSources fs
  rw [h] at hruns
  generalize hafter : (run cfg dir deleteSources fs).files = after at hruns ⊢
  cases hruns with
  | noManifest => cases hfound
  | @applied text unlisted hread hfailure hremove =>
      obtain ⟨hpass, hgrows⟩ :=
        growsBelow_placeAll cfg.existingLinks hsite
          fun e (he : e ∈ waiting cfg dir fs) => entryInside_of_mem_waiting he
      obtain ⟨hunlisted, hshrinks⟩ := hpass.removeFile hmanifest hremove
      have hcleaned := shrinksBelow_clean deleteSources hunlisted hempty
        fun e (he : e ∈ waiting cfg dir fs) => by
          have hinside := entryInside_of_mem_waiting he
          obtain ⟨i, hi, _⟩ := find_of_placeAll hfailure he
          exact ⟨hinside, hshrinks.absentOrFound hinside.source (.inr ⟨i, hi⟩)⟩
      refine effect_of_pass hempty hfailure hpass hgrows ((hshrinks.trans hcleaned).congr ?_) ?_
      · intro ns
        exact gone_iff hempty hread hfailure hremove
      · rw [List.countP_eq_length_filter, filter_events hread hfailure hremove]
        rfl

/-- One source for two destinations, of which one lies in a new directory. -/
def sharedSource : FileSystem :=
  withFiles [("a", "alpha"), ("hardLinkFile", "b\ta\nc/d\ta\n")]

/-- The source and the manifest go, and both destinations stay. -/
theorem effect_of_shared_source :
    (run .default (.ofString ".") true sharedSource).result = .ok ⟨true, 2, 0, 0, 1, 0⟩ ∧
      Effect .default (.ofString ".") true sharedSource 1 ⟨true, 2, 0, 0, 1, 0⟩
        (run .default (.ofString ".") true sharedSource).files := by
  have hrun : (run .default (.ofString ".") true sharedSource).result =
      .ok ⟨true, 2, 0, 0, 1, 0⟩ := by rfl
  have hplain : sharedSource.Plain 1 := by
    intro ns i _
    match i with
    | 0 => rfl
    | 1 => rfl
    | 2 => rfl
    | 3 => rfl
    | 4 => rfl
    | 5 => rfl
    | i + 6 => rfl
  exact ⟨hrun, effect_of_run (hierarchical_withFiles _) (by rfl) (by rfl) hplain hrun rfl⟩

end Hardlinks.Replay
