-- SUMMARY: When a manifest whose sources are destinations of other entries is replayed in full.
import Hardlinks.Proofs.LinkPlan
import Hardlinks.Proofs.Replay.Room

/-!
# Chains of links

The source of an entry can be the destination of another entry, so that several entries make a chain
that goes back to one file (`ChainRoot`). The manifest of a plan has its entries in the order of the
names of their destinations, whatever links to what, and a pass takes them in this order. So in a
directory that has all it takes otherwise (`Prepared`) a chain is followed to its root exactly if
each source that is a destination comes first by its name (`Placeable`, `completes_iff`): one link
that goes from a name to a greater one is enough to end the replay.
-/

namespace Hardlinks.Replay

open FileSystem

/-- The chain of `e` goes back to `r`: on the way every source is the destination of the next entry,
and the source of `r` is the destination of none. -/
inductive ChainRoot (m : Manifest) : Entry → Entry → Prop
  | root {e : Entry} : (∀ e' ∈ m, e'.destination.names ≠ e.source.names) → ChainRoot m e e
  | link {e e' r : Entry} : e' ∈ m → e'.destination.names = e.source.names →
      ChainRoot m e' r → ChainRoot m e r

/-- A directory that has all it takes to link the destinations of the manifest `m`, each from the
root of its chain. -/
structure Prepared (cfg : CheckedConfig) (dir : Path) (links : List (Inode × Segment)) (d : Inode)
    (m : Manifest) (fs : FileSystem) : Prop where
  site : fs.Site dir links d
  manifest : ∃ i, fs.find .follow (cfg.manifestPath dir) = .ok i ∧
    fs.content? i = some (.file m.text) ∧ fs.allows i Mode.read = true
  permitted : ∀ {ns a}, fs.descend? d ns = some a → fs.isDirectory a = true →
    fs.allows a Mode.search = true ∧ fs.allows a Mode.write = true
  /-- A source that is no destination is a file that is there. -/
  root : ∀ e ∈ m, (∀ e' ∈ m, e'.destination.names ≠ e.source.names) →
    ∃ i, fs.find .keep (source dir e) = .ok i ∧ fs.isDirectory i = false
  absent : ∀ e ∈ m, fs.descend? d e.destination.names = none
  /-- No destination lies below another one. -/
  apart : ∀ e ∈ m, ∀ e' ∈ m, e.destination.names <+: e'.destination.names →
    e.destination.names = e'.destination.names
  /-- What is there above a destination is a directory. -/
  above : ∀ e ∈ m, ∀ {ns a}, ns <+: e.destination.names → fs.descend? d ns = some a →
    fs.isDirectory a = true
  ends : ∀ e ∈ m, e.destination.EndsInName ∧ e.source.EndsInName
  length_le : ∀ e ∈ m, (destination dir e).bytes.length ≤ Path.lengthLimit ∧
    (source dir e).bytes.length ≤ Path.lengthLimit
  name_le : ∀ e ∈ m, ∀ n ∈ e.destination.names, n.length ≤ Path.nameLimit

/-- What the entries themselves need so that a replay takes every chain back to its root. -/
structure Placeable (dir : Path) (d : Inode) (deleteSources : Bool) (m : Manifest)
    (fs : FileSystem) : Prop where
  /-- A source that is a destination comes first by its name. -/
  ordered : ∀ e ∈ m, ∀ e' ∈ m, e'.destination.names = e.source.names →
    e'.destination.names < e.destination.names
  /-- If the sources are to be removed, it is known to be a destination by the way it is spelled. -/
  spelled : deleteSources = true → ∀ e ∈ m, ∀ e' ∈ m, e'.destination.names = e.source.names →
    (destination dir e').same (source dir e) = true
  /-- No call takes a path with a NUL byte. -/
  nul : ∀ e ∈ m, 0 ∉ e.destination.bytes ∧ 0 ∉ e.source.bytes
  /-- The root of the chain is on the device where the destination is to lie. -/
  device : ∀ e ∈ m, ∃ r i, ChainRoot m e r ∧ fs.find .keep (source dir r) = .ok i ∧
    fs.device i = fs.device (fs.nearest d e.destination.names)

/-- A state in a pass in which the destinations so far name the roots of their chains. -/
structure Chained (fs : FileSystem) (dir : Path) (links : List (Inode × Segment)) (d : Inode)
    (m done : Manifest) (s : FileSystem) : Prop extends Foreseen fs dir links d done s where
  named : ∀ e ∈ done, ∃ r i, ChainRoot m e r ∧ fs.find .keep (source dir r) = .ok i ∧
    s.find .keep (destination dir e) = .ok i

variable {cfg : CheckedConfig} {policy : ExistingLinks} {dir p : Path}
  {links : List (Inode × Segment)} {deleteSources : Bool} {fs s t unlisted : FileSystem}
  {m done rest xs : Manifest} {e e' r r' : Entry} {a d i : Inode} {n : Name} {ns : List Name}
  {plan : LinkPlan} {root : Path} {placement : Placement}

/-! ## Chains -/

theorem ChainRoot.mem (h : ChainRoot xs e r) (he : e ∈ xs) :
    r ∈ xs ∧ ∀ e' ∈ xs, e'.destination.names ≠ r.source.names := by
  induction h with
  | root hnone => exact ⟨he, hnone⟩
  | link hmem _ _ ih => exact ih hmem

/-- A chain goes back to one root. -/
theorem ChainRoot.unique (h : ChainRoot xs e r) (h' : ChainRoot xs e r') (hxs : xs.Sorted) :
    r = r' := by
  induction h with
  | root hnone =>
      cases h' with
      | root => rfl
      | link hmem hnames => exact absurd hnames (hnone _ hmem)
  | link hmem hnames _ ih =>
      cases h' with
      | root hnone => exact absurd hnames (hnone _ hmem)
      | link hmem' hnames' hroot =>
          obtain rfl := hxs.eq_of_names hmem hmem' (hnames.trans hnames'.symm)
          exact ih hroot

/-! ## The pass -/

theorem Prepared.room (h : Prepared cfg dir links d m fs) : Room fs dir links d m :=
  ⟨h.site, h.permitted, h.absent, h.apart, h.above, h.name_le⟩

theorem Prepared.check_join (h : Prepared cfg dir links d m fs) (hp : p.Inside) (hnul : 0 ∉ p.bytes)
    (hlength : (dir.join p).bytes.length ≤ Path.lengthLimit) : (dir.join p).check = .ok () := by
  obtain ⟨i, hi, _⟩ := h.manifest
  obtain ⟨hmanifest, _⟩ := cfg.inside_manifestName
  obtain ⟨_, _, hcheck, _⟩ := find_eq_ok_route hi
  obtain ⟨hdir, _⟩ := Path.check_eq_ok_iff.1 hcheck
  have hnul' : 0 ∉ (dir.join p).bytes := by
    rw [Path.mem_bytes_join hp.isAbsolute (by decide), not_or]
    refine ⟨fun hmem => hdir ?_, hnul⟩
    exact (Path.mem_bytes_join hmanifest.isAbsolute (by decide)).2 (.inl hmem)
  exact Path.check_eq_ok_iff.2 ⟨hnul', isEmpty_join hp, hlength⟩

theorem Prepared.length_links_le (h : Prepared cfg dir links d m fs) :
    links.length ≤ linkLimit := by
  obtain ⟨i, hi, _⟩ := h.manifest
  exact h.site.length_links_le cfg.inside_manifestName.1 hi

theorem Prepared.isDirectory_root (h : Prepared cfg dir links d m fs) (hchain : ChainRoot m e r)
    (he : e ∈ m) (hi : fs.find .keep (source dir r) = .ok i) : fs.isDirectory i = false := by
  obtain ⟨hr, hnone⟩ := hchain.mem he
  obtain ⟨j, hj, hfile⟩ := h.root r hr hnone
  obtain rfl := Except.ok.inj (hi.symm.trans hj)
  exact hfile

/-- Once the destinations in front of it are linked, the source of an entry is the file at the root
of its chain. -/
theorem Prepared.exists_root (h : Prepared cfg dir links d m fs)
    (hplace : Placeable dir d deleteSources m fs) (hinside : ∀ e ∈ m, EntryInside e)
    (hsorted : m.Sorted) (hm : m = done ++ e :: rest) (hs : Chained fs dir links d m done s) :
    ∃ r i, ChainRoot m e r ∧ fs.find .keep (source dir r) = .ok i ∧
      s.find .keep (source dir e) = .ok i := by
  have he : e ∈ m := by simp [hm]
  by_cases hroot : ∀ e' ∈ m, e'.destination.names ≠ e.source.names
  · obtain ⟨i, hi, _⟩ := h.root e he hroot
    exact ⟨e, i, .root hroot, hi, find_extend hs.lawful.grows.extends hi⟩
  · push Not at hroot
    obtain ⟨e', he', hnames⟩ := hroot
    have hfirst : e' ∈ done := by
      subst hm
      exact hsorted.mem_front_iff.2 ⟨he', hplace.ordered e he e' he' hnames⟩
    obtain ⟨r, i, hchain, hi, hdestination⟩ := hs.named e' hfirst
    have hcheck := h.check_join (hinside e he).source (hplace.nul e he).2 (h.length_le e he).2
    have hsource : s.find .keep (source dir e) = .ok i :=
      hs.site.find_of_names (hinside e' he').destination (h.ends e' he').1 (hinside e he).source
        (h.ends e he).2 hcheck hnames hdestination
    exact ⟨r, i, .link he' hnames hchain, hi, hsource⟩

/-- The next entry can be linked, once its source is the file at the root of its chain. -/
theorem Prepared.exists_linked (policy : ExistingLinks) (h : Prepared cfg dir links d m fs)
    (hplace : Placeable dir d deleteSources m fs) (hinside : ∀ e ∈ m, EntryInside e)
    (hsorted : m.Sorted) (hm : m = done ++ e :: rest) (hs : Foreseen fs dir links d done s)
    (hchain : ChainRoot m e r) (hi : fs.find .keep (source dir r) = .ok i)
    (hsource : s.find .keep (source dir e) = .ok i) :
    ∃ linked, place policy dir s e = (.ok .linked, linked) := by
  have he : e ∈ m := by simp [hm]
  have hdone : done ⊆ m := by simp [hm]
  have hother : ∀ e' ∈ done, e'.destination.names ≠ e.destination.names := by
    intro e' he' heq
    subst hm
    exact List.lt_irrefl _ (heq ▸ (hsorted.mem_front_iff.1 he').2)
  have hcheck := h.check_join (hinside e he).destination (hplace.nul e he).1 (h.length_le e he).1
  obtain ⟨r', i', hchain', hi', hdevice⟩ := hplace.device e he
  obtain rfl := hchain.unique hchain' hsorted
  obtain rfl := Except.ok.inj (hi.symm.trans hi')
  exact h.room.exists_linked policy h.length_links_le hs hdone he hother (hinside e he)
    (h.ends e he).1 hcheck hi (h.isDirectory_root hchain he hi) hdevice hsource

/-- Then its destination names this file as well. -/
theorem Chained.place (hs : Chained fs dir links d m done s) (he : EntryInside e)
    (hchain : ChainRoot m e r) (hi : fs.find .keep (source dir r) = .ok i)
    (hsource : s.find .keep (source dir e) = .ok i)
    (hlinked : place policy dir s e = (.ok placement, t)) :
    Chained fs dir links d m (done ++ [e]) t := by
  have hforeseen : Foreseen fs dir links d (done ++ [e]) (Replay.place policy dir s e).2 :=
    (hs.toForeseen.mono (List.subset_append_left done [e])).place (by simp) he
  have hextends := (grows_place policy dir s e).extends
  rw [hlinked] at hforeseen hextends
  refine ⟨hforeseen, fun e' he' => ?_⟩
  rcases List.mem_append.1 he' with he' | he'
  · obtain ⟨r', i', hchain', hi', hdestination⟩ := hs.named e' he'
    exact ⟨r', i', hchain', hi', find_extend hextends hdestination⟩
  · obtain rfl := List.mem_singleton.1 he'
    obtain ⟨j, hsource', hdestination⟩ := find_of_place hlinked
    obtain rfl := Except.ok.inj ((find_extend hextends hsource).symm.trans hsource')
    exact ⟨r, i, hchain, hi, hdestination⟩

/-- So all that are left can be linked. -/
theorem Prepared.chained_placeAll (policy : ExistingLinks) (h : Prepared cfg dir links d m fs)
    (hplace : Placeable dir d deleteSources m fs) (hinside : ∀ e ∈ m, EntryInside e)
    (hsorted : m.Sorted) (hm : m = done ++ rest) (hs : Chained fs dir links d m done s) :
    (placeAll policy dir s rest).failure? = none ∧
      Chained fs dir links d m m (placeAll policy dir s rest).files := by
  induction rest generalizing done s with
  | nil =>
      rw [List.append_nil] at hm
      exact ⟨rfl, hm ▸ hs⟩
  | cons e rest ih =>
      obtain ⟨r, i, hchain, hi, hsource⟩ := h.exists_root hplace hinside hsorted hm hs
      obtain ⟨linked, hlinked⟩ :=
        h.exists_linked policy hplace hinside hsorted hm hs.toForeseen hchain hi hsource
      have hnext := hs.place (hinside e (by simp [hm])) hchain hi hsource hlinked
      rw [placeAll_cons_of_ok hlinked]
      exact ih (by simp [hm]) hnext

/-- In a pass that works, the source of each entry that is a destination as well comes first. -/
theorem Prepared.ordered_of_placeAll (h : Prepared cfg dir links d m fs)
    (hinside : ∀ e ∈ m, EntryInside e) (hsorted : m.Sorted)
    (hpass : (placeAll policy dir fs m).failure? = none) (he : e ∈ m) (he' : e' ∈ m)
    (hnames : e'.destination.names = e.source.names) :
    e'.destination.names < e.destination.names := by
  obtain ⟨done, rest, hm⟩ := List.append_of_mem he
  have hdone : done ⊆ m := fun x hx => hm ▸ List.mem_append_left _ hx
  rw [hm] at hpass
  obtain ⟨_, hrest⟩ := placeAll_of_append hpass
  have hs : Foreseen fs dir links d done (placeAll policy dir fs done).files :=
    (Foreseen.refl h.site done).placeAll (List.Subset.refl done) fun e he => hinside e (hdone he)
  generalize (placeAll policy dir fs done).files = s at hs hrest
  obtain ⟨placement, after, hplace, _⟩ := place_of_placeAll hrest
  -- The source is there as soon as the parent directory is.
  obtain ⟨made, i, hparent, hi⟩ : ∃ made i, s.provideParent (destination dir e) = (.ok (), made) ∧
      made.find .keep (source dir e) = .ok i := by
    cases places_of_eq hplace with
    | linked hparent hlink =>
        obtain ⟨i, _, _, hi, _⟩ := linkFile_eq_ok_iff.1 hlink
        exact ⟨_, i, hparent, hi⟩
    | present hparent _ _ haccepts =>
        obtain ⟨_, i, hi, _⟩ := accepts_iff.1 haccepts
        exact ⟨_, i, hparent, hi⟩
  obtain ⟨hsite, hbelow⟩ := hs.site.provideParent (hinside e he).destination
  rw [← destination, hparent] at hsite hbelow
  have hthere := hsite.descend?_of_find (hinside e he).source hi
  rw [← hnames] at hthere
  rcases hbelow.added hthere with hold | ⟨⟨hpre, hne⟩, _⟩
  · by_contra hlt
    refine absurd hold ?_
    rw [h.room.absent_of_foreseen hs hdone he' fun e₂ he₂ heq => hlt ?_]
    · simp
    · rw [← heq]
      exact ((hm ▸ hsorted).mem_front_iff.1 he₂).2
  · exact absurd (h.apart e' he' e he hpre) hne

/-! ## The replay -/

/-- The replay goes through, and every destination names the file at the root of its chain. -/
structure Completes (cfg : CheckedConfig) (dir : Path) (deleteSources : Bool) (m : Manifest)
    (fs : FileSystem) : Prop where
  result : ∃ result, (run cfg dir deleteSources fs).result = .ok result
  named : ∀ e ∈ m, ∃ r i, ChainRoot m e r ∧ fs.find .keep (source dir r) = .ok i ∧
    (run cfg dir deleteSources fs).files.find .keep (destination dir e) = .ok i

/-- A source that stays because it is a destination is spelled like one. -/
theorem Prepared.same_of_not_goes (h : Prepared cfg dir links d m fs)
    (hinside : ∀ e ∈ m, EntryInside e) (hsorted : m.Sorted)
    (ht : Chained fs dir links d m m t) (he : e ∈ m) (he' : e' ∈ m)
    (hnames : e'.destination.names = e.source.names)
    (hkept : ¬Goes (.ofString cfg.manifestName) dir d true m t e'.destination.names) :
    (destination dir e').same (source dir e) = true := by
  by_contra hsame
  have hother : ∀ e₂ ∈ m, (destination dir e₂).same (source dir e) = false := by
    intro e₂ he₂
    refine Bool.eq_false_iff.2 fun hsame₂ => hsame ?_
    have hnames₂ := Path.names_eq_of_same_join (hinside e₂ he₂).destination.isAbsolute
      (hinside e he).source.isAbsolute hsame₂
    obtain rfl := hsorted.eq_of_names he₂ he' (hnames₂.trans hnames.symm)
    exact hsame₂
  obtain ⟨r, i, hchain, hi, hdestination⟩ := ht.named e' he'
  have hfile := h.isDirectory_root hchain he' hi
  obtain ⟨node, hnode⟩ := exists_node?_of_find h.site hi
  have hremovable := h.room.removable ht.toForeseen
    (ht.site.descend?_of_find (hinside e' he').destination hdestination)
    (by rw [isDirectory_eq_of_shape? (ht.shape?_old hnode), hfile])
  exact hkept (.inr ⟨rfl, hremovable, e, he, hnames.symm, hother⟩)

theorem source_of_pass (h : (pass cfg dir fs).failure? = none) (he : e ∈ waiting cfg dir fs) :
    e.source.Inside ∧ ∃ i, (pass cfg dir fs).files.find .keep (source dir e) = .ok i := by
  obtain ⟨i, hi, _⟩ := find_of_placeAll h he
  exact ⟨(entryInside_of_mem_waiting he).source, i, hi⟩

theorem Prepared.completes_of_placeable (h : Prepared cfg dir links d m fs)
    (hinside : ∀ e ∈ m, EntryInside e) (hsorted : m.Sorted)
    (hread : fs.readText (cfg.manifestPath dir) = .ok m.text) (hwaiting : waiting cfg dir fs = m)
    (hplace : Placeable dir d deleteSources m fs) : Completes cfg dir deleteSources m fs := by
  have hstart : Chained fs dir links d m [] fs := ⟨.refl h.site [], by simp⟩
  obtain ⟨hfailure, ht⟩ : (pass cfg dir fs).failure? = none ∧
      Chained fs dir links d m m (pass cfg dir fs).files := by
    rw [pass, hwaiting]
    exact h.chained_placeAll _ hplace hinside hsorted (List.nil_append m).symm hstart
  obtain ⟨k, unlisted, hk, hremove, hthere⟩ := h.room.removeFile_manifest hread ht.toForeseen
  obtain ⟨hresult, hfiles⟩ := run_of_pass deleteSources hread hfailure hremove
  obtain ⟨_, hshrinks⟩ := shrinksBelow_clean_of_removeFile deleteSources ht.site
    cfg.inside_manifestName.1 hk hremove fun e he => source_of_pass hfailure (hwaiting ▸ he)
  refine ⟨⟨_, hresult⟩, fun e he => ?_⟩
  obtain ⟨r, i, hchain, hi, hdestination⟩ := ht.named e he
  refine ⟨r, i, hchain, hi, ?_⟩
  rw [hfiles, hwaiting]
  refine hshrinks.find (hinside e he).destination ?_ hdestination
  rintro (hmanifest | ⟨hdelete, _, e', he', hnames, hother⟩)
  · simp [← hmanifest, h.absent e he] at hthere
  · have hsame := hplace.spelled hdelete e' he' e he hnames.symm
    simp [hother e he] at hsame

theorem Prepared.placeable_of_completes (h : Prepared cfg dir links d m fs)
    (hinside : ∀ e ∈ m, EntryInside e) (hsorted : m.Sorted)
    (hread : fs.readText (cfg.manifestPath dir) = .ok m.text) (hwaiting : waiting cfg dir fs = m)
    (hcompletes : Completes cfg dir deleteSources m fs) : Placeable dir d deleteSources m fs := by
  obtain ⟨⟨result, hresult⟩, hnamed⟩ := hcompletes
  have hruns := runs_run cfg dir deleteSources fs
  rw [hresult] at hruns
  generalize (run cfg dir deleteSources fs).files = after at hruns hnamed
  cases hruns with
  | noManifest herror => simp [hread] at herror
  | @applied text unlisted _ hfailure hremove =>
      have hforeseen : Foreseen fs dir links d m (pass cfg dir fs).files := by
        rw [pass, hwaiting]
        exact (Foreseen.refl h.site m).placeAll (List.Subset.refl m) hinside
      have hplaced : ∀ e ∈ m, ∃ i, (pass cfg dir fs).files.find .keep (source dir e) = .ok i ∧
          (pass cfg dir fs).files.find .keep (destination dir e) = .ok i :=
        fun e he => find_of_placeAll hfailure (hwaiting ▸ he)
      obtain ⟨k, _, hk, _⟩ := h.room.removeFile_manifest hread hforeseen
      rw [hwaiting] at hnamed
      obtain ⟨hafter, hshrinks⟩ := shrinksBelow_clean_of_removeFile deleteSources hforeseen.site
        cfg.inside_manifestName.1 hk hremove fun e he => source_of_pass hfailure (hwaiting ▸ he)
      have ht : Chained fs dir links d m m (pass cfg dir fs).files := by
        refine ⟨hforeseen, fun e he => ?_⟩
        obtain ⟨r, i, hchain, hi, hdestination⟩ := hnamed e he
        exact ⟨r, i, hchain, hi, find_extend hshrinks.extended hdestination⟩
      refine ⟨fun e he e' he' hnames => ?_, ?_, fun e he => ?_, fun e he => ?_⟩
      · rw [pass, hwaiting] at hfailure
        exact h.ordered_of_placeAll hinside hsorted hfailure he he' hnames
      · rintro rfl e he e' he' hnames
        obtain ⟨_, i, _, _, hdestination⟩ := hnamed e' he'
        have hthere := hafter.descend?_of_find (hinside e' he').destination hdestination
        exact h.same_of_not_goes hinside hsorted ht he he' hnames (hshrinks.descend?_iff.1 hthere).2
      · obtain ⟨i, hsource, hdestination⟩ := hplaced e he
        exact ⟨nul_of_find (hinside e he).destination.isAbsolute hdestination,
          nul_of_find (hinside e he).source.isAbsolute hsource⟩
      · obtain ⟨r, i, hchain, hi, hdestination⟩ := ht.named e he
        obtain ⟨node, hnode⟩ := exists_node?_of_find h.site hi
        have hthere := ht.site.descend?_of_find (hinside e he).destination hdestination
        exact ⟨r, i, hchain, hi, by
          rw [← ht.device_eq h.site hthere, device_eq_of_shape? (ht.shape?_old hnode)]⟩

/-- In a directory that is prepared for it, the manifest of a plan below one root is replayed with
every destination naming the root of its chain exactly if its entries are placeable. -/
theorem completes_iff (hplan : plan.Below root)
    (hm : plan.manifest cfg root.bytes.length = .ok m) (h : Prepared cfg dir links d m fs) :
    Completes cfg dir deleteSources m fs ↔ Placeable dir d deleteSources m fs := by
  have hread : fs.readText (cfg.manifestPath dir) = .ok m.text := by
    obtain ⟨i, hi, hcontent, hallows⟩ := h.manifest
    exact readText_eq_ok_iff.2
      ⟨readFile_eq_ok_iff.2 ⟨i, hi, hallows, bytes?_of_content? hcontent⟩, LinkPlan.isValid_text hm⟩
  have hwaiting : waiting cfg dir fs = m := by
    rw [waiting_of_readText hread, Manifest.read_text (LinkPlan.writable_of_manifest hm)]
  have hinside : ∀ e ∈ m, EntryInside e := fun e he => entryInside_of_mem_waiting (hwaiting ▸ he)
  have hsorted : m.Sorted := LinkPlan.sorted_manifest hplan hm
  exact ⟨h.placeable_of_completes hinside hsorted hread hwaiting,
    h.completes_of_placeable hinside hsorted hread hwaiting⟩

/-- A file `z` and a manifest with the given text. -/
def zetaWith (text : String) : FileSystem :=
  withFiles [("z", "zeta"), ("hardLinkFile", text)]

/-- A chain from `z` by `a` to `b`. -/
def forwards : LinkPlan :=
  .ofList [(.ofString "r/a", .ofString "r/z"), (.ofString "r/b", .ofString "r/a")]

/-- A chain from `z` by `b` to `a`. -/
def backwards : LinkPlan :=
  .ofList [(.ofString "r/a", .ofString "r/b"), (.ofString "r/b", .ofString "r/z")]

theorem site_zetaWith (text : String) : ∃ links, (zetaWith text).Site (.ofString ".") links 1 := by
  obtain ⟨links, hleads⟩ :=
    exists_leadsTo (by rfl : (zetaWith text).find .follow (.ofString ".") = .ok 1) (by rfl)
  exact ⟨links, hierarchical_withFiles _, hleads, plain_of_all (by rfl)⟩

theorem allows_zetaWith {text : String} (ha : (zetaWith text).descend? 1 ns = some a)
    (hdir : (zetaWith text).isDirectory a = true) :
    (zetaWith text).allows a Mode.search = true ∧ (zetaWith text).allows a Mode.write = true := by
  have hmem : a ∈ [1, 4, 5] := mem_of_descend? (by rfl) ha
  simp only [List.mem_cons, List.not_mem_nil, or_false] at hmem
  rcases hmem with rfl | rfl | rfl
  · exact ⟨rfl, rfl⟩
  · cases hdir
  · cases hdir

theorem prepared_zetaWith {text : String} {m : Manifest} (htext : m.text = Utf8.encode text)
    (hdestinations : m.map Entry.destination = [.ofString "a", .ofString "b"])
    (hsources : ∀ e ∈ m, e.source ∈ ["a", "b", "z"].map Path.ofString) :
    ∃ links, Prepared .default (.ofString ".") links 1 m (zetaWith text) := by
  obtain ⟨links, hsite⟩ := site_zetaWith text
  have hdestination : ∀ e ∈ m, e.destination = .ofString "a" ∨ e.destination = .ofString "b" := by
    intro e he
    have hmem := List.mem_map_of_mem (f := Entry.destination) he
    rw [hdestinations] at hmem
    simpa using hmem
  have hsource : ∀ e ∈ m, e.source = .ofString "a" ∨ e.source = .ofString "b" ∨
      e.source = .ofString "z" := by simpa using hsources
  have hroot : ∀ e ∈ m, (∀ e' ∈ m, e'.destination.names ≠ e.source.names) →
      ∃ i, (zetaWith text).find .keep (source (.ofString ".") e) = .ok i ∧
        (zetaWith text).isDirectory i = false := by
    intro e he hother
    have hnone : ∀ p ∈ m.map Entry.destination, e.source ≠ p := by
      rintro p hp rfl
      obtain ⟨e', he', heq⟩ := List.mem_map.1 hp
      exact hother e' he' (congrArg Path.names heq)
    rw [hdestinations] at hnone
    rcases hsource e he with ha | hb | hz
    · exact absurd ha (hnone _ (by simp))
    · exact absurd hb (hnone _ (by simp))
    · exact ⟨4, by rw [source, hz]; rfl, rfl⟩
  have habsent : ∀ e ∈ m, (zetaWith text).descend? 1 e.destination.names = none := by
    intro e he
    rcases hdestination e he with ha | hb
    · rw [ha]
      rfl
    · rw [hb]
      rfl
  have hnames : ∀ e ∈ m, ∃ n, e.destination.names = [n] ∧ n.length ≤ Path.nameLimit := by
    intro e he
    rcases hdestination e he with ha | hb
    · exact ⟨Utf8.encode "a", by rw [ha]; decide, by decide⟩
    · exact ⟨Utf8.encode "b", by rw [hb]; decide, by decide⟩
  have hmanifest : (zetaWith text).content? 5 = some (.file m.text) := by
    rw [htext]
    rfl
  refine ⟨links, hsite, ⟨5, by rfl, hmanifest, by rfl⟩, allows_zetaWith, hroot, habsent,
    fun e he e' he' hpre => ?_, fun e he {ns a} hns ha => ?_, fun e he => ⟨?_, ?_⟩,
    fun e he => ⟨?_, ?_⟩, fun e he n hn => ?_⟩
  · obtain ⟨n, hn, _⟩ := hnames e he
    obtain ⟨n', hn', _⟩ := hnames e' he'
    rw [hn, hn'] at hpre ⊢
    exact hpre.eq_of_length rfl
  · obtain ⟨n, hn, _⟩ := hnames e he
    have hthere := habsent e he
    rw [hn] at hns hthere
    rcases List.prefix_cons_iff.1 hns with rfl | ⟨rest, rfl, hrest⟩
    · cases ha
      rfl
    · obtain rfl := List.prefix_nil.1 hrest
      simp [hthere] at ha
  · rcases hdestination e he with h | h <;> rw [h] <;> exact ⟨by decide, by decide⟩
  · rcases hsource e he with h | h | h <;> rw [h] <;> exact ⟨by decide, by decide⟩
  · rcases hdestination e he with h | h <;> rw [destination, h] <;> decide
  · rcases hsource e he with h | h | h <;> rw [source, h] <;> decide
  · obtain ⟨n', hn', hlength⟩ := hnames e he
    obtain rfl : n = n' := by simpa [hn'] using hn
    exact hlength

/-- The chain that goes from each name to a smaller one is followed to its root, the other one is
not. -/
theorem completes_forwards_only :
    (∃ m, forwards.manifest .default 2 = .ok m ∧
      Completes .default (.ofString ".") true m (zetaWith "a\tz\nb\ta\n")) ∧
    ∃ m, backwards.manifest .default 2 = .ok m ∧
      ¬Completes .default (.ofString ".") true m (zetaWith "a\tb\nb\tz\n") := by
  have hforwards : forwards.Below (.ofString "r/") := ⟨by decide, by decide⟩
  have hbackwards : backwards.Below (.ofString "r/") := ⟨by decide, by decide⟩
  constructor
  · obtain ⟨links, hprepared⟩ : ∃ links, Prepared .default (.ofString ".") links 1
        [⟨.ofString "a", .ofString "z"⟩, ⟨.ofString "b", .ofString "a"⟩]
        (zetaWith "a\tz\nb\ta\n") :=
      prepared_zetaWith (by rfl) (by rfl) (by decide)
    refine ⟨_, by rfl, (completes_iff hforwards (by rfl) hprepared).2 ⟨?_, ?_, ?_, ?_⟩⟩
    · decide
    · intro _
      decide
    · decide
    · have hroot : ChainRoot [⟨.ofString "a", .ofString "z"⟩, ⟨.ofString "b", .ofString "a"⟩]
          ⟨.ofString "a", .ofString "z"⟩ ⟨.ofString "a", .ofString "z"⟩ := .root (by decide)
      intro e he
      simp only [List.mem_cons, List.not_mem_nil, or_false] at he
      rcases he with rfl | rfl
      · exact ⟨_, 4, hroot, by rfl, by rfl⟩
      · exact ⟨_, 4, .link List.mem_cons_self (by rfl) hroot, by rfl, by rfl⟩
  · obtain ⟨links, hprepared⟩ : ∃ links, Prepared .default (.ofString ".") links 1
        [⟨.ofString "a", .ofString "b"⟩, ⟨.ofString "b", .ofString "z"⟩]
        (zetaWith "a\tb\nb\tz\n") :=
      prepared_zetaWith (by rfl) (by rfl) (by decide)
    refine ⟨_, by rfl, fun hcompletes => ?_⟩
    have hplace := (completes_iff hbackwards (by rfl) hprepared).1 hcompletes
    have hlater : (⟨.ofString "b", .ofString "z"⟩ : Entry) ∈
        [⟨.ofString "a", .ofString "b"⟩, ⟨.ofString "b", .ofString "z"⟩] := by decide
    exact absurd (hplace.ordered _ List.mem_cons_self _ hlater (by rfl)) (by decide)

end Hardlinks.Replay
