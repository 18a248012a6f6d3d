-- SUMMARY: Where a replay makes and removes entries: below its directory, or past a link in there.
import Hardlinks.Proofs.Replay.Cleanup
import Hardlinks.Proofs.Replay.Effect
import Hardlinks.Proofs.Resolution.Lookup

/-!
# Containment

The paths of a manifest are checked as they are written: they have no root and do not go up. So the
walk of such a path stays below the directory it is taken from, until it comes to a symbolic link.
Everything that a replay makes or removes is an entry that one of its paths names, and lies below
the directory unless a symbolic link below the directory has been replaced on the way there
(`reached_of_run`). Where no symbolic link lies below the directory, nothing outside is changed
(`isDirectoryBelow_of_run`); one that leads outside is enough to make entries there
(`made_past_link`).
-/

namespace Hardlinks.FileSystem

variable {fs after : FileSystem} {dir p q : Path} {a d i : Inode} {n : Name}
  {segments : List Segment} {slash : Bool} {links : List (Inode × Segment)} {s : Slot}

/-- The path replaces a symbolic link that lies below the directory `d`, after the links that lead
to `d`. -/
def StraysFrom (fs : FileSystem) (links : List (Inode × Segment)) (d : Inode) (p : Path) : Prop :=
  ∃ b m target links' s, fs.PathRoute .name p (links ++ (b, .name m) :: links') s ∧
    fs.linkAt? b (.name m) = some target ∧ fs.IsDirectoryBelow d b

/-- The path names the entry, which lies below the directory `d`, or the path strays from there. -/
def Reaches (fs : FileSystem) (links : List (Inode × Segment)) (d : Inode) (p : Path) (a : Inode)
    (n : Name) : Prop :=
  fs.Names p a n ∧ (fs.IsDirectoryBelow d a ∨ fs.StraysFrom links d p)

/-- A walk that does not go up goes down, until it comes to a symbolic link. -/
theorem Route.below_or_strays (h : fs.Route .name d segments slash links s) (hup : .up ∉ segments) :
    (∃ ns, fs.descend? d ns = some s.dir) ∨
      ∃ b m target links', links = (b, .name m) :: links' ∧
        fs.linkAt? b (.name m) = some target ∧ fs.IsDirectoryBelow d b := by
  induction h with
  | stay => exact .inl ⟨[], rfl⟩
  | stop => exact .inl ⟨[], rfl⟩
  | follow _ _ hfollows => cases hfollows
  | @step dir segment next rest _ i _ _ _ hi _ _ ih =>
      have hdown : ∃ ms, fs.descend? dir ms = some i := by
        cases segment with
        | here =>
            obtain rfl := Except.ok.inj hi
            exact ⟨[], rfl⟩
        | up => simp at hup
        | name n => exact ⟨[n], descend?_cons_eq_some_iff.2 ⟨i, (step_name_eq_ok_iff.1 hi).2, rfl⟩⟩
      obtain ⟨ms, hms⟩ := hdown
      rcases ih fun hmem => hup (List.mem_cons_of_mem segment hmem) with
        ⟨ns, hns⟩ | ⟨b, m, target, links', hlinks, hlink, hdir, ns, hns⟩
      · exact .inl ⟨ms ++ ns, descend?_append_eq_some_iff.2 ⟨i, hms, hns⟩⟩
      · exact .inr ⟨b, m, target, links', hlinks, hlink, hdir, ms ++ ns,
          descend?_append_eq_some_iff.2 ⟨i, hms, hns⟩⟩
  | @jump dir segment _ _ _ i target _ _ henter hi htarget =>
      cases segment with
      | here =>
          obtain rfl := Except.ok.inj hi
          simp [target?_eq_none_of_isDirectory (enter_eq_ok_iff.1 henter).1] at htarget
      | up => simp at hup
      | name m =>
          exact .inr ⟨dir, m, target, _, rfl, linkAt?_eq_some_iff.2 ⟨i, hi, htarget⟩,
            (enter_eq_ok_iff.1 henter).1, [], rfl⟩

/-- A path past a directory that does not go up names an entry below it, or strays. -/
theorem reaches_of_route (hroute : fs.PathRoute .name p (links ++ links') s)
    (hend : fs.Route .name d segments slash links' s) (hup : .up ∉ segments)
    (hnames : fs.Names p a n) : fs.Reaches links d p a n := by
  refine ⟨hnames, ?_⟩
  obtain ⟨slash', hslot⟩ := hnames
  have hdir := isDirectory_of_slot hslot rfl
  obtain ⟨_, links'', hroute', _⟩ := slot_eq_ok_iff.1 hslot
  obtain ⟨_, rfl⟩ := Route.unique hroute hroute'
  rcases hend.below_or_strays hup with ⟨ns, hns⟩ | ⟨b, m, target, links'', rfl, hlink, hbelow⟩
  · exact .inl ⟨hdir, ns, hns⟩
  · exact .inr ⟨b, m, target, links'', _, hroute, hlink, hbelow⟩

theorem LeadsTo.reaches_join (h : fs.LeadsTo dir links d) (hp : p.Inside)
    (hnames : fs.Names (dir.join p) a n) : fs.Reaches links d (dir.join p) a n := by
  obtain ⟨slash', hslot⟩ := hnames
  obtain ⟨_, links', hroute, _⟩ := slot_eq_ok_iff.1 hslot
  obtain ⟨links'', rfl, hend⟩ := (h.pathRoute_join_iff hp).1 hroute
  exact reaches_of_route hroute hend hp.up ⟨slash', hslot⟩

theorem IsDirectoryBelow.extend (h : fs.IsDirectoryBelow d i) (hextends : fs.Extends after) :
    after.IsDirectoryBelow d i := by
  obtain ⟨hdir, ns, hns⟩ := h
  exact ⟨hextends.isDirectory hdir, ns, descend?_extend hextends hns⟩

theorem Reaches.extend (h : fs.Reaches links d p a n) (hextends : fs.Extends after) :
    after.Reaches links d p a n := by
  obtain ⟨hnames, hplace⟩ := h
  refine ⟨hnames.extend hextends, ?_⟩
  rcases hplace with hbelow | ⟨b, m, target, links', s, hroute, hlink, hbelow⟩
  · exact .inl (hbelow.extend hextends)
  · obtain ⟨i, hi, htarget⟩ := linkAt?_eq_some_iff.1 hlink
    exact .inr ⟨b, m, target, links', s, hroute.extend hextends (.inl rfl),
      linkAt?_eq_some_iff.2 ⟨i, hextends.step_name hi, by rw [hextends.target?, htarget]⟩,
      hbelow.extend hextends⟩

/-- What the entries of some nodes do not leave, a descent from them does not leave. -/
theorem descend?_induction {P : Inode → Prop} {ns : List Name} (hd : P d)
    (hstep : ∀ {b m i}, P b → fs.child? b m = some i → P i) (hi : fs.descend? d ns = some i) :
    P i := by
  induction ns generalizing d with
  | nil => exact Option.some.inj hi ▸ hd
  | cons n ns ih =>
      obtain ⟨b, hb, hrest⟩ := descend?_cons_eq_some_iff.1 hi
      exact ih (hstep hd hb) hrest

/-- Where no symbolic link lies below, no path strays. -/
theorem Plain.not_straysFrom (h : fs.Plain d) : ¬fs.StraysFrom links d p := by
  rintro ⟨b, m, target, _, _, _, hlink, _, ns, hns⟩
  obtain ⟨i, hi, htarget⟩ := linkAt?_eq_some_iff.1 hlink
  have hdown : fs.descend? d (ns ++ [m]) = some i :=
    descend?_concat_eq_some_iff.2 ⟨b, hns, (step_name_eq_ok_iff.1 hi).2⟩
  simp [h _ i hdown] at htarget

end Hardlinks.FileSystem

namespace Hardlinks.Replay

open FileSystem

variable {cfg : CheckedConfig} {policy : ExistingLinks} {dir p q : Path}
  {links : List (Inode × Segment)} {deleteSources : Bool} {fs mid after : FileSystem} {e : Entry}
  {entries : List Entry} {ps : List Path} {a d i : Inode} {n : Name} {Touched : Path → Prop}

/-- The paths that a replay works on: the manifest, and of every waiting entry the source, the
destination and the directories above it. -/
inductive Touches (cfg : CheckedConfig) (dir : Path) (fs : FileSystem) : Path → Prop
  | manifest : Touches cfg dir fs (cfg.manifestPath dir)
  | source {e : Entry} : e ∈ waiting cfg dir fs → Touches cfg dir fs (source dir e)
  | destination {e : Entry} : e ∈ waiting cfg dir fs → Touches cfg dir fs (destination dir e)
  | above {e : Entry} {q : Path} : e ∈ waiting cfg dir fs → q ∈ (destination dir e).enclosing →
      Touches cfg dir fs q

/-- Every entry that has been added is reached by one of the paths. -/
structure AddsWithin (links : List (Inode × Segment)) (d : Inode) (Touched : Path → Prop)
    (fs after : FileSystem) : Prop where
  grows : fs.Grows after
  added : ∀ {a n i}, after.child? a n = some i → fs.child? a n = some i ∨
    ∃ q, Touched q ∧ after.Reaches links d q a n

/-! ## New entries -/

theorem AddsWithin.refl (links : List (Inode × Segment)) (d : Inode) (Touched : Path → Prop)
    (fs : FileSystem) : AddsWithin links d Touched fs fs :=
  ⟨.refl fs, .inl⟩

theorem AddsWithin.trans (h : AddsWithin links d Touched fs mid)
    (h' : AddsWithin links d Touched mid after) : AddsWithin links d Touched fs after where
  grows := h.grows.trans h'.grows
  added hi := by
    rcases h'.added hi with hmid | hnew
    · rcases h.added hmid with hold | ⟨q, hq, hreaches⟩
      · exact .inl hold
      · exact .inr ⟨q, hq, hreaches.extend h'.grows.extends⟩
    · exact .inr hnew

theorem addsWithin_makeDirectory (hleads : fs.LeadsTo dir links d) (hp : p.Inside)
    (hq : q ∈ (dir.join p).enclosing) (hne : q.isEmpty = false) (htouched : Touched q)
    (hmake : fs.makeDirectory q = .ok after) : AddsWithin links d Touched fs after := by
  have hgrows := grows_of_makeDirectory hmake
  refine ⟨hgrows, fun {a n i} hi => ?_⟩
  rcases child?_makeDirectory hmake hi with hold | ⟨hnames, _⟩
  · exact .inl hold
  · obtain ⟨s, m, hslot, hname, _⟩ := makeDirectory_eq_ok_iff.1 hmake
    obtain ⟨below, rest, links', hsegments, _, hroute, hend⟩ :=
      hleads.route_of_enclosing hp hq hne hslot hname
    have hup : .up ∉ below := fun hmem => hp.up (hsegments ▸ List.mem_append_left rest hmem)
    have hreaches := reaches_of_route hroute hend hup (hnames.of_extends hgrows.extends hslot)
    exact .inr ⟨q, htouched, hreaches.extend hgrows.extends⟩

theorem addsWithin_provideParent (hleads : fs.LeadsTo dir links d) (hp : p.Inside)
    (htouched : ∀ q ∈ (dir.join p).enclosing, Touched q) :
    AddsWithin links d Touched fs (fs.provideParent (dir.join p)).2 := by
  rcases provideParent_snd fs (dir.join p) with hsame | hmade
  · rw [hsame]
    exact .refl links d Touched fs
  · rw [hmade]
    apply makeFirst_induction (.refl links d Touched fs)
    intro mid made q hq hne hmid hmake
    exact hmid.trans (addsWithin_makeDirectory (hleads.extend hmid.grows.extends) hp hq hne
      (htouched q hq) hmake)

theorem addsWithin_linkFile (hleads : fs.LeadsTo dir links d) (hp : p.Inside)
    (htouched : Touched (dir.join p)) (hlink : fs.linkFile q (dir.join p) = .ok after) :
    AddsWithin links d Touched fs after := by
  have hgrows := grows_of_linkFile hlink
  refine ⟨hgrows, fun {a n i} hi => ?_⟩
  rcases child?_linkFile hlink hi with hold | ⟨hnames, _⟩
  · exact .inl hold
  · exact .inr ⟨_, htouched, (hleads.extend hgrows.extends).reaches_join hp hnames⟩

theorem addsWithin_place (hleads : fs.LeadsTo dir links d) (he : EntryInside e)
    (htouched : Touched (destination dir e))
    (habove : ∀ q ∈ (destination dir e).enclosing, Touched q) :
    AddsWithin links d Touched fs (place policy dir fs e).2 := by
  have hprovide := addsWithin_provideParent hleads he.destination habove
  generalize houtcome : place policy dir fs e = outcome
  cases places_of_eq houtcome with
  | linked hparent hlink =>
      rw [destination] at hparent
      rw [hparent] at hprovide
      exact hprovide.trans (addsWithin_linkFile (hleads.extend hprovide.grows.extends)
        he.destination htouched hlink)
  | present hparent =>
      rw [destination] at hparent
      rwa [hparent] at hprovide
  | noParent hparent =>
      rw [destination] at hparent
      rwa [hparent] at hprovide
  | refused hparent =>
      rw [destination] at hparent
      rwa [hparent] at hprovide

theorem addsWithin_placeAll (hleads : fs.LeadsTo dir links d)
    (hentries : ∀ e ∈ entries, EntryInside e ∧ Touched (destination dir e) ∧
      ∀ q ∈ (destination dir e).enclosing, Touched q) :
    AddsWithin links d Touched fs (placeAll policy dir fs entries).files := by
  induction entries generalizing fs with
  | nil => exact .refl links d Touched fs
  | cons e entries ih =>
      obtain ⟨hinside, htouched, habove⟩ := hentries e List.mem_cons_self
      have hplaced : AddsWithin links d Touched fs (place policy dir fs e).2 :=
        addsWithin_place hleads hinside htouched habove
      rcases hplace : place policy dir fs e with ⟨f | placement, after⟩
      · rw [placeAll_cons_of_error hplace]
        rwa [hplace] at hplaced
      · rw [placeAll_cons_of_ok hplace]
        rw [hplace] at hplaced
        exact hplaced.trans (ih (hleads.extend hplaced.grows.extends)
          fun e he => hentries e (List.mem_cons_of_mem _ he))

/-! ## Removed entries -/

/-- The entry that is removed is the one that the path names. -/
theorem names_of_removeFile (hremove : fs.removeFile q = .ok after)
    (hchange : after.child? a n ≠ fs.child? a n) : fs.Names q a n := by
  apply Classical.byContradiction
  intro hother
  exact hchange (child?_removeFile hremove hother)

/-- The sources that are removed are reached before the first one is. -/
theorem reaches_of_deleteAll (hleads : fs.LeadsTo dir links d)
    (hps : ∀ q ∈ ps, Touched q ∧ ∃ p, p.Inside ∧ q = dir.join p)
    (hchange : (deleteAll mid ps).files.child? a n ≠ mid.child? a n) (hextends : mid.Extends fs) :
    ∃ q, Touched q ∧ fs.Reaches links d q a n := by
  induction ps generalizing mid with
  | nil => exact absurd rfl hchange
  | cons q ps ih =>
      rcases delete_cases mid q with ⟨removed, hremove, hdelete⟩ | ⟨_, hfiles⟩
      · simp only [deleteAll, hdelete] at hchange
        by_cases hlater : (deleteAll removed ps).files.child? a n = removed.child? a n
        · obtain ⟨htouched, p, hp, rfl⟩ := hps q List.mem_cons_self
          have hnames := names_of_removeFile hremove (hlater ▸ hchange)
          exact ⟨_, htouched, hleads.reaches_join hp (hnames.extend hextends)⟩
        · exact ih (fun q hq => hps q (List.mem_cons_of_mem _ hq)) hlater
            ((extends_removeFile hremove).trans hextends)
      · simp only [deleteAll, hfiles] at hchange
        exact ih (fun q hq => hps q (List.mem_cons_of_mem _ hq)) hchange hextends

/-! ## Replays -/

theorem addsWithin_pass (hleads : fs.LeadsTo dir links d) :
    AddsWithin links d (Touches cfg dir fs) fs (pass cfg dir fs).files := by
  apply addsWithin_placeAll hleads
  intro e he
  exact ⟨entryInside_of_mem_waiting he, .destination he, fun q hq => .above he hq⟩

/-- What is taken away after the pass is the manifest or a source. -/
theorem reaches_of_clean {unlisted : FileSystem}
    (hleads : (pass cfg dir fs).files.LeadsTo dir links d)
    (hremove : (pass cfg dir fs).files.removeFile (cfg.manifestPath dir) = .ok unlisted)
    (hchange : (clean deleteSources dir (waiting cfg dir fs) unlisted).files.child? a n ≠
      (pass cfg dir fs).files.child? a n) :
    ∃ q, Touches cfg dir fs q ∧ (pass cfg dir fs).files.Reaches links d q a n := by
  by_cases hlisted : unlisted.child? a n = (pass cfg dir fs).files.child? a n
  · rw [← hlisted] at hchange
    cases deleteSources with
    | false => exact absurd rfl hchange
    | true =>
        apply reaches_of_deleteAll hleads _ hchange (extends_removeFile hremove)
        intro q hq
        obtain ⟨e, he, rfl⟩ := List.mem_map.1 (subset_distinct _ (mem_disposable_iff.1 hq).1)
        exact ⟨.source he, e.source, (entryInside_of_mem_waiting he).source, rfl⟩
  · obtain ⟨m, hcomponents⟩ := cfg.components_manifestName
    obtain ⟨hmanifest, _⟩ := Path.inside_of_components hcomponents
    exact ⟨_, .manifest, hleads.reaches_join hmanifest (names_of_removeFile hremove hlisted)⟩

/-- Nothing is done without a manifest. -/
theorem exists_text_of_change
    (hchange : (pass cfg dir fs).files.child? a n ≠ fs.child? a n ∨
      (run cfg dir deleteSources fs).files.child? a n ≠ (pass cfg dir fs).files.child? a n) :
    ∃ text, fs.readText (cfg.manifestPath dir) = .ok text := by
  cases hread : fs.readText (cfg.manifestPath dir) with
  | ok text => exact ⟨text, rfl⟩
  | error e =>
      have hwaiting : waiting cfg dir fs = [] := by rw [waiting, hread]
      have hpass : (pass cfg dir fs).files = fs := by rw [pass, hwaiting, placeAll]
      have hrun : (run cfg dir deleteSources fs).files = fs := by
        simp only [run, hread]
        split <;> rfl
      simp [hpass, hrun] at hchange

theorem reaches_of_change (hleads : fs.LeadsTo dir links d)
    (hchange : (pass cfg dir fs).files.child? a n ≠ fs.child? a n ∨
      (run cfg dir deleteSources fs).files.child? a n ≠ (pass cfg dir fs).files.child? a n) :
    ∃ q, Touches cfg dir fs q ∧ (pass cfg dir fs).files.Reaches links d q a n := by
  obtain ⟨text, hread⟩ := exists_text_of_change hchange
  have hadds : AddsWithin links d (Touches cfg dir fs) fs (pass cfg dir fs).files :=
    addsWithin_pass hleads
  rcases hchange with hmade | hremoved
  · cases hnew : (pass cfg dir fs).files.child? a n with
    | none =>
        cases hold : fs.child? a n with
        | none => simp [hnew, hold] at hmade
        | some j => simp [hadds.grows.extends.child? hold] at hnew
    | some j =>
        rcases hadds.added hnew with hold | hreaches
        · simp [hnew, hold] at hmade
        · exact hreaches
  · have hruns := runs_run cfg dir deleteSources fs
    generalize (run cfg dir deleteSources fs).result = result at hruns
    generalize (run cfg dir deleteSources fs).files = files at hruns hremoved
    cases hruns with
    | noManifest hread' => simp [hread] at hread'
    | unreadable hread' => simp [hread] at hread'
    | aborted => exact absurd rfl hremoved
    | manifestKept => exact absurd rfl hremoved
    | applied _ _ hremove =>
        exact reaches_of_clean (hleads.extend hadds.grows.extends) hremove hremoved

/-- Every entry that a replay makes, and every entry that it removes after that, is named by one of
its paths and lies below the directory, unless the path strays from there. -/
theorem reached_of_run
    (hchange : (pass cfg dir fs).files.child? a n ≠ fs.child? a n ∨
      (run cfg dir deleteSources fs).files.child? a n ≠ (pass cfg dir fs).files.child? a n) :
    ∃ links d q, fs.LeadsTo dir links d ∧ Touches cfg dir fs q ∧
      (pass cfg dir fs).files.Reaches links d q a n := by
  obtain ⟨text, hread⟩ := exists_text_of_change hchange
  obtain ⟨m, hcomponents⟩ := cfg.components_manifestName
  obtain ⟨hmanifest, _⟩ := Path.inside_of_components hcomponents
  obtain ⟨i, hi, _⟩ := readFile_eq_ok_iff.1 (readText_eq_ok_iff.1 hread).1
  obtain ⟨t, hslot, _⟩ := find_eq_ok_iff.1 hi
  obtain ⟨links, d, hleads⟩ := exists_leadsTo_of_slot hmanifest hslot
  obtain ⟨q, htouches, hreaches⟩ := reaches_of_change hleads hchange
  exact ⟨links, d, q, hleads, htouches, hreaches⟩

/-- Where no symbolic link lies below the directory, a replay changes nothing outside. -/
theorem isDirectoryBelow_of_run (hsite : fs.Site dir links d)
    (hchange : (pass cfg dir fs).files.child? a n ≠ fs.child? a n ∨
      (run cfg dir deleteSources fs).files.child? a n ≠ (pass cfg dir fs).files.child? a n) :
    (pass cfg dir fs).files.IsDirectoryBelow d a := by
  obtain ⟨q, _, _, hplace⟩ := reaches_of_change hsite.leads hchange
  obtain ⟨hpass, _⟩ := growsBelow_placeAll cfg.existingLinks hsite
    fun e (he : e ∈ waiting cfg dir fs) => entryInside_of_mem_waiting he
  exact hplace.resolve_right hpass.plain.not_straysFrom

/-- Two directories, of which the first holds a link to the second. -/
def linkedOut : FileSystem where
  nodes := #[
    ⟨0, ⟨true, false, true⟩, default, .directory 0 [(Utf8.encode "work", 1)]⟩,
    ⟨0, .ofNewDirectory, default, .directory 0 [(Utf8.encode "t", 2), (Utf8.encode "other", 3)]⟩,
    ⟨0, .ofNewDirectory, default, .directory 1
      [(Utf8.encode "a", 4), (Utf8.encode "out", 5), (Utf8.encode "hardLinkFile", 6)]⟩,
    ⟨0, .ofNewDirectory, default, .directory 1 []⟩,
    ⟨0, .ofNewFile, default, .file (Utf8.encode "alpha")⟩,
    ⟨0, ⟨true, true, true⟩, default, .symlink (.ofString "../other")⟩,
    ⟨0, .ofNewFile, default, .file (Utf8.encode "out/x\ta\n")⟩]
  start := 1

/-- A link that was made outside of the directory, past the symbolic link. -/
theorem made_past_link :
    (run .default (.ofString "t") false linkedOut).result = .ok ⟨true, 1, 0, 0, 0, 0⟩ ∧
      linkedOut.child? 3 (Utf8.encode "x") = none ∧
      (run .default (.ofString "t") false linkedOut).files.child? 3 (Utf8.encode "x") = some 4 ∧
      ∃ links q, linkedOut.LeadsTo (.ofString "t") links 2 ∧
        Touches .default (.ofString "t") linkedOut q ∧
        (pass .default (.ofString "t") linkedOut).files.Names q 3 (Utf8.encode "x") ∧
        (pass .default (.ofString "t") linkedOut).files.StraysFrom links 2 q := by
  have hchange : (pass .default (.ofString "t") linkedOut).files.child? 3 (Utf8.encode "x") ≠
      linkedOut.child? 3 (Utf8.encode "x") ∨
    (run .default (.ofString "t") false linkedOut).files.child? 3 (Utf8.encode "x") ≠
      (pass .default (.ofString "t") linkedOut).files.child? 3 (Utf8.encode "x") :=
    .inl (by decide)
  obtain ⟨links, d, q, hleads, htouches, hnames, hplace⟩ := reached_of_run hchange
  obtain ⟨links', hleads'⟩ :=
    exists_leadsTo (by rfl : linkedOut.find .follow (.ofString "t") = .ok 2) (by rfl)
  obtain ⟨rfl, rfl⟩ := hleads.unique hleads'
  refine ⟨by rfl, by rfl, by rfl, links, q, hleads, htouches, hnames, hplace.resolve_left ?_⟩
  rintro ⟨_, ns, hns⟩
  -- The entries of the directory are the source, the symbolic link and the manifest.
  have hbelow : (3 : Inode) ∈ [2, 4, 5, 6] := by
    refine descend?_induction (P := (· ∈ [2, 4, 5, 6])) (by decide) ?_ hns
    intro b m i hb hi
    have hentries : ∀ b ∈ [2, 4, 5, 6],
        ∀ e ∈ (pass .default (.ofString "t") linkedOut).files.entries b,
          e.2 ∈ [2, 4, 5, 6] := by decide
    obtain ⟨before, after, heq, _⟩ := List.lookup_eq_some_iff.1 hi
    exact hentries b hb (m, i) (by simp [heq])
  exact absurd hbelow (by decide)

end Hardlinks.Replay
