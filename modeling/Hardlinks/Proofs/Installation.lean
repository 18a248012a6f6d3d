-- SUMMARY: What the manifest's name leads to when a draft is linked or copied into its place.
import Hardlinks.Installation
import Hardlinks.Proofs.Draft
import Hardlinks.Proofs.FileSystem.Rewriting
import Hardlinks.Proofs.FileSystem.Siblings
import Hardlinks.Proofs.Path.Names

/-!
# Placing a draft

A draft that is linked into the manifest's place is what the manifest's name leads to, and not by
way of the draft's own name (`holds_of_linkFile`). A draft that is copied needs some care: the
hidden file's name can be taken by a symbolic link, which is written through and then becomes the
manifest. So the manifest's name leads to whatever the hidden name was opened at, and not by way of
the hidden name (`find_of_placeCopy`).
-/

namespace Hardlinks

open FileSystem

variable {fs made : FileSystem} {draft dir p q : Path} {d i j k : Inode} {n m : Name}
  {bytes : List UInt8} {s t : Slot} {links : List (Inode × Segment)} {init : List Name}
  {cfg : CheckedConfig}

/-! ## Files at their names -/

/-- The path names the entry `n` of the directory `d`, which is the file `i` with the given bytes.
-/
structure FileAt (fs : FileSystem) (p : Path) (d : Inode) (n : Name) (i : Inode)
    (bytes : List UInt8) : Prop where
  slot : fs.slot .name p = .ok ⟨d, .name n, false⟩
  step : fs.step d (.name n) = .ok i
  content? : fs.content? i = some (.file bytes)

theorem FileAt.target?_eq_none (h : FileAt fs draft d n i bytes) : fs.target? i = none := by
  simp [FileSystem.target?, h.content?]

theorem FileAt.find (h : FileAt fs draft d n i bytes) (ending : Ending) :
    fs.find ending draft = .ok i :=
  find_of_slot_name h.slot h.step (by simp) (.inr h.target?_eq_none)

theorem FileAt.grows (h : FileAt fs draft d n i bytes) (hgrows : fs.Grows made) :
    FileAt made draft d n i bytes :=
  ⟨slot_name_extend hgrows.extends h.slot, hgrows.extends.step_name h.step,
    hgrows.content?_file h.content?⟩

/-- A new file is at its name, and no other entry is new. -/
theorem fileAt_of_createFile {mode : Mode} (h : fs.createFile p mode bytes = .ok made) :
    ∃ d n, FileAt made p d n fs.nextInode bytes ∧ ∀ a b, made.child? a b =
      if a = d ∧ b = n then some fs.nextInode else fs.child? a b := by
  obtain ⟨s, n, hslot, hslash, hname, _, rfl⟩ := createFile_eq_ok_iff.1 h
  obtain ⟨hlast, _⟩ := vacantName_eq_ok_iff.1 hname
  have hextends : fs.Extends (fs.create s.dir n mode (.file bytes)) :=
    (grows_create (by simp)).extends
  have hslot' : fs.slot .name p = .ok ⟨s.dir, .name n, false⟩ := by
    rw [hslot, ← hlast, ← hslash]
  exact ⟨s.dir, n, ⟨slot_name_extend hextends hslot', hlast ▸ step_create (by simp) hslot hname,
    content?_create_nextInode⟩, fun _ _ => child?_create (by simp) hslot hname⟩

/-! ## Names in the target directory -/

/-- The path is a name and nothing else. -/
structure Single (p : Path) (n : Name) : Prop where
  bytes : p.bytes = n
  slash : Path.slash ∉ n
  segment? : Path.segment? n = some (.name n)

theorem Single.nonempty (h : Single p n) : n ≠ [] := by
  rintro rfl
  exact absurd h.segment? (by simp [Path.segment?])

theorem Single.isEmpty (h : Single p n) : p.isEmpty = false := by
  simp [Path.isEmpty, h.bytes, h.nonempty]

theorem Single.isAbsolute (h : Single p n) : p.isAbsolute = false := by
  obtain ⟨b, rest, hn⟩ := List.exists_cons_of_ne_nil h.nonempty
  have hb : b ≠ Path.slash := fun heq => h.slash (by simp [hn, heq])
  simp [Path.isAbsolute, h.bytes, hn, hb]

theorem Single.endsInSlash (h : Single p n) : p.endsInSlash = false := by
  rw [Path.endsInSlash, h.bytes]
  simp only [beq_eq_false_iff_ne]
  intro hlast
  exact h.slash (List.mem_of_getLast? hlast)

theorem Single.segments (h : Single p n) : p.segments = [.name n] := by
  have hparts : p.parts = [n] := by
    rw [Path.parts, h.bytes]
    exact List.splitOn_eq_singleton h.slash
  simp [Path.segments, hparts, h.segment?]

theorem Single.inside (h : Single p n) : p.Inside :=
  ⟨h.isEmpty, h.isAbsolute, by simp [h.segments]⟩

/-- A single name in a directory is reached by the segments of the directory and itself. -/
theorem Single.pathRoute_join_iff {ending : Ending} (h : Single p n) :
    fs.PathRoute ending (dir.join p) links s ↔
      fs.Route ending (fs.origin dir) (dir.segments ++ [.name n]) false links s := by
  have horigin : fs.origin (dir.join p) = fs.origin dir := by
    rw [origin, origin, Path.isAbsolute_join h.isAbsolute]
  rw [PathRoute, horigin, Path.segments_join h.isAbsolute, h.segments,
    Path.endsInSlash_join h.isAbsolute h.isEmpty, h.endsInSlash]

theorem Single.eq_of_names (h : Single p n) (hnames : fs.Names (dir.join p) d m) : m = n := by
  obtain ⟨slash, hslot⟩ := hnames
  obtain ⟨_, links, hroute, _⟩ := slot_eq_ok_iff.1 hslot
  rw [h.pathRoute_join_iff] at hroute
  obtain ⟨hlast, _⟩ := Route.replace_last (y := .name n) hroute
  exact Segment.name.inj hlast

/-- Two single names in one directory have their slots side by side. -/
theorem slot_sibling (hp : Single p n) (hq : Single q m)
    (hs : fs.slot .name (dir.join p) = .ok s) (ht : fs.slot .name (dir.join q) = .ok t) :
    ∃ d, s = ⟨d, .name n, false⟩ ∧ t = ⟨d, .name m, false⟩ := by
  obtain ⟨_, _, hroute, _⟩ := slot_eq_ok_iff.1 hs
  obtain ⟨_, _, hroute', _⟩ := slot_eq_ok_iff.1 ht
  rw [hp.pathRoute_join_iff] at hroute
  rw [hq.pathRoute_join_iff] at hroute'
  obtain ⟨hlast, hreplaced⟩ := Route.replace_last (y := .name m) hroute
  obtain ⟨_, rfl⟩ := Route.unique hreplaced hroute'
  refine ⟨s.dir, ?_, rfl⟩
  rw [← hlast, ← Route.slash_of_name hroute]

/-- A slash at the end of a path asks for a directory. -/
theorem slash_of_empty_part (hroute : fs.PathRoute .name (dir.join p) links s)
    (habsolute : p.isAbsolute = false) (hparts : p.parts = init ++ [[]]) (hinit : init ≠ []) :
    s.slash = true := by
  have hends : p.endsInSlash = true := Path.endsInSlash_of_parts hinit hparts
  have hempty : p.isEmpty = false := by
    obtain ⟨_ | ⟨b, rest⟩⟩ := p
    · simp [Path.endsInSlash] at hends
    · rfl
  rw [Route.slash_of_name hroute, Path.endsInSlash_join habsolute hempty, hends]

/-- A dot at the end of a path names no entry. -/
theorem last_of_dot_part (hroute : fs.PathRoute .name (dir.join p) links s)
    (habsolute : p.isAbsolute = false) (hparts : p.parts = init ++ [[Path.dot]]) :
    s.last = .here := by
  have hdot : Path.segment? [Path.dot] = some .here := rfl
  have hsegments : (dir.join p).segments =
      (dir.segments ++ init.filterMap Path.segment?) ++ [.here] := by
    rw [Path.segments_join habsolute, List.append_assoc]
    simp [Path.segments, hparts, hdot]
  rw [PathRoute, hsegments] at hroute
  exact (Route.replace_last (y := .here) hroute).1

/-- A name by its components is written as it is, unless it ends in a slash or a dot. -/
theorem single_or (hcomponents : p.components = [.name n])
    (hslot : fs.slot .name (dir.join p) = .ok s) :
    Single p n ∨ s.slash = true ∨ s.last = .here := by
  obtain ⟨habsolute, hcomponent, blank, hparts, hblank⟩ := Path.parts_of_components hcomponents
  obtain ⟨_, _, hroute, _⟩ := slot_eq_ok_iff.1 hslot
  rcases List.eq_nil_or_concat blank with rfl | ⟨init, last, hconcat⟩
  · refine .inl ⟨?_, ?_, (Path.segment?_of_component? hcomponent).2⟩
    · rw [← Path.ofParts_parts p, hparts, Path.ofParts]
      simp [List.intercalate]
    · exact Path.slash_notMem_of_mem_parts (p := p) (by simp [hparts])
  · right
    rw [List.concat_eq_append] at hconcat
    have hparts' : p.parts = (n :: init) ++ [last] := by rw [hparts, hconcat, List.cons_append]
    rcases hblank last (by simp [hconcat]) with rfl | rfl
    · exact .inl (slash_of_empty_part hroute habsolute hparts' (List.cons_ne_nil n init))
    · exact .inr (last_of_dot_part hroute habsolute hparts')

/-- A name by its components under which an entry can be made is written as it is. -/
theorem single_of_slot (hcomponents : p.components = [.name n])
    (hslot : fs.slot .name (dir.join p) = .ok s) (hlast : s.last = .name m)
    (hslash : s.slash = false) : Single p n := by
  rcases single_or hcomponents hslot with hsingle | hdirectory | hhere
  · exact hsingle
  · simp [hslash] at hdirectory
  · simp [hlast] at hhere

/-- A name by its components under which a file is found is written as it is. -/
theorem single_of_find (hcomponents : p.components = [.name n])
    (hi : fs.find .keep (dir.join p) = .ok i) (hfile : fs.isDirectory i = false) : Single p n := by
  obtain ⟨links, s, hcheck, hroute, hlinks, hstep, hdir⟩ := find_eq_ok_route hi
  have hslash : s.slash = false := by
    apply Bool.eq_false_iff.2
    intro hslash
    simp [hdir hslash] at hfile
  obtain ⟨links', t, hname, ⟨rfl, rfl⟩ | ⟨_, _, _, hfollows, _, hend⟩⟩ := Route.split_last hroute
  · rcases single_or hcomponents (slot_eq_ok_iff.2 ⟨hcheck, links, hname, hlinks⟩) with
      hsingle | hdirectory | hhere
    · exact hsingle
    · simp [hslash] at hdirectory
    · -- The path leads to a directory that it enters.
      obtain ⟨hinside, _⟩ := Path.inside_of_components hcomponents
      have hne : (dir.join p).segments ≠ [] := by
        rw [Path.segments_join hinside.isAbsolute]
        exact List.append_ne_nil_of_right_ne_nil _ hinside.segments_ne_nil
      rw [hhere] at hstep
      obtain rfl := Except.ok.inj hstep
      simp [(enter_eq_ok_iff.1 (hname.enter_of_name hne)).1] at hfile
  · have hdirectory := hend.slash_mono (Bool.or_eq_true_iff.2 (.inl hfollows))
    simp [hslash] at hdirectory

/-- The manifest's name is a single name by its components. -/
theorem CheckedConfig.components_manifestName (cfg : CheckedConfig) :
    ∃ n, (Path.ofString cfg.manifestName).components = [.name n] := by
  have hcheck := cfg.defect?_eq_none
  unfold Config.defect? at hcheck
  dsimp only at hcheck
  split at hcheck
  · next n heq => exact ⟨n, heq⟩
  · simp at hcheck

theorem CheckedConfig.inside_manifestName (cfg : CheckedConfig) :
    (Path.ofString cfg.manifestName).Inside ∧
      ∃ n, (Path.ofString cfg.manifestName).names = [n] := by
  obtain ⟨n, hcomponents⟩ := cfg.components_manifestName
  obtain ⟨hinside, hnames⟩ := Path.inside_of_components hcomponents
  exact ⟨hinside, n, hnames⟩

theorem encode_stagingName (name : String) :
    Utf8.encode ("." ++ name ++ ".tmp") =
      Path.dot :: (Utf8.encode name ++ Utf8.encode ".tmp") := by
  have hdot : Utf8.encode "." = [Path.dot] := by decide
  rw [Utf8.encode_append, Utf8.encode_append, hdot]
  rfl

/-- The hidden file has another single name. -/
theorem single_stagingName (h : Single (.ofString cfg.manifestName) n) :
    ∃ t, t ≠ n ∧ Single (.ofString ("." ++ cfg.manifestName ++ ".tmp")) t := by
  have hn : Utf8.encode cfg.manifestName = n := h.bytes
  have hletter : 116 ∈ Path.dot :: (n ++ Utf8.encode ".tmp") :=
    List.mem_cons_of_mem _ (List.mem_append_right _ (by decide))
  refine ⟨Path.dot :: (n ++ Utf8.encode ".tmp"), ?_, hn ▸ encode_stagingName cfg.manifestName,
    ?_, (Path.segment?_of_component? (Path.component?_of_mem hletter (by decide))).2⟩
  · intro heq
    have hlength := congrArg List.length heq
    rw [List.length_cons, List.length_append] at hlength
    omega
  · intro hmem
    rcases List.mem_cons.1 hmem with heq | hmem
    · exact absurd heq (by decide)
    · rcases List.mem_append.1 hmem with hmem | hmem
      · exact h.slash hmem
      · exact absurd hmem (by decide)

/-! ## Placing the manifest -/

/-- The path leads to something that the given bytes can be read of. -/
def Holds (fs : FileSystem) (p : Path) (bytes : List UInt8) : Prop :=
  ∃ j, fs.find .follow p = .ok j ∧ fs.bytes? j = some bytes

/-- The way to what `p` leads to does not use the entry of `q`. -/
def Apart (fs : FileSystem) (p q : Path) : Prop :=
  ∀ d n, fs.Names q d n → ¬fs.Uses .follow p d n

variable {manifest staging q' : Path} {linked left : FileSystem} {e : IoError}

theorem bytes?_removeFile (hremove : fs.removeFile q = .ok made) (i : Inode) :
    made.bytes? i = fs.bytes? i := by
  obtain ⟨d, n, _, _, _, _, _, rfl⟩ := removeFile_names hremove
  exact bytes?_modifyEntries _ _ _

theorem Holds.removeFile (h : Holds fs p bytes) (hapart : Apart fs p q)
    (hremove : fs.removeFile q = .ok made) : Holds made p bytes := by
  obtain ⟨j, hj, hbytes⟩ := h
  exact ⟨j, find_removeFile_of_unused hremove hj hapart,
    (bytes?_removeFile hremove j).trans hbytes⟩

theorem Apart.of_extends (h : Apart fs p q) (hextends : made.Extends fs)
    (hj : made.find .follow p = .ok j) : Apart made p q := by
  intro d n hnames huses
  exact h d n (hnames.extend hextends) ((uses_extend hextends hj).2 huses)

/-- The entry of a file is used only where a path ends. -/
theorem apart_of_file (hj : fs.find .follow p = .ok j) (hq : fs.Names q d n)
    (hi : fs.step d (.name n) = .ok i) (htarget : fs.target? i = none)
    (hend : ∀ links s, fs.PathRoute .follow p links s → fs.step s.dir s.last = .ok j →
      (d, .name n) ≠ (s.dir, s.last)) : Apart fs p q := by
  intro d' n' hq' huses
  obtain ⟨rfl, rfl⟩ := hq.unique hq'
  obtain ⟨links, s, hroute, hmem⟩ := huses
  obtain ⟨links', s', _, hroute', _, hstep, _⟩ := find_eq_ok_route hj
  obtain ⟨rfl, rfl⟩ := Route.unique hroute hroute'
  rcases List.mem_cons.1 hmem with heq | hmem
  · exact hend links s hroute hstep heq
  · exact Route.notMem_of_target? hroute hi htarget hmem

/-- A draft that is linked is the manifest. -/
theorem holds_of_linkFile (hfile : FileAt fs draft d n i bytes)
    (h : fs.linkFile draft manifest = .ok linked) :
    Holds linked manifest bytes ∧ Apart linked manifest draft := by
  have hgrows := grows_of_linkFile h
  obtain ⟨j, s, name, hj, hslot, hname, hslash, _, _, _, rfl⟩ := linkFile_eq_ok_iff.1 h
  obtain rfl := Except.ok.inj ((hfile.find .keep).symm.trans hj)
  obtain ⟨hlast, _, hfree⟩ := vacantName_eq_ok_iff.1 hname
  have htarget : (fs.addEntry s.dir name i).target? i = none := by
    rw [hgrows.extends.target?, hfile.target?_eq_none]
  have hstep : (fs.addEntry s.dir name i).step s.dir s.last = .ok i :=
    step_addEntry_of_vacant hslot hname
  have hslot' := slot_name_extend hgrows.extends hslot
  have hfind : (fs.addEntry s.dir name i).find .follow manifest = .ok i :=
    find_of_slot_name hslot' hstep (by simp [hslash]) (.inr htarget)
  refine ⟨⟨i, hfind, bytes?_of_content? (hgrows.content?_file hfile.content?)⟩, ?_⟩
  have hdraft : (fs.addEntry s.dir name i).step d (.name n) = .ok i :=
    hgrows.extends.step_name hfile.step
  refine apart_of_file hfind ⟨false, slot_name_extend hgrows.extends hfile.slot⟩ hdraft htarget ?_
  intro links t hroute _ heq
  -- The manifest's name was free, so it is not the draft's.
  obtain ⟨_, links', hname', _⟩ := slot_eq_ok_iff.1 hslot'
  have hkept : ∀ target, (fs.addEntry s.dir name i).linkAt? s.dir s.last = some target →
      Ending.follow.follows manifest.endsInSlash = false := by
    intro target hlink
    rw [Settled.linkAt? ⟨hstep, htarget⟩] at hlink
    cases hlink
  obtain ⟨_, rfl⟩ := Route.unique hroute (Route.of_name hname' hkept)
  obtain ⟨rfl, hlast'⟩ := Prod.mk.inj heq
  rw [hlast] at hlast'
  cases hlast'
  obtain ⟨_, hchild⟩ := step_name_eq_ok_iff.1 hfile.step
  simp [hfree] at hchild

theorem placeCopy_eq_ok
    (h : Installation.placeCopy cfg draft staging manifest fs = (.ok (), left)) :
    ∃ copied, fs.copyFile draft staging = .ok copied ∧
      copied.linkFile staging manifest = .ok left := by
  unfold Installation.placeCopy at h
  split at h
  · cases h
  · next copied hcopy =>
    split at h
    · cases h
    · split at h
      · cases h
      · next placed hlink =>
        cases h
        exact ⟨copied, hcopy, hlink⟩

/-- What has a name beside the manifest's place that is linked into it is the manifest, too. If it
is reached by a link, both names lead to it by one entry. -/
theorem find_of_link_sibling (hne : n ≠ m) (hp : Single p m) (hq : Single q n)
    (hj : fs.find .follow (dir.join q) = .ok j) (hdir : fs.isDirectory j = false)
    (htarget : fs.target? j = none) (h : fs.linkFile (dir.join q) (dir.join p) = .ok linked) :
    linked.find .follow (dir.join p) = .ok j ∧ Apart linked (dir.join p) (dir.join q) ∧
      (fs.find .keep (dir.join q) = .ok j ∨ ∀ links s, linked.PathRoute .follow (dir.join q) links s →
        ∃ links', linked.PathRoute .follow (dir.join p) links' s) := by
  have hextends := (grows_of_linkFile h).extends
  obtain ⟨k, s, name, hk, hslot, hname, _, _, _, _, rfl⟩ := linkFile_eq_ok_iff.1 h
  obtain ⟨hlast, _⟩ := vacantName_eq_ok_iff.1 hname
  obtain ⟨t, k', ht, hk'⟩ := exists_slot_name hj
  obtain ⟨d, rfl, rfl⟩ := slot_sibling hp hq hslot ht
  cases hlast
  obtain rfl : k' = k := by
    have hkeep : fs.find .keep (dir.join q) = .ok k' :=
      find_of_slot_name ht hk' (by simp) (.inl rfl)
    exact Except.ok.inj (hkeep.symm.trans hk)
  -- Both names stand for one node now.
  have hmstep : (fs.addEntry d m k').step d (.name m) = .ok k' :=
    step_addEntry_of_vacant hslot hname
  have hnstep : (fs.addEntry d m k').step d (.name n) = .ok k' := hextends.step_name hk'
  obtain ⟨links', s', _, hroute', hlinks', hstep', hs'⟩ :=
    find_eq_ok_route (find_extend hextends hj)
  have hsettled : (fs.addEntry d m k').Settled s' j := ⟨hstep', by rw [hextends.target?, htarget]⟩
  obtain ⟨_, links, hroute, _⟩ := slot_eq_ok_iff.1 (slot_name_extend hextends ht)
  rw [hq.pathRoute_join_iff] at hroute hroute'
  obtain ⟨links'', t, hsibling, hlength', ht', hunused, hend⟩ :=
    Route.sibling hne hroute hnstep hmstep hroute' (nodeAt_eq_ok_iff.2 ⟨hstep', hs'⟩) hsettled
      (by rw [isDirectory_addEntry, hdir])
  rw [← hp.pathRoute_join_iff] at hsibling
  have hcheck := (slot_eq_ok_iff.1 hslot).1
  obtain ⟨htstep, htslash⟩ := nodeAt_eq_ok_iff.1 ht'
  refine ⟨find_of_route hcheck hsibling (hlength' ▸ hlinks') htstep htslash, ?_, ?_⟩
  · intro d' n' hnames huses
    obtain ⟨rfl, rfl⟩ := hnames.unique ⟨false, slot_name_extend hextends ht⟩
    obtain ⟨_, _, huses, hmem⟩ := huses
    obtain ⟨rfl, rfl⟩ := Route.unique hsibling huses
    exact hunused hmem
  · rcases hend with rfl | rfl
    · exact .inl hk
    · refine .inr fun _ _ hroute => ?_
      rw [hq.pathRoute_join_iff] at hroute
      obtain ⟨_, rfl⟩ := Route.unique hroute' hroute
      exact ⟨_, hsibling⟩

/-- A draft that is copied beside the manifest's place and linked from there: what the hidden name
was opened at is the manifest. If the hidden name is a link, the manifest is one as well. -/
theorem find_of_placeCopy (h : Installation.placeCopy cfg draft (Installation.stagingPath cfg dir)
      (cfg.manifestPath dir) fs = (.ok (), left)) :
    ∃ i bytes d n j base copied, fs.find .follow draft = .ok i ∧
      fs.content? i = some (.file bytes) ∧
      fs.Opens (Installation.stagingPath cfg dir) d n j base ∧
      base.Overwrites j (if i = j then [] else bytes) copied ∧
      copied.linkFile (Installation.stagingPath cfg dir) (cfg.manifestPath dir) = .ok left ∧
      left.find .follow (cfg.manifestPath dir) = .ok j ∧
      Apart left (cfg.manifestPath dir) (Installation.stagingPath cfg dir) ∧
      (copied.find .keep (Installation.stagingPath cfg dir) = .ok j ∨
        left.Uses .follow (cfg.manifestPath dir) d n) := by
  obtain ⟨copied, hcopy, hlink⟩ := placeCopy_eq_ok h
  obtain ⟨i, bytes, d, n, j, base, hi, hbytes, hopens, hwritten⟩ := copyFile_spec hcopy
  have hj := hopens.find hwritten.tree.extends
  obtain ⟨single, hcomponents⟩ := cfg.components_manifestName
  obtain ⟨_, t, name, _, hmanifest, hname, htslash, _⟩ := linkFile_eq_ok_iff.1 hlink
  have hsingle := single_of_slot hcomponents hmanifest (vacantName_eq_ok_iff.1 hname).1 htslash
  obtain ⟨hidden, hother, hhidden⟩ := single_stagingName hsingle
  obtain ⟨hdir, htarget⟩ := hopens.kind
  obtain ⟨hfind, hapart, hend⟩ := find_of_link_sibling hother hsingle hhidden hj
    ((hwritten.tree.isDirectory j).trans hdir) ((hwritten.tree.target? j).trans htarget) hlink
  refine ⟨i, bytes, d, n, j, base, copied, hi, hbytes, hopens, hwritten, hlink, hfind, hapart,
    hend.imp_right fun hroutes => ?_⟩
  obtain ⟨links, _, _, hroute, _⟩ :=
    hopens.exists_route (hwritten.tree.extends.trans (grows_of_linkFile hlink).extends)
  obtain ⟨links', hroute'⟩ := hroutes _ _ hroute
  exact ⟨links', _, hroute', List.mem_cons_self⟩

end Hardlinks
