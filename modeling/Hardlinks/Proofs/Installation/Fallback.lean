-- SUMMARY: An installation whose places are free succeeds, and ends the same by a link or a copy.
import Hardlinks.Proofs.FileSystem.Nodes
import Hardlinks.Proofs.FileSystem.WellFormed
import Hardlinks.Proofs.Installation.Endings
import Hardlinks.Proofs.Resolution.Lookup

/-!
# Linking and copying agree

An installation that finds the manifest's place and the hidden name free, and may do what it has to
do there, brings the draft into its place. A draft on another device is copied to the hidden name,
linked from there and the hidden name removed, which amounts to a new file with the draft's bytes
and permissions in the manifest's place (`run_of_copied`). So both ways end in the same tree
(`installed_of_ready`): only the manifest's node differs, which is the draft's own or a new one.
-/

namespace Hardlinks.Installation

open FileSystem

/-- What an installation needs: a file `i` that can be read, with the name `n` in a directory `d`
that can be changed, as the draft; a target directory `t` that can be listed and changed, once the
missing ones have been made; and nothing at the manifest's plain name and at the hidden one. -/
structure Ready (cfg : CheckedConfig) (draft dir : Path) (fs : FileSystem) (d : Inode) (n : Name)
    (i : Inode) (bytes : List UInt8) (t : Inode) : Prop where
  plain : Path.slash ∉ (Path.ofString cfg.manifestName).bytes
  names : fs.Names draft d n
  draft : fs.find .keep draft = .ok i
  content? : fs.content? i = some (.file bytes)
  readable : fs.allows i Mode.read = true
  removable : fs.allows d Mode.write = true
  provided : (fs.provideDirectory dir).1 = .ok ()
  target : (prepared dir fs).find .follow dir = .ok t
  listable : (prepared dir fs).allows t Mode.read = true
  writable : (prepared dir fs).allows t Mode.write = true
  manifest : (prepared dir fs).find .keep (cfg.manifestPath dir) = .error (.system .noEntry)
  staging : (prepared dir fs).find .keep (stagingPath cfg dir) = .error (.system .noEntry)

/-- What a successful installation leaves. The target directory and its missing ancestors have been
made, the manifest is the file `j`, the draft's name and the hidden one are free, and every other
entry and node is as it was. The file `j` is the draft's own node, or a new one on the target's
device. -/
structure Installed (cfg : CheckedConfig) (draft dir : Path) (fs : FileSystem) (d : Inode)
    (n : Name) (i : Inode) (bytes : List UInt8) (t : Inode) (after : FileSystem) (j : Inode) :
    Prop where
  grows : fs.Grows (prepared dir fs)
  made : ∀ {a b k}, (prepared dir fs).child? a b = some k → fs.child? a b = some k ∨
    ∃ p ∈ dir.ancestors, (prepared dir fs).Names p a b ∧ (prepared dir fs).isDirectory k = true ∧
      fs.nextInode ≤ k
  manifest : after.find .keep (cfg.manifestPath dir) = .ok j
  content? : after.content? j = some (.file bytes)
  draft : after.find .keep draft = .error (.system .noEntry)
  staging : after.find .keep (stagingPath cfg dir) = .error (.system .noEntry)
  child? : ∀ {a b}, ¬(prepared dir fs).Names (cfg.manifestPath dir) a b → ¬(a = d ∧ b = n) →
    after.child? a b = (prepared dir fs).child? a b
  node? : ∀ {a}, a < (prepared dir fs).nextInode →
    (after.node? a).map Node.bare = ((prepared dir fs).node? a).map Node.bare
  node : (prepared dir fs).device i = (prepared dir fs).device t ∧ j = i ∧
      after.nextInode = (prepared dir fs).nextInode ∨
    (prepared dir fs).device i ≠ (prepared dir fs).device t ∧ j = (prepared dir fs).nextInode ∧
      after.nextInode = j + 1 ∧ ∃ mode, fs.allows i = (· mode) ∧
        after.node? j = some ⟨(prepared dir fs).device t, mode, default, .file bytes⟩

/-- The draft, the target directory and the two free names, when the directory has been made. -/
structure Clear (cfg : CheckedConfig) (draft dir : Path) (fs : FileSystem) (d : Inode) (n : Name)
    (i : Inode) (bytes : List UInt8) (t : Inode) (m h : Name) : Prop where
  draft : fs.slot .name draft = .ok ⟨d, .name n, false⟩
  step : fs.step d (.name n) = .ok i
  content? : fs.content? i = some (.file bytes)
  readable : fs.allows i Mode.read = true
  removable : fs.allows d Mode.write = true
  target : fs.find .follow dir = .ok t
  isDirectory : fs.isDirectory t = true
  listable : fs.allows t Mode.read = true
  writable : fs.allows t Mode.write = true
  manifest : fs.slot .name (cfg.manifestPath dir) = .ok ⟨t, .name m, false⟩
  manifestName : fs.vacantName ⟨t, .name m, false⟩ = .ok m
  staging : fs.slot .name (stagingPath cfg dir) = .ok ⟨t, .name h, false⟩
  stagingName : fs.vacantName ⟨t, .name h, false⟩ = .ok h
  ne : m ≠ h

/-- What it makes of a tree that the draft's bytes get the name `m` in the directory `t`. The name
is that of the file `j`, the draft's own node or a new one. -/
structure Placed (fs : FileSystem) (i : Inode) (bytes : List UInt8) (t : Inode) (m : Name)
    (placed : FileSystem) (j : Inode) : Prop where
  grows : fs.Grows placed
  child? : ∀ a b, placed.child? a b = if a = t ∧ b = m then some j else fs.child? a b
  content? : placed.content? j = some (.file bytes)
  bare : ∀ {a}, a < fs.nextInode →
    (placed.node? a).map Node.bare = (fs.node? a).map Node.bare
  node : fs.device i = fs.device t ∧ j = i ∧ placed.nextInode = fs.nextInode ∨
    fs.device i ≠ fs.device t ∧ j = fs.nextInode ∧ placed.nextInode = j + 1 ∧
      ∃ mode, fs.allows i = (· mode) ∧
        placed.node? j = some ⟨fs.device t, mode, default, .file bytes⟩

variable {cfg : CheckedConfig} {draft dir p : Path} {fs placed : FileSystem} {ending : Ending}
  {d i j t : Inode} {n m h : Name} {mode : Mode} {bytes : List UInt8}

/-! ## Preparations -/

theorem single_of_components (hcomponents : p.components = [.name n])
    (hslash : Path.slash ∉ p.bytes) : Single p n := by
  obtain ⟨_, hcomponent, blank, hparts, _⟩ := Path.parts_of_components hcomponents
  have hpart : p.parts = [p.bytes] := List.splitOn_eq_singleton hslash
  obtain ⟨rfl, -⟩ := List.cons.inj (hpart.symm.trans hparts)
  exact ⟨rfl, hslash, (Path.segment?_of_component? hcomponent).2⟩

/-- The name of a file is where the file is found. -/
theorem slot_of_find_file (hnames : fs.Names p d n) (hi : fs.find .keep p = .ok i)
    (hfile : fs.isDirectory i = false) :
    fs.slot .name p = .ok ⟨d, .name n, false⟩ ∧ fs.step d (.name n) = .ok i := by
  obtain ⟨slash, hslot⟩ := hnames
  obtain ⟨_, _, hname, _⟩ := slot_eq_ok_iff.1 hslot
  obtain ⟨_, s, _, hroute, _, hstep, hdir⟩ := find_eq_ok_route hi
  have hslash : s.slash = false := by
    apply Bool.eq_false_iff.2
    intro hslash
    simp [hdir hslash] at hfile
  obtain ⟨_, t, hname', ⟨rfl, _⟩ | ⟨_, _, _, hfollows, _, hend⟩⟩ := Route.split_last hroute
  · obtain ⟨_, rfl⟩ := Route.unique hname hname'
    obtain rfl : slash = false := hslash
    exact ⟨hslot, hstep⟩
  · have hdirectory := hend.slash_mono (Bool.or_eq_true_iff.2 (.inl hfollows))
    simp [hslash] at hdirectory

theorem Ready.clear (hready : Ready cfg draft dir fs d n i bytes t) :
    ∃ m h, Clear cfg draft dir (prepared dir fs) d n i bytes t m h := by
  have hgrows := grows_prepared dir fs
  have hfile : fs.isDirectory i = false := by simp [FileSystem.isDirectory, hready.content?]
  obtain ⟨hslot, hstep⟩ := slot_of_find_file hready.names hready.draft hfile
  have hwrite : (prepared dir fs).allows d Mode.write = true := by
    rw [hgrows.extends.allows (isDirectory_of_slot hslot rfl), hready.removable]
  have hread : (prepared dir fs).allows i Mode.read = true := by
    rw [hgrows.allows hready.content?, hready.readable]
  have hdir : (prepared dir fs).isDirectory t = true := by
    have hmade : fs.makeFirst dir.ancestors = (.ok (), prepared dir fs) :=
      provideDirectory_eq_ok_iff.1 (Prod.ext hready.provided rfl)
    obtain ⟨_, hto, _⟩ := find_eq_ok_iff.1 hready.target
    obtain ⟨rest, hancestors, _⟩ := lineage_ancestors dir
    rw [hancestors] at hmade
    obtain ⟨t', ht', hdir⟩ :=
      isDirectoryAt_iff.1 (isDirectoryAt_of_makeFirst (isEmpty_of_slot hto) hmade)
    obtain rfl := Except.ok.inj (hready.target.symm.trans ht')
    exact hdir
  obtain ⟨links, hleads⟩ := exists_leadsTo hready.target hdir
  have hlinks := hleads.length_le hready.target
  obtain ⟨m, hcomponents⟩ := cfg.components_manifestName
  have hm := single_of_components hcomponents hready.plain
  obtain ⟨h, hne, hh⟩ := single_stagingName hm
  obtain ⟨hmanifest, hlength, hfree⟩ :=
    hleads.vacant_of_find hlinks hm.inside hm.segments hm.endsInSlash hready.manifest
  obtain ⟨hstaging, hlength', hfree'⟩ :=
    hleads.vacant_of_find hlinks hh.inside hh.segments hh.endsInSlash hready.staging
  exact ⟨m, h, {
    draft := slot_name_extend hgrows.extends hslot
    step := hgrows.extends.step_name hstep
    content? := hgrows.content?_file hready.content?
    readable := hread
    removable := hwrite
    target := hready.target
    isDirectory := hdir
    listable := hready.listable
    writable := hready.writable
    manifest := hmanifest
    manifestName := vacantName_eq_ok_iff.2 ⟨rfl, hlength, hfree⟩
    staging := hstaging
    stagingName := vacantName_eq_ok_iff.2 ⟨rfl, hlength', hfree'⟩
    ne := hne.symm }⟩

section Clear

variable (hclear : Clear cfg draft dir fs d n i bytes t m h)
include hclear

theorem Clear.file : fs.isDirectory i = false := by
  simp [FileSystem.isDirectory, hclear.content?]

theorem Clear.target? : fs.target? i = none := by
  simp [FileSystem.target?, hclear.content?]

theorem Clear.find : fs.find ending draft = .ok i :=
  find_of_slot_name hclear.draft hclear.step (by simp) (.inr hclear.target?)

theorem Clear.lt_nextInode : t < fs.nextInode :=
  isDirectory_lt_nextInode hclear.isDirectory

/-- On the target's device the draft can be linked. -/
theorem Clear.linkFile (hdevice : fs.device i = fs.device t) :
    fs.linkFile draft (cfg.manifestPath dir) = .ok (fs.addEntry t m i) :=
  linkFile_eq_ok_iff.2 ⟨i, _, m, hclear.find, hclear.manifest, hclear.manifestName, rfl, hdevice,
    hclear.writable, hclear.file, rfl⟩

theorem Clear.linkFile_of_ne (hdevice : fs.device i ≠ fs.device t) :
    fs.linkFile draft (cfg.manifestPath dir) = .error (.system .crossDevice) := by
  simp [FileSystem.linkFile, checkBytes_of_slot hclear.draft, checkBytes_of_slot hclear.manifest,
    hclear.find, hclear.manifest, hclear.manifestName, hdevice, bind, Except.bind]

/-- The copy is a new file with the draft's bytes and permissions. -/
theorem Clear.copyFile : ∃ mode, fs.allows i = (· mode) ∧
    fs.copyFile draft (stagingPath cfg dir) = .ok (fs.create t h mode (.file bytes)) := by
  obtain ⟨⟨device, mode, modified, content⟩, hnode, hcontent⟩ :=
    Option.map_eq_some_iff.1 hclear.content?
  obtain rfl : content = .file bytes := hcontent
  refine ⟨mode, by funext permission; simp [FileSystem.allows, hnode], ?_⟩
  obtain ⟨_, hlength, hfree⟩ := vacantName_eq_ok_iff.1 hclear.stagingName
  have hstaging : fs.slot .write (stagingPath cfg dir) = .ok ⟨t, .name h, false⟩ := by
    obtain ⟨hcheck, links, hroute, hlinks⟩ := slot_eq_ok_iff.1 hclear.staging
    refine slot_eq_ok_iff.2 ⟨hcheck, links, Route.of_name hroute fun target htarget => ?_, hlinks⟩
    simp [linkAt?, FileSystem.step, hfree, Nat.not_lt.2 hlength] at htarget
  have hopen : fs.openWrite mode (stagingPath cfg dir) =
      .ok (fs.nextInode, fs.create t h mode (.file [])) := by
    simp [openWrite, hstaging, hfree, Nat.not_lt.2 hlength, checkWritable, hclear.writable, bind,
      Except.bind]
  have hkept : (fs.create t h mode (.file [])).content? i = some (.file bytes) :=
    content?_create_of_file hclear.content?
  have hnew : (fs.create t h mode (.file [])).content? fs.nextInode = some (.file []) :=
    content?_create_nextInode
  rw [← fill_create (Nat.ne_of_lt hclear.lt_nextInode)]
  simp [FileSystem.copyFile, openRead, hclear.find, hclear.readable, hnode, hopen, hkept, store,
    storeMode, hnew, content?_setContent, bind, Except.bind]

theorem Clear.node?_copy : (fs.create t h mode (.file bytes)).node? fs.nextInode =
    some ⟨fs.device t, mode, default, .file bytes⟩ :=
  node?_create_nextInode (Nat.ne_of_lt hclear.lt_nextInode)

theorem Clear.isDirectory_copy :
    (fs.create t h mode (.file bytes)).isDirectory fs.nextInode = false := by
  simp [FileSystem.isDirectory, FileSystem.content?, hclear.node?_copy]

theorem Clear.allows_copy : (fs.create t h mode (.file bytes)).allows t Mode.write = true := by
  have hgrows : fs.Grows (fs.create t h mode (.file bytes)) := grows_create (by simp)
  rw [hgrows.extends.allows hclear.isDirectory, hclear.writable]

theorem Clear.slot_copy :
    (fs.create t h mode (.file bytes)).slot .name (stagingPath cfg dir) =
        .ok ⟨t, .name h, false⟩ ∧
      (fs.create t h mode (.file bytes)).step t (.name h) = .ok fs.nextInode :=
  ⟨slot_name_extend (grows_create (by simp)).extends hclear.staging,
    step_create (s := ⟨t, .name h, false⟩) (by simp) hclear.staging hclear.stagingName⟩

theorem Clear.find_copy :
    (fs.create t h mode (.file bytes)).find ending (stagingPath cfg dir) = .ok fs.nextInode := by
  obtain ⟨hslot, hstep⟩ := hclear.slot_copy
  refine find_of_slot_name hslot hstep (by simp) (.inr ?_)
  simp [FileSystem.target?, FileSystem.content?, hclear.node?_copy]

theorem Clear.linkFile_copy :
    (fs.create t h mode (.file bytes)).linkFile (stagingPath cfg dir) (cfg.manifestPath dir) =
      .ok ((fs.create t h mode (.file bytes)).addEntry t m fs.nextInode) := by
  have hgrows : fs.Grows (fs.create t h mode (.file bytes)) := grows_create (by simp)
  obtain ⟨_, hlength, hfree⟩ := vacantName_eq_ok_iff.1 hclear.manifestName
  refine linkFile_eq_ok_iff.2 ⟨_, _, m, hclear.find_copy,
    slot_name_extend hgrows.extends hclear.manifest, vacantName_eq_ok_iff.2 ⟨rfl, hlength, ?_⟩,
    rfl, ?_, hclear.allows_copy, hclear.isDirectory_copy, rfl⟩
  · rw [child?_create (by simp) hclear.staging hclear.stagingName,
      if_neg fun heq => hclear.ne heq.2, hfree]
  · obtain ⟨p, es, hc⟩ := isDirectory_iff.1 hclear.isDirectory
    rw [hgrows.device hc]
    simp [FileSystem.device, hclear.node?_copy]

/-- Without the hidden name, the linked copy is a file that was made in the manifest's place. -/
theorem Clear.removeFile_copy :
    ((fs.create t h mode (.file bytes)).addEntry t m fs.nextInode).removeFile
      (stagingPath cfg dir) = .ok (fs.create t m mode (.file bytes)) := by
  have hmore : (fs.create t h mode (.file bytes)).Grows
      ((fs.create t h mode (.file bytes)).addEntry t m fs.nextInode) := grows_addEntry _ _ _
  obtain ⟨hslot, hstep⟩ := hclear.slot_copy
  rw [← rename_create (Nat.ne_of_lt hclear.lt_nextInode)
    (vacantName_eq_ok_iff.1 hclear.stagingName).2.2 hclear.ne]
  refine removeFile_eq_ok_iff.2 ⟨_, h, _, slot_name_extend hmore.extends hslot, rfl,
    hmore.extends.step_name hstep, rfl, ?_, ?_, rfl⟩
  · rw [hmore.extends.allows (isDirectory_of_slot hslot rfl), hclear.allows_copy]
  · rw [isDirectory_addEntry, hclear.isDirectory_copy]

/-- The fallback works, and its copy is in the manifest's place then. -/
theorem Clear.copied : ∃ mode left, fs.allows i = (· mode) ∧
    fallback cfg draft dir fs = (.ok (), left) ∧
      dropStaging (stagingPath cfg dir) left = fs.create t m mode (.file bytes) := by
  obtain ⟨mode, hmode, hcopy⟩ := hclear.copyFile
  have hread : mode.read = true := by simpa [hmode] using hclear.readable
  have hsync : (fs.create t h mode (.file bytes)).syncFile (stagingPath cfg dir) = .ok () := by
    refine syncFile_eq_ok_iff.2 ⟨_, hclear.find_copy, ?_, ?_⟩
    · simp [FileSystem.allows, hclear.node?_copy, hread]
    · simp [FileSystem.content?, hclear.node?_copy]
  refine ⟨mode, _, hmode, ?_, by rw [dropStaging, hclear.removeFile_copy]⟩
  unfold fallback placeCopy
  cases cfg.sync <;> simp [hcopy, hsync, hclear.linkFile_copy]

/-! ## The end -/

theorem Clear.placed_addEntry (hdevice : fs.device i = fs.device t) :
    Placed fs i bytes t m (fs.addEntry t m i) i where
  grows := grows_addEntry t m i
  child? a b := by rw [child?_addEntry_of_vacant hclear.manifest hclear.manifestName]
  content? := (grows_addEntry t m i).content?_file hclear.content?
  bare _ := by rw [addEntry, bare_modifyEntries]
  node := .inl ⟨hdevice, rfl, by rw [addEntry, nextInode_modifyEntries]⟩

theorem Clear.placed_create (hdevice : fs.device i ≠ fs.device t)
    (hmode : fs.allows i = (· mode)) :
    Placed fs i bytes t m (fs.create t m mode (.file bytes)) fs.nextInode where
  grows := grows_create (by simp)
  child? a b := by rw [child?_create (by simp) hclear.manifest hclear.manifestName]
  content? := content?_create_nextInode
  bare ha := by
    rw [node?_create _ _ _ _ _ (Nat.ne_of_lt hclear.lt_nextInode), if_neg (Nat.ne_of_lt ha),
      addEntry, bare_modifyEntries]
  node := .inr ⟨hdevice, rfl, by rw [create, addEntry, nextInode_modifyEntries, nextInode_addNode],
    mode, hmode, node?_create_nextInode (Nat.ne_of_lt hclear.lt_nextInode)⟩

theorem Clear.find_manifest (hplaced : Placed fs i bytes t m placed j) :
    placed.find .keep (cfg.manifestPath dir) = .ok j := by
  obtain ⟨_, hlength, _⟩ := vacantName_eq_ok_iff.1 hclear.manifestName
  have hslot := slot_name_extend hplaced.grows.extends hclear.manifest
  have hstep : placed.step t (.name m) = .ok j :=
    step_name_eq_ok_iff.2 ⟨hlength, by simp [hplaced.child?]⟩
  exact find_of_slot_name hslot hstep (by simp) (.inl rfl)

theorem Clear.readFile_draft (hgrows : fs.Grows placed) : placed.readFile draft = .ok bytes :=
  readFile_eq_ok_iff.2 ⟨i, find_extend hgrows.extends hclear.find,
    by rw [hgrows.allows hclear.content?, hclear.readable],
    bytes?_of_content? (hgrows.content?_file hclear.content?)⟩

/-- A directory is found without the entry of a file. -/
theorem Clear.openRead_removed (hgrows : fs.Grows placed) :
    (placed.removeEntry d n).openRead dir = .ok t := by
  have hstep := hgrows.extends.step_name hclear.step
  have hcontent := hgrows.content?_file hclear.content?
  have hfile : placed.isDirectory i = false := by simp [FileSystem.isDirectory, hcontent]
  have htarget : placed.target? i = none := by simp [FileSystem.target?, hcontent]
  have hdir := hgrows.extends.isDirectory hclear.isDirectory
  have hfind := find_extend hgrows.extends hclear.target
  have hunused : ¬placed.Uses .follow dir d n := by
    rintro ⟨links, s, hroute, hmem⟩
    obtain ⟨links', s', _, hroute', _, hto, _⟩ := find_eq_ok_route hfind
    obtain ⟨rfl, rfl⟩ := Route.unique hroute hroute'
    rcases List.mem_cons.1 hmem with heq | hmem
    · obtain ⟨hd, hlast⟩ := Prod.mk.inj heq
      rw [← hd, ← hlast] at hto
      obtain rfl := Except.ok.inj (hstep.symm.trans hto)
      simp [hfile] at hdir
    · exact Route.notMem_of_target? hroute hstep htarget hmem
  have hfind' := (find_removeEntry_iff hfind hstep hfile).2 hunused
  have hread : (placed.removeEntry d n).allows t Mode.read = true := by
    rw [removeEntry, allows_modifyEntries, hgrows.extends.allows hclear.isDirectory,
      hclear.listable]
  simp [openRead, hfind', hread, bind, Except.bind]

/-- When the manifest is in its place, only the draft's name is left to be removed. -/
theorem Clear.finish_eq (hgrows : fs.Grows placed) (events : List Event) :
    placed.removeFile draft = .ok (placed.removeEntry d n) ∧
    finish cfg draft dir placed events =
      ⟨.ok (cfg.manifestPath dir), placed.removeEntry d n,
        events ++ [.installed (cfg.manifestPath dir)]⟩ := by
  have hcontent := hgrows.content?_file hclear.content?
  have hremove : placed.removeFile draft = .ok (placed.removeEntry d n) :=
    removeFile_eq_ok_iff.2 ⟨_, n, i, slot_name_extend hgrows.extends hclear.draft, rfl,
      hgrows.extends.step_name hclear.step, rfl,
      by rw [hgrows.extends.allows (isDirectory_of_slot hclear.draft rfl), hclear.removable],
      by simp [FileSystem.isDirectory, hcontent], rfl⟩
  refine ⟨hremove, ?_⟩
  unfold finish
  cases cfg.sync <;> simp [hremove, hclear.openRead_removed hgrows]

end Clear

theorem run_of_linked (hprovided : (fs.provideDirectory dir).1 = .ok ())
    (hclear : Clear cfg draft dir (prepared dir fs) d n i bytes t m h)
    (hdevice : (prepared dir fs).device i = (prepared dir fs).device t) :
    run cfg draft dir fs = ⟨.ok (cfg.manifestPath dir),
      ((prepared dir fs).addEntry t m i).removeEntry d n,
      [.installed (cfg.manifestPath dir)]⟩ := by
  have hprovide : fs.provideDirectory dir = (.ok (), prepared dir fs) := Prod.ext hprovided rfl
  obtain ⟨_, hfinish⟩ := hclear.finish_eq (grows_addEntry t m i) []
  simp only [run, hprovide, hclear.linkFile hdevice, hfinish, List.nil_append]

theorem run_of_copied (hprovided : (fs.provideDirectory dir).1 = .ok ())
    (hclear : Clear cfg draft dir (prepared dir fs) d n i bytes t m h)
    (hdevice : (prepared dir fs).device i ≠ (prepared dir fs).device t) :
    ∃ mode, (prepared dir fs).allows i = (· mode) ∧
      run cfg draft dir fs = ⟨.ok (cfg.manifestPath dir),
        ((prepared dir fs).create t m mode (.file bytes)).removeEntry d n,
        [.draftNotLinked draft (.system .crossDevice), .installed (cfg.manifestPath dir)]⟩ := by
  have hprovide : fs.provideDirectory dir = (.ok (), prepared dir fs) := Prod.ext hprovided rfl
  obtain ⟨mode, left, hmode, hcopy, hdrop⟩ := hclear.copied
  rw [fallback] at hcopy
  have hgrows : (prepared dir fs).Grows ((prepared dir fs).create t m mode (.file bytes)) :=
    grows_create (by simp)
  obtain ⟨_, hfinish⟩ := hclear.finish_eq hgrows [.draftNotLinked draft (.system .crossDevice)]
  refine ⟨mode, hmode, ?_⟩
  simp [run, hprovide, hclear.linkFile_of_ne hdevice, IoError.kind, Errno.kind, hcopy, hdrop,
    hfinish]

/-- What the manifest's entry makes of the tree, once the draft's is gone. -/
theorem Clear.installed (hclear : Clear cfg draft dir (prepared dir fs) d n i bytes t m h)
    (hplaced : Placed (prepared dir fs) i bytes t m placed j)
    (hallows : (prepared dir fs).allows i = fs.allows i) :
    Installed cfg draft dir fs d n i bytes t (placed.removeEntry d n) j := by
  have hgrows := hplaced.grows
  have hread := hclear.readFile_draft hgrows
  obtain ⟨hremove, _⟩ := hclear.finish_eq hgrows []
  obtain ⟨_, _, hfree⟩ := vacantName_eq_ok_iff.1 hclear.manifestName
  obtain ⟨_, hlength', hfree'⟩ := vacantName_eq_ok_iff.1 hclear.stagingName
  have hnames : (prepared dir fs).Names (cfg.manifestPath dir) t m := ⟨false, hclear.manifest⟩
  have hdraft : placed.Names draft d n := ⟨false, slot_name_extend hgrows.extends hclear.draft⟩
  have hstaging : placed.Names (stagingPath cfg dir) t h :=
    ⟨false, slot_name_extend hgrows.extends hclear.staging⟩
  refine {
    grows := grows_prepared dir fs
    made := fun hk => ?_
    manifest := ?_
    content? := content?_removeFile hremove hplaced.content?
    draft := find_of_removeFile hremove hread
    staging := ?_
    child? := fun {a b} hm hd => ?_
    node? := fun ha => by rw [removeEntry, bare_modifyEntries, hplaced.bare ha]
    node := ?_ }
  · rw [prepared, provideDirectory_snd] at hk ⊢
    exact child?_makeFirst hk
  · refine find_removeFile hremove hread (hclear.find_manifest hplaced) fun a b hm hd => ?_
    obtain ⟨rfl, rfl⟩ := hd.unique hdraft
    obtain ⟨rfl, rfl⟩ := hm.unique (hnames.extend hgrows.extends)
    simp [(step_name_eq_ok_iff.1 hclear.step).2] at hfree
  · obtain ⟨slash, hslot⟩ := hstaging.removeFile hremove hread
    apply find_of_vacant hslot hlength'
    rw [child?_removeEntry]
    split
    · rfl
    · rw [hplaced.child?, if_neg fun heq => hclear.ne heq.2.symm, hfree']
  · rw [child?_removeEntry, if_neg hd, hplaced.child?, if_neg]
    rintro ⟨rfl, rfl⟩
    exact hm hnames
  · rw [removeEntry, nextInode_modifyEntries, ← hallows]
    rcases hplaced.node with hsame | ⟨hne, hj, hsize, mode, hmode, hnode⟩
    · exact .inl hsame
    · refine .inr ⟨hne, hj, hsize, mode, hmode, ?_⟩
      have hlt := isDirectory_lt_nextInode (isDirectory_of_slot hclear.draft rfl)
      rw [node?_modifyEntries (hj ▸ Nat.ne_of_gt hlt), hnode]

/-- An installation that has all it needs succeeds, whether the draft lies on the target's device or
not, and ends the same: the draft is the manifest, and nothing else has changed. -/
theorem installed_of_ready (hready : Ready cfg draft dir fs d n i bytes t) :
    (run cfg draft dir fs).result = .ok (cfg.manifestPath dir) ∧
      ∃ j, Installed cfg draft dir fs d n i bytes t (run cfg draft dir fs).files j := by
  obtain ⟨m, h, hclear⟩ := hready.clear
  have hallows : (prepared dir fs).allows i = fs.allows i :=
    (grows_prepared dir fs).allows hready.content?
  by_cases hdevice : (prepared dir fs).device i = (prepared dir fs).device t
  · rw [run_of_linked hready.provided hclear hdevice]
    exact ⟨rfl, i, hclear.installed (hclear.placed_addEntry hdevice) hallows⟩
  · obtain ⟨mode, hmode, hrun⟩ := run_of_copied hready.provided hclear hdevice
    rw [hrun]
    exact ⟨rfl, _, hclear.installed (hclear.placed_create hdevice hmode) hallows⟩

/-- A draft, and a directory on another device. -/
def mounted : FileSystem where
  nodes := #[
    ⟨0, ⟨true, false, true⟩, default, .directory 0 [(Utf8.encode "work", 1)]⟩,
    ⟨0, .ofNewDirectory, default, .directory 0 [(Utf8.encode "draft", 2), (Utf8.encode "t", 3)]⟩,
    ⟨0, .ofNewFile, default, .file (Utf8.encode "b\ta\n")⟩,
    ⟨1, .ofNewDirectory, default, .directory 1 []⟩]
  start := 1

/-- The draft is copied to the other device, and linked into a new directory on its own. -/
theorem installed_near_and_far :
    ((run .default (.ofString "draft") (.ofString "t") mounted).result =
        .ok (.ofString "t/hardLinkFile") ∧
      (run .default (.ofString "draft") (.ofString "t") mounted).files.find .keep
        (.ofString "t/hardLinkFile") = .ok 4) ∧
    (run .default (.ofString "draft") (.ofString "u/v") mounted).result =
        .ok (.ofString "u/v/hardLinkFile") ∧
      (run .default (.ofString "draft") (.ofString "u/v") mounted).files.find .keep
        (.ofString "u/v/hardLinkFile") = .ok 2 := by
  have hfar : Ready .default (.ofString "draft") (.ofString "t") mounted 1 (Utf8.encode "draft") 2
      (Utf8.encode "b\ta\n") 3 :=
    { plain := by decide, names := ⟨false, by rfl⟩, draft := by rfl, content? := by rfl,
      readable := by rfl, removable := by rfl, provided := by rfl, target := by rfl,
      listable := by rfl, writable := by rfl, manifest := by rfl, staging := by rfl }
  have hnear : Ready .default (.ofString "draft") (.ofString "u/v") mounted 1
      (Utf8.encode "draft") 2 (Utf8.encode "b\ta\n") 5 :=
    { plain := by decide, names := ⟨false, by rfl⟩, draft := by rfl, content? := by rfl,
      readable := by rfl, removable := by rfl, provided := by rfl, target := by rfl,
      listable := by rfl, writable := by rfl, manifest := by rfl, staging := by rfl }
  obtain ⟨hfarResult, j, hfar⟩ := installed_of_ready hfar
  obtain ⟨hnearResult, k, hnear⟩ := installed_of_ready hnear
  refine ⟨⟨hfarResult, ?_⟩, hnearResult, ?_⟩
  · rcases hfar.node with ⟨hdevice, _⟩ | ⟨_, rfl, _⟩
    · exact absurd hdevice (by decide)
    · exact hfar.manifest
  · rcases hnear.node with ⟨_, rfl, _⟩ | ⟨hdevice, _⟩
    · exact hnear.manifest
    · exact absurd (by rfl) hdevice

end Hardlinks.Installation
