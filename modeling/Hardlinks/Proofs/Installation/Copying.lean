-- SUMMARY: When a draft can be brought to its manifest's place, by a link or by a copy.
import Hardlinks.Proofs.FileSystem.WellFormed
import Hardlinks.Proofs.Installation.Endings
import Hardlinks.Proofs.Resolution.Lookup

/-!
# Where a manifest can be brought

Whether an installation brings its manifest is decided before anything is copied
(`exists_brings_iff`). A draft that cannot be linked takes the way by the hidden name. It gets there
if it can be copied, if the copy can be synchronised, which only a device refuses, and if what then
has the hidden name can be linked into the manifest's place (`Settles`). The place has to be free,
and the copy must not have been written to it: the hidden name can be a link to the manifest's own
name.
-/

namespace Hardlinks.Installation

open FileSystem

/-- The draft can be copied, and the copy can be linked into the manifest's place, which is the name
`n` in the directory `d`. -/
structure Settles (cfg : CheckedConfig) (draft dir : Path) (fs : FileSystem) (d : Inode)
    (n : Name) : Prop where
  copied : ∃ copied, fs.copyFile draft (stagingPath cfg dir) = .ok copied
  synced : cfg.sync = true → ∀ j, fs.find .follow (stagingPath cfg dir) = .ok j →
    fs.content? j ≠ some .null
  manifest : fs.slot .name (cfg.manifestPath dir) = .ok ⟨d, .name n, false⟩
  length : n.length ≤ Path.nameLimit
  free : fs.child? d n = none
  /-- The copy is not written to the place itself. -/
  beside : fs.slot .write (stagingPath cfg dir) ≠ .ok ⟨d, .name n, false⟩
  device : ∀ k, fs.find .keep (stagingPath cfg dir) = .ok k → fs.device k = fs.device d
  writable : fs.allows d Mode.write = true

/-- The installation gets the manifest into its place. -/
def Reaches (cfg : CheckedConfig) (draft dir : Path) (fs : FileSystem) : Prop :=
  (fs.provideDirectory dir).1 = .ok () ∧
      (∃ linked, (prepared dir fs).linkFile draft (cfg.manifestPath dir) = .ok linked) ∨
    FallsBack cfg draft dir fs ∧ ∃ d n, Settles cfg draft dir (prepared dir fs) d n

variable {cfg : CheckedConfig} {draft dir p : Path} {fs copied : FileSystem} {d i j : Inode}
  {n m : Name} {s t : Slot}

theorem wellFormed_prepared (h : fs.WellFormed) (dir : Path) : (prepared dir fs).WellFormed := by
  rw [prepared, provideDirectory_snd]
  exact h.makeFirst _

/-! ## The two names -/

/-- A path that gets to the hidden name gets to the manifest's place, which is beside it. -/
theorem slot_of_stagingPath (hm : Single (.ofString cfg.manifestName) m)
    (hslot : fs.slot .name (stagingPath cfg dir) = .ok t) :
    fs.slot .name (cfg.manifestPath dir) = .ok ⟨t.dir, .name m, false⟩ := by
  obtain ⟨h, _, hh⟩ := single_stagingName hm
  obtain ⟨hcheck, links, hroute, hlinks⟩ := slot_eq_ok_iff.1 hslot
  rw [stagingPath, hh.pathRoute_join_iff] at hroute
  obtain ⟨_, hbeside⟩ := Route.replace_last (y := .name m) hroute
  obtain ⟨hnul, _, hlength⟩ := Path.check_eq_ok_iff.1 hcheck
  have hbytes : (Path.ofString ("." ++ cfg.manifestName ++ ".tmp")).bytes =
      [Path.dot] ++ Utf8.encode cfg.manifestName ++ Utf8.encode ".tmp" :=
    encode_stagingName cfg.manifestName
  have hsub : (Path.ofString cfg.manifestName).bytes <:+:
      (Path.ofString ("." ++ cfg.manifestName ++ ".tmp")).bytes :=
    ⟨_, _, hbytes.symm⟩
  refine slot_eq_ok_iff.2 ⟨Path.check_eq_ok_iff.2 ⟨?_, isEmpty_join hm.inside, ?_⟩, links,
    hm.pathRoute_join_iff.2 hbeside, hlinks⟩
  · intro hmem
    apply hnul
    rw [Config.manifestPath, Path.mem_bytes_join hm.isAbsolute (by decide)] at hmem
    rw [stagingPath, Path.mem_bytes_join hh.isAbsolute (by decide)]
    exact hmem.imp_right fun hname => hsub.subset hname
  · exact Nat.le_trans (Path.length_join_le hm.isAbsolute hh.isAbsolute hsub.length_le) hlength

/-- What is opened for writing at a name that nothing has is the name itself. -/
theorem slot_of_write (hs : fs.slot .write p = .ok s) (ht : fs.slot .name p = .ok t)
    (hfree : ∀ i, fs.step t.dir t.last ≠ .ok i) : s = t := by
  obtain ⟨_, _, hroute, _⟩ := slot_eq_ok_iff.1 hs
  obtain ⟨_, _, hname, _⟩ := slot_eq_ok_iff.1 ht
  obtain ⟨_, t', hname', ⟨rfl, _⟩ | ⟨_, _, hlink, _⟩⟩ := Route.split_last hroute
  · exact (Route.unique hname' hname).2
  · obtain ⟨_, rfl⟩ := Route.unique hname' hname
    obtain ⟨i, hi, _⟩ := linkAt?_eq_some_iff.1 hlink
    exact absurd hi (hfree i)

theorem step_of_find_keep (hslot : fs.slot .name p = .ok ⟨d, .name n, false⟩)
    (hi : fs.find .keep p = .ok i) : fs.step d (.name n) = .ok i := by
  obtain ⟨t, j, ht, hj⟩ := exists_slot_name hi
  obtain rfl := Except.ok.inj (hslot.symm.trans ht)
  have hkeep : fs.find .keep p = .ok j := find_of_slot_name hslot hj (by simp) (.inl rfl)
  rwa [Except.ok.inj (hi.symm.trans hkeep)]

/-! ## The copy -/

/-- A copy can be synchronised unless it went to the null device. -/
theorem syncFile_copy_iff (hfs : fs.WellFormed) (hcopy : fs.copyFile draft p = .ok copied) :
    copied.syncFile p = .ok () ↔ ∀ j, fs.find .follow p = .ok j → fs.content? j ≠ some .null := by
  obtain ⟨_, _, d, n, j, base, _, _, hopens, hwritten⟩ := copyFile_spec hcopy
  have hj := hopens.find hwritten.tree.extends
  rw [syncFile_eq_ok_iff]
  rcases hfs.content?_opens hopens with ⟨old, hold⟩ | hnull
  · have hfile := hwritten.file hold
    refine iff_of_true ⟨j, hj, allows_copyFile hcopy hj hfile, by simp [hfile]⟩ ?_
    rintro k hk hnull
    obtain rfl := hopens.eq_of_find hk
    rcases hopens.found_or_new with ⟨_, _, rfl⟩ | ⟨rfl, _⟩
    · simp [hold] at hnull
    · simp [content?_nextInode] at hnull
  · refine iff_of_false ?_ ?_
    · rintro ⟨k, hk, _, hother⟩
      obtain rfl := Except.ok.inj (hj.symm.trans hk)
      exact hother (hwritten.device hnull)
    · intro hother
      rcases hopens.found_or_new with ⟨hfound, _, rfl⟩ | ⟨_, hnew⟩
      · exact hother j hfound hnull
      · simp [hnull] at hnew

/-- The node under the name that was copied to is no directory. -/
theorem isDirectory_copy (hcopy : fs.copyFile draft p = .ok copied)
    (hslot : fs.slot .name p = .ok ⟨d, .name n, false⟩) (hi : copied.step d (.name n) = .ok i) :
    copied.isDirectory i = false := by
  obtain ⟨_, _, _, _, j, base, _, _, hopens, hwritten⟩ := copyFile_spec hcopy
  have hslot' := slot_name_extend (extends_copyFile hcopy) hslot
  apply Bool.eq_false_iff.2
  intro hdir
  have hfollow : copied.find .follow p = .ok i :=
    find_of_slot_name hslot' hi (by simp) (.inr (target?_eq_none_of_isDirectory hdir))
  obtain rfl := Except.ok.inj ((hopens.find hwritten.tree.extends).symm.trans hfollow)
  rw [hwritten.tree.isDirectory, hopens.kind.1] at hdir
  cases hdir

theorem device_copyFile (hcopy : fs.copyFile draft p = .ok copied) (hi : i < fs.nextInode) :
    copied.device i = fs.device i := by
  obtain ⟨_, _, _, _, _, _, _, _, hopens, hwritten⟩ := copyFile_spec hcopy
  obtain ⟨c, hc⟩ := exists_content? hi
  rw [hwritten.tree.device, hopens.grows.device hc]

/-- The node under the name that was copied to is on the device of its directory if what had the
name before was, and if nothing had it. -/
theorem device_copy_iff (hfs : fs.WellFormed) (hcopy : fs.copyFile draft p = .ok copied)
    (hslot : fs.slot .name p = .ok ⟨d, .name n, false⟩) (hi : copied.step d (.name n) = .ok i) :
    copied.device i = copied.device d ↔
      ∀ k, fs.find .keep p = .ok k → fs.device k = fs.device d := by
  have hextends := extends_copyFile hcopy
  have hkeep : ∀ {k}, fs.step d (.name n) = .ok k → fs.find .keep p = .ok k :=
    fun hk => find_of_slot_name hslot hk (by simp) (.inl rfl)
  have hd := device_copyFile hcopy (isDirectory_lt_nextInode (isDirectory_of_slot hslot rfl))
  cases hold : fs.step d (.name n) with
  | ok k =>
      obtain rfl := Except.ok.inj (hi.symm.trans (hextends.step_name hold))
      have hfind := hkeep hold
      rw [hd, device_copyFile hcopy (hfs.find hfind)]
      refine ⟨fun hdevice j hj => ?_, fun hall => hall i hfind⟩
      rwa [Except.ok.inj (hj.symm.trans hfind)]
  | error e =>
      have hnone : ∀ k, fs.step d (.name n) ≠ .ok k := by simp [hold]
      refine iff_of_true ?_ fun k hk => ?_
      · -- The copy is a new file with this name.
        obtain ⟨_, _, _, _, j, base, _, _, hopens, hwritten⟩ := copyFile_spec hcopy
        cases slot_of_write hopens.slot hslot hnone
        have hj : copied.child? d n = some j := by rw [hwritten.tree.child?, hopens.child?]
        obtain rfl := Option.some.inj (hj.symm.trans (step_name_eq_ok_iff.1 hi).2)
        rw [hd, hwritten.tree.device]
        cases hopens with
        | old _ hlength hchild => exact absurd (step_name_eq_ok_iff.2 ⟨hlength, hchild⟩) (hnone j)
        | new hwrite hlength hfree =>
            have hname : fs.vacantName ⟨d, .name n, false⟩ = .ok n :=
              vacantName_eq_ok_iff.2 ⟨rfl, hlength, hfree⟩
            have hne : d ≠ fs.nextInode := dir_ne_nextInode hslot hname
            simp [device, node?_create _ _ _ _ _ hne]
      · exact absurd (step_of_find_keep hslot hk) (hnone k)

/-- Where the copy that has been made is linked into the manifest's place. -/
theorem settles_of_linkFile {left : FileSystem} (hfs : fs.WellFormed)
    (hcopy : fs.copyFile draft (stagingPath cfg dir) = .ok copied)
    (hsync : cfg.sync = true → copied.syncFile (stagingPath cfg dir) = .ok ())
    (hlink : copied.linkFile (stagingPath cfg dir) (cfg.manifestPath dir) = .ok left) :
    ∃ d n, Settles cfg draft dir fs d n := by
  have hextends := extends_copyFile hcopy
  obtain ⟨_, _, a, b, j, base, _, _, hopens, hwritten⟩ := copyFile_spec hcopy
  obtain ⟨t, ht⟩ := exists_slot_of_write hopens.slot
  obtain ⟨k, s, name, hk, hslot, hname, hslash, hdevice, hwrite, _⟩ := linkFile_eq_ok_iff.1 hlink
  obtain ⟨hlast, hlength, hfree⟩ := vacantName_eq_ok_iff.1 hname
  -- The two names are in one directory.
  obtain ⟨m, hcomponents⟩ := cfg.components_manifestName
  have hm := single_of_slot hcomponents hslot hlast hslash
  obtain ⟨h, _, hh⟩ := single_stagingName hm
  have hmanifest := slot_of_stagingPath hm ht
  obtain rfl := Except.ok.inj ((slot_name_extend hextends hmanifest).symm.trans hslot)
  obtain rfl := Segment.name.inj hlast
  obtain ⟨d, hd, rfl⟩ := slot_sibling hm hh hmanifest ht
  have hstep := step_of_find_keep (slot_name_extend hextends ht) hk
  refine ⟨d, m, {
    copied := ⟨copied, hcopy⟩
    synced := fun hcfg => (syncFile_copy_iff hfs hcopy).1 (hsync hcfg)
    manifest := hmanifest
    length := hlength
    free := ?_
    beside := ?_
    device := (device_copy_iff hfs hcopy ht hstep).1 hdevice
    writable := ?_ }⟩
  · apply Option.eq_none_iff_forall_ne_some.2
    intro i hi
    simp [hextends.child? hi] at hfree
  · intro hbeside
    cases hopens.slot.symm.trans hbeside
    rw [hwritten.tree.child?, hopens.child?] at hfree
    cases hfree
  · rwa [hextends.allows (isDirectory_of_slot ht rfl)] at hwrite

/-- The copy of a draft that settles can be linked into the manifest's place. -/
theorem Settles.exists_linkFile (h : Settles cfg draft dir fs d n) (hfs : fs.WellFormed)
    (hcopy : fs.copyFile draft (stagingPath cfg dir) = .ok copied) :
    ∃ left, copied.linkFile (stagingPath cfg dir) (cfg.manifestPath dir) = .ok left := by
  have hextends := extends_copyFile hcopy
  obtain ⟨_, _, a, b, j, base, _, _, hopens, hwritten⟩ := copyFile_spec hcopy
  obtain ⟨t, ht⟩ := exists_slot_of_write hopens.slot
  obtain ⟨m, hcomponents⟩ := cfg.components_manifestName
  have hm := single_of_slot hcomponents h.manifest rfl rfl
  obtain ⟨hidden, _, hh⟩ := single_stagingName hm
  obtain ⟨a, ha, rfl⟩ := slot_sibling hm hh h.manifest ht
  cases ha
  obtain ⟨k, hk⟩ := exists_find_keep (hopens.find hwritten.tree.extends)
  have hstep := step_of_find_keep (slot_name_extend hextends ht) hk
  have hfree : copied.child? d n = none := by
    rw [hwritten.tree.child?, hopens.child?_eq, if_neg, h.free]
    rintro ⟨rfl, rfl⟩
    exact h.beside hopens.slot
  have hwritable : copied.allows d Mode.write = true := by
    rw [hextends.allows (isDirectory_of_slot h.manifest rfl), h.writable]
  exact ⟨_, linkFile_eq_ok_iff.2 ⟨k, ⟨d, .name n, false⟩, n, hk,
    slot_name_extend hextends h.manifest, vacantName_eq_ok_iff.2 ⟨rfl, h.length, hfree⟩, rfl,
    (device_copy_iff hfs hcopy ht hstep).2 h.device, hwritable,
    isDirectory_copy hcopy ht hstep, rfl⟩⟩

/-! ## Bringing -/

theorem placeCopy_iff (cfg : CheckedConfig) (draft staging manifest : Path) (fs : FileSystem) :
    (∃ left, placeCopy cfg draft staging manifest fs = (.ok (), left)) ↔
      ∃ copied, fs.copyFile draft staging = .ok copied ∧
        (cfg.sync = true → copied.syncFile staging = .ok ()) ∧
        ∃ left, copied.linkFile staging manifest = .ok left := by
  unfold placeCopy
  cases hcopy : fs.copyFile draft staging with
  | error e => simp
  | ok copied =>
      cases hsync : if cfg.sync then copied.syncFile staging else .ok () with
      | error e =>
          have hfail : ¬(cfg.sync = true → copied.syncFile staging = .ok ()) := by
            intro hok
            split at hsync
            · next hcfg => simp [hok hcfg] at hsync
            · cases hsync
          simp [hsync, hfail]
      | ok u =>
          have hok : cfg.sync = true → copied.syncFile staging = .ok () := by
            intro hcfg
            simpa [hcfg] using hsync
          cases hlink : copied.linkFile staging manifest with
          | error e => simp [hsync, hlink]
          | ok left => simpa [hsync, hlink] using hok

theorem fallback_iff (hfs : fs.WellFormed) :
    (∃ left, fallback cfg draft dir fs = (.ok (), left)) ↔
      ∃ d n, Settles cfg draft dir fs d n := by
  rw [fallback.eq_1, placeCopy_iff]
  constructor
  · rintro ⟨copied, hcopy, hsync, left, hlink⟩
    exact settles_of_linkFile hfs hcopy hsync hlink
  · rintro ⟨d, n, h⟩
    obtain ⟨copied, hcopy⟩ := h.copied
    exact ⟨copied, hcopy, fun hcfg => (syncFile_copy_iff hfs hcopy).2 (h.synced hcfg),
      h.exists_linkFile hfs hcopy⟩

/-- Whether the manifest is brought can be told beforehand. -/
theorem exists_brings_iff (hfs : fs.WellFormed) :
    (∃ placed, Brings cfg draft dir fs placed) ↔ Reaches cfg draft dir fs := by
  rw [Reaches, ← fallback_iff (wellFormed_prepared hfs dir)]
  constructor
  · rintro ⟨placed, hbrings⟩
    cases hbrings with
    | linked hok hlink => exact .inl ⟨hok, _, hlink⟩
    | copied hback hcopy => exact .inr ⟨hback, _, hcopy⟩
  · rintro (⟨hok, linked, hlink⟩ | ⟨hback, left, hcopy⟩)
    · exact ⟨_, .linked hok hlink⟩
    · exact ⟨_, .copied hback hcopy⟩

end Hardlinks.Installation
