-- SUMMARY: An installation where the manifest's place is taken is refused, and replaces nothing.
import Hardlinks.Proofs.Installation.Copying
import Hardlinks.Proofs.Installation.Fallback
import Hardlinks.Proofs.Resolution.Passage
import Hardlinks.Proofs.Resolution.Unlocked

/-!
# Installations that find their place taken

Where the manifest's place has an entry already, whether the installation can get to it or not,
nothing is put there. No directory is made, as all of them are there; the draft cannot be linked;
and it is not copied either, because a copy that could be opened for writing lies beside the place,
so the link would have found the place taken, which ends the installation at once
(`copyFile_of_taken`). What is left of it is at most the removal of the hidden name
(`run_of_taken`).
-/

namespace Hardlinks.Installation

open FileSystem

variable {cfg : CheckedConfig} {draft dir p : Path} {fs placed : FileSystem} {d i j : Inode}
  {n m : Name} {s t : Slot}

/-! ## The place -/

theorem exists_single (hplain : Path.slash ∉ (Path.ofString cfg.manifestName).bytes) :
    ∃ m, Single (.ofString cfg.manifestName) m := by
  obtain ⟨m, hcomponents⟩ := cfg.components_manifestName
  exact ⟨m, single_of_components hcomponents hplain⟩

theorem eq_of_entryAt (hp : Single p m) (h : fs.EntryAt (dir.join p) d n i) : n = m := by
  obtain ⟨links, slash, hroute, _⟩ := h
  rw [hp.pathRoute_join_iff] at hroute
  obtain ⟨hlast, _⟩ := Route.replace_last (y := .name m) hroute
  exact Segment.name.inj hlast

/-! ## What is refused -/

section Taken

variable (hm : Single (.ofString cfg.manifestName) m)
  (htaken : fs.EntryAt (cfg.manifestPath dir) d n i)
include htaken

include hm in
/-- Where the manifest's place is taken, no directory is missing. -/
theorem prepared_of_taken : prepared dir fs = fs := by
  obtain ⟨links, slash, hroute, _⟩ := htaken
  obtain ⟨links', a, _, hleads⟩ := hroute.leadsTo hm.inside
  obtain ⟨rest, hancestors, _⟩ := lineage_ancestors dir
  rw [prepared, provideDirectory_snd, hancestors]
  exact hleads.makeFirst_of_unlocked rest

/-- Wherever the link could be made there is a name already. -/
theorem linkFile_ne_of_taken (linked : FileSystem) :
    fs.linkFile draft (cfg.manifestPath dir) ≠ .ok linked := by
  intro hlink
  obtain ⟨_, s, name, _, hslot, hname, _⟩ := linkFile_eq_ok_iff.1 hlink
  obtain ⟨_, _, hstep⟩ := htaken.step_of_slot hslot
  simp [vacantName_of_step hstep] at hname

/-- A draft that is there, and a place that can be walked to: that the place is taken is what the
link fails for. -/
theorem linkFile_of_taken (hdraft : fs.find .keep draft = .ok j)
    (hslot : fs.slot .name (cfg.manifestPath dir) = .ok s) :
    fs.linkFile draft (cfg.manifestPath dir) = .error (.system .exists) := by
  obtain ⟨t, hfrom, _⟩ := find_eq_ok_iff.1 hdraft
  obtain ⟨_, _, hstep⟩ := htaken.step_of_slot hslot
  simp [linkFile, checkBytes_of_slot hfrom, checkBytes_of_slot hslot, hdraft, hslot,
    vacantName_of_step hstep, bind, Except.bind]

include hm in
/-- A draft that falls back to its copy is not copied, so the hidden file is not opened. -/
theorem copyFile_of_taken {e : IoError}
    (hlink : fs.linkFile draft (cfg.manifestPath dir) = .error e) (hkind : e.kind ≠ .alreadyExists)
    (copied : FileSystem) : fs.copyFile draft (stagingPath cfg dir) ≠ .ok copied := by
  intro hcopy
  obtain ⟨k, hread, hcopy⟩ := bind_eq_ok_iff.1 hcopy
  obtain ⟨k', hfind, _⟩ := bind_eq_ok_iff.1 hread
  obtain ⟨j, hdraft⟩ := exists_find_keep hfind
  have hopened : ∃ mode opened, fs.openWrite mode (stagingPath cfg dir) = .ok opened := by
    split at hcopy
    · obtain ⟨opened, hopen, _⟩ := bind_eq_ok_iff.1 hcopy
      exact ⟨_, opened, hopen⟩
    · cases hcopy
  obtain ⟨_, _, hopen⟩ := hopened
  obtain ⟨_, _, hwrite, _⟩ := openWrite_cases hopen
  obtain ⟨t, hstaging⟩ := exists_slot_of_write hwrite
  rw [linkFile_of_taken htaken hdraft (slot_of_stagingPath hm hstaging)] at hlink
  cases hlink
  exact hkind rfl

include hm in
theorem not_brings_of_taken : ¬Brings cfg draft dir fs placed := by
  have hmade := prepared_of_taken hm htaken
  intro hbrings
  cases hbrings with
  | linked _ hlink => exact linkFile_ne_of_taken htaken _ (hmade ▸ hlink)
  | copied hback hcopy =>
      obtain ⟨_, e, hlink, hkind⟩ := hback
      obtain ⟨copied, hcopied, _⟩ := placeCopy_eq_ok hcopy
      rw [hmade] at hlink hcopied
      exact copyFile_of_taken hm htaken hlink hkind copied hcopied

include hm in
/-- The installation fails, and has done no more than to remove the hidden name. -/
theorem run_of_taken (draft : Path) :
    (∃ f, (run cfg draft dir fs).result = .error f) ∧
      ((run cfg draft dir fs).files = fs ∨
        (run cfg draft dir fs).files = dropStaging (stagingPath cfg dir) fs) := by
  have hmade := prepared_of_taken hm htaken
  have hruns := runs_run cfg draft dir fs
  generalize (run cfg draft dir fs).result = result at hruns ⊢
  generalize (run cfg draft dir fs).files = files at hruns ⊢
  cases hruns with
  | @noDirectory f => exact ⟨⟨f, rfl⟩, .inl hmade⟩
  | refused => exact ⟨⟨_, rfl⟩, .inl hmade⟩
  | @notCopied f left hback hcopy =>
      refine ⟨⟨f, rfl⟩, .inr ?_⟩
      obtain ⟨_, e, hlink, hkind⟩ := hback
      rw [hmade] at hlink hcopy
      rcases placeCopy_cases cfg draft (stagingPath cfg dir) (cfg.manifestPath dir) fs with
        ⟨_, hnone, _⟩ | ⟨copied, hcopied, _⟩
      · obtain ⟨_, rfl⟩ := Prod.mk.inj (hcopy.symm.trans hnone)
        rfl
      · exact absurd hcopied (copyFile_of_taken hm htaken hlink hkind copied)
  | draftKept hbrings => exact absurd hbrings (not_brings_of_taken hm htaken)
  | unsynced hbrings => exact absurd hbrings (not_brings_of_taken hm htaken)
  | installed hbrings => exact absurd hbrings (not_brings_of_taken hm htaken)

include hm in
/-- An installation that can walk to the place, and finds its draft, says that the place is
taken. -/
theorem run_of_present (hdraft : fs.find .keep draft = .ok j)
    (hslot : fs.slot .name (cfg.manifestPath dir) = .ok s) :
    run cfg draft dir fs = ⟨.error (.manifestPresent (cfg.manifestPath dir)), fs, []⟩ := by
  have hprovide : fs.provideDirectory dir = (.ok (), fs) := by
    apply provideDirectory_of_isDirectoryAt
    cases hne : dir.isEmpty with
    | true => exact .inl rfl
    | false =>
        obtain ⟨hcheck, _⟩ := slot_eq_ok_iff.1 hslot
        exact .inr (isDirectoryAt_of_slot hslot (Path.isAbsolute_join hm.isAbsolute).symm
          (Path.segments_join hm.isAbsolute) hm.inside.segments_ne_nil
          (Path.check_of_join hm.isAbsolute hne hcheck))
  simp [run, hprovide, linkFile_of_taken htaken hdraft hslot, IoError.kind, Errno.kind]

end Taken

/-! ## What is kept -/

/-- Only the hidden name's own entry is removed. -/
theorem child?_dropStaging_of_ne (hi : fs.child? d n = some i) (hother : ¬fs.EntryAt p d n i) :
    (dropStaging p fs).child? d n = some i := by
  apply (child?_dropStaging_iff hi).2
  rintro ⟨hnames, removed, hremove⟩
  obtain ⟨d', n', j, hnames', _, hj, _⟩ := removeFile_names hremove
  obtain ⟨rfl, rfl⟩ := hnames.unique hnames'
  obtain rfl := Option.some.inj (hi.symm.trans (step_name_eq_ok_iff.1 hj).2)
  exact hother (hnames.entryAt hj)

/-- An installation fails if the manifest's place has an entry, even one that it cannot get to. That
entry stays, as do all others but the hidden name's, the draft's among them, and every file keeps
its bytes. If the draft is found and the place can be walked to, the failure says that a manifest
is present, and nothing at all has changed. -/
theorem refused_of_taken (draft : Path)
    (hplain : Path.slash ∉ (Path.ofString cfg.manifestName).bytes)
    (htaken : fs.EntryAt (cfg.manifestPath dir) d n i) :
    (∃ f, (run cfg draft dir fs).result = .error f) ∧
    (run cfg draft dir fs).files.child? d n = some i ∧
    (∀ {a m k}, fs.child? a m = some k → ¬fs.EntryAt (stagingPath cfg dir) a m k →
      (run cfg draft dir fs).files.child? a m = some k) ∧
    (∀ {j bytes}, fs.content? j = some (.file bytes) →
      (run cfg draft dir fs).files.content? j = some (.file bytes)) ∧
    ∀ {j s}, fs.find .keep draft = .ok j → fs.slot .name (cfg.manifestPath dir) = .ok s →
      (run cfg draft dir fs).result = .error (.manifestPresent (cfg.manifestPath dir)) ∧
        (run cfg draft dir fs).files = fs := by
  obtain ⟨m, hm⟩ := exists_single hplain
  obtain ⟨hfail, hfiles⟩ := run_of_taken hm htaken draft
  have hkept : ∀ {a b k}, fs.child? a b = some k → ¬fs.EntryAt (stagingPath cfg dir) a b k →
      (run cfg draft dir fs).files.child? a b = some k := by
    intro a b k hk hother
    rcases hfiles with heq | heq
    · rwa [heq]
    · rw [heq]
      exact child?_dropStaging_of_ne hk hother
  have hbeside : ¬fs.EntryAt (stagingPath cfg dir) d n i := by
    intro hstaging
    obtain ⟨h, hne, hh⟩ := single_stagingName hm
    exact hne ((eq_of_entryAt hh hstaging).symm.trans (eq_of_entryAt hm htaken))
  refine ⟨hfail, hkept htaken.child? hbeside, hkept, ?_, ?_⟩
  · intro j bytes hj
    rcases hfiles with heq | heq
    · rwa [heq]
    · rw [heq]
      exact content?_dropStaging hj
  · intro j s hdraft hslot
    rw [run_of_present hm htaken hdraft hslot]
    exact ⟨rfl, rfl⟩

/-- A draft, and a directory where the manifest's name is that of a symbolic link to nothing. -/
def danglingManifest : FileSystem where
  nodes := #[
    ⟨0, ⟨true, false, true⟩, default, .directory 0 [(Utf8.encode "work", 1)]⟩,
    ⟨0, .ofNewDirectory, default, .directory 0 [(Utf8.encode "draft", 2), (Utf8.encode "t", 3)]⟩,
    ⟨0, .ofNewFile, default, .file (Utf8.encode "b\ta\n")⟩,
    ⟨0, .ofNewDirectory, default, .directory 1 [(Utf8.encode "hardLinkFile", 4)]⟩,
    ⟨0, ⟨true, true, true⟩, default, .symlink (.ofString "nowhere")⟩]
  start := 1

/-- The link stays, also where its directory cannot be searched, so that nobody can see it. -/
theorem danglingManifest_kept :
    ((run .default (.ofString "draft") (.ofString "t") danglingManifest).result =
        .error (.manifestPresent (.ofString "t/hardLinkFile")) ∧
      (run .default (.ofString "draft") (.ofString "t") danglingManifest).files =
        danglingManifest) ∧
    (∃ f, (run .default (.ofString "draft") (.ofString "t")
        (danglingManifest.setMode 3 ⟨true, true, false⟩)).result = .error f) ∧
      (run .default (.ofString "draft") (.ofString "t")
        (danglingManifest.setMode 3 ⟨true, true, false⟩)).files.child? 3
          (Utf8.encode "hardLinkFile") = some 4 := by
  have hplain : Path.slash ∉ (Path.ofString CheckedConfig.default.manifestName).bytes := by decide
  have htaken : danglingManifest.EntryAt (CheckedConfig.default.manifestPath (.ofString "t")) 3
      (Utf8.encode "hardLinkFile") 4 := Names.entryAt ⟨false, by rfl⟩ (by rfl)
  constructor
  · obtain ⟨_, _, _, _, hpresent⟩ := refused_of_taken (.ofString "draft") hplain htaken
    exact hpresent (j := 2) (s := ⟨3, .name (Utf8.encode "hardLinkFile"), false⟩) (by rfl) (by rfl)
  · obtain ⟨hfail, hkept, _⟩ := refused_of_taken (.ofString "draft") hplain
      ((entryAt_setMode 3 ⟨true, true, false⟩).2 htaken)
    exact ⟨hfail, hkept⟩

end Hardlinks.Installation
