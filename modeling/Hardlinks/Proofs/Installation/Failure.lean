-- SUMMARY: What an installation that fails leaves of the draft and of the manifest's place.
import Hardlinks.Proofs.Installation.Copying
import Hardlinks.Proofs.Installation.Effect

/-!
# Failing installations

An installation that fails should leave the manifest's place and the draft as they were. It does so
with three exceptions, all of which can be told from the state it starts from
(`kept_of_run_failed`). It can fail after the manifest has been brought to its place (`Reaches`):
when the draft's own name cannot be removed, or when the directory cannot be opened in the end. The
copy of a draft can have been written to the manifest's place by way of a link (`Strands`). And the
hidden name is removed even if it was there before, and leads to the draft.
-/

namespace Hardlinks.Installation

open FileSystem

/-- The draft is copied to the name `n` in the directory `d`, to which the hidden name is a link. -/
def Strands (cfg : CheckedConfig) (draft dir : Path) (fs : FileSystem) (d : Inode) (n : Name) :
    Prop :=
  (∃ copied, fs.copyFile draft (stagingPath cfg dir) = .ok copied) ∧
    fs.slot .write (stagingPath cfg dir) = .ok ⟨d, .name n, false⟩ ∧
    ¬fs.Names (stagingPath cfg dir) d n

/-- The path leads through the hidden name, which is removed when a draft is copied. -/
def Cuts (cfg : CheckedConfig) (dir : Path) (fs : FileSystem) (ending : Ending) (p : Path) : Prop :=
  ∃ d n, Clears cfg dir fs d n ∧ fs.Uses ending p d n

variable {cfg : CheckedConfig} {draft dir p : Path} {fs fs' placed left : FileSystem}
  {ending : Ending} {d i j : Inode} {n : Name} {bytes : List UInt8} {f : Failure} {s t : Slot}

/-! ## The manifest's place -/

/-- The manifest that was brought into its place is there. -/
theorem Brings.child?_manifest (h : Brings cfg draft dir fs placed)
    (hm : (prepared dir fs).Names (cfg.manifestPath dir) d n) : placed.child? d n ≠ none := by
  cases h with
  | linked _ hlink =>
      obtain ⟨i, s, name, _, hslot, hname, _, _, _, _, rfl⟩ := linkFile_eq_ok_iff.1 hlink
      obtain ⟨rfl, rfl⟩ := hm.unique (names_of_vacantName hslot hname)
      simp [child?_addEntry_of_vacant hslot hname]
  | copied _ hcopy =>
      obtain ⟨copied, hcopied, hlink⟩ := placeCopy_eq_ok hcopy
      have hgrows := grows_of_linkFile hlink
      have hextends := extends_copyFile hcopied
      obtain ⟨i, s, name, hi, hslot, hname, _, _, _, _, rfl⟩ := linkFile_eq_ok_iff.1 hlink
      obtain ⟨rfl, rfl⟩ := (hm.extend hextends).unique (names_of_vacantName hslot hname)
      have hchild : (copied.addEntry s.dir n i).child? s.dir n = some i := by
        rw [child?_addEntry_of_vacant hslot hname, if_pos ⟨rfl, rfl⟩]
      rw [(child?_dropStaging_iff hchild).2]
      · simp
      · -- The hidden file's name was taken, and the manifest's was not.
        rintro ⟨hnames, _⟩
        obtain ⟨t, k, ht, hk⟩ := exists_slot_name hi
        obtain ⟨slash, hstaging⟩ := hnames.of_extends hgrows.extends ht
        obtain rfl := Except.ok.inj (hstaging.symm.trans ht)
        have htaken := (step_name_eq_ok_iff.1 hk).2
        simp [(vacantName_eq_ok_iff.1 hname).2.2] at htaken

/-- A manifest is brought only to a free place. -/
theorem Brings.child?_eq_none (h : Brings cfg draft dir fs placed)
    (hm : (prepared dir fs).Names (cfg.manifestPath dir) d n) :
    (prepared dir fs).child? d n = none := by
  cases h with
  | linked _ hlink =>
      obtain ⟨i, s, name, _, hslot, hname, _⟩ := linkFile_eq_ok_iff.1 hlink
      obtain ⟨rfl, rfl⟩ := hm.unique (names_of_vacantName hslot hname)
      exact (vacantName_eq_ok_iff.1 hname).2.2
  | copied _ hcopy =>
      obtain ⟨copied, hcopied, hlink⟩ := placeCopy_eq_ok hcopy
      have hextends := extends_copyFile hcopied
      obtain ⟨i, s, name, _, hslot, hname, _⟩ := linkFile_eq_ok_iff.1 hlink
      obtain ⟨rfl, rfl⟩ := (hm.extend hextends).unique (names_of_vacantName hslot hname)
      apply Option.eq_none_iff_forall_ne_some.2
      intro i hi
      simpa [(vacantName_eq_ok_iff.1 hname).2.2] using hextends.child? hi

theorem Brings.child?_draft (h : Brings cfg draft dir fs placed)
    (hp : placed.Names draft d n) : (prepared dir fs).child? d n ≠ none := by
  obtain ⟨slash, hslot⟩ := h.names_draft hp
  obtain ⟨t, j, ht, hj⟩ := h.exists_slot
  obtain rfl := Except.ok.inj (hslot.symm.trans ht)
  simp [(step_name_eq_ok_iff.1 hj).2]

/-- What is in the manifest's place stays there unless it has the hidden name. -/
theorem child?_run_of_taken (h : (run cfg draft dir fs).result = .error f)
    (hm : (prepared dir fs).Names (cfg.manifestPath dir) d n) (hold : fs.child? d n = some i) :
    (run cfg draft dir fs).files.child? d n = some i ↔
      ¬(FallsBack cfg draft dir fs ∧ Clears cfg dir (prepared dir fs) d n) := by
  have hi := (grows_prepared dir fs).extends.child? hold
  have hbrought : ∀ {placed}, ¬Brings cfg draft dir fs placed := by
    intro placed hbrings
    simp [hbrings.child?_eq_none hm] at hi
  have hruns := runs_run cfg draft dir fs
  rw [h] at hruns
  generalize (run cfg draft dir fs).files = files at hruns ⊢
  cases hruns with
  | noDirectory hf => simp [hi, not_fallsBack_of_error hf]
  | refused hlink hkind => simp [hi, (not_brings_of_refused hlink hkind).1]
  | notCopied hback hcopy =>
      have hiff := child?_fallback_iff cfg draft dir hi
      rw [hcopy] at hiff
      simpa [hback] using hiff
  | draftKept hbrings => exact absurd hbrings hbrought
  | unsynced hbrings => exact absurd hbrings hbrought

theorem child?_dropStaging_of_none (h : fs.child? d n = none) :
    (dropStaging p fs).child? d n = none := by
  apply Option.eq_none_iff_forall_ne_some.2
  intro i hi
  simp [(extends_dropStaging p fs).child? hi] at h

/-- A new file that the draft was copied to can be removed by the hidden name, if that is its
name. -/
theorem exists_removeFile_of_copy {copied base : FileSystem} (hfree : fs.child? d n = none)
    (hopens : fs.Opens p d n j base) (hwritten : base.Overwrites j bytes copied)
    (hnames : fs.Names p d n) : ∃ removed, copied.removeFile p = .ok removed := by
  obtain ⟨slash, hslot⟩ := hnames
  have hnone : ∀ i, fs.step d (.name n) ≠ .ok i := by
    intro i hi
    simp [(step_name_eq_ok_iff.1 hi).2] at hfree
  cases slot_of_write hopens.slot hslot hnone
  have hextends := hopens.extends.trans hwritten.tree.extends
  have hj : copied.child? d n = some j := by rw [hwritten.tree.child?, hopens.child?]
  refine (exists_removeFile_iff (slot_name_extend hextends hslot) hj).2
    ⟨hopens.length, rfl, ?_, ?_⟩
  · rw [hextends.allows (isDirectory_of_slot hslot rfl)]
    cases hopens with
    | new _ _ _ hwrite => exact hwrite
    | old _ _ hchild => simp [hchild] at hfree
  · rw [hwritten.tree.isDirectory, hopens.kind.1]

/-- A copy that is not placed in the end stays where nothing was exactly if it was written there by
way of a link. -/
theorem child?_fallback_of_free (h : fallback cfg draft dir fs = (.error f, left))
    (hfree : fs.child? d n = none) :
    (dropStaging (stagingPath cfg dir) left).child? d n = none ↔ ¬Strands cfg draft dir fs d n := by
  rw [fallback] at h
  rcases placeCopy_cases cfg draft (stagingPath cfg dir) (cfg.manifestPath dir) fs with
    ⟨_, hleft, e, hfail⟩ | ⟨copied, hcopy, ⟨_, hleft⟩ | ⟨_, hleft, _⟩⟩
  · obtain ⟨_, rfl⟩ := Prod.mk.inj (h.symm.trans hleft)
    refine iff_of_true (child?_dropStaging_of_none hfree) ?_
    rintro ⟨⟨_, hcopy⟩, _⟩
    simp [hfail] at hcopy
  · obtain ⟨_, rfl⟩ := Prod.mk.inj (h.symm.trans hleft)
    obtain ⟨_, _, a, b, j, base, _, _, hopens, hwritten⟩ := copyFile_spec hcopy
    by_cases hplace : fs.slot .write (stagingPath cfg dir) = .ok ⟨d, .name n, false⟩
    · cases hopens.slot.symm.trans hplace
      have hj : left.child? d n = some j := by rw [hwritten.tree.child?, hopens.child?]
      by_cases hnames : fs.Names (stagingPath cfg dir) d n
      · obtain ⟨removed, hremoved⟩ := exists_removeFile_of_copy hfree hopens hwritten hnames
        have hremove : left.removeFile (stagingPath cfg dir) =
            .ok (dropStaging (stagingPath cfg dir) left) := by simp [dropStaging, hremoved]
        refine iff_of_true ?_ fun hstrands => hstrands.2.2 hnames
        exact child?_removeFile_of_names hremove (hnames.extend (extends_copyFile hcopy))
      · refine iff_of_false ?_ (not_not_intro ⟨⟨left, hcopy⟩, hplace, hnames⟩)
        obtain ⟨t, ht⟩ := exists_slot_of_write hopens.slot
        rw [(child?_dropStaging_iff hj).2 fun hclears =>
          hnames (hclears.1.of_extends (extends_copyFile hcopy) ht)]
        simp
    · refine iff_of_true (child?_dropStaging_of_none ?_) fun hstrands => hplace hstrands.2.1
      rw [hwritten.tree.child?, hopens.child?_eq, if_neg, hfree]
      rintro ⟨rfl, rfl⟩
      exact hplace hopens.slot
  · cases h.symm.trans hleft

/-- A failing installation leaves the manifest's place free unless it reaches it, or copies to it.
-/
theorem child?_run_eq_none_iff (hfs : fs.WellFormed) (h : (run cfg draft dir fs).result = .error f)
    (hm : (prepared dir fs).Names (cfg.manifestPath dir) d n)
    (hnone : (prepared dir fs).child? d n = none) :
    (run cfg draft dir fs).files.child? d n = none ↔
      ¬(Reaches cfg draft dir fs ∨
        FallsBack cfg draft dir fs ∧ Strands cfg draft dir (prepared dir fs) d n) := by
  rw [← exists_brings_iff hfs]
  have hruns := runs_run cfg draft dir fs
  rw [h] at hruns
  generalize (run cfg draft dir fs).files = files at hruns ⊢
  cases hruns with
  | noDirectory hf => simp [hnone, not_brings_of_error hf, not_fallsBack_of_error hf]
  | refused hlink hkind => simp [hnone, not_brings_of_refused hlink hkind]
  | notCopied hback hcopy =>
      simp [child?_fallback_of_free hcopy hnone, not_brings_of_notCopied hback hcopy, hback]
  | draftKept hbrings =>
      exact iff_of_false (hbrings.child?_manifest hm) (not_not_intro (.inl ⟨_, hbrings⟩))
  | unsynced hbrings hremove =>
      rw [child?_removeFile hremove fun hp => hbrings.child?_draft hp hnone]
      exact iff_of_false (hbrings.child?_manifest hm) (not_not_intro (.inl ⟨_, hbrings⟩))

/-! ## The draft -/

/-- A path that was found is found after the copy, unless it leads through the hidden name. -/
theorem find_fallback_iff (cfg : CheckedConfig) (draft dir : Path) (hi : fs.find ending p = .ok i) :
    (dropStaging (stagingPath cfg dir) (fallback cfg draft dir fs).2).find ending p = .ok i ↔
      ¬Cuts cfg dir fs ending p := by
  have hextends : fs.Extends (fallback cfg draft dir fs).2 := extends_placeCopy cfg draft _ _ fs
  have hleft := find_extend hextends hi
  have hclears : ∀ {d n k}, fs.child? d n = some k →
      ((dropStaging (stagingPath cfg dir) (fallback cfg draft dir fs).2).child? d n = some k ↔
        ¬Clears cfg dir fs d n) := fun hk => child?_fallback_iff cfg draft dir hk
  rcases dropStaging_cases (stagingPath cfg dir) (fallback cfg draft dir fs).2 with
    hremove | ⟨_, heq⟩
  · obtain ⟨a, b, k, hnames, _, hk, hfile, hremoved⟩ := removeFile_names hremove
    rw [hremoved, find_removeEntry_iff hleft hk hfile, not_iff_not, uses_extend hextends hi]
    constructor
    · intro huses
      obtain ⟨j, hj⟩ := huses.step hi
      refine ⟨a, b, ?_, huses⟩
      by_contra hkept
      have hchild := (hclears (step_name_eq_ok_iff.1 hj).2).2 hkept
      simp [child?_removeFile_of_names hremove hnames] at hchild
    · rintro ⟨a', b', hcleared, huses⟩
      obtain ⟨rfl, rfl⟩ := hcleared.1.unique (names_placeCopy.1 hnames)
      exact huses
  · rw [heq]
    refine iff_of_true hleft ?_
    rintro ⟨a, b, hcleared, huses⟩
    obtain ⟨j, hj⟩ := huses.step hi
    have hchild := (step_name_eq_ok_iff.1 hj).2
    refine (hclears hchild).1 ?_ hcleared
    rw [heq]
    exact hextends.child? hchild

theorem Brings.find_iff (h : Brings cfg draft dir fs placed)
    (hi : (prepared dir fs).find ending p = .ok i) :
    placed.find ending p = .ok i ↔
      ¬(FallsBack cfg draft dir fs ∧ Cuts cfg dir (prepared dir fs) ending p) := by
  cases h with
  | linked _ hlink =>
      have hnot : ¬FallsBack cfg draft dir fs := fun hback => hback.linkFile_ne hlink
      simp [find_extend (grows_of_linkFile hlink).extends hi, hnot]
  | copied hback hcopy =>
      have hiff := find_fallback_iff cfg draft dir hi
      rw [hcopy] at hiff
      simpa [hback] using hiff

/-- Whether a name can be removed does not change when other entries are added. -/
theorem exists_removeFile_congr (h : fs.Extends fs') (hslot : fs.slot .name p = .ok t)
    (hj : fs.step t.dir t.last = .ok j) (hdir : fs'.isDirectory j = fs.isDirectory j) :
    (∃ removed, fs'.removeFile p = .ok removed) ↔ ∃ removed, fs.removeFile p = .ok removed := by
  have hslot' := slot_name_extend h hslot
  by_cases hlast : ∃ n, t.last = .name n
  · obtain ⟨d, last, slash⟩ := t
    obtain ⟨n, rfl⟩ := hlast
    have hchild := (step_name_eq_ok_iff.1 hj).2
    rw [exists_removeFile_iff hslot' (h.child? hchild), exists_removeFile_iff hslot hchild, hdir,
      h.allows (isDirectory_of_slot hslot rfl)]
  · refine iff_of_false ?_ ?_
    · rintro ⟨_, hremove⟩
      obtain ⟨s, n, _, hs, hname, _⟩ := removeFile_eq_ok_iff.1 hremove
      obtain rfl := Except.ok.inj (hslot'.symm.trans hs)
      exact hlast ⟨n, hname⟩
    · rintro ⟨_, hremove⟩
      obtain ⟨s, n, _, hs, hname, _⟩ := removeFile_eq_ok_iff.1 hremove
      obtain rfl := Except.ok.inj (hslot.symm.trans hs)
      exact hlast ⟨n, hname⟩

theorem isDirectory_dropStaging (i : Inode) :
    fs.isDirectory i = (dropStaging p fs).isDirectory i := by
  rcases dropStaging_cases p fs with hremove | ⟨_, heq⟩
  · obtain ⟨_, _, _, _, _, _, _, hremoved⟩ := removeFile_names hremove
    rw [hremoved, removeEntry, isDirectory_modifyEntries]
  · rw [heq]

/-- The draft's name can be removed in the end if it could be in the beginning. -/
theorem Brings.exists_removeFile_iff (h : Brings cfg draft dir fs placed)
    (hi : (prepared dir fs).find ending draft = .ok i)
    (hplaced : placed.find ending draft = .ok i) :
    (∃ removed, placed.removeFile draft = .ok removed) ↔
      ∃ removed, (prepared dir fs).removeFile draft = .ok removed := by
  obtain ⟨t, j, ht, hj⟩ := exists_slot_name hi
  cases h with
  | linked _ hlink =>
      obtain ⟨_, _, _, _, _, _, _, _, _, _, rfl⟩ := linkFile_eq_ok_iff.1 hlink
      exact exists_removeFile_congr (grows_of_linkFile hlink).extends ht hj
        isDirectory_addEntry
  | @copied left hback hcopy =>
      have hextends : (prepared dir fs).Extends (fallback cfg draft dir (prepared dir fs)).2 :=
        extends_placeCopy cfg draft _ _ _
      have hdir : (fallback cfg draft dir (prepared dir fs)).2.isDirectory j =
          (prepared dir fs).isDirectory j := isDirectory_placeCopy j
      rw [hcopy] at hextends hdir
      obtain ⟨t', j', ht', hj'⟩ := exists_slot_name hplaced
      rw [← exists_removeFile_congr hextends ht hj hdir]
      exact (exists_removeFile_congr (extends_dropStaging _ left) ht' hj'
        (isDirectory_dropStaging j')).symm

/-- A draft whose name has been removed is not found any more. -/
theorem find_ne_of_removeFile {removed : FileSystem} (h : fs.removeFile p = .ok removed) :
    removed.find ending p ≠ .ok i := by
  obtain ⟨d, n, j, hnames, _, hj, hfile, rfl⟩ := removeFile_names h
  intro hfind
  have hi := find_extend (extends_removeEntry d n) hfind
  exact (find_removeEntry_iff hi hj hfile).1 hfind (hnames.uses hi)

/-- A failing installation leaves the draft unless it gets to removing its name, or removes the
hidden name on the way to it. -/
theorem find_run_iff (hfs : fs.WellFormed) (h : (run cfg draft dir fs).result = .error f)
    (hold : fs.find ending draft = .ok i) :
    (run cfg draft dir fs).files.find ending draft = .ok i ↔
      ¬(Reaches cfg draft dir fs ∧ (∃ removed, (prepared dir fs).removeFile draft = .ok removed) ∨
        FallsBack cfg draft dir fs ∧ Cuts cfg dir (prepared dir fs) ending draft) := by
  have hi := find_extend (grows_prepared dir fs).extends hold
  rw [← exists_brings_iff hfs]
  have hruns := runs_run cfg draft dir fs
  rw [h] at hruns
  generalize (run cfg draft dir fs).files = files at hruns ⊢
  cases hruns with
  | noDirectory hf => simp [hi, not_brings_of_error hf, not_fallsBack_of_error hf]
  | refused hlink hkind => simp [hi, not_brings_of_refused hlink hkind]
  | notCopied hback hcopy =>
      have hiff := find_fallback_iff cfg draft dir hi
      rw [hcopy] at hiff
      simp [hiff, not_brings_of_notCopied hback hcopy, hback]
  | @draftKept _ _ hbrings hremove =>
      by_cases hplaced : files.find ending draft = .ok i
      · refine iff_of_true hplaced ?_
        rintro (⟨_, hremovable⟩ | hcut)
        · obtain ⟨_, hremoved⟩ := (hbrings.exists_removeFile_iff hi hplaced).2 hremovable
          simp [hremove] at hremoved
        · exact (hbrings.find_iff hi).1 hplaced hcut
      · refine iff_of_false hplaced (not_not_intro (.inr ?_))
        exact by_contra fun hcut => hplaced ((hbrings.find_iff hi).2 hcut)
  | @unsynced placed _ _ hbrings hremove =>
      refine iff_of_false (find_ne_of_removeFile hremove) (not_not_intro ?_)
      by_cases hplaced : placed.find ending draft = .ok i
      · exact .inl ⟨⟨_, hbrings⟩, (hbrings.exists_removeFile_iff hi hplaced).1 ⟨_, hremove⟩⟩
      · exact .inr (by_contra fun hcut => hplaced ((hbrings.find_iff hi).2 hcut))

/-! ## Installations that fail -/

/-- An installation that fails leaves what was in the manifest's place, unless it removes it by the
hidden name, and leaves a free place free, unless the manifest reaches it or the draft is copied to
it. It keeps the bytes of all files but the one that the hidden name leads to; if that is the draft,
it is emptied. It keeps the draft, unless it gets to removing the draft's name or removes the hidden
name on the way there. -/
theorem kept_of_run_failed (hfs : fs.WellFormed)
    (h : (run cfg draft dir fs).result = .error f) :
    (∀ {d n i}, (prepared dir fs).Names (cfg.manifestPath dir) d n → fs.child? d n = some i →
      ((run cfg draft dir fs).files.child? d n = some i ↔
        ¬(FallsBack cfg draft dir fs ∧ Clears cfg dir (prepared dir fs) d n))) ∧
    (∀ {d n}, (prepared dir fs).Names (cfg.manifestPath dir) d n →
      (prepared dir fs).child? d n = none →
      ((run cfg draft dir fs).files.child? d n = none ↔
        ¬(Reaches cfg draft dir fs ∨
          FallsBack cfg draft dir fs ∧ Strands cfg draft dir (prepared dir fs) d n))) ∧
    (∀ {i bytes}, fs.content? i = some (.file bytes) →
      ¬(FallsBack cfg draft dir fs ∧
        (prepared dir fs).find .follow (stagingPath cfg dir) = .ok i) →
      (run cfg draft dir fs).files.content? i = some (.file bytes)) ∧
    (∀ {i bytes copied}, fs.content? i = some (.file bytes) → FallsBack cfg draft dir fs →
      (prepared dir fs).find .follow (stagingPath cfg dir) = .ok i →
      (prepared dir fs).find .follow draft = .ok i →
      (prepared dir fs).copyFile draft (stagingPath cfg dir) = .ok copied →
      (run cfg draft dir fs).files.content? i = some (.file [])) ∧
    ∀ {ending i}, fs.find ending draft = .ok i →
      ((run cfg draft dir fs).files.find ending draft = .ok i ↔
        ¬(Reaches cfg draft dir fs ∧
            (∃ removed, (prepared dir fs).removeFile draft = .ok removed) ∨
          FallsBack cfg draft dir fs ∧ Cuts cfg dir (prepared dir fs) ending draft)) := by
  refine ⟨?_, ?_, ?_, ?_, ?_⟩
  · intro d n i hm hold
    exact child?_run_of_taken h hm hold
  · intro d n hm hnone
    exact child?_run_eq_none_iff hfs h hm hnone
  · intro i bytes hold hother
    exact content?_run hold hother
  · intro i bytes copied hold hback hstaging hdraft hcopied
    have hi := (grows_prepared dir fs).content?_file hold
    rw [content?_run_of_overwritten hback hstaging hi hdraft hi hcopied, if_pos rfl]
  · intro ending i hold
    exact find_run_iff hfs h hold

/-- A draft, and a directory that can be changed but not listed. -/
def unreadableTarget : FileSystem :=
  let made := ((withFiles [("draft", "b\ta\n")]).makeDirectory (.ofString "t")).toOption.getD empty
  (made.changeMode (.ofString "t") ⟨false, true, true⟩).toOption.getD empty

/-- The directory cannot be opened to be synchronised when the manifest is in its place, and the
draft is gone already. -/
theorem brought_to_unreadableTarget :
    (run .default (.ofString "draft") (.ofString "t") unreadableTarget).result =
        .error (.io (.system .accessDenied)) ∧
      unreadableTarget.find .keep (.ofString "draft") = .ok 4 ∧
      (run .default (.ofString "draft") (.ofString "t") unreadableTarget).files.find .keep
        (.ofString "draft") ≠ .ok 4 ∧
      (prepared (.ofString "t") unreadableTarget).child? 5 (Utf8.encode "hardLinkFile") = none ∧
      (run .default (.ofString "draft") (.ofString "t") unreadableTarget).files.child? 5
        (Utf8.encode "hardLinkFile") ≠ none := by
  have hwell : unreadableTarget.WellFormed := by
    have hmade : Call (withFiles [("draft", "b\ta\n")]) _ :=
      .makeDirectory (p := .ofString "t") (by rfl)
    exact ((wellFormed_withFiles _).call hmade).call
      (.changeMode (by rfl : changeMode _ (.ofString "t") ⟨false, true, true⟩ = .ok _))
  have hrun : (run .default (.ofString "draft") (.ofString "t") unreadableTarget).result =
      .error (.io (.system .accessDenied)) := by rfl
  have hmanifest : (prepared (.ofString "t") unreadableTarget).Names
      (CheckedConfig.default.manifestPath (.ofString "t")) 5 (Utf8.encode "hardLinkFile") :=
    ⟨false, by rfl⟩
  have hdraft : unreadableTarget.find .keep (.ofString "draft") = .ok 4 := by rfl
  have hnone : (prepared (.ofString "t") unreadableTarget).child? 5
      (Utf8.encode "hardLinkFile") = none := by rfl
  have hreaches : Reaches .default (.ofString "draft") (.ofString "t") unreadableTarget :=
    .inl ⟨by rfl, _, by rfl⟩
  obtain ⟨_, hplace, _, _, hfind⟩ := kept_of_run_failed hwell hrun
  refine ⟨hrun, hdraft, ?_, hnone, ?_⟩
  · intro hkept
    exact (hfind hdraft).1 hkept (.inl ⟨hreaches, _, by rfl⟩)
  · intro hkept
    exact (hplace hmanifest hnone).1 hkept (.inl hreaches)

end Hardlinks.Installation
