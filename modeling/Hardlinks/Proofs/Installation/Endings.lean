-- SUMMARY: The six ways in which an installation can end, and what each part does to entries.
import Hardlinks.Proofs.Installation

/-!
# Endings of an installation

An installation makes the target directory, brings the draft into the manifest's place by a link or
by a copy, and then takes the draft's own name away; it can fail at each of these (`runs_run`). What
it does to the entries that were there is told part by part: making the directory only adds, a copy
adds or rewrites one file (`extends_placeCopy`, `content?_placeCopy`), and the names that are
removed in the end are the hidden one (`child?_fallback_iff`) and the draft's.
-/

namespace Hardlinks.Installation

open FileSystem

/-- The file system in which the target directory has been made, as far as it could be. -/
def prepared (dir : Path) (fs : FileSystem) : FileSystem :=
  (fs.provideDirectory dir).2

/-- The draft cannot be linked into its place, although that is free: it is to be copied. -/
def FallsBack (cfg : CheckedConfig) (draft dir : Path) (fs : FileSystem) : Prop :=
  (fs.provideDirectory dir).1 = .ok () ∧
    ∃ e, (prepared dir fs).linkFile draft (cfg.manifestPath dir) = .error e ∧
      e.kind ≠ .alreadyExists

/-- The copy of the draft that is linked into the manifest's place. -/
def fallback (cfg : CheckedConfig) (draft dir : Path) (fs : FileSystem) :
    Except Failure Unit × FileSystem :=
  placeCopy cfg draft (stagingPath cfg dir) (cfg.manifestPath dir) fs

/-- The ways in which the manifest gets into its place, with the file system after it. -/
inductive Brings (cfg : CheckedConfig) (draft dir : Path) (fs : FileSystem) : FileSystem → Prop
  | linked {linked : FileSystem} : (fs.provideDirectory dir).1 = .ok () →
      (prepared dir fs).linkFile draft (cfg.manifestPath dir) = .ok linked →
      Brings cfg draft dir fs linked
  | copied {left : FileSystem} : FallsBack cfg draft dir fs →
      fallback cfg draft dir (prepared dir fs) = (.ok (), left) →
      Brings cfg draft dir fs (dropStaging (stagingPath cfg dir) left)

/-- The ways in which an installation can end. -/
inductive Runs (cfg : CheckedConfig) (draft dir : Path) (fs : FileSystem) :
    Except Failure Path → FileSystem → Prop
  | noDirectory {f : Failure} : (fs.provideDirectory dir).1 = .error f →
      Runs cfg draft dir fs (.error f) (prepared dir fs)
  | refused {e : IoError} :
      (prepared dir fs).linkFile draft (cfg.manifestPath dir) = .error e →
      e.kind = .alreadyExists →
      Runs cfg draft dir fs (.error (.manifestPresent (cfg.manifestPath dir))) (prepared dir fs)
  | notCopied {f : Failure} {left : FileSystem} : FallsBack cfg draft dir fs →
      fallback cfg draft dir (prepared dir fs) = (.error f, left) →
      Runs cfg draft dir fs (.error f) (dropStaging (stagingPath cfg dir) left)
  | draftKept {placed : FileSystem} {e : IoError} : Brings cfg draft dir fs placed →
      placed.removeFile draft = .error e → Runs cfg draft dir fs (.error (.io e)) placed
  /-- The directory cannot be opened to be synchronised. -/
  | unsynced {placed removed : FileSystem} {e : IoError} : Brings cfg draft dir fs placed →
      placed.removeFile draft = .ok removed →
      Runs cfg draft dir fs (.error (.io e)) removed
  | installed {placed removed : FileSystem} : Brings cfg draft dir fs placed →
      placed.removeFile draft = .ok removed →
      Runs cfg draft dir fs (.ok (cfg.manifestPath dir)) removed

variable {cfg : CheckedConfig} {draft dir p q staging manifest : Path}
  {fs made placed placed' left copied : FileSystem} {d i j : Inode} {n : Name}
  {bytes : List UInt8} {events : List Event}

theorem runs_finish (h : Brings cfg draft dir fs placed) (events : List Event) :
    Runs cfg draft dir fs (finish cfg draft dir placed events).result
      (finish cfg draft dir placed events).files := by
  unfold finish
  cases hremove : placed.removeFile draft with
  | error e => exact .draftKept h hremove
  | ok removed =>
      dsimp only
      split
      · exact .unsynced h hremove
      · exact .installed h hremove

theorem runs_run (cfg : CheckedConfig) (draft dir : Path) (fs : FileSystem) :
    Runs cfg draft dir fs (run cfg draft dir fs).result (run cfg draft dir fs).files := by
  unfold run
  rcases hprovide : fs.provideDirectory dir with ⟨f | _, made⟩
  · have hmade : prepared dir fs = made := by rw [prepared, hprovide]
    exact hmade ▸ .noDirectory (by rw [hprovide])
  · have hmade : prepared dir fs = made := by rw [prepared, hprovide]
    have hok : (fs.provideDirectory dir).1 = .ok () := by rw [hprovide]
    subst hmade
    dsimp only
    cases hlink : (prepared dir fs).linkFile draft (cfg.manifestPath dir) with
    | ok linked => exact runs_finish (.linked hok hlink) []
    | error e =>
        dsimp only
        split
        · next hkind => exact .refused hlink hkind
        · next hkind =>
          have hback : FallsBack cfg draft dir fs := ⟨hok, e, hlink, hkind⟩
          split
          · next f left hcopy => exact .notCopied hback hcopy
          · next left hcopy => exact runs_finish (.copied hback hcopy) _

/-! ## Making the target directory -/

theorem grows_prepared (dir : Path) (fs : FileSystem) : fs.Grows (prepared dir fs) := by
  rw [prepared, provideDirectory_snd]
  exact grows_makeFirst fs _

/-! ## Bringing the manifest -/

theorem not_brings_of_error {f : Failure} (h : (fs.provideDirectory dir).1 = .error f) :
    ¬Brings cfg draft dir fs placed := by
  intro hbrings
  cases hbrings with
  | linked hok => simp [h] at hok
  | copied hback => simp [h, FallsBack] at hback

/-- Where a manifest is present nothing is brought. -/
theorem not_brings_of_refused {e : IoError}
    (h : (prepared dir fs).linkFile draft (cfg.manifestPath dir) = .error e)
    (hkind : e.kind = .alreadyExists) :
    ¬FallsBack cfg draft dir fs ∧ ∀ placed, ¬Brings cfg draft dir fs placed := by
  have hnot : ¬FallsBack cfg draft dir fs := by
    rintro ⟨_, e', he', hother⟩
    obtain rfl := Except.error.inj (h.symm.trans he')
    exact hother hkind
  refine ⟨hnot, fun placed hbrings => ?_⟩
  cases hbrings with
  | linked _ hlink => simp [h] at hlink
  | copied hback => exact hnot hback

theorem FallsBack.linkFile_ne (h : FallsBack cfg draft dir fs) {linked : FileSystem} :
    (prepared dir fs).linkFile draft (cfg.manifestPath dir) ≠ .ok linked := by
  obtain ⟨_, e, he, _⟩ := h
  simp [he]

theorem not_brings_of_notCopied {f : Failure} (h : FallsBack cfg draft dir fs)
    (hcopy : fallback cfg draft dir (prepared dir fs) = (.error f, left)) :
    ¬Brings cfg draft dir fs placed := by
  intro hbrings
  cases hbrings with
  | linked _ hlink => exact h.linkFile_ne hlink
  | copied _ hcopy' => cases hcopy.symm.trans hcopy'

theorem Brings.unique (h : Brings cfg draft dir fs placed) (h' : Brings cfg draft dir fs placed') :
    placed = placed' := by
  cases h with
  | linked _ hlink =>
      cases h' with
      | linked _ hlink' => exact Except.ok.inj (hlink.symm.trans hlink')
      | copied hback => exact absurd hlink hback.linkFile_ne
  | copied hback hcopy =>
      cases h' with
      | linked _ hlink => exact absurd hlink hback.linkFile_ne
      | copied _ hcopy' =>
          obtain ⟨_, rfl⟩ := Prod.mk.inj (hcopy.symm.trans hcopy')
          rfl

/-! ## Copying -/

/-- All that placing a copy can do: nothing, the copy, or the copy and its link. -/
theorem placeCopy_cases (cfg : CheckedConfig) (draft staging manifest : Path) (fs : FileSystem) :
    (∃ f, placeCopy cfg draft staging manifest fs = (.error f, fs) ∧
      ∃ e, fs.copyFile draft staging = .error e) ∨
    ∃ copied, fs.copyFile draft staging = .ok copied ∧
      ((∃ f, placeCopy cfg draft staging manifest fs = (.error f, copied)) ∨
        ∃ placed, placeCopy cfg draft staging manifest fs = (.ok (), placed) ∧
          copied.linkFile staging manifest = .ok placed) := by
  unfold placeCopy
  cases hcopy : fs.copyFile draft staging with
  | error e => exact .inl ⟨.io e, rfl, e, rfl⟩
  | ok copied =>
      refine .inr ⟨copied, rfl, ?_⟩
      dsimp only
      split
      · exact .inl ⟨_, rfl⟩
      · cases hlink : copied.linkFile staging manifest with
        | error e => exact .inl ⟨_, rfl⟩
        | ok placed => exact .inr ⟨placed, rfl, rfl⟩

theorem isDirectory_copyFile (h : fs.copyFile p q = .ok copied) (i : Inode) :
    copied.isDirectory i = fs.isDirectory i := by
  obtain ⟨_, _, _, _, _, _, _, _, hopens, hwritten⟩ := copyFile_spec h
  exact (hwritten.tree.isDirectory i).trans (hopens.isDirectory i)

theorem extends_copyFile (h : fs.copyFile p q = .ok copied) : fs.Extends copied := by
  obtain ⟨_, _, _, _, _, _, _, _, hopens, hwritten⟩ := copyFile_spec h
  exact hopens.extends.trans hwritten.tree.extends

/-- Placing a copy leaves all paths as they were. -/
theorem extends_placeCopy (cfg : CheckedConfig) (draft staging manifest : Path) (fs : FileSystem) :
    fs.Extends (placeCopy cfg draft staging manifest fs).2 := by
  rcases placeCopy_cases cfg draft staging manifest fs with
    ⟨f, h, _⟩ | ⟨copied, hcopy, ⟨f, h⟩ | ⟨placed, h, hlink⟩⟩
  · rw [h]
    exact .refl fs
  · rw [h]
    exact extends_copyFile hcopy
  · rw [h]
    exact (extends_copyFile hcopy).trans (grows_of_linkFile hlink).extends

theorem isDirectory_placeCopy (i : Inode) :
    (placeCopy cfg draft staging manifest fs).2.isDirectory i = fs.isDirectory i := by
  rcases placeCopy_cases cfg draft staging manifest fs with
    ⟨f, h, _⟩ | ⟨copied, hcopy, ⟨f, h⟩ | ⟨placed, h, hlink⟩⟩
  · rw [h]
  · rw [h]
    exact isDirectory_copyFile hcopy i
  · rw [h]
    obtain ⟨_, _, _, _, _, _, _, _, _, _, rfl⟩ := linkFile_eq_ok_iff.1 hlink
    rw [isDirectory_addEntry]
    exact isDirectory_copyFile hcopy i

/-- The one file that a copy rewrites is what the hidden name leads to. -/
theorem content?_copyFile (h : fs.copyFile p q = .ok copied)
    (hi : fs.content? i = some (.file bytes)) (hother : fs.find .follow q ≠ .ok i) :
    copied.content? i = some (.file bytes) := by
  obtain ⟨_, _, d, n, j, base, _, _, hopens, hwritten⟩ := copyFile_spec h
  have hne : i ≠ j := by
    rintro rfl
    cases hopens with
    | new => simp [content?_nextInode] at hi
    | old hslot hlength hchild hdir =>
        exact hother (Opens.find (.old hslot hlength hchild hdir) (.refl fs))
  rw [hwritten.other hne, hopens.content? hi]

theorem content?_placeCopy (hi : fs.content? i = some (.file bytes))
    (hother : fs.find .follow staging ≠ .ok i) :
    (placeCopy cfg draft staging manifest fs).2.content? i = some (.file bytes) := by
  rcases placeCopy_cases cfg draft staging manifest fs with
    ⟨f, h, _⟩ | ⟨copied, hcopy, ⟨f, h⟩ | ⟨placed, h, hlink⟩⟩
  · rw [h]
    exact hi
  · rw [h]
    exact content?_copyFile hcopy hi hother
  · rw [h]
    exact (grows_of_linkFile hlink).content?_file (content?_copyFile hcopy hi hother)

/-- What is opened for writing has a name. -/
theorem exists_slot_of_write {s : Slot} (h : fs.slot .write p = .ok s) :
    ∃ t, fs.slot .name p = .ok t := by
  obtain ⟨hcheck, links, hroute, hlinks⟩ := slot_eq_ok_iff.1 h
  obtain ⟨links', t, hname, hend⟩ := Route.split_last hroute
  refine ⟨t, slot_eq_ok_iff.2 ⟨hcheck, links', hname, ?_⟩⟩
  rcases hend with ⟨_, rfl⟩ | ⟨_, links'', _, _, rfl, _⟩
  · exact hlinks
  · simp only [List.length_append] at hlinks
    omega

/-- The hidden name stays where it is. -/
theorem names_placeCopy :
    (placeCopy cfg draft staging manifest fs).2.Names staging d n ↔ fs.Names staging d n := by
  have hextends := extends_placeCopy cfg draft staging manifest fs
  refine ⟨?_, Names.extend hextends⟩
  intro hnames
  rcases placeCopy_cases cfg draft staging manifest fs with ⟨f, h, _⟩ | ⟨copied, hcopy, _⟩
  · rwa [h] at hnames
  · obtain ⟨_, _, _, _, _, _, _, _, hopens, _⟩ := copyFile_spec hcopy
    obtain ⟨t, ht⟩ := exists_slot_of_write hopens.slot
    exact hnames.of_extends hextends ht

/-! ## The hidden name -/

theorem dropStaging_cases (staging : Path) (fs : FileSystem) :
    fs.removeFile staging = .ok (dropStaging staging fs) ∨
      (∀ removed, fs.removeFile staging ≠ .ok removed) ∧ dropStaging staging fs = fs := by
  unfold dropStaging
  cases fs.removeFile staging with
  | ok removed => exact .inl rfl
  | error e => exact .inr ⟨by simp, rfl⟩

theorem extends_dropStaging (staging : Path) (fs : FileSystem) :
    (dropStaging staging fs).Extends fs := by
  rcases dropStaging_cases staging fs with hremove | ⟨_, heq⟩
  · exact extends_removeFile hremove
  · rw [heq]
    exact .refl fs

theorem content?_dropStaging (h : fs.content? i = some (.file bytes)) :
    (dropStaging staging fs).content? i = some (.file bytes) := by
  rcases dropStaging_cases staging fs with hremove | ⟨_, heq⟩
  · exact content?_removeFile hremove h
  · rwa [heq]

theorem child?_dropStaging_iff (hi : fs.child? d n = some i) :
    (dropStaging staging fs).child? d n = some i ↔
      ¬(fs.Names staging d n ∧ ∃ removed, fs.removeFile staging = .ok removed) := by
  rcases dropStaging_cases staging fs with hremove | ⟨hfail, heq⟩
  · by_cases hnames : fs.Names staging d n
    · simp [child?_removeFile_of_names hremove hnames, hnames, hremove]
    · simp [child?_removeFile hremove hnames, hnames, hi]
  · simp [heq, hi, hfail]

/-- The entry of the hidden name can be removed, and so it will be when the draft is copied. -/
def Clears (cfg : CheckedConfig) (dir : Path) (fs : FileSystem) (d : Inode) (n : Name) : Prop :=
  fs.Names (stagingPath cfg dir) d n ∧ ∃ removed, fs.removeFile (stagingPath cfg dir) = .ok removed

/-- An entry outlives the copying of a draft exactly if it is not the hidden file's. -/
theorem child?_fallback_iff (cfg : CheckedConfig) (draft dir : Path)
    (hi : fs.child? d n = some i) :
    (dropStaging (stagingPath cfg dir) (fallback cfg draft dir fs).2).child? d n = some i ↔
      ¬Clears cfg dir fs d n := by
  have hextends : fs.Extends (fallback cfg draft dir fs).2 := extends_placeCopy cfg draft _ _ fs
  rw [child?_dropStaging_iff (hextends.child? hi), Clears, not_iff_not]
  have hnames : (fallback cfg draft dir fs).2.Names (stagingPath cfg dir) d n ↔
      fs.Names (stagingPath cfg dir) d n := names_placeCopy
  rw [hnames]
  apply and_congr_right
  rintro ⟨slash, hslot⟩
  rw [exists_removeFile_iff (slot_name_extend hextends hslot) (hextends.child? hi),
    exists_removeFile_iff hslot hi, hextends.allows (isDirectory_of_slot hslot rfl),
    fallback, isDirectory_placeCopy]

/-! ## The entry of the draft -/

/-- A draft that is brought into its place has an entry. -/
theorem Brings.exists_slot (h : Brings cfg draft dir fs placed) :
    ∃ t j, (prepared dir fs).slot .name draft = .ok t ∧
      (prepared dir fs).step t.dir t.last = .ok j := by
  cases h with
  | linked _ hlink =>
      obtain ⟨_, _, _, hi, _⟩ := linkFile_eq_ok_iff.1 hlink
      exact exists_slot_name hi
  | copied _ hcopy =>
      obtain ⟨copied, hcopied, _⟩ := placeCopy_eq_ok hcopy
      obtain ⟨_, _, _, _, _, _, hi, _⟩ := copyFile_spec hcopied
      exact exists_slot_name hi

theorem Brings.names_draft (h : Brings cfg draft dir fs placed)
    (hp : placed.Names draft d n) : (prepared dir fs).Names draft d n := by
  obtain ⟨t, _, hslot, _⟩ := h.exists_slot
  cases h with
  | linked _ hlink => exact hp.of_extends (grows_of_linkFile hlink).extends hslot
  | copied _ hcopy =>
      have hextends : (prepared dir fs).Extends _ :=
        extends_placeCopy cfg draft (stagingPath cfg dir) (cfg.manifestPath dir) _
      have hp' := hp.extend (extends_dropStaging _ _)
      refine Names.of_extends hextends hslot ?_
      rw [fallback] at hcopy
      rwa [hcopy]

end Hardlinks.Installation
