-- SUMMARY: What an installation disturbs besides the draft, whether it fails or not.
import Hardlinks.Proofs.FileSystem.WellFormed
import Hardlinks.Proofs.Installation.Endings

/-!
# The effect of an installation

Whatever an installation returns, it keeps every entry but the draft's own, with one exception: a
draft that is copied costs the entry of the hidden file, if one was there, and what that entry led
to is overwritten (`child?_run_iff`).
-/

namespace Hardlinks.Installation

open FileSystem

variable {cfg : CheckedConfig} {draft dir : Path} {fs placed copied : FileSystem} {d i j : Inode}
  {n : Name} {bytes bytes' : List UInt8} {f : Failure}

/-! ## Entries and files that were there -/

theorem Brings.child?_iff (h : Brings cfg draft dir fs placed)
    (hi : (prepared dir fs).child? d n = some i) :
    placed.child? d n = some i ↔
      ¬(FallsBack cfg draft dir fs ∧ Clears cfg dir (prepared dir fs) d n) := by
  cases h with
  | linked hok hlink =>
      have hnot : ¬FallsBack cfg draft dir fs := fun hback => hback.linkFile_ne hlink
      simp [(grows_of_linkFile hlink).extends.child? hi, hnot]
  | copied hback hcopy =>
      have hiff := child?_fallback_iff cfg draft dir hi
      rw [hcopy] at hiff
      simpa [hback] using hiff

theorem content?_fallback (draft : Path)
    (hi : fs.content? i = some (.file bytes))
    (hother : fs.find .follow (stagingPath cfg dir) ≠ .ok i) :
    (dropStaging (stagingPath cfg dir) (fallback cfg draft dir fs).2).content? i =
      some (.file bytes) :=
  content?_dropStaging (content?_placeCopy hi hother)

theorem Brings.content? (h : Brings cfg draft dir fs placed)
    (hi : (prepared dir fs).content? i = some (.file bytes))
    (hother : ¬(FallsBack cfg draft dir fs ∧
      (prepared dir fs).find .follow (stagingPath cfg dir) = .ok i)) :
    placed.content? i = some (.file bytes) := by
  cases h with
  | linked _ hlink => exact (grows_of_linkFile hlink).content?_file hi
  | copied hback hcopy =>
      have hkept := content?_fallback draft hi fun hfind => hother ⟨hback, hfind⟩
      rwa [hcopy] at hkept

/-- A file that the hidden name leads to is overwritten with the draft, or emptied if it is the
draft. -/
theorem content?_overwritten (hi : fs.find .follow (stagingPath cfg dir) = .ok i)
    (hold : fs.content? i = some (.file bytes')) (hj : fs.find .follow draft = .ok j)
    (hbytes : fs.content? j = some (.file bytes))
    (hcopy : fs.copyFile draft (stagingPath cfg dir) = .ok copied) :
    (dropStaging (stagingPath cfg dir) (fallback cfg draft dir fs).2).content? i =
      some (.file (if j = i then [] else bytes)) := by
  obtain ⟨j', old, d, n, i', base, hj', hold', hopens, hwritten⟩ := copyFile_spec hcopy
  obtain rfl := Except.ok.inj (hj.symm.trans hj')
  obtain rfl : bytes = old := by simpa [hold'] using hbytes.symm
  obtain rfl := hopens.eq_of_find hi
  have hcopied := hwritten.file (hopens.content? hold)
  apply content?_dropStaging
  rcases placeCopy_cases cfg draft (stagingPath cfg dir) (cfg.manifestPath dir) fs with
    ⟨_, _, _, hfail⟩ | ⟨copied', hcopy', ⟨_, h⟩ | ⟨placed, h, hlink⟩⟩
  · simp [hcopy] at hfail
  · obtain rfl := Except.ok.inj (hcopy.symm.trans hcopy')
    rw [fallback, h]
    exact hcopied
  · obtain rfl := Except.ok.inj (hcopy.symm.trans hcopy')
    rw [fallback, h]
    exact (grows_of_linkFile hlink).content?_file hcopied

/-- A file keeps its bytes unless the draft is copied and the hidden name leads to the file. -/
theorem content?_run (hold : fs.content? i = some (.file bytes))
    (hother : ¬(FallsBack cfg draft dir fs ∧
      (prepared dir fs).find .follow (stagingPath cfg dir) = .ok i)) :
    (run cfg draft dir fs).files.content? i = some (.file bytes) := by
  have hi := (grows_prepared dir fs).content?_file hold
  have hruns := runs_run cfg draft dir fs
  generalize (run cfg draft dir fs).result = result at hruns
  generalize (run cfg draft dir fs).files = files at hruns ⊢
  cases hruns with
  | noDirectory => exact hi
  | refused => exact hi
  | notCopied hback hcopy =>
      have hkept := content?_fallback draft hi fun hfind => hother ⟨hback, hfind⟩
      rwa [hcopy] at hkept
  | draftKept hbrings => exact hbrings.content? hi hother
  | unsynced hbrings hremove => exact content?_removeFile hremove (hbrings.content? hi hother)
  | installed hbrings hremove => exact content?_removeFile hremove (hbrings.content? hi hother)

theorem not_fallsBack_of_error (h : (fs.provideDirectory dir).1 = .error f) :
    ¬FallsBack cfg draft dir fs := by
  rintro ⟨hok, _⟩
  rw [h] at hok
  cases hok

/-- An entry other than the draft's is kept exactly if the draft is not copied or the entry is not
the hidden file's. -/
theorem child?_run_iff_not_clears (hold : fs.child? d n = some i)
    (hdraft : ¬(prepared dir fs).Names draft d n) :
    (run cfg draft dir fs).files.child? d n = some i ↔
      ¬(FallsBack cfg draft dir fs ∧ Clears cfg dir (prepared dir fs) d n) := by
  have hi := (grows_prepared dir fs).extends.child? hold
  have hremoved : ∀ {placed removed}, Brings cfg draft dir fs placed →
      placed.removeFile draft = .ok removed → removed.child? d n = placed.child? d n := by
    intro placed removed hbrings hremove
    exact child?_removeFile hremove fun hp => hdraft (hbrings.names_draft hp)
  have hruns := runs_run cfg draft dir fs
  generalize (run cfg draft dir fs).result = result at hruns
  generalize (run cfg draft dir fs).files = files at hruns ⊢
  cases hruns with
  | noDirectory hf => simp [hi, not_fallsBack_of_error hf]
  | refused hlink hkind => simp [hi, (not_brings_of_refused hlink hkind).1]
  | notCopied hback hcopy =>
      have hiff := child?_fallback_iff cfg draft dir hi
      rw [hcopy] at hiff
      simpa [hback] using hiff
  | draftKept hbrings => exact hbrings.child?_iff hi
  | unsynced hbrings hremove =>
      rw [hremoved hbrings hremove]
      exact hbrings.child?_iff hi
  | installed hbrings hremove =>
      rw [hremoved hbrings hremove]
      exact hbrings.child?_iff hi

/-- What the hidden name leads to holds the bytes of a draft that was copied over it. Only of the
draft itself nothing is left. -/
theorem content?_run_of_overwritten (hback : FallsBack cfg draft dir fs)
    (hi : (prepared dir fs).find .follow (stagingPath cfg dir) = .ok i)
    (hold : (prepared dir fs).content? i = some (.file bytes'))
    (hj : (prepared dir fs).find .follow draft = .ok j)
    (hbytes : (prepared dir fs).content? j = some (.file bytes))
    (hcopied : (prepared dir fs).copyFile draft (stagingPath cfg dir) = .ok copied) :
    (run cfg draft dir fs).files.content? i = some (.file (if j = i then [] else bytes)) := by
  have hover := content?_overwritten hi hold hj hbytes hcopied
  have hbrought : ∀ {placed}, Brings cfg draft dir fs placed →
      placed.content? i = some (.file (if j = i then [] else bytes)) := by
    intro placed hbrings
    cases hbrings with
    | linked _ hlink => exact absurd hlink hback.linkFile_ne
    | copied _ hcopy => rwa [hcopy] at hover
  have hruns := runs_run cfg draft dir fs
  generalize (run cfg draft dir fs).result = result at hruns
  generalize (run cfg draft dir fs).files = files at hruns ⊢
  cases hruns with
  | noDirectory hf => exact absurd hback (not_fallsBack_of_error hf)
  | refused hlink hkind => exact absurd hback (not_brings_of_refused hlink hkind).1
  | notCopied _ hcopy => rwa [hcopy] at hover
  | draftKept hbrings => exact hbrought hbrings
  | unsynced hbrings hremove => exact content?_removeFile hremove (hbrought hbrings)
  | installed hbrings hremove => exact content?_removeFile hremove (hbrought hbrings)

/-- Whatever an installation returns, an entry other than the draft's is kept exactly if the draft
is not copied or the entry is not the hidden file's. A file keeps its bytes unless it is what the
hidden name leads to; if the draft is copied over that file, it holds what the draft held. -/
theorem child?_run_iff (cfg : CheckedConfig) (draft dir : Path) (fs : FileSystem) :
    (∀ {d n i}, fs.child? d n = some i → ¬(prepared dir fs).Names draft d n →
      ((run cfg draft dir fs).files.child? d n = some i ↔
        ¬(FallsBack cfg draft dir fs ∧ Clears cfg dir (prepared dir fs) d n))) ∧
    (∀ {i bytes}, fs.content? i = some (.file bytes) →
      ¬(FallsBack cfg draft dir fs ∧
        (prepared dir fs).find .follow (stagingPath cfg dir) = .ok i) →
      (run cfg draft dir fs).files.content? i = some (.file bytes)) ∧
    (∀ {i j old bytes copied}, FallsBack cfg draft dir fs →
      (prepared dir fs).find .follow (stagingPath cfg dir) = .ok i →
      (prepared dir fs).content? i = some (.file old) →
      (prepared dir fs).find .follow draft = .ok j → j ≠ i →
      (prepared dir fs).content? j = some (.file bytes) →
      (prepared dir fs).copyFile draft (stagingPath cfg dir) = .ok copied →
      (run cfg draft dir fs).files.content? i = some (.file bytes)) := by
  refine ⟨?_, ?_, ?_⟩
  · intro d n i hold hdraft
    exact child?_run_iff_not_clears hold hdraft
  · intro i bytes hold hother
    exact content?_run hold hother
  · intro i j old bytes copied hback hi hold hj hne hbytes hcopied
    rw [content?_run_of_overwritten hback hi hold hj hbytes hcopied, if_neg hne]

/-- A file with the hidden file's name. -/
def hiddenFile : FileSystem :=
  withFiles [(".hardLinkFile.tmp", "precious")]

/-- A draft that does not even exist costs the hidden file its entry. -/
theorem hiddenFile_lost :
    (run .default (.ofString "missing") (.ofString ".") hiddenFile).result =
        .error (.io (.system .noEntry)) ∧
      hiddenFile.child? 1 (Utf8.encode ".hardLinkFile.tmp") = some 4 ∧
      (run .default (.ofString "missing") (.ofString ".") hiddenFile).files.child? 1
        (Utf8.encode ".hardLinkFile.tmp") ≠ some 4 := by
  have hchild : hiddenFile.child? 1 (Utf8.encode ".hardLinkFile.tmp") = some 4 := by rfl
  refine ⟨by rfl, hchild, ?_⟩
  have hdraft : (prepared (.ofString ".") hiddenFile).Names (.ofString "missing") 1
      (Utf8.encode "missing") := ⟨false, by rfl⟩
  have hback : FallsBack .default (.ofString "missing") (.ofString ".") hiddenFile :=
    ⟨by rfl, _, by rfl, by decide⟩
  have hclears : Clears .default (.ofString ".") (prepared (.ofString ".") hiddenFile) 1
      (Utf8.encode ".hardLinkFile.tmp") := ⟨⟨false, by rfl⟩, _, by rfl⟩
  have hother : ¬(prepared (.ofString ".") hiddenFile).Names (.ofString "missing") 1
      (Utf8.encode ".hardLinkFile.tmp") := by
    intro hnames
    exact absurd (hnames.unique hdraft).2 (by decide)
  intro hkept
  have hiff := (child?_run_iff .default (.ofString "missing") (.ofString ".") hiddenFile).1
    hchild hother
  exact hiff.1 hkept ⟨hback, hclears⟩

end Hardlinks.Installation
