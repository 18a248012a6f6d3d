-- SUMMARY: What the manifest holds after an installation, and when that is not what the draft held.
import Hardlinks.Proofs.Installation.Copying

/-!
# The installed manifest

An installation that succeeds leaves a manifest that holds what the draft held (`Brings.holds`). The
exception is a draft that was copied while the hidden name led somewhere already. If it led to the
null device, the manifest is another way to that device and reads as empty (`text_of_null`). If it
led to the draft itself, the copy emptied the draft, the manifest is a link to the draft's name, and
that name is removed (`find_of_own_copy`).
-/

namespace Hardlinks.Installation

open FileSystem

variable {cfg : CheckedConfig} {draft dir p staging manifest : Path}
  {fs placed removed left : FileSystem} {d i j k : Inode} {n : Name} {bytes text : List UInt8}

/-- An installation that succeeds has brought the manifest and removed the draft's name. -/
theorem brings_of_run (h : (run cfg draft dir fs).result = .ok manifest) :
    ∃ placed, Brings cfg draft dir fs placed ∧
      placed.removeFile draft = .ok (run cfg draft dir fs).files := by
  have hruns := runs_run cfg draft dir fs
  rw [h] at hruns
  generalize (run cfg draft dir fs).files = files at hruns ⊢
  cases hruns with
  | installed hbrings hremove => exact ⟨_, hbrings, hremove⟩

theorem Brings.fallback (h : Brings cfg draft dir fs placed) (hback : FallsBack cfg draft dir fs) :
    ∃ left, fallback cfg draft dir (prepared dir fs) = (.ok (), left) ∧
      placed = dropStaging (stagingPath cfg dir) left := by
  cases h with
  | linked _ hlink => exact absurd hlink hback.linkFile_ne
  | copied _ hcopy => exact ⟨_, hcopy, rfl⟩

/-! ## The draft before it is brought -/

/-- A file that has just been made has no other name when the target directory is made. -/
theorem sole_of_createFile {base : FileSystem} {mode : Mode} (hbase : base.WellFormed)
    (h : base.createFile draft mode bytes = .ok fs) (dir : Path) :
    ∃ d n i, FileAt (prepared dir fs) draft d n i bytes ∧
      ∀ {a b}, (prepared dir fs).child? a b = some i → a = d ∧ b = n := by
  obtain ⟨d, n, hfile, hchild⟩ := fileAt_of_createFile h
  have hfile' := hfile.grows (grows_prepared dir fs)
  refine ⟨d, n, _, hfile', fun {a b} hi => ?_⟩
  rw [prepared, provideDirectory_snd] at hi hfile'
  rcases child?_makeFirst hi with hold | ⟨_, _, _, hdir, _⟩
  · rw [hchild] at hold
    split at hold
    · assumption
    · exact absurd (hbase.child? hold) (Nat.lt_irrefl _)
  · simp [FileSystem.isDirectory, hfile'.content?] at hdir

/-! ## A manifest that holds the draft -/

theorem holds_dropStaging (hholds : Holds fs p bytes) (hstaging : Apart fs p staging)
    (hdraft : Apart fs p draft) :
    Holds (dropStaging staging fs) p bytes ∧ Apart (dropStaging staging fs) p draft := by
  rcases dropStaging_cases staging fs with hremove | ⟨_, heq⟩
  · obtain ⟨j, hj, hbytes⟩ := hholds.removeFile hstaging hremove
    exact ⟨⟨j, hj, hbytes⟩, hdraft.of_extends (extends_dropStaging staging fs) hj⟩
  · rw [heq]
    exact ⟨hholds, hdraft⟩

/-- The draft's name is not on the way to a copy of the draft. -/
theorem apart_of_ne (hfile : FileAt fs draft d n i bytes) (hextends : fs.Extends left)
    (hj : left.find .follow p = .ok j) (hne : i ≠ j) : Apart left p draft := by
  have hstep := hextends.step_name hfile.step
  have htarget : left.target? i = none := by rw [hextends.target?, hfile.target?_eq_none]
  refine apart_of_file hj ⟨false, slot_name_extend hextends hfile.slot⟩ hstep htarget ?_
  intro links s _ hlast heq
  obtain ⟨rfl, hname⟩ := Prod.mk.inj heq
  rw [← hname] at hlast
  exact hne (Except.ok.inj (hstep.symm.trans hlast))

/-- A draft that is brought into its place is the manifest, unless it is copied to itself or to the
null device. -/
theorem Brings.holds (h : Brings cfg draft dir fs placed) (hfs : (prepared dir fs).WellFormed)
    (hfile : FileAt (prepared dir fs) draft d n i bytes)
    (hstaging : FallsBack cfg draft dir fs → ∀ j,
      (prepared dir fs).find .follow (stagingPath cfg dir) = .ok j →
      i ≠ j ∧ ((prepared dir fs).content? j = some .null → bytes = [])) :
    Holds placed (cfg.manifestPath dir) bytes ∧ Apart placed (cfg.manifestPath dir) draft := by
  cases h with
  | linked _ hlink => exact holds_of_linkFile hfile hlink
  | copied hback hcopy =>
      obtain ⟨i', bytes', _, _, j, base, copied, hi, hcontent, hopens, hwritten, hlink, hfind,
        hapart, _⟩ := find_of_placeCopy hcopy
      have hgrows := grows_of_linkFile hlink
      obtain rfl := Except.ok.inj ((hfile.find .follow).symm.trans hi)
      obtain rfl : bytes = bytes' := by simpa [hcontent] using hfile.content?.symm
      have hne : i ≠ j := by
        rcases hopens.found_or_new with ⟨hfound, _⟩ | ⟨rfl, _⟩
        · exact (hstaging hback j hfound).1
        · rintro rfl
          simp [content?_nextInode] at hcontent
      have hbytes : copied.bytes? j = some bytes := by
        rcases hfs.content?_opens hopens with ⟨old, hold⟩ | hnull
        · have hfilled := hwritten.file hold
          rw [if_neg hne] at hfilled
          exact bytes?_of_content? hfilled
        · rcases hopens.found_or_new with ⟨hfound, _, rfl⟩ | ⟨_, hnew⟩
          · simp [bytes?, hwritten.device hnull, (hstaging hback j hfound).2 hnull]
          · simp [hnull] at hnew
      have hextends := (hopens.extends.trans hwritten.tree.extends).trans hgrows.extends
      exact holds_dropStaging ⟨j, hfind, hgrows.bytes? hbytes⟩ hapart
        (apart_of_ne hfile hextends hfind hne)

/-! ## A manifest that does not -/

theorem bytes?_dropStaging (staging : Path) (fs : FileSystem) (i : Inode) :
    (dropStaging staging fs).bytes? i = fs.bytes? i := by
  rcases dropStaging_cases staging fs with hremove | ⟨_, heq⟩
  · exact bytes?_removeFile hremove i
  · rw [heq]

/-- A draft that is copied to the null device leaves an empty manifest. -/
theorem text_of_null (h : Brings cfg draft dir fs placed) (hback : FallsBack cfg draft dir fs)
    (hremove : placed.removeFile draft = .ok removed)
    (hk : (prepared dir fs).find .follow (stagingPath cfg dir) = .ok k)
    (hnull : (prepared dir fs).content? k = some .null)
    (htext : removed.readText (cfg.manifestPath dir) = .ok text) : text = [] := by
  obtain ⟨left, hcopy, rfl⟩ := h.fallback hback
  obtain ⟨_, _, _, _, j, base, copied, _, _, hopens, hwritten, hlink, hfind, _⟩ :=
    find_of_placeCopy hcopy
  obtain rfl := hopens.eq_of_find hk
  have hbytes : left.bytes? k = some [] := by
    rcases hopens.found_or_new with ⟨_, _, rfl⟩ | ⟨rfl, _⟩
    · exact (grows_of_linkFile hlink).bytes? (by simp [bytes?, hwritten.device hnull])
    · simp [content?_nextInode] at hnull
  obtain ⟨j, hj, _, hread⟩ := readFile_eq_ok_iff.1 (readText_eq_ok_iff.1 htext).1
  have hextends := (extends_removeFile hremove).trans (extends_dropStaging _ _)
  obtain rfl := Except.ok.inj ((find_extend hextends hj).symm.trans hfind)
  rw [bytes?_removeFile hremove, bytes?_dropStaging, hbytes] at hread
  exact (Option.some.inj hread).symm

/-- A draft whose only name is removed, after the copy of it was written to itself, is not reached
by way of the manifest. -/
theorem find_of_own_copy (h : Brings cfg draft dir fs placed) (hback : FallsBack cfg draft dir fs)
    (hremove : placed.removeFile draft = .ok removed)
    (hfile : FileAt (prepared dir fs) draft d n i bytes)
    (hsole : ∀ {a b}, (prepared dir fs).child? a b = some i → a = d ∧ b = n)
    (hi : (prepared dir fs).find .follow (stagingPath cfg dir) = .ok i) :
    removed.find .follow (cfg.manifestPath dir) ≠ .ok j := by
  obtain ⟨left, hcopy, rfl⟩ := h.fallback hback
  obtain ⟨_, _, a, b, _, base, copied, _, _, hopens, hwritten, hlink, hfind, _, hend⟩ :=
    find_of_placeCopy hcopy
  obtain rfl := hopens.eq_of_find hi
  rcases hopens.found_or_new with ⟨_, hchild, rfl⟩ | ⟨rfl, _⟩
  · obtain ⟨rfl, rfl⟩ := hsole hchild
    rcases hend with hkeep | huses
    · -- The hidden name is the draft's, which could not be linked.
      obtain ⟨linked, hlinked⟩ := hwritten.tree.linkFile hlink hkeep (hfile.find .keep)
      exact absurd hlinked hback.linkFile_ne
    · intro hj
      obtain ⟨a', b', _, hnames, _, hstep, hdir, rfl⟩ := removeFile_names hremove
      obtain ⟨rfl, rfl⟩ := (h.names_draft hnames).unique ⟨false, hfile.slot⟩
      have hplaced := find_extend (extends_removeEntry _ _) hj
      have hleft := find_extend (extends_dropStaging _ _) hplaced
      obtain rfl := Except.ok.inj (hleft.symm.trans hfind)
      exact (find_removeEntry_iff hplaced hstep hdir).1 hj
        ((uses_extend (extends_dropStaging _ _) hplaced).1 huses)
  · have hcontent := hfile.content?
    simp [content?_nextInode] at hcontent

end Hardlinks.Installation
