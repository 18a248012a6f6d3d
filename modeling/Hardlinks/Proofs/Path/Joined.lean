-- SUMMARY: The fields of entries, joined to a directory: where they lead, and when two agree.
import Hardlinks.Proofs.Manifest.RoundTrip
import Hardlinks.Proofs.Path.Names

/-!
# Fields joined to a directory

What the rules for entries accept as a field is accepted on its own, whatever the other field is
(`Entry.accepts_iff`). Such a field goes down from the directory by its names, however it is spelled
and however the directory is, and two fields lead to one path exactly if they have the same names
(`Entry.join_of_accepts`).
-/

namespace Hardlinks.Entry

variable {dir field other : Path}

/-- The rules for entries accept the path, as the destination or the source of some entry. -/
def Accepts (field : Path) : Prop :=
  ∃ other, defect? field other = none ∨ defect? other field = none

theorem exists_contained_ne (field : Path) :
    ∃ other : Path, other.isContained = true ∧ field ≠ other := by
  by_cases heq : field = .ofString "a"
  · exact ⟨.ofString "b", by decide, by rw [heq]; decide⟩
  · exact ⟨.ofString "a", by decide, heq⟩

theorem accepts_iff : Accepts field ↔ field.isContained = true := by
  constructor
  · rintro ⟨other, h | h⟩
    · exact (defect?_eq_none_iff.1 h).1
    · exact (defect?_eq_none_iff.1 h).2.1
  · intro h
    obtain ⟨other, hother, hne⟩ := exists_contained_ne field
    exact ⟨other, .inl (defect?_eq_none_iff.2 ⟨h, hother, hne⟩)⟩

theorem Accepts.inside (h : Accepts field) : field.Inside :=
  Path.inside_of_isContained (accepts_iff.1 h)

/-- Joined to a directory, an accepted field has the components of the directory and then its own
names, and two accepted fields are one path exactly if their names are the same. -/
theorem join_of_accepts (hdir : dir.isEmpty = false) (hfield : Accepts field)
    (hother : Accepts other) :
    (dir.join field).components = dir.components ++ field.names.map .name ∧
      ((dir.join field).same (dir.join other) = true ↔ field.names = other.names) :=
  ⟨Path.components_join hdir hfield.inside, Path.same_join_iff hdir hfield.inside hother.inside⟩

/-- Two spellings of one path below a directory that is written with `..` and a slash at its end. -/
theorem join_of_accepts_two_spellings :
    let dir := Path.ofString "../t/"
    let field := Path.ofString "./a//b/."
    let other := Path.ofString "a/./b"
    Accepts field ∧ Accepts other ∧
      (dir.join field).components = dir.components ++ field.names.map .name ∧
      (dir.join field).same (dir.join other) = true := by
  intro dir field other
  have hdir : dir.isEmpty = false := by decide
  have hfield : Accepts field := accepts_iff.2 (by decide)
  have hother : Accepts other := accepts_iff.2 (by decide)
  obtain ⟨hcomponents, hsame⟩ := join_of_accepts hdir hfield hother
  exact ⟨hfield, hother, hcomponents, hsame.2 (by decide)⟩

end Hardlinks.Entry
