-- SUMMARY: The grammar of fields and lines told on the text alone, and the rule that is named for what it leaves out.
import Hardlinks.Proofs.Manifest.RoundTrip

/-!
# The grammar of manifests

The rules look at the components of a path, the grammar at its text: a field must not be empty,
start with a slash or have two dots between slashes (`Path.isContained_iff`). Two fields keep the
rules or break a first one (`Entry.exists_breaks`), so both outcomes are told without the order in
which the rules are tried: an entry is made exactly of fields that keep them
(`Entry.make_eq_ok_iff_admitted`, `Entry.make_eq_error_iff`), and a line reads as an entry exactly
if it is two such fields (`Entry.ofLine_iff`).
-/

namespace Hardlinks

/-! ## Fields -/

namespace Path

variable {p : Path}

/-- A text that leads out of the directory it is taken from: it starts at the root, or has two dots
between slashes. -/
def Escapes (p : Path) : Prop :=
  p.bytes.head? = some slash ∨ [dot, dot] ∈ p.bytes.splitOn slash

/-- A text that holds a byte of the line format. -/
def Unencodable (p : Path) : Prop :=
  Text.tab ∈ p.bytes ∨ Text.newline ∈ p.bytes ∨ Text.carriageReturn ∈ p.bytes

theorem component?_eq_some_up_iff {part : Name} :
    component? part = some .up ↔ part = [dot, dot] := by
  unfold component?
  grind

theorem up_mem_components_iff : .up ∈ p.components ↔ [dot, dot] ∈ p.parts := by
  have hanchor : Component.up ∉ p.anchor := by
    unfold anchor
    grind
  rw [components, List.mem_append, List.mem_filterMap]
  simp [hanchor, component?_eq_some_up_iff]

theorem root_mem_components_iff : .root ∈ p.components ↔ p.bytes.head? = some slash := by
  have hparts : Component.root ∉ p.parts.filterMap component? := by
    simp only [List.mem_filterMap, not_exists, not_and]
    intro part _
    unfold component?
    grind
  rw [components, List.mem_append, or_iff_left hparts, anchor, isAbsolute]
  grind

/-- A path stays inside by its components exactly if its text does. -/
theorem isContained_iff : p.isContained = true ↔ p.bytes ≠ [] ∧ ¬ p.Escapes := by
  have hempty : (!p.isEmpty) = true ↔ p.bytes ≠ [] := by simp [isEmpty]
  rw [isContained, Bool.and_eq_true, hempty, List.all_eq_true, Escapes, not_or,
    ← root_mem_components_iff, ← parts, ← up_mem_components_iff]
  refine and_congr_right fun _ => ?_
  constructor
  · intro hall
    exact ⟨fun hroot => absurd (hall .root hroot) (by decide),
      fun hup => absurd (hall .up hup) (by decide)⟩
  · rintro ⟨hroot, hup⟩ c hc
    cases c with
    | root => exact absurd hc hroot
    | up => exact absurd hc hup
    | here => rfl
    | name n => rfl

end Path

namespace Entry

variable {e : Entry} {destination source : Path} {line : List UInt8} {defect : Defect} {f : Failure}

/-- Two fields that keep the rules. -/
structure Follows (destination source : Path) : Prop where
  destination_ne : destination.bytes ≠ []
  source_ne : source.bytes ≠ []
  destination_in : ¬ destination.Escapes
  source_in : ¬ source.Escapes
  distinct : destination ≠ source

/-- The first rule that two fields break. -/
inductive Breaks (destination source : Path) : Defect → Prop where
  | emptyField (h : destination.bytes = [] ∨ source.bytes = []) :
      Breaks destination source .emptyField
  | escapes (hdestination : destination.bytes ≠ []) (hsource : source.bytes ≠ [])
      (h : destination.Escapes ∨ source.Escapes) : Breaks destination source .escapes
  | sameField (hne : destination.bytes ≠ []) (hin : ¬ destination.Escapes)
      (h : destination = source) : Breaks destination source .sameField

theorem defect?_eq_none_iff_follows :
    defect? destination source = none ↔ Follows destination source := by
  rw [defect?_eq_none_iff, Path.isContained_iff, Path.isContained_iff]
  constructor
  · rintro ⟨⟨hne, hin⟩, ⟨hne', hin'⟩, hdistinct⟩
    exact ⟨hne, hne', hin, hin', hdistinct⟩
  · rintro ⟨hne, hne', hin, hin', hdistinct⟩
    exact ⟨⟨hne, hin⟩, ⟨hne', hin'⟩, hdistinct⟩

theorem Breaks.defect?_eq (h : Breaks destination source defect) :
    defect? destination source = some defect := by
  unfold defect?
  cases h with
  | emptyField h => rw [if_pos (by simpa [Path.isEmpty] using h)]
  | escapes hdestination hsource h =>
      have hout : ¬ (destination.isContained && source.isContained) = true := by
        rw [Bool.and_eq_true, Path.isContained_iff, Path.isContained_iff]
        exact fun ⟨⟨_, hin⟩, _, hin'⟩ => h.elim hin hin'
      rw [if_neg (by simp [Path.isEmpty, hdestination, hsource]),
        if_pos (by rwa [← Bool.not_and, Bool.not_eq_true', ← Bool.not_eq_true])]
  | sameField hne hin h =>
      subst h
      have hcontained := Path.isContained_iff.2 ⟨hne, hin⟩
      simp [Path.isEmpty, hne, hcontained]

/-- Two fields keep the rules or break a first one. -/
theorem exists_breaks (h : ¬ Follows destination source) :
    ∃ defect, Breaks destination source defect := by
  by_cases hempty : destination.bytes = [] ∨ source.bytes = []
  · exact ⟨_, .emptyField hempty⟩
  · obtain ⟨hdestination, hsource⟩ := not_or.1 hempty
    by_cases hout : destination.Escapes ∨ source.Escapes
    · exact ⟨_, .escapes hdestination hsource hout⟩
    · obtain ⟨hin, hin'⟩ := not_or.1 hout
      by_cases hsame : destination = source
      · exact ⟨_, .sameField hdestination hin hsame⟩
      · exact absurd ⟨hdestination, hsource, hin, hin', hsame⟩ h

theorem defect?_eq_some_iff :
    defect? destination source = some defect ↔ Breaks destination source defect := by
  constructor
  · intro h
    have hbroken : ¬ Follows destination source := by
      intro hfollows
      rw [defect?_eq_none_iff_follows.2 hfollows] at h
      cases h
    obtain ⟨first, hfirst⟩ := exists_breaks hbroken
    obtain rfl : first = defect := Option.some.inj (hfirst.defect?_eq.symm.trans h)
    exact hfirst
  · exact Breaks.defect?_eq

/-! ## Fields made into an entry -/

/-- Two fields that an entry may be made of. -/
structure Admitted (destination source : Path) : Prop extends Follows destination source where
  destination_encodable : ¬ destination.Unencodable
  source_encodable : ¬ source.Unencodable

/-- Why no entry is made of two fields: first the bytes of the line format, then the rules. -/
inductive Refused (destination source : Path) : Failure → Prop where
  | destination (h : destination.Unencodable) :
      Refused destination source (.unencodable destination)
  | source (hdestination : ¬ destination.Unencodable) (h : source.Unencodable) :
      Refused destination source (.unencodable source)
  | breaks {defect : Defect} (hdestination : ¬ destination.Unencodable)
      (hsource : ¬ source.Unencodable) (h : Breaks destination source defect) :
      Refused destination source (.invalidEntry source destination defect)

theorem isEncodable_eq_true_iff {field : Path} :
    isEncodable field = true ↔ ¬ field.Unencodable := by
  rw [isEncodable_iff, Path.Unencodable, not_or, not_or]

theorem make_eq_ok_iff_admitted :
    make destination source = .ok e ↔ e = ⟨destination, source⟩ ∧ Admitted destination source := by
  rw [make_eq_ok_iff]
  refine and_congr_right ?_
  rintro rfl
  rw [Writable, isEncodable_eq_true_iff, isEncodable_eq_true_iff, defect?_eq_none_iff_follows]
  constructor
  · rintro ⟨hdestination, hsource, hfollows⟩
    exact ⟨hfollows, hdestination, hsource⟩
  · rintro ⟨hfollows, hdestination, hsource⟩
    exact ⟨hdestination, hsource, hfollows⟩

theorem make_eq_error_iff : make destination source = .error f ↔ Refused destination source f := by
  have hencodable {field : Path} : (!isEncodable field) = true ↔ field.Unencodable := by
    rw [Bool.not_eq_true', Bool.eq_false_iff, ne_eq, isEncodable_eq_true_iff, Classical.not_not]
  unfold make
  constructor
  · intro h
    split at h
    · next hdestination =>
      cases h
      exact .destination (hencodable.1 hdestination)
    · next hdestination =>
      rw [hencodable] at hdestination
      split at h
      · next hsource =>
        cases h
        exact .source hdestination (hencodable.1 hsource)
      · next hsource =>
        rw [hencodable] at hsource
        split at h
        · next hdefect =>
          cases h
          exact .breaks hdestination hsource (defect?_eq_some_iff.1 hdefect)
        · cases h
  · intro h
    cases h with
    | destination h => rw [if_pos (hencodable.2 h)]
    | source hdestination h =>
        rw [if_neg (hdestination ∘ hencodable.1), if_pos (hencodable.2 h)]
    | breaks hdestination hsource h =>
        rw [if_neg (hdestination ∘ hencodable.1), if_neg (hsource ∘ hencodable.1), h.defect?_eq]

/-! ## Lines -/

/-- Why a line is no entry: the number of its tabs, or the first rule that its fields break. -/
inductive Malformed (line : List UInt8) : Defect → Prop where
  | fieldCount (h : line.count Text.tab ≠ 1) : Malformed line .fieldCount
  | breaks {destination source : Path} {defect : Defect} (hfields : Splits line destination source)
      (h : Breaks destination source defect) : Malformed line defect

theorem Splits.count_tab (h : Splits line destination source) : line.count Text.tab = 1 := by
  rw [h.line_eq, List.count_append, List.count_cons_self, List.count_eq_zero.2 h.destination_tab,
    List.count_eq_zero.2 h.source_tab]

theorem exists_splits (h : line.count Text.tab = 1) :
    ∃ destination source, Splits line destination source := by
  have hmem : Text.tab ∈ line := List.count_pos_iff.1 (by omega)
  obtain ⟨first, second, rfl⟩ := List.append_of_mem hmem
  rw [List.count_append, List.count_cons_self] at h
  have hfirst : first.count Text.tab = 0 := by omega
  have hsecond : second.count Text.tab = 0 := by omega
  exact ⟨⟨first⟩, ⟨second⟩, rfl, List.count_eq_zero.1 hfirst, List.count_eq_zero.1 hsecond⟩

theorem Splits.ofLine_of_breaks (h : Splits line destination source)
    (hbreaks : Breaks destination source defect) : ofLine line = .error defect := by
  simp only [ofLine, splitOn_eq_iff.2 h]
  rw [hbreaks.defect?_eq]

theorem ofLine_of_count_ne (h : line.count Text.tab ≠ 1) : ofLine line = .error .fieldCount := by
  unfold ofLine
  split
  · next first second hfields =>
    have hsplits : Splits line ⟨first⟩ ⟨second⟩ := splitOn_eq_iff.1 hfields
    exact absurd hsplits.count_tab h
  · rfl

/-- A line reads as the entry of its two fields if they keep the rules, and otherwise as the first
thing that is wrong: the number of fields, an empty field, a field that escapes, equal fields. -/
theorem ofLine_iff (line : List UInt8) :
    (∀ destination source, ofLine line = .ok ⟨destination, source⟩ ↔
      Splits line destination source ∧ Follows destination source) ∧
      ∀ defect, ofLine line = .error defect ↔ Malformed line defect := by
  have hok : ∀ destination source, ofLine line = .ok ⟨destination, source⟩ ↔
      Splits line destination source ∧ Follows destination source := by
    intro destination source
    rw [ofLine_eq_ok_iff, defect?_eq_none_iff_follows]
    constructor
    · rintro ⟨hline, hdestination, hsource, hfollows⟩
      exact ⟨⟨hline, hdestination, hsource⟩, hfollows⟩
    · rintro ⟨⟨hline, hdestination, hsource⟩, hfollows⟩
      exact ⟨hline, hdestination, hsource, hfollows⟩
  refine ⟨hok, fun defect => ?_⟩
  constructor
  · intro h
    by_cases hcount : line.count Text.tab = 1
    · obtain ⟨destination, source, hfields⟩ := exists_splits hcount
      have hbroken : ¬ Follows destination source := by
        intro hfollows
        rw [(hok destination source).2 ⟨hfields, hfollows⟩] at h
        cases h
      obtain ⟨first, hfirst⟩ := exists_breaks hbroken
      rw [hfields.ofLine_of_breaks hfirst] at h
      cases h
      exact .breaks hfields hfirst
    · rw [ofLine_of_count_ne hcount] at h
      cases h
      exact .fieldCount hcount
  · intro h
    cases h with
    | fieldCount h => exact ofLine_of_count_ne h
    | breaks hfields h => exact hfields.ofLine_of_breaks h

end Entry

end Hardlinks
