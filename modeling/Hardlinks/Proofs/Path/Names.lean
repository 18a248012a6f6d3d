-- SUMMARY: The names of a path that stays inside a directory, which tell all its spellings apart.
import Hardlinks.Proofs.Path.Segments

/-!
# Names of paths

A relative path without `..` leads down from a directory by its names alone: repeated slashes, a
slash at the end and every `.` make no difference. Two such paths, taken from the same directory,
have the same components exactly if they have the same names (`same_join_iff`).
-/

namespace Hardlinks

/-- The name that a segment stands for. -/
def Segment.name? : Segment → Option Name
  | .name n => some n
  | _ => none

/-- The name that a component goes down by. -/
def Component.name? : Component → Option Name
  | .name n => some n
  | _ => none

namespace Path

/-- The names in the path, from the front. -/
def names (p : Path) : List Name :=
  p.segments.filterMap Segment.name?

/-- A path that stays inside the directory that it is joined to. -/
structure Inside (p : Path) : Prop where
  isEmpty : p.isEmpty = false
  isAbsolute : p.isAbsolute = false
  up : .up ∉ p.segments

variable {p q dir : Path} {part n : Name} {parts : List Name}

/-! ## Contained paths -/

theorem segment?_eq_some_up (h : segment? part = some .up) : component? part = some .up := by
  unfold segment? at h
  unfold component?
  split at h
  · cases h
  · split at h
    · cases h
    · split at h
      · next hempty hdot hup => rw [if_neg (by simp [hempty, hdot]), if_pos hup]
      · cases h

/-- A contained path has no root and does not go up. -/
theorem inside_of_isContained (h : p.isContained = true) : p.Inside := by
  obtain ⟨hempty, hall⟩ := by simpa [isContained] using h
  refine ⟨by simpa using hempty, ?_, ?_⟩
  · cases habsolute : p.isAbsolute with
    | false => rfl
    | true => simpa using hall .root (by simp [components, anchor, habsolute])
  · intro hup
    obtain ⟨part, hpart, hsegment⟩ := List.mem_filterMap.1 hup
    have hmem : .up ∈ p.components :=
      List.mem_append_right _
        (List.mem_filterMap.2 ⟨part, hpart, segment?_eq_some_up hsegment⟩)
    simpa using hall .up hmem

/-- The first part of a relative path is something. -/
theorem exists_first_part (hempty : p.isEmpty = false) (habsolute : p.isAbsolute = false) :
    ∃ first rest, p.parts = first :: rest ∧ first ≠ [] := by
  obtain ⟨first, rest, hparts⟩ := List.exists_cons_of_ne_nil (List.splitOn_ne_nil slash p.bytes)
  have hparts' : p.parts = first :: rest := hparts
  refine ⟨first, rest, hparts', ?_⟩
  rintro rfl
  cases rest with
  | nil =>
      have hp := ofParts_parts p
      rw [hparts'] at hp
      exact absurd (hp ▸ hempty) (by decide)
  | cons next rest =>
      have hroot := isAbsolute_iff.2 ⟨_, List.cons_ne_nil next rest, hparts'⟩
      simp [habsolute] at hroot

theorem Inside.segments_ne_nil (h : p.Inside) : p.segments ≠ [] := by
  obtain ⟨first, rest, hparts, hfirst⟩ := exists_first_part h.isEmpty h.isAbsolute
  obtain ⟨segment, hsegment, _⟩ := segment?_isSome hfirst
  intro hnil
  rw [segments, hparts, List.filterMap_cons_some hsegment] at hnil
  cases hnil

/-! ## Components -/

theorem component?_of_segment? (hup : segment? part ≠ some .up) :
    component? part = ((segment? part).bind Segment.name?).map .name := by
  unfold component? segment? at *
  by_cases hempty : part = []
  · simp [hempty]
  · by_cases hdot : part = [dot]
    · simp [hdot, Segment.name?]
    · by_cases hdots : part = [dot, dot]
      · simp [hdots] at hup
      · simp [hempty, hdot, hdots, Segment.name?]

theorem filterMap_component? (hup : .up ∉ parts.filterMap segment?) :
    parts.filterMap component? =
      ((parts.filterMap segment?).filterMap Segment.name?).map .name := by
  induction parts with
  | nil => rfl
  | cons part parts ih =>
      have hpart : segment? part ≠ some .up := by
        intro hsegment
        simp [List.filterMap_cons_some hsegment] at hup
      have hparts : .up ∉ parts.filterMap segment? := by
        intro hmem
        obtain ⟨other, hother, hsegment⟩ := List.mem_filterMap.1 hmem
        exact hup (List.mem_filterMap.2 ⟨other, List.mem_cons_of_mem part hother, hsegment⟩)
      have hcomponent := component?_of_segment? hpart
      cases hsegment : segment? part with
      | none =>
          rw [hsegment] at hcomponent
          rw [List.filterMap_cons_none hcomponent, List.filterMap_cons_none hsegment, ih hparts]
      | some segment =>
          rw [hsegment] at hcomponent
          rw [List.filterMap_cons, hcomponent, List.filterMap_cons_some hsegment,
            List.filterMap_cons, ih hparts]
          cases segment <;> rfl

/-- Joined paths have the parts of the directory, less an empty one at their end, and then their
own. -/
theorem exists_parts_join (hdir : dir.isEmpty = false) :
    ∃ front, front ≠ [] ∧ (dir.parts = front ∨ dir.parts = front ++ [[]]) ∧
      ∀ {p}, p.isAbsolute = false → (dir.join p).parts = front ++ p.parts := by
  obtain ⟨bytes⟩ := dir
  rcases List.eq_nil_or_concat bytes with rfl | ⟨init, last, rfl⟩
  · cases hdir
  · by_cases hlast : last = slash
    · subst hlast
      refine ⟨init.splitOn slash, List.splitOn_ne_nil slash init, .inr ?_, fun {p} hp => ?_⟩
      · rw [Path.parts, List.concat_eq_append, List.splitOn_append_cons_self]
        rfl
      · have hjoin : (Path.join ⟨init.concat slash⟩ p) = ⟨init ++ slash :: p.bytes⟩ := by
          simp [join, hp]
        rw [hjoin, Path.parts, List.splitOn_append_cons_self]
        rfl
    · refine ⟨(init.concat last).splitOn slash, List.splitOn_ne_nil slash _, .inl rfl,
        fun {p} hp => ?_⟩
      have hjoin : (Path.join ⟨init.concat last⟩ p) = ⟨init.concat last ++ slash :: p.bytes⟩ := by
        simp [join, hp, isEmpty, hlast]
      rw [hjoin, Path.parts, List.splitOn_append_cons_self]
      rfl

theorem anchor_join (hdir : dir.isEmpty = false) (hp : p.isAbsolute = false) :
    (dir.join p).anchor = dir.anchor := by
  obtain ⟨front, hfront, hparts, hjoin⟩ := exists_parts_join hdir
  have hhead : (dir.join p).parts.head? = dir.parts.head? := by
    obtain ⟨first, rest, rfl⟩ := List.exists_cons_of_ne_nil hfront
    rcases hparts with hparts | hparts <;> rw [hjoin hp, hparts] <;> rfl
  rw [anchor, isAbsolute_join hp, hhead, anchor]

/-- A joined path has the components of the directory and then its names. -/
theorem components_join (hdir : dir.isEmpty = false) (hp : p.Inside) :
    (dir.join p).components = dir.components ++ p.names.map .name := by
  have hnames : p.parts.filterMap component? = p.names.map .name := filterMap_component? hp.up
  obtain ⟨front, _, hparts, hjoin⟩ := exists_parts_join hdir
  have hfilter : dir.parts.filterMap component? = front.filterMap component? := by
    rcases hparts with hparts | hparts
    · rw [hparts]
    · rw [hparts, List.filterMap_append]
      simp [component?]
  rw [components, anchor_join hdir hp.isAbsolute, hjoin hp.isAbsolute, List.filterMap_append,
    hnames, components, hfilter, List.append_assoc]

/-- Paths from one directory have the same components exactly if they have the same names. -/
theorem same_join_iff (hdir : dir.isEmpty = false) (hp : p.Inside) (hq : q.Inside) :
    (dir.join p).same (dir.join q) = true ↔ p.names = q.names := by
  rw [same, beq_iff_eq, components_join hdir hp, components_join hdir hq, List.append_right_inj]
  exact List.map_inj_right fun _ _ => Component.name.inj

/-- A path that is one name by its components is inside, and has that name. -/
theorem inside_of_components (h : p.components = [.name n]) : p.Inside ∧ p.names = [n] := by
  have hinside : p.Inside := by
    refine inside_of_isContained ?_
    have hempty : p.isEmpty = false := by
      obtain ⟨_ | ⟨b, bytes⟩⟩ := p
      · simp [components, anchor, isAbsolute, Path.parts, component?] at h
      · rfl
    simp [isContained, h, hempty]
  refine ⟨hinside, ?_⟩
  have hnames : p.parts.filterMap component? = p.names.map .name := filterMap_component? hinside.up
  rw [components, anchor, hinside.isAbsolute, hnames] at h
  split at h
  · contradiction
  · split at h
    · simp at h
    · simpa using h

/-- The names can be told from the components. -/
theorem filterMap_components (p : Path) : p.components.filterMap Component.name? = p.names := by
  have hpart : ∀ part, (component? part).bind Component.name? =
      (segment? part).bind Segment.name? := by
    intro part
    unfold component? segment?
    by_cases hempty : part = []
    · simp [hempty]
    · by_cases hdot : part = [dot]
      · simp [hdot, Segment.name?]
      · by_cases hup : part = [dot, dot]
        · simp [hup, Segment.name?, Component.name?]
        · simp [hempty, hdot, hup, Segment.name?, Component.name?]
  have hanchor : p.anchor.filterMap Component.name? = [] := by
    unfold anchor
    split
    · rfl
    · split <;> rfl
  rw [components, List.filterMap_append, hanchor, List.nil_append, List.filterMap_filterMap,
    names, segments, List.filterMap_filterMap]
  exact congrArg (p.parts.filterMap ·) (funext hpart)

theorem names_join (hp : p.isAbsolute = false) : (dir.join p).names = dir.names ++ p.names := by
  rw [names, segments_join hp, List.filterMap_append]
  rfl

theorem names_eq_of_same_join (hp : p.isAbsolute = false) (hq : q.isAbsolute = false)
    (h : (dir.join p).same (dir.join q) = true) : p.names = q.names := by
  have hnames : (dir.join p).names = (dir.join q).names := by
    rw [← filterMap_components, ← filterMap_components, beq_iff_eq.1 h]
  rw [names_join hp, names_join hq] at hnames
  exact List.append_cancel_left hnames

theorem names_of_segments {front : List Segment} {last : Segment}
    (h : p.segments = front ++ [last]) :
    p.names = front.filterMap Segment.name? ++ last.name?.toList := by
  rw [names, h, List.filterMap_append]
  cases last <;> rfl

/-- A path whose last segment is a name ends in that name. -/
theorem fileName?_of_segments {front : List Segment} (h : p.segments = front ++ [.name n]) :
    p.fileName? = some n := by
  obtain ⟨init, last, hparts, _, hlast⟩ := List.filterMap_eq_append_iff.1 h
  have hup : .up ∉ last.filterMap segment? := by simp [hlast]
  have hcomponents := filterMap_component? hup
  rw [hlast] at hcomponents
  have hends : p.components.getLast? = some (.name n) := by
    rw [components, hparts, List.filterMap_append, hcomponents, ← List.append_assoc]
    exact List.getLast?_concat
  rw [fileName?, hends]

end Path

end Hardlinks
