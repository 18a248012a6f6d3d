-- SUMMARY: Paths with their `.` and `..` taken on the text alone, and which of them lead below a directory.
import Mathlib.Data.Set.List
import Hardlinks.Proofs.Path.Names

/-!
# Paths taken lexically

A path can be followed on its text alone: `.` stays, `..` goes back over the name before it, and at
the root it stays. What comes out is compared as it stands, so a path leads below a directory if it
goes on from there by names. As long as a path has no `..`, the first components tell whether it
does (`same_or_liesInside`).
-/

namespace Hardlinks

/-- One component more, taken from where the ones in front of it lead. -/
def Component.follow (front : List Component) : Component → List Component
  | .root => [.root]
  | .here => front
  | .up =>
    match front.getLast? with
    | some .root => front
    | some (.name _) => front.dropLast
    | _ => front ++ [.up]
  | .name n => front ++ [.name n]

namespace Path

variable {p dir : Path} {front rest : List Component} {first n : Name} {ns : List Name}

/-- Where the path leads, by its text alone. -/
def lexical (p : Path) : List Component :=
  p.components.foldl Component.follow []

/-- The path leads below `dir`, by its text alone. -/
def LiesInside (p dir : Path) : Prop :=
  ∃ ns : List Name, ns ≠ [] ∧ p.lexical = dir.lexical ++ ns.map .name

theorem foldl_follow_names (front : List Component) (ns : List Name) :
    (ns.map .name).foldl Component.follow front = front ++ ns.map .name := by
  induction ns generalizing front with
  | nil => simp
  | cons n ns ih =>
      rw [List.map_cons, List.foldl_cons, ih, Component.follow, List.append_assoc]
      rfl

theorem lexical_of_components (h : p.components = dir.components ++ ns.map .name) :
    p.lexical = dir.lexical ++ ns.map .name := by
  rw [lexical, h, List.foldl_append, foldl_follow_names]
  rfl

/-- Only the first component can be something other than `..` or a name. -/
theorem exists_names (h : p.components = front ++ rest) (hfront : front ≠ []) (hup : .up ∉ rest) :
    ∃ ns : List Name, rest = ns.map .name := by
  -- The anchor is one component at most, so all that follows `front` comes from the parts.
  have hanchor : p.anchor.length ≤ front.length := by
    have hone : p.anchor.length ≤ 1 := by
      unfold anchor
      split
      · rfl
      · split <;> simp
    have := List.length_pos_iff.2 hfront
    omega
  have hsuffix : rest <:+ p.parts.filterMap component? :=
    List.suffix_of_suffix_length_le ⟨front, h.symm⟩ ⟨p.anchor, rfl⟩ (by
      have hlength := congrArg List.length h
      rw [components, List.length_append, List.length_append] at hlength
      omega)
  have hname : ∀ c ∈ rest, c ∈ Set.range Component.name := by
    intro c hc
    obtain ⟨part, _, hcomponent⟩ := List.mem_filterMap.1 (hsuffix.subset hc)
    unfold component? at hcomponent
    grind
  have hrange : rest ∈ Set.range (List.map Component.name) := by
    rw [Set.range_list_map]
    exact hname
  obtain ⟨ns, hns⟩ := hrange
  exact ⟨ns, hns.symm⟩

theorem components_ne_nil (hempty : p.isEmpty = false) (habsolute : p.isAbsolute = false) :
    p.components ≠ [] := by
  obtain ⟨first, rest, hparts, hfirst⟩ := exists_first_part hempty habsolute
  by_cases hdot : first = [dot]
  · simp [components, anchor, habsolute, hparts, hdot]
  · have hcomponent : component? first ≠ none := by
      unfold component?
      grind
    obtain ⟨c, hc⟩ := Option.ne_none_iff_exists'.1 hcomponent
    rw [components, hparts, List.filterMap_cons_some hc]
    simp

/-- A path without `..` that begins with the components of a directory is a spelling of the
directory or leads below it. -/
theorem same_or_liesInside (hempty : dir.isEmpty = false) (habsolute : dir.isAbsolute = false)
    (hup : .up ∉ p.components) (h : p.startsWith dir = true) :
    p.same dir = true ∨ p.LiesInside dir := by
  obtain ⟨rest, hrest⟩ := List.isPrefixOf_iff_prefix.1 h
  rw [← hrest] at hup
  obtain ⟨ns, rfl⟩ := exists_names hrest.symm (components_ne_nil hempty habsolute)
    (fun hmem => hup (List.mem_append_right _ hmem))
  by_cases hns : ns = []
  · subst hns
    rw [List.map_nil, List.append_nil] at hrest
    exact .inl (beq_iff_eq.2 hrest.symm)
  · exact .inr ⟨ns, hns, lexical_of_components hrest.symm⟩

end Path

end Hardlinks
