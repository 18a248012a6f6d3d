-- SUMMARY: The flattening of sources: what it leaves, when a path lies below a marker, and a second flattening.
import Hardlinks.Proofs.LinkPlan.Rewriting

/-!
# Flattening sources

A path begins with the components of a marker that is a plain name exactly if it is written as that
name, alone or with a slash behind it (`Path.prefix_components_iff`). What flattening leaves is the
path itself or a plain name, so that flattening again changes nothing and a contained path stays
contained (`Path.flatten_law`).
-/

namespace Hardlinks.Path

variable {p marker : Path} {n : Name}

/-- A path begins with the components of a plain name exactly if it is written as the name, alone
or with a slash behind it. -/
theorem prefix_components_iff (hmarker : marker.components = [.name marker.bytes]) :
    marker.components <+: p.components ↔
      p.bytes = marker.bytes ∨ marker.bytes ++ [slash] <+: p.bytes := by
  obtain ⟨hpart, hn⟩ := component?_of_mem_components (hmarker ▸ List.mem_singleton_self _)
  rw [hmarker, ← head?_parts_iff (slash_notMem_of_mem_parts hpart), ← head?_components_iff hn]
  cases p.components <;> simp [eq_comm]

/-! ## Flattening -/

/-- Flattening leaves the path, or a plain name in its place. -/
theorem flatten_cases (p marker : Path) :
    p.flatten marker = p ∨ ∃ n, p.flatten marker = ⟨n⟩ ∧ (Path.mk n).components = [.name n] := by
  obtain ⟨q, hq⟩ : ∃ q, p.flatten marker = q := ⟨_, rfl⟩
  rw [hq]
  cases flatten_eq_iff.1 hq with
  | unnamed => exact .inl rfl
  | outside => exact .inl rfl
  | active n _ hname =>
      obtain ⟨hpart, hn⟩ := component?_of_mem_components (List.mem_of_getLast? hname)
      exact .inr ⟨n, rfl, components_of_name hn (slash_notMem_of_mem_parts hpart)⟩

/-- A plain name is left as it is, below the marker or not. -/
theorem flatten_of_name (h : (Path.mk n).components = [.name n]) :
    (Path.mk n).flatten marker = ⟨n⟩ := by
  by_cases hstarts : marker.components <+: (Path.mk n).components
  · exact flatten_eq_iff.2 (.active n hstarts (by rw [h]; rfl))
  · exact flatten_eq_iff.2 (.outside hstarts)

theorem flatten_flatten (p marker : Path) :
    (p.flatten marker).flatten marker = p.flatten marker := by
  rcases flatten_cases p marker with hself | ⟨n, hname, hn⟩
  · rw [hself, hself]
  · rw [hname, flatten_of_name hn]

theorem isContained_flatten (h : p.isContained = true) : (p.flatten marker).isContained = true := by
  rcases flatten_cases p marker with hself | ⟨n, hname, hn⟩
  · rwa [hself]
  · have hempty : (Path.mk n).isEmpty = false := (inside_of_components hn).1.isEmpty
    simp [hname, isContained, hempty, hn]

/-- A path that begins with the components of the marker and ends in a name becomes that name, and
any other path stays as it is. For a marker that is a plain name, its beginning can be read off the
text. Flattening again changes nothing, and a contained path stays contained. -/
theorem flatten_law (p marker : Path) :
    (∀ n, marker.components <+: p.components → p.components.getLast? = some (.name n) →
        p.flatten marker = ⟨n⟩) ∧
      (¬ (marker.components <+: p.components ∧ ∃ n, p.components.getLast? = some (.name n)) →
        p.flatten marker = p) ∧
      (marker.components = [.name marker.bytes] →
        (marker.components <+: p.components ↔
          p.bytes = marker.bytes ∨ marker.bytes ++ [slash] <+: p.bytes)) ∧
      (p.flatten marker).flatten marker = p.flatten marker ∧
      (p.isContained = true → (p.flatten marker).isContained = true) := by
  refine ⟨fun n hstarts hname => flatten_eq_iff.2 (.active n hstarts hname), fun hother => ?_,
    prefix_components_iff, flatten_flatten p marker, isContained_flatten⟩
  by_cases hstarts : marker.components <+: p.components
  · exact flatten_eq_iff.2 (.unnamed fun n hname => hother ⟨hstarts, n, hname⟩)
  · exact flatten_eq_iff.2 (.outside hstarts)

/-- A source below the marker, written with a slash too many and one at its end. -/
theorem flatten_law_of_active :
    let p := Path.ofString "db.checkpoints//om.db/a.sst/"
    let marker := Path.ofString "db.checkpoints"
    p.flatten marker = .ofString "a.sst" ∧ marker.bytes ++ [slash] <+: p.bytes ∧
      (p.flatten marker).isContained = true := by
  intro p marker
  obtain ⟨hactive, _, htext, _, hcontained⟩ := flatten_law p marker
  have hmarker : marker.components = [.name marker.bytes] := by decide
  have hstarts : marker.components <+: p.components := by decide
  have hname : p.components.getLast? = some (.name (Path.ofString "a.sst").bytes) := by decide
  refine ⟨hactive _ hstarts hname, ?_, hcontained (by decide)⟩
  exact ((htext hmarker).1 hstarts).resolve_left (by decide)

end Hardlinks.Path
