-- SUMMARY: Which sources of a plan are kept in its manifest, seen from where they lead by their text.
import Hardlinks.Proofs.LinkPlan
import Hardlinks.Proofs.Manifest.Grammar
import Hardlinks.Proofs.Path.Lexical

/-!
# Sources of other generations

Files of several generations have the same name, and only those of the active checkpoint may lose
the path in front of it. What is taken for an active file begins with the components of the marker,
and `..` is a component: a source can begin there and lead elsewhere. Its name is then all that is
left, and `..`, which would be refused in an entry, is gone with the rest. A source that leads
elsewhere is kept exactly if it has no `..`, unless it is a spelling of the marker's own path
(`LinkPlan.sources_kept_iff`).
-/

namespace Hardlinks

/-- The marker of the active checkpoint is a relative path. -/
theorem CheckedConfig.marker_relative (cfg : CheckedConfig) :
    (Path.ofString cfg.activeMarker).isEmpty = false ∧
      (Path.ofString cfg.activeMarker).isAbsolute = false := by
  have hcheck := cfg.defect?_eq_none
  unfold Config.defect? at hcheck
  dsimp only at hcheck
  cases hmarker : (Path.ofString cfg.activeMarker).isEmpty ||
      (Path.ofString cfg.activeMarker).isAbsolute with
  | false => exact Bool.or_eq_false_iff.1 hmarker
  | true =>
      rw [hmarker] at hcheck
      split at hcheck <;> simp at hcheck

namespace Path

variable {p marker : Path}

theorem flatten_eq_self_iff :
    p.flatten marker = p ↔
      (p.startsWith marker = true → ∀ n, p.fileName? = some n → p = ⟨n⟩) := by
  unfold flatten
  split
  · next hstarts =>
    cases hname : p.fileName? with
    | none => simp
    | some n => simp [hstarts, eq_comm]
  · next hstarts => simp [hstarts]

theorem flatten_of_ne (h : p.flatten marker ≠ p) :
    ∃ n, p.fileName? = some n ∧ p.flatten marker = ⟨n⟩ := by
  unfold flatten at *
  split at h
  · next hstarts =>
    cases hname : p.fileName? with
    | none => simp [hname] at h
    | some n => exact ⟨n, rfl, by rw [if_pos hstarts]⟩
  · exact absurd rfl h

/-- Of the paths that lead elsewhere, and leave nothing behind that is refused, those without `..`
are kept, up to the spelling of the marker's own path. -/
theorem flatten_eq_self_iff_of_outside (hempty : marker.isEmpty = false)
    (habsolute : marker.isAbsolute = false) (hcontained : (p.flatten marker).isContained = true)
    (houtside : ¬ p.LiesInside marker) :
    p.flatten marker = p ↔
      .up ∉ p.components ∧ (p.same marker = true → ∀ n, p.fileName? = some n → p = ⟨n⟩) := by
  constructor
  · intro hkept
    rw [hkept, isContained_iff, Escapes, not_or, ← parts, ← up_mem_components_iff] at hcontained
    refine ⟨hcontained.2.2, fun hsame => flatten_eq_self_iff.1 hkept ?_⟩
    rw [startsWith, beq_iff_eq.1 hsame]
    exact List.isPrefixOf_iff_prefix.2 List.prefix_rfl
  · rintro ⟨hup, hmarker⟩
    refine flatten_eq_self_iff.2 fun hstarts => ?_
    rcases same_or_liesInside hempty habsolute hup hstarts with hsame | hinside
    · exact hmarker hsame
    · exact absurd hinside houtside

end Path

namespace LinkPlan

variable {cfg : CheckedConfig} {length : Nat} {plan : LinkPlan} {m : Manifest}

/-- A source that does not lead below the marker is kept as the cut leaves it exactly if it has no
`..` and is not the marker's own path in another spelling. If it is not kept, what is left of it is
its name. -/
theorem sources_kept_iff (h : plan.manifest cfg length = .ok m) :
    List.Forall₂
      (fun pair e =>
        let source : Path := ⟨pair.2.bytes.drop length⟩
        let marker := Path.ofString cfg.activeMarker
        ¬ source.LiesInside marker →
          (e.source = source ↔ .up ∉ source.components ∧
            (source.same marker = true → ∀ n, source.fileName? = some n → source = ⟨n⟩)) ∧
          (e.source ≠ source → ∃ n, source.fileName? = some n ∧ e.source = ⟨n⟩))
      plan.pairs m := by
  refine (forall₂_manifest h).imp fun pair e hentry => ?_
  intro source marker houtside
  obtain ⟨d, s, _, hcut, rfl, hwritable⟩ := entry_eq_ok hentry
  obtain ⟨_, _, hbytes⟩ := Path.cut_eq_ok hcut
  have hsource : s = source := congrArg Path.mk hbytes
  rw [hsource] at hwritable ⊢
  obtain ⟨hempty, habsolute⟩ := cfg.marker_relative
  have hcontained := (Entry.writable_iff.1 hwritable).1.source_contained
  exact ⟨Path.flatten_eq_self_iff_of_outside hempty habsolute hcontained houtside,
    Path.flatten_of_ne⟩

/-- A plan whose source begins as the marker does and leads to another generation. -/
def pastMarker : LinkPlan :=
  .ofList [(.ofString "snap1/a.sst",
    .ofString "db.checkpoints/../db.snapshots/snap-0/a.sst")]

/-- The file of the other generation becomes the active file of the same name. -/
theorem sources_lost_pastMarker :
    let source := Path.ofString "db.checkpoints/../db.snapshots/snap-0/a.sst"
    pastMarker.manifest .default 0 = .ok [⟨.ofString "snap1/a.sst", .ofString "a.sst"⟩] ∧
      ¬ source.LiesInside (.ofString CheckedConfig.default.activeMarker) ∧
      ¬ Path.ofString "a.sst" = source := by
  have hmanifest : pastMarker.manifest .default 0 =
      .ok [⟨.ofString "snap1/a.sst", .ofString "a.sst"⟩] := by rfl
  have houtside : ¬ (Path.ofString "db.checkpoints/../db.snapshots/snap-0/a.sst").LiesInside
      (.ofString CheckedConfig.default.activeMarker) := by
    rintro ⟨ns, _, h⟩
    have hfirst : (Path.ofString "db.checkpoints/../db.snapshots/snap-0/a.sst").lexical.head? =
        (Path.ofString CheckedConfig.default.activeMarker).lexical.head? := by
      rw [h]
      rfl
    exact absurd hfirst (by decide)
  obtain ⟨hkept, _⟩ := (List.forall₂_cons.1 (sources_kept_iff hmanifest)).1 houtside
  exact ⟨hmanifest, houtside, fun heq => absurd (hkept.1 heq).1 (by decide)⟩

end LinkPlan

end Hardlinks
