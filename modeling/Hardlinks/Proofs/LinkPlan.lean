-- SUMMARY: What the manifest of a plan is like: its entries may be written, are UTF-8, and are in order.
import Mathlib.Data.List.Nodup
import Hardlinks.LinkPlan
import Hardlinks.Proofs.FileSystem.Calls
import Hardlinks.Proofs.Manifest.RoundTrip
import Hardlinks.Proofs.Path.Names
import Hardlinks.Proofs.Text.Utf8

/-!
# Manifests of plans

Every pair of a plan has its entry, which may be written (`writable_of_manifest`) and holds nothing
but UTF-8 (`isValid_text`). If all destinations lie below one root, the order of a plan is that of
the names below the root, so the entries stand in the order of their destinations' names and no two
have the same (`sorted_manifest`).
-/

namespace Hardlinks

/-! ## Cuts -/

namespace Path

variable {p q marker : Path} {length : Nat} {n : Name}

theorem cut_eq_ok (h : p.cut length = .ok q) :
    p.isUtf8 = true ∧ Utf8.isBoundary p.bytes length = true ∧ q.bytes = p.bytes.drop length := by
  unfold cut at h
  split at h
  · cases h
  · next hvalid =>
    split at h
    · next hboundary =>
      cases h
      exact ⟨by simpa using hvalid, hboundary, rfl⟩
    · cases h

theorem isUtf8_of_cut (h : p.cut length = .ok q) : q.isUtf8 = true := by
  obtain ⟨hvalid, hboundary, hbytes⟩ := cut_eq_ok h
  rw [isUtf8, hbytes]
  exact Utf8.isValid_drop hvalid hboundary

theorem mem_parts_of_fileName? (h : p.fileName? = some n) : n ∈ p.parts := by
  unfold fileName? at h
  split at h
  · next hlast =>
    cases h
    exact (component?_of_mem_components (List.mem_of_getLast? hlast)).1
  · cases h

theorem isUtf8_flatten (h : p.isUtf8 = true) : (p.flatten marker).isUtf8 = true := by
  unfold flatten
  split
  · split
    · next hname => exact Utf8.isValid_of_mem_splitOn (by decide) h (mem_parts_of_fileName? hname)
    · exact h
  · exact h

end Path

/-! ## Order -/

/-- The entries stand in the order of the names of their destinations. -/
def Manifest.Sorted (m : Manifest) : Prop :=
  m.Pairwise fun e e' => e.destination.names < e'.destination.names

namespace Manifest

variable {m front rest : Manifest} {e e' : Entry}

theorem Sorted.eq_of_names (h : m.Sorted) (he : e ∈ m) (he' : e' ∈ m)
    (hnames : e.destination.names = e'.destination.names) : e = e' := by
  have hnodup : (m.map fun e => e.destination.names).Nodup := by
    refine List.pairwise_map.2 (List.Pairwise.imp (fun hlt heq => ?_) h)
    exact List.lt_irrefl _ (heq ▸ hlt)
  exact List.inj_on_of_nodup_map hnodup he he' hnames

/-- The entries in front of `e` are those with smaller names. -/
theorem Sorted.mem_front_iff (h : Sorted (front ++ e :: rest)) :
    e' ∈ front ↔ e' ∈ front ++ e :: rest ∧ e'.destination.names < e.destination.names := by
  obtain ⟨_, htail, hfront⟩ := List.pairwise_append.1 h
  constructor
  · intro hmem
    exact ⟨List.mem_append_left _ hmem, hfront e' hmem e List.mem_cons_self⟩
  · rintro ⟨hmem, hlt⟩
    rcases List.mem_append.1 hmem with hmem | hmem
    · exact hmem
    · rcases List.mem_cons.1 hmem with rfl | hmem
      · exact absurd hlt (List.lt_irrefl _)
      · exact absurd hlt (List.lt_asymm ((List.pairwise_cons.1 htail).1 e' hmem))

end Manifest

namespace LinkPlan

open FileSystem

variable {cfg : CheckedConfig} {length : Nat} {plan : LinkPlan} {m : Manifest} {root : Path}
  {pair : Path × Path} {e : Entry}

/-! ## Entries -/

/-- The entry of a pair has the paths that the cut leaves, and may be written. -/
theorem entry_eq_ok (h : entry cfg length pair = .ok e) :
    ∃ d s, pair.1.cut length = .ok d ∧ pair.2.cut length = .ok s ∧
      e = ⟨d, s.flatten (.ofString cfg.activeMarker)⟩ ∧ e.Writable := by
  obtain ⟨s, hs, h⟩ := bind_eq_ok_iff.1 h
  obtain ⟨d, hd, h⟩ := bind_eq_ok_iff.1 h
  obtain ⟨he, hwritable⟩ := Entry.make_eq_ok_iff.1 h
  exact ⟨d, s, hd, hs, he, hwritable⟩

theorem forall₂_manifest (h : plan.manifest cfg length = .ok m) :
    List.Forall₂ (fun pair e => entry cfg length pair = .ok e) plan.pairs m :=
  mapM_eq_ok_iff.1 h

theorem length_manifest (h : plan.manifest cfg length = .ok m) : m.length = plan.pairs.length :=
  (forall₂_manifest h).length_eq.symm

/-- Every pair has its entry. -/
theorem exists_entry (h : plan.manifest cfg length = .ok m) (hpair : pair ∈ plan.pairs) :
    ∃ e ∈ m, entry cfg length pair = .ok e := by
  obtain ⟨k, hk, rfl⟩ := List.getElem_of_mem hpair
  have hk' : k < m.length := (length_manifest h).symm ▸ hk
  exact ⟨m[k], List.getElem_mem hk', (forall₂_manifest h).get hk hk'⟩

/-- Every entry is that of a pair. -/
theorem exists_pair (h : plan.manifest cfg length = .ok m) (he : e ∈ m) :
    ∃ pair ∈ plan.pairs, entry cfg length pair = .ok e := by
  obtain ⟨k, hk, rfl⟩ := List.getElem_of_mem he
  have hk' : k < plan.pairs.length := length_manifest h ▸ hk
  exact ⟨plan.pairs[k], List.getElem_mem hk', (forall₂_manifest h).get hk' hk⟩

theorem writable_of_manifest (h : plan.manifest cfg length = .ok m) : ∀ e ∈ m, e.Writable := by
  intro e he
  obtain ⟨pair, _, hentry⟩ := exists_pair h he
  obtain ⟨_, _, _, _, _, hwritable⟩ := entry_eq_ok hentry
  exact hwritable

theorem isUtf8_of_manifest (h : plan.manifest cfg length = .ok m) (he : e ∈ m) :
    e.destination.isUtf8 = true ∧ e.source.isUtf8 = true := by
  obtain ⟨pair, _, hentry⟩ := exists_pair h he
  obtain ⟨d, s, hd, hs, rfl, _⟩ := entry_eq_ok hentry
  exact ⟨Path.isUtf8_of_cut hd, Path.isUtf8_flatten (Path.isUtf8_of_cut hs)⟩

/-- The manifest of a plan can be read as text. -/
theorem isValid_text (h : plan.manifest cfg length = .ok m) : Utf8.isValid m.text = true := by
  have hlines : ∀ e ∈ m, Utf8.isValid e.line = true := by
    intro e he
    obtain ⟨hdestination, hsource⟩ := isUtf8_of_manifest h he
    rw [Entry.line, Utf8.isValid_append_cons (by decide), Bool.and_eq_true]
    exact ⟨hdestination, hsource⟩
  have htext : m.text = (m.map Entry.line).flatMap fun line => line ++ [Text.newline] := by
    rw [List.flatMap_map]
    rfl
  rw [htext, Utf8.isValid_flatMap, List.all_map, List.all_eq_true]
  exact hlines

/-! ## Roots -/

/-- The destinations of the plan lie below a root that is written with a slash at its end. -/
structure Below (plan : LinkPlan) (root : Path) : Prop where
  endsInSlash : root.endsInSlash = true
  destination : ∀ pair ∈ plan.pairs, root.bytes <+: pair.1.bytes

/-- Names are compared as components are, behind what two lists of components have in common. -/
theorem lt_of_rank_lt {front : List (List UInt8)} {ns ms : List Name}
    (h : front ++ ns.map (fun n => (Component.name n).rank) <
      front ++ ms.map (fun n => (Component.name n).rank)) : ns < ms := by
  induction front with
  | cons first front ih =>
      rcases List.cons_lt_cons_iff.1 h with hlt | ⟨_, hrest⟩
      · exact absurd hlt (List.lt_irrefl first)
      · exact ih hrest
  | nil =>
      rw [List.nil_append, List.nil_append] at h
      induction ns generalizing ms with
      | nil =>
          cases ms with
          | nil => exact absurd h (List.lt_irrefl _)
          | cons m ms => exact List.nil_lt_cons m ms
      | cons n ns ih =>
          cases ms with
          | nil => exact absurd h (List.not_lt_nil _)
          | cons m ms =>
              rcases List.cons_lt_cons_iff.1 h with hlt | ⟨heq, hrest⟩
              · rcases List.cons_lt_cons_iff.1 hlt with hthree | ⟨_, hlt⟩
                · exact absurd hthree (by decide)
                · exact List.cons_lt_cons_iff.2 (.inl hlt)
              · exact List.cons_lt_cons_iff.2 (.inr ⟨(List.cons.inj heq).2, ih hrest⟩)

theorem Below.rank_eq (h : plan.Below root) (hpair : pair ∈ plan.pairs)
    (hentry : entry cfg root.bytes.length pair = .ok e) :
    pair.1.rank = root.components.map Component.rank ++
      e.destination.names.map fun n => (Component.name n).rank := by
  obtain ⟨d, s, hd, _, rfl, hwritable⟩ := entry_eq_ok hentry
  obtain ⟨hlegible, _⟩ := Entry.writable_iff.1 hwritable
  have hinside : d.Inside := Path.inside_of_isContained hlegible.destination_contained
  have hend : (root.bytes.getLast? == some Path.slash) = true := h.endsInSlash
  have hroot : root.isEmpty = false := by
    apply Bool.eq_false_iff.2
    intro hempty
    have hnil : root.bytes = [] := List.isEmpty_iff.1 hempty
    simp [hnil] at hend
  have hjoin : root.join d = pair.1 := by
    obtain ⟨_, _, hbytes⟩ := Path.cut_eq_ok hd
    obtain ⟨rest, hrest⟩ := h.destination pair hpair
    rw [← hrest, List.drop_left] at hbytes
    rw [Path.join, hinside.isAbsolute, hend, Bool.or_true, hbytes, hrest]
    rfl
  rw [← hjoin, Path.rank, Path.components_join hroot hinside, List.map_append, List.map_map]
  rfl

/-- The entries stand in the order of the names of their destinations. -/
theorem sorted_manifest (hplan : plan.Below root)
    (h : plan.manifest cfg root.bytes.length = .ok m) : m.Sorted := by
  have hpairs := forall₂_manifest h
  refine List.pairwise_iff_getElem.2 fun i j hi hj hlt => ?_
  have hi' : i < plan.pairs.length := hpairs.length_eq.symm ▸ hi
  have hj' : j < plan.pairs.length := hpairs.length_eq.symm ▸ hj
  have hrank := List.pairwise_iff_getElem.1 plan.sorted i j hi' hj' hlt
  rw [hplan.rank_eq (List.getElem_mem hi') (hpairs.get hi' hi),
    hplan.rank_eq (List.getElem_mem hj') (hpairs.get hj' hj)] at hrank
  exact lt_of_rank_lt hrank

end LinkPlan

end Hardlinks
