-- SUMMARY: Names that a path can lead to, and paths that are made of such names alone.
import Mathlib.Data.List.Basic
import Hardlinks.Path.Order
import Hardlinks.Proofs.Path.Names

/-!
# Proper names

A name is proper if it can stand as a segment of a path: it has no slash and is neither empty nor
one of the two dot names. A path made of proper names has just these names as its segments, and the
parent of such a path, taken from a directory, is the path of the names in front
(`parent?_join_ofParts`). In the order of paths, it comes where its names come
(`rank_ofParts_lt`).
-/

namespace Hardlinks.Path

/-- A name that is a segment by itself. -/
structure IsProper (n : Name) : Prop where
  slash : slash ∉ n
  segment? : segment? n = some (.name n)

/-- A path that goes on from `dir` by the given segments, none of which goes up. -/
structure Past (dir : Path) (below : List Segment) (p : Path) : Prop where
  isAbsolute : p.isAbsolute = dir.isAbsolute
  segments : p.segments = dir.segments ++ below
  up : .up ∉ below

/-- A path that is reached on the way to `p`, or `p` itself. -/
def Above (q p : Path) : Prop :=
  q.isAbsolute = p.isAbsolute ∧ q.segments <+: p.segments

variable {p q : Path} {n part first : Name} {ns ms front : List Name}

theorem isProper_of_mem_segments (h : .name n ∈ p.segments) : IsProper n := by
  obtain ⟨part, hpart, hsegment⟩ := List.mem_filterMap.1 h
  obtain rfl := eq_of_segment? hsegment
  exact ⟨slash_notMem_of_mem_parts hpart, hsegment⟩

theorem IsProper.ne_nil (h : IsProper n) : n ≠ [] := by
  rintro rfl
  cases h.segment?

theorem IsProper.ne_dot (h : IsProper n) : n ≠ [dot] := by
  rintro rfl
  cases h.segment?

theorem IsProper.component? (h : IsProper n) : component? n = some (.name n) := by
  rw [component?_of_segment? (by simp [h.segment?]), h.segment?]
  rfl

/-- A joined path goes on from the directory by its own segments. -/
theorem Inside.past (h : p.Inside) (dir : Path) : Past dir p.segments (dir.join p) :=
  ⟨isAbsolute_join h.isAbsolute, segments_join h.isAbsolute, h.up⟩

theorem Inside.exists_concat (h : p.Inside) : ∃ front x, p.segments = front ++ [x] :=
  (List.eq_nil_or_concat' p.segments).resolve_left h.segments_ne_nil

/-- The path ends neither in a slash nor in a `.`. -/
def EndsInName (p : Path) : Prop :=
  p.endsInSlash = false ∧ p.segments.getLast? ≠ some .here

theorem EndsInName.exists_concat (h : p.EndsInName) (hp : p.Inside) :
    ∃ front n, p.segments = front ++ [.name n] := by
  obtain ⟨front, x, hsegments⟩ := hp.exists_concat
  cases x with
  | here => exact absurd (by simp [hsegments]) h.2
  | up => exact absurd (by simp [hsegments]) hp.up
  | name n => exact ⟨front, n, hsegments⟩

/-! ## Paths made of names -/

theorem parts_ofParts_of_isProper (h : ∀ n ∈ ns, IsProper n) (hne : ns ≠ []) :
    (ofParts ns).parts = ns :=
  parts_ofParts (fun n hn => (h n hn).slash) hne

theorem segments_ofParts (h : ∀ n ∈ ns, IsProper n) (hne : ns ≠ []) :
    (ofParts ns).segments = ns.map .name := by
  rw [segments, parts_ofParts_of_isProper h hne]
  clear hne
  induction ns with
  | nil => rfl
  | cons n ns ih =>
      obtain ⟨hn, hns⟩ := List.forall_mem_cons.1 h
      rw [List.filterMap_cons_some hn.segment?, ih hns, List.map_cons]

theorem isAbsolute_ofParts (h : ∀ n ∈ ns, IsProper n) (hne : ns ≠ []) :
    (ofParts ns).isAbsolute = false := by
  apply Bool.eq_false_iff.2
  intro habsolute
  obtain ⟨rest, _, hparts⟩ := isAbsolute_iff.1 habsolute
  rw [parts_ofParts_of_isProper h hne] at hparts
  exact (h [] (by simp [hparts])).ne_nil rfl

theorem inside_ofParts (h : ∀ n ∈ ns, IsProper n) (hne : ns ≠ []) : (ofParts ns).Inside where
  isEmpty := by
    apply Bool.eq_false_iff.2
    intro hempty
    have hparts : (ofParts ns).parts = [[]] := by
      rw [Path.parts, List.isEmpty_iff.1 hempty]
      rfl
    rw [parts_ofParts_of_isProper h hne] at hparts
    exact (h [] (by simp [hparts])).ne_nil rfl
  isAbsolute := isAbsolute_ofParts h hne
  up := by
    rw [segments_ofParts h hne]
    simp

/-- What ends in a proper name does not end in a slash. -/
theorem endsInSlash_ofParts (h : ∀ n ∈ ns, IsProper n) (hne : ns ≠ []) :
    (ofParts ns).endsInSlash = false := by
  apply Bool.eq_false_iff.2
  intro hends
  obtain ⟨init, hbytes⟩ := List.getLast?_eq_some_iff.1 (beq_iff_eq.1 hends)
  have hparts : (ofParts ns).parts = init.splitOn slash ++ [[]] := by
    rw [Path.parts, hbytes, List.splitOn_append_cons_self]
    rfl
  rw [parts_ofParts_of_isProper h hne] at hparts
  exact (h [] (by simp [hparts])).ne_nil rfl

/-! ## Order -/

theorem components_ofParts (h : ∀ n ∈ ns, IsProper n) (hne : ns ≠ []) :
    (ofParts ns).components = ns.map .name := by
  have hparts := parts_ofParts_of_isProper h hne
  have hanchor : (ofParts ns).anchor = [] := by
    have hdot : (ofParts ns).parts.head? ≠ some [dot] := by
      rw [hparts]
      intro hhead
      exact (h [dot] (List.mem_of_mem_head? hhead)).ne_dot rfl
    simp [anchor, isAbsolute_ofParts h hne, hdot]
  have hnames : ns.filterMap component? = ns.map .name := by
    clear hne hparts hanchor
    induction ns with
    | nil => rfl
    | cons n ns ih =>
        obtain ⟨hn, hns⟩ := List.forall_mem_cons.1 h
        rw [List.filterMap_cons_some hn.component?, ih hns, List.map_cons]
  rw [components, hanchor, hparts, hnames, List.nil_append]

theorem rank_ofParts (h : ∀ n ∈ ns, IsProper n) (hne : ns ≠ []) :
    (ofParts ns).rank = ns.map (3 :: ·) := by
  rw [rank, components_ofParts h hne, List.map_map]
  rfl

theorem rank_ofParts_lt (h : ∀ n ∈ ns, IsProper n) (hne : ns ≠ []) (h' : ∀ n ∈ ms, IsProper n)
    (hne' : ms ≠ []) (hlt : ns < ms) : (ofParts ns).rank < (ofParts ms).rank := by
  rw [rank_ofParts h hne, rank_ofParts h' hne']
  clear h hne h' hne'
  induction hlt with
  | nil => exact List.nil_lt_cons _ _
  | rel hab => exact List.cons_lt_cons_iff.2 (.inl (List.cons_lt_cons_iff.2 (.inr ⟨rfl, hab⟩)))
  | cons _ ih => exact List.cons_lt_cons_iff.2 (.inr ⟨rfl, ih⟩)

/-! ## Parents -/

theorem trimParts_concat (h : IsProper n) : trimParts (ns ++ [n]) = ns ++ [n] := by
  simp [trimParts, h.ne_nil, h.ne_dot]

/-- What is left of a path without the proper name at its end does not depend on that name. -/
theorem parent?_eq (hn : IsProper n) (hparts : p.parts = first :: (front ++ [n])) :
    p.parent? = some (if first = [] ∧ trimParts front = [] then ⟨[slash]⟩
      else ofParts (first :: trimParts front)) := by
  have hrest : trimParts (front ++ [n]) = front ++ [n] := trimParts_concat hn
  have hdrop : (front ++ [n]).dropLast = front := List.dropLast_concat
  obtain ⟨next, back, hback⟩ := List.exists_cons_of_ne_nil
    (List.append_ne_nil_of_right_ne_nil front (List.cons_ne_nil n []))
  rw [hback] at hrest hdrop hparts
  simp only [parent?, hparts, hrest, hdrop]
  split
  · next hroot => simp [hroot]
  · next hroot => rw [if_neg fun h => hroot h.1 h.2]

/-- Without its last name, a path is the one of the names in front. -/
theorem parent?_of_parts {m : Name} (hm : IsProper m) (hn : IsProper n)
    (hparts : p.parts = front ++ [m] ++ [n]) : p.parent? = some (ofParts (front ++ [m])) := by
  cases front with
  | nil =>
      have hshort : p.parts = m :: ([] ++ [n]) := hparts
      rw [parent?_eq hn hshort, if_neg fun h => hm.ne_nil h.1]
      rfl
  | cons first front =>
      have hlong : p.parts = first :: ((front ++ [m]) ++ [n]) := hparts
      have habove : trimParts (front ++ [m]) = front ++ [m] := trimParts_concat hm
      rw [parent?_eq hn hlong, habove, if_neg (by simp)]
      rfl

/-- The name at the end of a path makes no difference to its parent. -/
theorem parent?_congr_last {m : Name} (hm : IsProper m) (hn : IsProper n)
    (hp : p.parts = front ++ [m]) (hq : q.parts = front ++ [n]) : p.parent? = q.parent? := by
  cases front with
  | nil => simp [parent?, hp, hq, show trimParts [] = [] from rfl, hm.ne_nil, hn.ne_nil]
  | cons first front => rw [parent?_eq hm hp, parent?_eq hn hq]

theorem exists_front_join (p : Path) :
    ∃ front, ∀ {q : Path}, q.isAbsolute = false → (p.join q).parts = front ++ q.parts := by
  cases hempty : p.isEmpty with
  | true =>
      refine ⟨[], fun {q} hq => ?_⟩
      simp [join, hq, hempty, List.isEmpty_iff.1 hempty]
  | false =>
      obtain ⟨front, _, _, hfront⟩ := exists_parts_join hempty
      exact ⟨front, hfront⟩

/-- Names directly in one directory have the same parent. -/
theorem parent?_join_name {m : Name} (hm : IsProper m) (hn : IsProper n) :
    (p.join (ofParts [m])).parent? = (p.join (ofParts [n])).parent? := by
  obtain ⟨front, hfront⟩ := exists_front_join p
  have hparts : ∀ {n}, IsProper n → (p.join (ofParts [n])).parts = front ++ [n] := by
    intro n hn
    have hns : ∀ m ∈ [n], IsProper m := by simpa using hn
    rw [hfront (isAbsolute_ofParts hns (List.cons_ne_nil n [])),
      parts_ofParts_of_isProper hns (List.cons_ne_nil n [])]
  exact parent?_congr_last hm hn (hparts hm) (hparts hn)

/-- One name shorter, a path is the path of the directory that holds it. -/
theorem parent?_join_ofParts (h : ∀ m ∈ ms ++ [n], IsProper m) (hne : ms ≠ []) :
    (p.join (ofParts (ms ++ [n]))).parent? = some (p.join (ofParts ms)) := by
  have hms : ∀ m ∈ ms, IsProper m := fun m hm => h m (List.mem_append_left [n] hm)
  have hn : IsProper n := h n (by simp)
  have hlong : ms ++ [n] ≠ [] := by simp
  obtain ⟨front, hfront⟩ := exists_front_join p
  have hlongParts := hfront (isAbsolute_ofParts h hlong)
  have hparts := hfront (isAbsolute_ofParts hms hne)
  rw [parts_ofParts_of_isProper h hlong] at hlongParts
  rw [parts_ofParts_of_isProper hms hne] at hparts
  rw [← ofParts_parts (p.join (ofParts ms)), hparts]
  obtain ⟨init, m, rfl⟩ := (List.eq_nil_or_concat' ms).resolve_left hne
  have hm : IsProper m := hms m (by simp)
  simp only [← List.append_assoc] at hlongParts ⊢
  exact parent?_of_parts hm hn hlongParts

/-- One name below a directory, the enclosing directories are that one and those above it. -/
theorem above_of_mem_enclosing_join (hn : IsProper n) (h : q ∈ (p.join (ofParts [n])).enclosing)
    (hne : q.isEmpty = false) : q.Above p := by
  have hns : ∀ m ∈ [n], IsProper m := by simpa using hn
  have hrelative := isAbsolute_ofParts hns (List.cons_ne_nil n [])
  obtain ⟨habsolute, rest, ⟨segment, hmem, _⟩, hsegments⟩ := segments_of_mem_enclosing h hne
  refine ⟨habsolute.trans (isAbsolute_join hrelative), ?_⟩
  rw [segments_join hrelative, segments_ofParts hns (List.cons_ne_nil n [])] at hsegments
  obtain ⟨front, last, rfl⟩ := (List.eq_nil_or_concat' rest).resolve_left (List.ne_nil_of_mem hmem)
  rw [← List.append_assoc] at hsegments
  exact ⟨front, (List.append_inj_left' hsegments rfl).symm⟩

/-! ## Paths below a directory -/

theorem eq_of_parts (h : p.parts = q.parts) : p = q := by
  rw [← ofParts_parts p, h, ofParts_parts]

theorem ofParts_singleton (n : Name) : ofParts [n] = ⟨n⟩ := by
  simp [ofParts, List.intercalate]

/-- Paths of proper names below one directory have the same parts in front. -/
theorem exists_parts_join_ofParts (hp : p.isEmpty = false) :
    ∃ front, front.filterMap component? = p.parts.filterMap component? ∧
      ∀ {ns}, (∀ n ∈ ns, IsProper n) → ns ≠ [] → (p.join (ofParts ns)).parts = front ++ ns := by
  obtain ⟨front, _, hparts, hjoin⟩ := exists_parts_join hp
  refine ⟨front, ?_, fun {ns} h hne => ?_⟩
  · rcases hparts with hparts | hparts
    · rw [hparts]
    · rw [hparts, List.filterMap_append]
      simp [component?]
  · rw [hjoin (isAbsolute_ofParts h hne), parts_ofParts_of_isProper h hne]

/-- Different names lead to different paths. -/
theorem join_ofParts_inj (hp : p.isEmpty = false) (h : ∀ n ∈ ns, IsProper n) (hne : ns ≠ [])
    (h' : ∀ n ∈ ms, IsProper n) (hne' : ms ≠ [])
    (heq : p.join (ofParts ns) = p.join (ofParts ms)) : ns = ms := by
  obtain ⟨front, _, hjoin⟩ := exists_parts_join_ofParts hp
  have hparts := congrArg parts heq
  rw [hjoin h hne, hjoin h' hne'] at hparts
  exact List.append_cancel_left hparts

/-- A path with a proper name at its end is not empty. -/
theorem isEmpty_of_parts_concat (hn : IsProper n)
    (hparts : p.parts = front ++ [n]) : p.isEmpty = false := by
  apply Bool.eq_false_iff.2
  intro hempty
  have hblank : p.parts = [[]] := by
    rw [Path.parts, List.isEmpty_iff.1 hempty]
    rfl
  have hlast := congrArg List.getLast? (hparts.symm.trans hblank)
  simp [hn.ne_nil] at hlast

/-- A name and then further names are joined as all of them at once. -/
theorem join_join_ofParts (hp : p.isEmpty = false) (hn : IsProper n) (h : ∀ m ∈ ms, IsProper m)
    (hne : ms ≠ []) : (p.join ⟨n⟩).join (ofParts ms) = p.join (ofParts (n :: ms)) := by
  have hsingle : ∀ m ∈ [n], IsProper m := by simpa using hn
  obtain ⟨front, _, hfront⟩ := exists_parts_join_ofParts hp
  have hdir := hfront hsingle (List.cons_ne_nil n [])
  rw [ofParts_singleton] at hdir
  obtain ⟨front', _, hfront', hjoin⟩ := exists_parts_join (isEmpty_of_parts_concat hn hdir)
  apply eq_of_parts
  rw [hjoin (isAbsolute_ofParts h hne), parts_ofParts_of_isProper h hne,
    hfront (List.forall_mem_cons.2 ⟨hn, h⟩) (List.cons_ne_nil n ms)]
  rcases hfront' with hsame | hslash
  · rw [← hsame, hdir, List.append_assoc, List.singleton_append]
  · have hlast := congrArg List.getLast? (hdir.symm.trans hslash)
    simp [hn.ne_nil] at hlast

theorem dropComponents_append (front back : List Name) :
    dropComponents (front.filterMap component?).length (front ++ back) =
      dropComponents 0 back := by
  induction front with
  | nil => rfl
  | cons part front ih =>
      cases hpart : component? part with
      | none =>
          rw [List.filterMap_cons_none hpart, List.cons_append]
          cases hlength : (front.filterMap component?).length with
          | zero => simpa [dropComponents, hpart, hlength] using ih
          | succ count => simpa [dropComponents, hpart, hlength] using ih
      | some c =>
          rw [List.filterMap_cons_some hpart, List.length_cons, List.cons_append]
          simpa [dropComponents, hpart] using ih

/-- The path from a directory to what lies below it. -/
theorem stripPrefix?_join_ofParts (hp : p.isEmpty = false) (h : ∀ n ∈ ns, IsProper n)
    (hne : ns ≠ []) : (p.join (ofParts ns)).stripPrefix? p = some (ofParts ns) := by
  have hinside := inside_ofParts h hne
  have hstarts : (p.join (ofParts ns)).startsWith p = true := by
    rw [startsWith, List.isPrefixOf_iff_prefix, components_join hp hinside]
    exact List.prefix_append _ _
  obtain ⟨front, hfilter, hjoin⟩ := exists_parts_join_ofParts hp
  have hcount : p.components.length - (p.join (ofParts ns)).anchor.length =
      (front.filterMap component?).length := by
    rw [anchor_join hp hinside.isAbsolute, hfilter, components, List.length_append,
      Nat.add_sub_cancel_left]
  have hfirst : dropComponents 0 ns = ns := by
    obtain ⟨n, rest, rfl⟩ := List.exists_cons_of_ne_nil hne
    simp [dropComponents, (h n List.mem_cons_self).component?]
  have hlast : trimParts ns = ns := by
    obtain ⟨init, n, rfl⟩ := (List.eq_nil_or_concat' ns).resolve_left hne
    exact trimParts_concat (h n (by simp))
  simp only [stripPrefix?, hstarts, if_true, hcount, hjoin h hne, dropComponents_append, hfirst,
    hlast]

end Hardlinks.Path
