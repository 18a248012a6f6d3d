-- SUMMARY: The parent directory of a path that ends in a name: one name shorter, and no longer.
import Hardlinks.Proofs.Path.Proper

/-!
# Parents of paths

The parent directory of a path that ends in a name has the path's segments without that name, but
for some `.` at their end (`front_of_parent?`). It is written with the first bytes of the path, so
it is no longer and holds no other bytes (`prefix_of_parent?`), and it has fewer parts.
-/

namespace Hardlinks.Path

variable {dir p q : Path} {n : Name} {parts : List Name} {front : List Segment} {x : Segment}

theorem here_of_blank (h : ∀ part ∈ parts, part = [] ∨ part = [dot]) {segment : Segment}
    (hmem : segment ∈ parts.filterMap segment?) : segment = .here := by
  obtain ⟨part, hpart, hsegment⟩ := List.mem_filterMap.1 hmem
  rcases h part hpart with rfl | rfl
  · cases hsegment
  · cases hsegment
    rfl

/-- Before its last name, a path has the segments of its parent directory, which ends in no `.` that
it could do without. -/
theorem front_of_parent? (hp : p.segments = front ++ [.name n]) (h : p.parent? = some q)
    (hne : q.isEmpty = false) :
    (∃ blank, front = q.segments ++ blank ∧ ∀ segment ∈ blank, segment = .here) ∧
      (q.segments.getLast? = some .here → q.segments = [.here]) := by
  obtain ⟨first, body, before, last, after, hparts, hblank, ⟨hname, hdot⟩, hbody, hform⟩ :=
    parts_of_parent? h hne
  obtain ⟨_, hq⟩ := segments_of_parts hparts hform
  obtain ⟨segment, hsegment, hother⟩ := segment?_isSome hname
  have hsegments : p.segments = q.segments ++
      (before.filterMap segment? ++ segment :: after.filterMap segment?) := by
    rw [hq, segments, hparts, ← List.cons_append, List.filterMap_append, List.filterMap_append,
      List.filterMap_cons_some hsegment]
  constructor
  · -- Nothing but the name can be the last segment.
    have hafter : after.filterMap segment? = [] := by
      apply Classical.byContradiction
      intro hsome
      obtain ⟨xs, y, hxs⟩ := (List.eq_nil_or_concat' _).resolve_left hsome
      have hy : y = .here := by
        apply here_of_blank fun part hpart => hblank part (List.mem_append_right before hpart)
        rw [hxs]
        simp
      rw [hp, hxs, hy, ← List.cons_append, ← List.append_assoc, ← List.append_assoc] at hsegments
      have hlast := (List.append_inj' hsegments rfl).2
      simp at hlast
    rw [hafter, hp, ← List.append_assoc] at hsegments
    refine ⟨before.filterMap segment?, (List.append_inj' hsegments rfl).1, fun s hs => ?_⟩
    exact here_of_blank (fun part hpart => hblank part (List.mem_append_left after hpart)) hs
  · intro hlast
    rcases List.eq_nil_or_concat body with rfl | ⟨body, part, rfl⟩
    · rw [hq] at hlast ⊢
      cases hfirst : segment? first with
      | none => simp [hfirst] at hlast
      | some s => simpa [hfirst] using hlast
    · obtain ⟨hpart, hpartDot⟩ := hbody part (by simp)
      obtain ⟨s, hs, hnot⟩ := segment?_isSome hpart
      rw [hq, List.concat_eq_append, ← List.cons_append, List.filterMap_append] at hlast
      simp [hs, hnot hpartDot] at hlast

theorem names_of_here {front blank : List Segment} (h : ∀ segment ∈ blank, segment = .here) :
    (front ++ blank).filterMap Segment.name? = front.filterMap Segment.name? := by
  have hnone : blank.filterMap Segment.name? = [] := by
    refine List.filterMap_eq_nil_iff.2 fun segment hsegment => ?_
    rw [h segment hsegment]
    rfl
  rw [List.filterMap_append, hnone, List.append_nil]

/-- The parent directory of a path that goes on from a directory by more than one name goes on from
there by all of them but the last. -/
theorem Past.parent? {m : Name} {ms : List Name} (hp : Past dir (front ++ [.name n]) p)
    (h : p.parent? = some q) (hne : q.isEmpty = false)
    (hfront : front.filterMap Segment.name? = ms ++ [m]) :
    ∃ back, Past dir (back ++ [.name m]) q ∧ back.filterMap Segment.name? = ms := by
  have hsegments : p.segments = (dir.segments ++ front) ++ [.name n] := by
    rw [hp.segments, List.append_assoc]
  obtain ⟨⟨blank, heq, hblank⟩, hend⟩ := front_of_parent? hsegments h hne
  rcases List.append_eq_append_iff.1 heq with ⟨below, hq, rfl⟩ | ⟨cs, _, rfl⟩
  · rw [names_of_here hblank] at hfront
    rcases List.eq_nil_or_concat' below with rfl | ⟨back, last, rfl⟩
    · simp at hfront
    · have hup : .up ∉ back ++ [last] := by
        intro hmem
        exact hp.up (List.mem_append_left _ (List.mem_append_left blank hmem))
      cases last with
      | up => simp at hup
      | here =>
          rw [← List.append_assoc] at hq
          -- Then the `.` would be all there is.
          have hshort : dir.segments ++ back ++ [.here] = [] ++ [.here] :=
            hq.symm.trans (hend (by rw [hq, List.getLast?_concat]))
          obtain ⟨_, rfl⟩ := List.append_eq_nil_iff.1 (List.append_inj' hshort rfl).1
          have hnil : List.filterMap Segment.name? [.here] = [] := rfl
          rw [List.nil_append, hnil] at hfront
          simp at hfront
      | name m' =>
          rw [List.filterMap_append] at hfront
          obtain ⟨hms, hm⟩ := List.append_inj' hfront rfl
          obtain rfl := (List.cons.inj hm).1
          exact ⟨back, ⟨(segments_of_parent? h hne).1.trans hp.isAbsolute, hq, hup⟩, hms⟩
  · rw [← List.nil_append front, names_of_here fun segment hsegment =>
      hblank segment (List.mem_append_right cs hsegment)] at hfront
    simp at hfront

theorem isEmpty_ofParts {first : Name} {above : List Name} (h : first = [] → above ≠ []) :
    (ofParts (first :: above)).isEmpty = false := by
  cases first <;> cases above <;> simp_all [isEmpty, ofParts, List.intercalate]

/-- Where something follows the first part, there is a parent directory to speak of. -/
theorem exists_parent? {first : Name} {rest : List Name} (hparts : p.parts = first :: rest)
    (hrest : trimParts rest ≠ []) : ∃ q, p.parent? = some q ∧ q.isEmpty = false := by
  obtain ⟨part, body, hbody⟩ := List.exists_cons_of_ne_nil hrest
  simp only [parent?, hparts, hbody]
  split
  · exact ⟨_, rfl, rfl⟩
  · next h =>
    refine ⟨_, rfl, isEmpty_ofParts ?_⟩
    rintro rfl habove
    exact h rfl habove

/-- A path that ends in a name and has no parent directory to speak of has no other name. -/
theorem here_of_parent?_isEmpty (hp : p.segments = front ++ [.name n])
    (h : ∀ q, p.parent? = some q → q.isEmpty = true) : ∀ segment ∈ front, segment = .here := by
  obtain ⟨first, rest, hparts⟩ := List.exists_cons_of_ne_nil (List.splitOn_ne_nil slash p.bytes)
  have hparts' : p.parts = first :: rest := hparts
  have htrim : trimParts rest = [] := by
    apply Classical.byContradiction
    intro hrest
    obtain ⟨q, hq, hne⟩ := exists_parent? hparts' hrest
    simp [h q hq] at hne
  obtain ⟨⟨blank, hblank, hhere⟩, _⟩ := trimParts_spec rest
  rw [htrim, List.nil_append] at hblank
  subst hblank
  have hrest : ∀ segment ∈ rest.filterMap segment?, segment = .here := fun _ => here_of_blank hhere
  have hlast : .name n ∉ rest.filterMap segment? := fun hmem => by cases hrest _ hmem
  rw [segments, hparts', List.filterMap_cons] at hp
  split at hp
  · exact absurd (by simp [hp]) hlast
  · rcases List.cons_eq_append_iff.1 hp with ⟨rfl, _⟩ | ⟨front', _, hfront⟩
    · simp
    · exact absurd (by simp [hfront]) hlast

/-- A path that goes on from a directory by more than one name has a parent directory. -/
theorem Past.exists_parent? (hp : Past dir (front ++ [.name n]) p)
    (hfront : front.filterMap Segment.name? ≠ []) :
    ∃ q, p.parent? = some q ∧ q.isEmpty = false := by
  apply Classical.byContradiction
  intro hnone
  have hempty : ∀ q, p.parent? = some q → q.isEmpty = true := by
    intro q hq
    cases hne : q.isEmpty with
    | true => rfl
    | false => exact absurd ⟨q, hq, hne⟩ hnone
  have hsegments : p.segments = (dir.segments ++ front) ++ [.name n] := by
    rw [hp.segments, List.append_assoc]
  have hhere := here_of_parent?_isEmpty hsegments hempty
  rw [← List.nil_append front, names_of_here fun segment hsegment =>
    hhere segment (List.mem_append_right dir.segments hsegment)] at hfront
  exact hfront rfl

theorem intercalate_append {xs ys : List Name} (hxs : xs ≠ []) (hys : ys ≠ []) :
    [slash].intercalate (xs ++ ys) =
      [slash].intercalate xs ++ slash :: [slash].intercalate ys := by
  induction xs with
  | nil => exact absurd rfl hxs
  | cons x xs ih =>
      cases xs with
      | nil =>
          obtain ⟨y, ys, rfl⟩ := List.exists_cons_of_ne_nil hys
          simp [List.intercalate]
      | cons x' xs =>
          have htail := ih (List.cons_ne_nil x' xs)
          simp only [List.intercalate, List.cons_append, List.intersperse_cons_cons,
            List.flatten_cons] at htail ⊢
          rw [htail]
          simp

/-- The parent directory is written with the first bytes of the path. -/
theorem prefix_of_parent? (h : p.parent? = some q) (hne : q.isEmpty = false) :
    q.bytes <+: p.bytes := by
  obtain ⟨first, body, before, last, after, hparts, _, _, _, hform⟩ := parts_of_parent? h hne
  have hback : before ++ last :: after ≠ [] :=
    List.append_ne_nil_of_right_ne_nil before (List.cons_ne_nil last after)
  have hbytes : p.bytes = [slash].intercalate (first :: body) ++
      slash :: [slash].intercalate (before ++ last :: after) := by
    rw [← intercalate_append (List.cons_ne_nil first body) hback, List.cons_append, ← hparts,
      Path.parts, List.intercalate_splitOn]
  rcases hform with ⟨rfl, rfl, rfl⟩ | ⟨_, rfl⟩
  · exact ⟨_, hbytes.symm⟩
  · exact ⟨_, hbytes.symm⟩

/-- A parent directory other than the root has fewer parts. -/
theorem length_parts_of_parent? (h : p.parent? = some q) (hne : q.isEmpty = false)
    (hq : q.segments ≠ []) : q.parts.length < p.parts.length := by
  obtain ⟨first, body, before, last, after, hparts, _, _, _, hform⟩ := parts_of_parent? h hne
  rcases hform with ⟨rfl, rfl, rfl⟩ | ⟨_, rfl⟩
  · exact absurd rfl hq
  · rw [parts_ofParts _ (List.cons_ne_nil first body), hparts]
    · simp only [List.length_cons, List.length_append]
      omega
    · intro part hpart
      apply slash_notMem_of_mem_parts (p := p)
      rw [hparts, ← List.cons_append]
      exact List.mem_append_left _ hpart

/-- The paths that a file call takes hold no NUL, are not empty and not too long. -/
theorem check_eq_ok_iff :
    p.check = .ok () ↔ 0 ∉ p.bytes ∧ p.isEmpty = false ∧ p.bytes.length ≤ lengthLimit := by
  unfold check checkBytes
  cases hnul : p.bytes.contains 0 <;> cases hempty : p.isEmpty <;>
    simp_all [bind, Except.bind]

/-- What a file call takes, it takes as far as the parent directory. -/
theorem check_of_parent? (h : p.parent? = some q) (hne : q.isEmpty = false)
    (hcheck : p.check = .ok ()) : q.check = .ok () := by
  obtain ⟨hnul, _, hlength⟩ := check_eq_ok_iff.1 hcheck
  have hpre := prefix_of_parent? h hne
  exact check_eq_ok_iff.2 ⟨fun hmem => hnul (hpre.subset hmem), hne,
    Nat.le_trans hpre.length_le hlength⟩

/-- What a file call takes, it takes as far as the directory that a path was joined to. -/
theorem check_of_join (hq : q.isAbsolute = false) (hne : p.isEmpty = false)
    (hcheck : (p.join q).check = .ok ()) : p.check = .ok () := by
  obtain ⟨hnul, _, hlength⟩ := check_eq_ok_iff.1 hcheck
  have hpre : p.bytes <+: (p.join q).bytes := by
    rw [join, hq, if_neg (by simp)]
    split <;> exact List.prefix_append _ _
  exact check_eq_ok_iff.2 ⟨fun hmem => hnul (hpre.subset hmem), hne,
    Nat.le_trans hpre.length_le hlength⟩

/-- A shorter path makes a shorter joined path. -/
theorem length_join_le {r : Path} (hq : q.isAbsolute = false) (hr : r.isAbsolute = false)
    (hle : q.bytes.length ≤ r.bytes.length) :
    (p.join q).bytes.length ≤ (p.join r).bytes.length := by
  simp only [join, hq, hr, Bool.false_eq_true, if_false]
  split <;> simpa using hle

end Hardlinks.Path
