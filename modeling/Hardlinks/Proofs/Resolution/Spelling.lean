-- SUMMARY: Paths with the same components name the same directory entry.
import Hardlinks.Proofs.Resolution.Lookup

/-!
# Spellings

Two paths with the same components differ in slashes and in `.` on the way, and neither takes a walk
anywhere (`Route.drops`). So where both have a place they have the same one, and what is found by
one spelling is an entry of the directory that the other one leads to (`exists_child?_of_same`).
-/

namespace Hardlinks

/-- The step that a component stands for, if it is one that leads somewhere. -/
def Component.step? : Component → Option Segment
  | .up => some .up
  | .name n => some (.name n)
  | .root | .here => none

namespace Path

/-- The steps of a walk without those that stay where they are. -/
def moves (segments : List Segment) : List Segment :=
  segments.filter (· != .here)

variable {p q : Path}

/-- The moves can be told from the components. -/
theorem filterMap_step? (p : Path) : p.components.filterMap Component.step? = moves p.segments := by
  have hpart : ∀ part, (component? part).bind Component.step? =
      (segment? part).filter (· != .here) := by
    intro part
    unfold component? segment?
    by_cases hempty : part = []
    · simp [hempty]
    · by_cases hdot : part = [dot]
      · simp [hdot, Option.filter]
      · by_cases hup : part = [dot, dot]
        · simp [hup, Component.step?, Option.filter]
        · simp [hempty, hdot, hup, Component.step?, Option.filter]
  have hanchor : p.anchor.filterMap Component.step? = [] := by
    unfold anchor
    split
    · rfl
    · split <;> rfl
  rw [components, List.filterMap_append, hanchor, List.nil_append, List.filterMap_filterMap, moves,
    segments, List.filter_filterMap]
  exact congrArg (p.parts.filterMap ·) (funext hpart)

theorem head?_components_eq_root_iff :
    p.components.head? = some .root ↔ p.isAbsolute = true := by
  have hparts : (p.parts.filterMap component?).head? ≠ some .root := by
    intro hhead
    obtain ⟨part, _, hpart⟩ := List.mem_filterMap.1 (List.mem_of_head? hhead)
    unfold component? at hpart
    split at hpart
    · cases hpart
    · split at hpart <;> cases hpart
  rw [components, anchor]
  split
  · next h => simp [h]
  · next h =>
    split
    · simp [h]
    · simpa [h] using hparts

theorem isAbsolute_eq_of_same (h : p.same q = true) : p.isAbsolute = q.isAbsolute := by
  have hcomponents : p.components = q.components := beq_iff_eq.1 h
  rw [Bool.eq_iff_iff, ← head?_components_eq_root_iff, hcomponents, head?_components_eq_root_iff]

theorem moves_eq_of_same (h : p.same q = true) : moves p.segments = moves q.segments := by
  have hcomponents : p.components = q.components := beq_iff_eq.1 h
  rw [← filterMap_step?, hcomponents, filterMap_step?]

end Path

namespace FileSystem

open Hardlinks.Path (moves)

/-- The second list is the first one without some of its `.`. -/
inductive Drops : List Segment → List Segment → Prop
  | nil : Drops [] []
  | keep {x xs ys} : Drops xs ys → Drops (x :: xs) (x :: ys)
  | drop {xs ys} : Drops xs ys → Drops (.here :: xs) ys

variable {fs : FileSystem} {ending : Ending} {dir d i : Inode} {n : Name} {x : Segment}
  {xs ys front rest : List Segment} {slash slash' : Bool} {links links' : List (Inode × Segment)}
  {s t : Slot} {p q : Path}

theorem Drops.append (h : Drops xs ys) (front : List Segment) :
    Drops (front ++ xs) (front ++ ys) := by
  induction front with
  | nil => exact h
  | cons x front ih => exact .keep ih

theorem drops_moves (xs : List Segment) : Drops xs (moves xs) := by
  induction xs with
  | nil => exact .nil
  | cons x xs ih =>
      cases x with
      | here => exact .drop ih
      | up => exact .keep ih
      | name n => exact .keep ih

/-- A `.` in front of the last segment takes a walk nowhere. -/
theorem Route.drops (h : fs.Route .name dir (xs ++ [x]) slash links t) (hdrops : Drops xs ys) :
    fs.Route .name dir (ys ++ [x]) slash links t := by
  generalize hsegments : xs ++ [x] = segments at h
  induction h generalizing xs ys with
  | stay => simp at hsegments
  | stop henter =>
      obtain ⟨rfl, hlast⟩ := List.append_eq_singleton_iff.1 hsegments |>.resolve_right (by simp)
      cases hdrops
      rw [List.nil_append, hlast]
      exact .stop henter fun _ _ => rfl
  | follow _ _ hfollows => cases hfollows
  | @step dir y next rest slash i links s henter hi htarget hroute ih =>
      cases hdrops with
      | nil => simp at hsegments
      | @keep y' xs ys hdrops =>
          obtain ⟨rfl, htail⟩ := List.cons.inj hsegments
          have hrest := ih hdrops htail
          obtain ⟨z, zs, hys⟩ := List.exists_cons_of_ne_nil (l := ys ++ [x]) (by simp)
          rw [hys] at hrest
          rw [List.cons_append, hys]
          exact .step henter hi htarget hrest
      | @drop xs ys hdrops =>
          obtain ⟨rfl, htail⟩ := List.cons.inj hsegments
          obtain rfl := Except.ok.inj hi
          exact ih hdrops htail
  | @jump dir y next rest slash i target links s henter hi htarget hroute ih =>
      cases hdrops with
      | nil => simp at hsegments
      | @keep y' xs ys hdrops =>
          obtain ⟨rfl, htail⟩ := List.cons.inj hsegments
          have hrest := ih (hdrops.append target.segments)
            ((List.append_assoc _ _ _).trans (congrArg _ htail))
          obtain ⟨z, zs, hys⟩ := List.exists_cons_of_ne_nil (l := ys ++ [x]) (by simp)
          rw [List.append_assoc, hys] at hrest
          rw [List.cons_append, hys]
          exact .jump henter hi htarget hrest
      | @drop xs ys hdrops =>
          -- What is stepped into by a `.` is a directory, and no link.
          obtain ⟨rfl, htail⟩ := List.cons.inj hsegments
          obtain rfl := Except.ok.inj hi
          have hnone := target?_eq_none_of_isDirectory (enter_eq_ok_iff.1 henter).1
          simp [hnone] at htarget

/-- A walk that gets somewhere steps over every segment on the way. -/
theorem Route.exists_of_append (h : fs.Route .name dir (xs ++ x :: rest) slash links t)
    (hi : fs.step t.dir t.last = .ok i) :
    ∃ links' t' j, fs.Route .name dir (xs ++ [x]) slash links' t' ∧
      fs.step t'.dir t'.last = .ok j := by
  cases rest with
  | nil => exact ⟨links, t, i, h, hi⟩
  | cons next rest =>
      rw [List.append_cons] at h
      obtain ⟨links', d, _, _, hall⟩ := h.of_append (List.cons_ne_nil next rest)
      obtain ⟨s, hroute, hd⟩ := hall slash
      obtain ⟨_, t', hname, ⟨rfl, _⟩ | ⟨target, _, hlink, _⟩⟩ := hroute.split_last
      · exact ⟨_, s, d, hname, hd⟩
      · obtain ⟨j, hj, _⟩ := linkAt?_eq_some_iff.1 hlink
        exact ⟨_, t', j, hname, hj⟩

/-- Where a path is found, the places of all its spellings are taken. -/
theorem exists_child?_of_same (hsame : p.same q = true) (hi : fs.find ending p = .ok i)
    (hq : fs.Names q d n) : ∃ j, fs.child? d n = some j := by
  obtain ⟨front, hfront⟩ := hq.exists_segments
  obtain ⟨t, j, hp, hj⟩ := exists_slot_name hi
  obtain ⟨_, links, hroute, _⟩ := slot_eq_ok_iff.1 hp
  obtain ⟨slash, hslot⟩ := hq
  obtain ⟨_, links', hroute', _⟩ := slot_eq_ok_iff.1 hslot
  rw [PathRoute, origin, Path.isAbsolute_eq_of_same hsame] at hroute
  rw [PathRoute, origin, hfront] at hroute'
  have hmoves : moves p.segments = moves front ++ [.name n] := by
    rw [Path.moves_eq_of_same hsame, hfront, moves, List.filter_append]
    rfl
  obtain ⟨xs, last, hxs, hxs', hlast⟩ := List.filter_eq_append_iff.1 hmoves
  obtain ⟨heres, rest, rfl, hheres, _, _⟩ := List.filter_eq_cons_iff.1 hlast
  rw [hxs, ← List.append_assoc] at hroute
  obtain ⟨links₁, t₁, j₁, hroute₁, hj₁⟩ := hroute.exists_of_append hj
  have hmoves' : moves (xs ++ heres) = moves front := by
    rw [moves, List.filter_append, hxs', List.filter_eq_nil_iff.2 hheres, List.append_nil]
  have hdropped := (hroute₁.drops (drops_moves _)).with_slash q.endsInSlash
  rw [hmoves'] at hdropped
  obtain ⟨_, heq⟩ := hdropped.unique (hroute'.drops (drops_moves front))
  simp only [Slot.mk.injEq] at heq
  rw [heq.1, heq.2.1] at hj₁
  exact ⟨j₁, (step_name_eq_ok_iff.1 hj₁).2⟩

end FileSystem

end Hardlinks
