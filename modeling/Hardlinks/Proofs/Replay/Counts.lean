-- SUMMARY: How many entries a pass links, and that the policy only matters for the other ones.
import Hardlinks.Proofs.Replay.Foreseen

/-!
# Counting links

In a pass that works, an entry is linked exactly if nothing was at its destination when it was
placed (`linked_iff_absent`). So the links that a pass makes can be counted by the places that were
empty before it: each of them is linked once, however often it is a destination and in whatever
order (`exists_vacant`). A pass that refuses existing destinations does what one that accepts them
does, up to the first entry that is counted as present, where it fails (`placeAll_refuse_cases`).
-/

namespace Hardlinks.Replay

open FileSystem

/-- Nothing is at the names, which are those of the destination of an entry. -/
def IsVacant (d : Inode) (fs : FileSystem) (entries : List Entry) (ns : List Name) : Prop :=
  fs.descend? d ns = none ∧ ∃ e ∈ entries, e.destination.names = ns

variable {policy : ExistingLinks} {dir : Path} {links : List (Inode × Segment)}
  {s after t : FileSystem} {e e' : Entry} {xs : List Entry} {d i j : Inode} {ns : List Name}
  {placement : Placement} {result : Except Failure Placement}

/-! ## Places -/

theorem linked_iff_absent (hs : s.Site dir links d) (he : EntryInside e)
    (h : place policy dir s e = (.ok placement, after)) :
    placement = .linked ↔ s.descend? d e.destination.names = none := by
  have hmade : ∀ {result made}, s.provideParent (destination dir e) = (result, made) →
      made.Site dir links d ∧ s.Grows made ∧ ∀ {i}, made.descend? d e.destination.names = some i →
        s.descend? d e.destination.names = some i := by
    intro result made hparent
    obtain ⟨hsite, hbelow⟩ := hs.provideParent he.destination
    rw [← destination, hparent] at hsite hbelow
    refine ⟨hsite, hbelow.grows, fun hi => ?_⟩
    rcases hbelow.added hi with hold | ⟨⟨_, hne⟩, _⟩
    · exact hold
    · exact absurd rfl hne
  cases places_of_eq h with
  | linked hparent hlink =>
      obtain ⟨hsite, hgrows, _⟩ := hmade hparent
      obtain ⟨_, r, n, _, hslot, hname, _⟩ := linkFile_eq_ok_iff.1 hlink
      obtain ⟨hlast, _, hfree⟩ := vacantName_eq_ok_iff.1 hname
      obtain ⟨_, ns, hns, hnames⟩ := hsite.descend?_of_slot he.destination hslot hlast
      refine iff_of_true rfl (Option.eq_none_iff_forall_ne_some.2 fun i hi => ?_)
      have hi' := descend?_extend hgrows.extends hi
      rw [hnames] at hi'
      obtain ⟨a, ha, hchild⟩ := descend?_concat_eq_some_iff.1 hi'
      obtain rfl := Option.some.inj (hns.symm.trans ha)
      simp [hfree] at hchild
  | present hparent _ _ haccepts =>
      obtain ⟨hsite, _, hback⟩ := hmade hparent
      obtain ⟨_, i, _, hi⟩ := accepts_iff.1 haccepts
      have hthere := hback (hsite.descend?_of_find he.destination hi)
      exact iff_of_false (by simp) fun hnone => by simp [hnone] at hthere

/-- Placing an entry leaves the place of another one empty, if that can be placed later on. -/
theorem absent_of_place (hs : s.Site dir links d) (he : EntryInside e) (he' : EntryInside e')
    (h : place policy dir s e = (.ok placement, after)) (hgrows : after.Grows t)
    (ht : t.Site dir links d) (hsource : s.find .keep (source dir e') = .ok i)
    (hdestination : t.find .keep (destination dir e') = .ok i)
    (hne : e'.destination.names ≠ e.destination.names) :
    after.descend? d e'.destination.names = none ↔ s.descend? d e'.destination.names = none := by
  obtain ⟨hafter, hbelow⟩ := growsBelow_place policy hs he
  rw [h] at hafter hbelow
  constructor
  · intro habsent
    apply Option.eq_none_iff_forall_ne_some.2
    intro j hj
    simp [descend?_extend hbelow.grows.extends hj] at habsent
  · intro habsent
    apply Option.eq_none_iff_forall_ne_some.2
    intro j hj
    have hi := ht.descend?_of_find he'.destination hdestination
    obtain rfl := Option.some.inj ((descend?_extend hgrows.extends hj).symm.trans hi)
    rcases hbelow.added hj with hold | ⟨hpre, hfile⟩
    · simp [hold] at habsent
    · -- What was made in front of the one destination is a directory, and no source was one then.
      obtain ⟨_, _, hplaced⟩ := find_of_place h
      have hend := hafter.descend?_of_find he.destination hplaced
      obtain ⟨j', hj', hdir⟩ := isDirectory_of_prefix hpre hne hend
      obtain rfl := Option.some.inj (hj.symm.trans hj')
      obtain ⟨node, hnode⟩ := exists_shape? (hs.hierarchical.wellFormed.find hsource)
      rw [isDirectory_eq_of_shape? ((hbelow.grows.shape? hnode).trans hnode.symm)] at hdir
      simp [hdir] at hfile

/-- Once an entry has been placed, the others have the same empty places but for its own. -/
theorem isVacant_of_place (hs : s.Site dir links d)
    (hxs : ∀ e' ∈ e :: xs, EntryInside e' ∧ ∃ i, s.find .keep (source dir e') = .ok i)
    (hplace : place policy dir s e = (.ok placement, after))
    (hrest : (placeAll policy dir after xs).failure? = none) :
    IsVacant d after xs ns ↔ ns ≠ e.destination.names ∧ IsVacant d s (e :: xs) ns := by
  obtain ⟨he, _⟩ := hxs e List.mem_cons_self
  obtain ⟨hafter, hbelow⟩ := growsBelow_place policy hs he
  rw [hplace] at hafter hbelow
  have hgrows := grows_placeAll policy dir after xs
  have hend : (placeAll policy dir after xs).files.Site dir links d :=
    (growsBelow_placeAll policy hafter fun e he => (hxs e (List.mem_cons_of_mem _ he)).1).1
  have hother : ∀ e' ∈ xs, e'.destination.names ≠ e.destination.names →
      (after.descend? d e'.destination.names = none ↔
        s.descend? d e'.destination.names = none) := by
    intro e' he' hne
    obtain ⟨hinside, i, hi⟩ := hxs e' (List.mem_cons_of_mem e he')
    obtain ⟨j, hsource, hdestination⟩ := find_of_placeAll hrest he'
    obtain rfl := Except.ok.inj
      ((find_extend (hbelow.grows.trans hgrows).extends hi).symm.trans hsource)
    exact absent_of_place hs he hinside hplace hgrows hend hi hdestination hne
  have hthere : after.descend? d e.destination.names ≠ none := by
    obtain ⟨i, _, hi⟩ := find_of_place hplace
    simp [hafter.descend?_of_find he.destination hi]
  constructor
  · rintro ⟨habsent, e', he', rfl⟩
    have hne : e'.destination.names ≠ e.destination.names := fun heq => hthere (heq ▸ habsent)
    exact ⟨hne, (hother e' he' hne).1 habsent, e', List.mem_cons_of_mem e he', rfl⟩
  · rintro ⟨hne, habsent, e', he', rfl⟩
    have he' := (List.mem_cons.1 he').resolve_left fun heq => hne (heq ▸ rfl)
    exact ⟨(hother e' he' hne).2 habsent, e', he', rfl⟩

theorem count_cons (h : place policy dir s e = (.ok placement, after)) (xs : List Entry)
    (placement' : Placement) :
    (placeAll policy dir s (e :: xs)).count placement' =
      (placeAll policy dir after xs).count placement' + if placement = placement' then 1 else 0 := by
  rw [placeAll_cons_of_ok h]
  simp [Pass.count, List.countP_cons]

/-- The links that a pass makes are as many as the places that were empty before it. -/
theorem exists_vacant (hs : s.Site dir links d)
    (hxs : ∀ e ∈ xs, EntryInside e ∧ ∃ i, s.find .keep (source dir e) = .ok i)
    (h : (placeAll policy dir s xs).failure? = none) :
    ∃ places : List (List Name), places.Nodup ∧
      places.length = (placeAll policy dir s xs).count .linked ∧
      ∀ ns, ns ∈ places ↔ IsVacant d s xs ns := by
  induction xs generalizing s with
  | nil => exact ⟨[], by simp, rfl, by simp [IsVacant]⟩
  | cons e xs ih =>
      obtain ⟨placement, after, hplace, hrest⟩ := place_of_placeAll h
      obtain ⟨he, _⟩ := hxs e List.mem_cons_self
      obtain ⟨hafter, hbelow⟩ := growsBelow_place policy hs he
      rw [hplace] at hafter hbelow
      have hxs' : ∀ e ∈ xs, EntryInside e ∧ ∃ i, after.find .keep (source dir e) = .ok i := by
        intro e' he'
        obtain ⟨hinside, i, hi⟩ := hxs e' (List.mem_cons_of_mem e he')
        exact ⟨hinside, i, find_extend hbelow.grows.extends hi⟩
      obtain ⟨places, hnodup, hlength, hplaces⟩ := ih hafter hxs' hrest
      have hvacant : ∀ ns, ns ∈ places ↔ ns ≠ e.destination.names ∧ IsVacant d s (e :: xs) ns :=
        fun ns => (hplaces ns).trans (isVacant_of_place hs hxs hplace hrest)
      rw [count_cons hplace]
      by_cases hlinked : placement = .linked
      · have habsent := (linked_iff_absent hs he hplace).1 hlinked
        refine ⟨e.destination.names :: places, List.nodup_cons.2 ⟨?_, hnodup⟩, ?_, fun ns => ?_⟩
        · exact fun hmem => ((hvacant _).1 hmem).1 rfl
        · simp [hlength, hlinked]
        · rw [List.mem_cons, hvacant]
          by_cases hns : ns = e.destination.names
          · simp [hns, IsVacant, habsent]
          · simp [hns]
      · have hpresent := mt (linked_iff_absent hs he hplace).2 hlinked
        refine ⟨places, hnodup, by simp [hlength, hlinked], fun ns => (hvacant ns).trans ?_⟩
        refine and_iff_right_of_imp fun hns heq => ?_
        exact hpresent (heq ▸ hns.1)

/-! ## Policies -/

theorem place_of_linked (h : place policy dir s e = (.ok .linked, after))
    (policy' : ExistingLinks) : place policy' dir s e = (.ok .linked, after) := by
  cases places_of_eq h with
  | linked hparent hlink => simp only [place, hparent, hlink]

/-- The policy matters for an entry that is present, and for no other. -/
theorem place_refuse (h : place .acceptSame dir s e = (result, after)) :
    result ≠ .ok .present ∧ place .refuse dir s e = (result, after) ∨
      result = .ok .present ∧ ∃ cause : IoError, cause.kind = .alreadyExists ∧
        place .refuse dir s e =
          (.error (.link (source dir e) (destination dir e) cause), after) := by
  cases places_of_eq h with
  | linked => exact .inl ⟨by simp, place_of_linked h .refuse⟩
  | @present made cause hparent hlink hkind _ =>
      refine .inr ⟨rfl, cause, hkind, ?_⟩
      simp only [place, hparent, hlink]
      simp [accepts]
  | noParent hparent => exact .inl ⟨by simp, by simp only [place, hparent]⟩
  | refused hparent hlink =>
      refine .inl ⟨by simp, ?_⟩
      simp only [place, hparent, hlink]
      simp [accepts]

/-- A pass that refuses existing destinations does what one that accepts them does, up to the first
entry that is present. -/
theorem placeAll_refuse_cases (dir : Path) (s : FileSystem) (xs : List Entry) :
    (placeAll .acceptSame dir s xs).count .present = 0 ∧
        placeAll .refuse dir s xs = placeAll .acceptSame dir s xs ∨
      ∃ front e back after, xs = front ++ e :: back ∧
        (placeAll .acceptSame dir s front).failure? = none ∧
        (placeAll .acceptSame dir s front).count .present = 0 ∧
        place .acceptSame dir (placeAll .acceptSame dir s front).files e = (.ok .present, after) ∧
        ∃ cause : IoError, cause.kind = .alreadyExists ∧
          (placeAll .refuse dir s xs).failure? =
            some (.link (source dir e) (destination dir e) cause) ∧
          (placeAll .refuse dir s xs).files = after := by
  induction xs generalizing s with
  | nil => exact .inl ⟨rfl, rfl⟩
  | cons e xs ih =>
      rcases hplace : place .acceptSame dir s e with ⟨result, after⟩
      rcases place_refuse hplace with ⟨hother, hrefuse⟩ | ⟨rfl, cause, hkind, hrefuse⟩
      · cases result with
        | error f =>
            left
            rw [placeAll_cons_of_error hplace, placeAll_cons_of_error hrefuse]
            exact ⟨rfl, rfl⟩
        | ok placement =>
            obtain rfl : placement = .linked := by cases placement <;> simp_all
            rcases ih after with ⟨hcount, hsame⟩ |
              ⟨front, e', back, after', rfl, hfailure, hcount, hpresent, cause, hkind, hf, hfiles⟩
            · left
              rw [count_cons hplace, hcount, placeAll_cons_of_ok hplace,
                placeAll_cons_of_ok hrefuse, hsame]
              exact ⟨rfl, rfl⟩
            · right
              refine ⟨e :: front, e', back, after', rfl, ?_⟩
              rw [count_cons hplace, hcount, placeAll_cons_of_ok hplace,
                placeAll_cons_of_ok hrefuse]
              exact ⟨hfailure, rfl, hpresent, cause, hkind, hf, hfiles⟩
      · right
        refine ⟨[], e, xs, after, rfl, rfl, rfl, hplace, cause, hkind, ?_⟩
        rw [placeAll_cons_of_error hrefuse]
        exact ⟨rfl, rfl⟩

/-- A pass that refuses existing destinations and works is one that would accept them. -/
theorem placeAll_refuse (h : (placeAll .refuse dir s xs).failure? = none) :
    placeAll .acceptSame dir s xs = placeAll .refuse dir s xs ∧
      (placeAll .refuse dir s xs).count .present = 0 := by
  rcases placeAll_refuse_cases dir s xs with ⟨hcount, hsame⟩ |
    ⟨_, _, _, _, _, _, _, _, _, _, hf, _⟩
  · rw [hsame]
    exact ⟨rfl, hcount⟩
  · simp [hf] at h

/-- A pass that finds no destination present does the same if it is to refuse them. -/
theorem placeAll_of_count_present (h : (placeAll .acceptSame dir s xs).count .present = 0) :
    placeAll .refuse dir s xs = placeAll .acceptSame dir s xs := by
  rcases placeAll_refuse_cases dir s xs with ⟨_, hsame⟩ |
    ⟨front, e, back, after, rfl, hfailure, _, hpresent, _⟩
  · exact hsame
  · rw [placeAll_append hfailure, placeAll_cons_of_ok hpresent] at h
    simp [Pass.count] at h

end Hardlinks.Replay
