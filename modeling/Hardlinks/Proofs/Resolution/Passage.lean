-- SUMMARY: Walks below a directory without symbolic links, as ways down by names alone.
import Hardlinks.Proofs.FileSystem.Site
import Hardlinks.Proofs.Resolution.Lookup

/-!
# Passages

A passage is a descent that a walk can take: every directory on the way can be looked into, the last
one included, and no name is too long. In a directory without symbolic links below it a path is
found exactly if its names but for the last segment are a passage and the last segment leads on from
there (`Site.find_eq_ok_iff`), whatever is to become of links. Names that are no passage in
directories that can all be looked into lead past a name that is missing (`passage_or_missing`), and
then the walk says so (`walk_of_missing`).
-/

namespace Hardlinks.FileSystem

/-- The names lead from the directory `d` down to the directory `a` through directories that can be
looked into. -/
inductive Passage (fs : FileSystem) : Inode → List Name → Inode → Prop
  | here {d : Inode} : fs.enter d = .ok () → Passage fs d [] d
  | down {d b a : Inode} {n : Name} {ns : List Name} : fs.enter d = .ok () →
      fs.step d (.name n) = .ok b → Passage fs b ns a → Passage fs d (n :: ns) a

variable {fs fs' : FileSystem} {ending : Ending} {dir p q : Path} {a b d i : Inode} {n : Name}
  {ns ms : List Name} {x : Segment} {segments front rest : List Segment} {slash : Bool}
  {links : List (Inode × Segment)} {s : Slot} {k : Nat}

/-! ## Ways down -/

theorem Passage.enter_start (h : fs.Passage d ns a) : fs.enter d = .ok () := by
  cases h <;> assumption

theorem Passage.enter (h : fs.Passage d ns a) : fs.enter a = .ok () := by
  induction h with
  | here henter => exact henter
  | down _ _ _ ih => exact ih

theorem Passage.isDirectory (h : fs.Passage d ns a) : fs.isDirectory a = true :=
  (enter_eq_ok_iff.1 h.enter).1

theorem Passage.descend? (h : fs.Passage d ns a) : fs.descend? d ns = some a := by
  induction h with
  | here => rfl
  | down _ hstep _ ih =>
      exact descend?_cons_eq_some_iff.2 ⟨_, (step_name_eq_ok_iff.1 hstep).2, ih⟩

theorem Passage.length_le (h : fs.Passage d ns a) (hn : n ∈ ns) : n.length ≤ Path.nameLimit := by
  induction h with
  | here => cases hn
  | down _ hstep _ ih =>
      rcases List.mem_cons.1 hn with rfl | hn
      · exact (step_name_eq_ok_iff.1 hstep).1
      · exact ih hn

theorem Passage.extend (h : fs.Passage d ns a) (hextends : fs.Extends fs') :
    fs'.Passage d ns a := by
  induction h with
  | here henter => exact .here (hextends.enter henter)
  | down henter hstep _ ih => exact .down (hextends.enter henter) (hextends.step_name hstep) ih

theorem passage_append_iff :
    fs.Passage d (ns ++ ms) a ↔ ∃ b, fs.Passage d ns b ∧ fs.Passage b ms a := by
  induction ns generalizing d with
  | nil =>
      constructor
      · intro h
        exact ⟨d, .here h.enter_start, h⟩
      · rintro ⟨b, hnil, h⟩
        cases hnil
        exact h
  | cons n ns ih =>
      constructor
      · intro h
        cases h with
        | down henter hstep h =>
            obtain ⟨b, hns, hms⟩ := ih.1 h
            exact ⟨b, .down henter hstep hns, hms⟩
      · rintro ⟨b, hns, hms⟩
        cases hns with
        | down henter hstep hns => exact .down henter hstep (ih.2 ⟨b, hns, hms⟩)

theorem passage_concat_iff :
    fs.Passage d (ns ++ [n]) a ↔
      ∃ b, fs.Passage d ns b ∧ fs.step b (.name n) = .ok a ∧ fs.enter a = .ok () := by
  rw [passage_append_iff]
  constructor
  · rintro ⟨b, hns, h⟩
    cases h with
    | down _ hstep hnil =>
        cases hnil with
        | here henter => exact ⟨b, hns, hstep, henter⟩
  · rintro ⟨b, hns, hstep, henter⟩
    exact ⟨b, hns, .down hns.enter hstep (.here henter)⟩

theorem Passage.of_prefix (h : fs.Passage d ns a) (hms : ms <+: ns) : ∃ b, fs.Passage d ms b := by
  obtain ⟨rest, rfl⟩ := hms
  obtain ⟨b, hb, _⟩ := passage_append_iff.1 h
  exact ⟨b, hb⟩

/-- Names that are there are a passage if all directories along them can be looked into. -/
theorem passage_of_descend? (hlength : ∀ n ∈ ns, n.length ≤ Path.nameLimit)
    (henter : ∀ {ms b}, ms <+: ns → fs.descend? d ms = some b → fs.enter b = .ok ())
    (h : fs.descend? d ns = some a) : fs.Passage d ns a := by
  induction ns using List.reverseRecOn generalizing a with
  | nil =>
      cases h
      exact .here (henter List.prefix_rfl rfl)
  | append_singleton ns n ih =>
      obtain ⟨b, hb, hchild⟩ := descend?_concat_eq_some_iff.1 h
      have hns : fs.Passage d ns b := by
        refine ih (fun m hm => hlength m (List.mem_append_left [n] hm)) ?_ hb
        intro ms c hms
        exact henter (hms.trans (List.prefix_append ns [n]))
      have hstep := step_name_eq_ok_iff.2 ⟨hlength n (by simp), hchild⟩
      exact passage_concat_iff.2 ⟨b, hns, hstep, henter List.prefix_rfl h⟩

/-- Along names in directories that can be looked into, one gets to the end or to a name that is
missing. -/
theorem passage_or_missing (hlength : ∀ n ∈ ns, n.length ≤ Path.nameLimit)
    (henter : ∀ {ms b}, ms <+: ns → fs.descend? d ms = some b → fs.enter b = .ok ()) :
    (∃ a, fs.Passage d ns a) ∨
      ∃ ms n rest a, ns = ms ++ n :: rest ∧ fs.Passage d ms a ∧ fs.child? a n = none := by
  induction ns generalizing d with
  | nil => exact .inl ⟨d, .here (henter List.prefix_rfl rfl)⟩
  | cons n ns ih =>
      have hd := henter List.nil_prefix rfl
      cases hchild : fs.child? d n with
      | none => exact .inr ⟨[], n, ns, d, rfl, .here hd, hchild⟩
      | some b =>
          have hstep := step_name_eq_ok_iff.2 ⟨hlength n List.mem_cons_self, hchild⟩
          rcases ih (fun m hm => hlength m (List.mem_cons_of_mem n hm)) (fun hms hc =>
            henter (List.cons_prefix_cons.2 ⟨rfl, hms⟩)
              (descend?_cons_eq_some_iff.2 ⟨b, hchild, hc⟩)) with
            ⟨a, ha⟩ | ⟨ms, m, rest, a, rfl, ha, hfree⟩
          · exact .inl ⟨a, .down hd hstep ha⟩
          · exact .inr ⟨n :: ms, m, rest, a, rfl, .down hd hstep ha, hfree⟩

/-- Nothing lies past a name that is missing. -/
theorem Passage.descend?_of_missing (h : fs.Passage d ms a) (hfree : fs.child? a n = none)
    (ns : List Name) : fs.descend? d (ms ++ n :: ns) = none := by
  apply Option.eq_none_iff_forall_ne_some.2
  intro i hi
  obtain ⟨b, hb, hrest⟩ := descend?_append_eq_some_iff.1 hi
  obtain ⟨c, hc, _⟩ := descend?_cons_eq_some_iff.1 hrest
  obtain rfl := Option.some.inj (h.descend?.symm.trans hb)
  simp [hfree] at hc

/-! ## Walks -/

/-- A segment that does not go up leads to no link where none lies below. -/
theorem Plain.target?_of_step (hplain : fs.Plain d) (henter : fs.enter d = .ok ())
    (hx : x ≠ .up) (hi : fs.step d x = .ok i) : fs.target? i = none := by
  cases x with
  | here =>
      obtain rfl := Except.ok.inj hi
      exact target?_eq_none_of_isDirectory (enter_eq_ok_iff.1 henter).1
  | up => exact absurd rfl hx
  | name n =>
      exact hplain [n] i (descend?_cons_eq_some_iff.2 ⟨i, (step_name_eq_ok_iff.1 hi).2, rfl⟩)

/-- Along a passage a walk gets to the last segment. -/
theorem Route.of_passage (h : fs.Passage d (front.filterMap Segment.name?) a) (hup : .up ∉ front)
    (hkept : ∀ target, fs.linkAt? a x = some target → ending.follows slash = false) :
    fs.Route ending d (front ++ [x]) slash [] ⟨a, x, slash⟩ := by
  induction front generalizing d with
  | nil =>
      cases h with
      | here henter => exact .stop henter hkept
  | cons segment front ih =>
      have hup' : .up ∉ front := fun hmem => hup (List.mem_cons_of_mem segment hmem)
      obtain ⟨next, rest, hcons⟩ := List.exists_cons_of_ne_nil
        (List.append_ne_nil_of_right_ne_nil front (List.cons_ne_nil x []))
      rw [List.cons_append, hcons]
      cases segment with
      | up => simp at hup
      | here =>
          have hroute := ih h hup'
          rw [hcons] at hroute
          exact .step h.enter_start rfl
            (target?_eq_none_of_isDirectory (enter_eq_ok_iff.1 h.enter_start).1) hroute
      | name n =>
          rw [List.filterMap_cons_some (rfl : Segment.name? (.name n) = some n)] at h
          cases h with
          | down henter hstep h =>
              have hroute := ih h hup'
              rw [hcons] at hroute
              exact .step henter hstep
                (target?_eq_none_of_isDirectory (enter_eq_ok_iff.1 h.enter_start).1) hroute

/-- Where no link lies below, a walk that does not go up takes a passage to its last segment. -/
theorem Route.passage (h : fs.Route ending d (front ++ [x]) slash links s) (hplain : fs.Plain d)
    (hup : .up ∉ front ++ [x]) :
    links = [] ∧ s.last = x ∧ s.slash = slash ∧
      fs.Passage d (front.filterMap Segment.name?) s.dir := by
  have hsingle : ∀ {xs : List Segment} {last}, xs ++ [x] = [last] → xs = [] ∧ x = last := by
    intro xs last heq
    simpa [List.append_eq_singleton_iff] using heq
  generalize hsegments : front ++ [x] = segments at h hup
  induction h generalizing front with
  | stay => simp at hsegments
  | stop henter =>
      obtain ⟨rfl, rfl⟩ := hsingle hsegments
      exact ⟨rfl, rfl, rfl, .here henter⟩
  | follow henter htarget =>
      obtain ⟨i, hi, hsome⟩ := linkAt?_eq_some_iff.1 htarget
      rw [hplain.target?_of_step henter (fun heq => hup (by simp [heq])) hi] at hsome
      cases hsome
  | @step dir segment next rest _ i _ _ henter hi _ _ ih =>
      cases front with
      | nil => simp at hsegments
      | cons y front =>
          obtain ⟨rfl, htail⟩ := List.cons.inj hsegments
          have hup' : .up ∉ next :: rest := fun hmem => hup (List.mem_cons_of_mem y hmem)
          cases y with
          | up => simp at hup
          | here =>
              obtain rfl := Except.ok.inj hi
              have hrest := ih hplain htail hup'
              exact hrest
          | name n =>
              have hdown : fs.descend? dir [n] = some i :=
                descend?_cons_eq_some_iff.2 ⟨i, (step_name_eq_ok_iff.1 hi).2, rfl⟩
              obtain ⟨hlinks, hlast, hslash, hpassage⟩ := ih (hplain.descend? hdown) htail hup'
              exact ⟨hlinks, hlast, hslash, .down henter hi hpassage⟩
  | jump henter hi htarget =>
      rw [hplain.target?_of_step henter (fun heq => hup (by simp [heq])) hi] at htarget
      cases htarget

/-- A walk past a name that is missing finds just that. -/
theorem walk_of_missing (h : fs.Passage d ms a) (hfree : fs.child? a n = none)
    (hlength : n.length ≤ Path.nameLimit) (hup : .up ∉ front)
    (hfront : front.filterMap Segment.name? = ms ++ n :: ns) :
    fs.walk ending k d (front ++ [x]) slash = .error (.system .noEntry) := by
  induction front generalizing d ms with
  | nil => simp at hfront
  | cons segment front ih =>
      have hup' : .up ∉ front := fun hmem => hup (List.mem_cons_of_mem segment hmem)
      have hnone := target?_eq_none_of_isDirectory (enter_eq_ok_iff.1 h.enter_start).1
      obtain ⟨next, rest, hcons⟩ := List.exists_cons_of_ne_nil
        (List.append_ne_nil_of_right_ne_nil front (List.cons_ne_nil x []))
      rw [List.cons_append, hcons, walk_eq, walkWith_cons, h.enter_start, ← walk_eq]
      cases segment with
      | up => simp at hup
      | here =>
          have hwalk := ih h hup' hfront
          rw [hcons] at hwalk
          simpa [step, hnone] using hwalk
      | name m =>
          rw [List.filterMap_cons_some (rfl : Segment.name? (.name m) = some m)] at hfront
          cases h with
          | here =>
              obtain ⟨rfl, _⟩ := List.cons.inj hfront
              simp [step, hfree, Nat.not_lt.2 hlength]
          | down _ hstep h =>
              obtain ⟨rfl, htail⟩ := List.cons.inj hfront
              have hwalk := ih h hup' htail
              rw [hcons] at hwalk
              have hnone := target?_eq_none_of_isDirectory (enter_eq_ok_iff.1 h.enter_start).1
              simpa [hstep, hnone] using hwalk

/-! ## Paths -/

/-- In a directory without links below it, a path gets to its last segment by a passage. -/
theorem Site.slot_eq_ok_iff (h : fs.Site dir links d) (hp : Path.Past dir (front ++ [x]) p) :
    fs.slot ending p = .ok s ↔
      p.check = .ok () ∧ links.length ≤ linkLimit ∧
        fs.Passage d (front.filterMap Segment.name?) s.dir ∧ s.last = x ∧
        s.slash = p.endsInSlash := by
  have hne : front ++ [x] ≠ [] := by simp
  rw [FileSystem.slot_eq_ok_iff]
  constructor
  · rintro ⟨hcheck, links', hroute, hlinks⟩
    obtain ⟨links'', rfl, hend⟩ := (h.leads.pathRoute_iff hp hne).1 hroute
    obtain ⟨rfl, hlast, hslash, hpassage⟩ := hend.passage h.plain hp.up
    exact ⟨hcheck, by simpa using hlinks, hpassage, hlast, hslash⟩
  · rintro ⟨hcheck, hlinks, hpassage, rfl, hslash⟩
    refine ⟨hcheck, links, (h.leads.pathRoute_iff hp hne).2 ⟨[], by simp, ?_⟩, hlinks⟩
    have hkept : ∀ target, fs.linkAt? s.dir s.last = some target →
        ending.follows p.endsInSlash = false := by
      intro target htarget
      obtain ⟨i, hi, hsome⟩ := linkAt?_eq_some_iff.1 htarget
      rw [(h.plain.descend? hpassage.descend?).target?_of_step hpassage.enter
        (fun heq => hp.up (by simp [heq])) hi] at hsome
      cases hsome
    have hroute : fs.Route ending d (front ++ [s.last]) p.endsInSlash [] ⟨s.dir, s.last, _⟩ :=
      Route.of_passage hpassage (fun hmem => hp.up (List.mem_append_left _ hmem)) hkept
    rwa [← hslash] at hroute ⊢

theorem Site.find_eq_ok_iff (h : fs.Site dir links d) (hp : Path.Past dir (front ++ [x]) p) :
    fs.find ending p = .ok i ↔
      p.check = .ok () ∧ links.length ≤ linkLimit ∧
        ∃ a, fs.Passage d (front.filterMap Segment.name?) a ∧ fs.step a x = .ok i ∧
          (p.endsInSlash = true → fs.isDirectory i = true) := by
  rw [FileSystem.find_eq_ok_iff]
  simp only [h.slot_eq_ok_iff hp, nodeAt_eq_ok_iff]
  constructor
  · rintro ⟨s, ⟨hcheck, hlinks, hpassage, rfl, hslash⟩, hstep, hdir⟩
    exact ⟨hcheck, hlinks, s.dir, hpassage, hstep, hslash ▸ hdir⟩
  · rintro ⟨hcheck, hlinks, a, hpassage, hstep, hdir⟩
    exact ⟨⟨a, x, p.endsInSlash⟩, ⟨hcheck, hlinks, hpassage, rfl, rfl⟩, hstep, hdir⟩

/-- Where no link lies below, it does not matter what is to become of links. -/
theorem Site.find_of_find {ending' : Ending} (h : fs.Site dir links d) (hp : p.Inside)
    (hi : fs.find ending (dir.join p) = .ok i) : fs.find ending' (dir.join p) = .ok i := by
  obtain ⟨front, x, hsegments⟩ := hp.exists_concat
  have hpast : Path.Past dir (front ++ [x]) (dir.join p) := hsegments ▸ hp.past dir
  exact (h.find_eq_ok_iff hpast).2 ((h.find_eq_ok_iff hpast).1 hi)

theorem Site.length_links_le (h : fs.Site dir links d) (hp : p.Inside)
    (hi : fs.find ending (dir.join p) = .ok i) : links.length ≤ linkLimit := by
  obtain ⟨front, x, hsegments⟩ := hp.exists_concat
  have hpast : Path.Past dir (front ++ [x]) (dir.join p) := hsegments ▸ hp.past dir
  exact ((h.find_eq_ok_iff hpast).1 hi).2.1

/-- Paths that have the same names and end in one lead to the same. -/
theorem Site.find_of_names (h : fs.Site dir links d) (hp : p.Inside) (hpend : p.EndsInName)
    (hq : q.Inside) (hqend : q.EndsInName) (hcheck : (dir.join q).check = .ok ())
    (hnames : p.names = q.names) (hi : fs.find ending (dir.join p) = .ok i) :
    fs.find ending (dir.join q) = .ok i := by
  obtain ⟨front, n, hsegments⟩ := hpend.exists_concat hp
  obtain ⟨front', n', hsegments'⟩ := hqend.exists_concat hq
  have hpast : Path.Past dir (front ++ [.name n]) (dir.join p) := hsegments ▸ hp.past dir
  have hpast' : Path.Past dir (front' ++ [.name n']) (dir.join q) := hsegments' ▸ hq.past dir
  rw [Path.names_of_segments hsegments, Path.names_of_segments hsegments'] at hnames
  obtain ⟨hfront, hlast⟩ := List.append_inj' hnames rfl
  obtain rfl : n = n' := by simpa [Segment.name?] using hlast
  obtain ⟨_, hlinks, a, ha, hstep, _⟩ := (h.find_eq_ok_iff hpast).1 hi
  refine (h.find_eq_ok_iff hpast').2 ⟨hcheck, hlinks, a, hfront ▸ ha, hstep, fun hslash => ?_⟩
  rw [Path.endsInSlash_join hq.isAbsolute hq.isEmpty, hqend.1] at hslash
  cases hslash

/-- A path past a missing name is missing. -/
theorem Site.slot_of_missing (h : fs.Site dir links d) (hlinks : links.length ≤ linkLimit)
    (hp : Path.Past dir (front ++ [x]) p) (hcheck : p.check = .ok ()) (hms : fs.Passage d ms a)
    (hfree : fs.child? a n = none) (hlength : n.length ≤ Path.nameLimit)
    (hfront : front.filterMap Segment.name? = ms ++ n :: ns) :
    fs.slot ending p = .error (.system .noEntry) := by
  obtain ⟨⟨s, hroute, hd⟩, hdir⟩ := h.leads
  have hwalk : fs.walk ending linkLimit (fs.origin dir) (dir.segments ++ (front ++ [x]))
      p.endsInSlash = fs.walk ending (linkLimit - links.length) d (front ++ [x]) p.endsInSlash :=
    hroute.walk_append hd hdir (by simp) hlinks
  have hmissing : fs.walk ending (linkLimit - links.length) d (front ++ [x]) p.endsInSlash =
      .error (.system .noEntry) :=
    walk_of_missing hms hfree hlength (fun hmem => hp.up (List.mem_append_left _ hmem)) hfront
  rw [slot, hcheck, hp.isAbsolute, hp.segments]
  exact hwalk.trans hmissing

/-- What a path goes on from is a directory. -/
theorem isDirectoryAt_of_slot (hslot : fs.slot ending p = .ok s)
    (habsolute : q.isAbsolute = p.isAbsolute) (hsegments : p.segments = q.segments ++ rest)
    (hrest : rest ≠ []) (hcheck : q.check = .ok ()) : fs.isDirectoryAt q = true := by
  obtain ⟨_, links, hroute, hlinks⟩ := FileSystem.slot_eq_ok_iff.1 hslot
  have horigin : fs.origin p = fs.origin q := by
    rw [origin, origin, habsolute]
  rw [PathRoute, hsegments, horigin] at hroute
  obtain ⟨links', a, hpre, henter, hall⟩ := hroute.of_append hrest
  obtain ⟨t, hroute', hstep⟩ := hall q.endsInSlash
  have hdir := (enter_eq_ok_iff.1 henter).1
  exact isDirectoryAt_iff.2 ⟨a, find_of_route hcheck hroute'
    (Nat.le_trans hpre.length_le hlinks) hstep fun _ => hdir, hdir⟩

end Hardlinks.FileSystem
