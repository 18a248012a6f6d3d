-- SUMMARY: A path that leads somewhere once its directory has been provided did not need that.
import Hardlinks.Proofs.FileSystem.Provision
import Hardlinks.Proofs.Resolution.Spelling

/-!
# New directories

A new directory has nothing in it, so a path that goes on from it leads nowhere
(`find_ne_of_makeDirectory`). Of the directories that are made for a path inside a directory, the
one that is to hold the path is made last (`eq_or_made_of_makeFirst`). So if the path is found after
that, no directory was missing (`eq_of_provideParent`), whatever symbolic links lie on the way. And
where a path is found, no later directory is new on the way to it (`exists_child?_of_above`).
-/

namespace Hardlinks.FileSystem

variable {fs made : FileSystem} {ending ending' : Ending} {dir p q r x : Path} {i : Inode}
  {rest : List Segment} {s : Slot} {ps : List Path} {d : Inode} {n : Name}

/-- A path that goes on from a new directory leads nowhere. -/
theorem find_ne_of_makeDirectory (h : fs.makeDirectory q = .ok made) (hp : Path.Past q rest p)
    (hon : ∃ segment ∈ rest, segment ≠ .here) : made.find ending p ≠ .ok i := by
  intro hi
  have hempty := child?_nextInode_of_makeDirectory h
  have hnone : ∀ {ns j}, made.descend? fs.nextInode ns = some j → ns = [] := by
    intro ns j hj
    cases ns with
    | nil => rfl
    | cons n ns =>
        obtain ⟨b, hb, _⟩ := descend?_cons_eq_some_iff.1 hj
        simp [hempty] at hb
  have hplain : made.Plain fs.nextInode := by
    intro ns j hj
    obtain rfl := hnone hj
    cases hj
    exact target?_eq_none_of_isDirectory (find_of_makeDirectory h).2
  obtain ⟨links, hleads⟩ := exists_leadsTo (find_of_makeDirectory h).1 (find_of_makeDirectory h).2
  obtain ⟨segment, hsegment, hhere⟩ := hon
  obtain ⟨t, hslot, hnode⟩ := find_eq_ok_iff.1 hi
  obtain ⟨_, _, hroute, _⟩ := slot_eq_ok_iff.1 hslot
  obtain ⟨_, _, hroute⟩ := (hleads.pathRoute_iff hp (List.ne_nil_of_mem hsegment)).1 hroute
  -- The route stays in the new directory up to its last segment, which is the name that is missing.
  obtain ⟨_, _, _, ns, hdown, hnames⟩ := hroute.descend? hplain hp.up
  obtain rfl := hnone hdown
  have hstay : fs.nextInode = t.dir := Option.some.inj hdown
  cases segment with
  | here => exact hhere rfl
  | up => exact hp.up hsegment
  | name n =>
      have hn : n ∈ rest.filterMap Segment.name? := List.mem_filterMap.2 ⟨_, hsegment, rfl⟩
      have hlast : t.last.name? = some n := by simpa [hnames] using hn
      cases hname : t.last with
      | here => simp [hname, Segment.name?] at hlast
      | up => simp [hname, Segment.name?] at hlast
      | name m =>
          have hstep := (nodeAt_eq_ok_iff.1 hnode).1
          rw [hname, ← hstay] at hstep
          have hchild := (step_name_eq_ok_iff.1 hstep).2
          simp [hempty] at hchild

/-- On the way to a path inside a directory, each parent directory is there, or one goes down from
it. -/
theorem isDirectoryAt_or_past (hslot : fs.slot ending (dir.join r) = .ok s) (hr : r.Inside)
    (hp : p.Inside) (hx : x.Above (dir.join p)) (hcheck : x.check = .ok ())
    (hparent : x.parent? = some q) (hne : q.isEmpty = false) :
    q.Above (dir.join p) ∧ q.check = .ok () ∧ (fs.isDirectoryAt q = true ∨
      ∃ back, Path.Past q back x ∧ ∃ segment ∈ back, segment ≠ .here) := by
  obtain ⟨habsolute, back, hon, hback⟩ := Path.segments_of_parent? hparent hne
  have hcheck' := Path.check_of_parent? hparent hne hcheck
  have hsegments := Path.segments_join (p := dir) hp.isAbsolute
  have hq : q.Above (dir.join p) :=
    ⟨habsolute.trans hx.1, (hback ▸ List.prefix_append _ _).trans hx.2⟩
  refine ⟨hq, hcheck', ?_⟩
  rcases List.prefix_or_prefix_of_prefix hq.2 (hsegments ▸ List.prefix_append _ _) with
    ⟨front, hfront⟩ | ⟨front, hfront⟩
  · -- The path is reached from a place that is there, by way of its parent directory.
    left
    have habsolute' : q.isAbsolute = (dir.join r).isAbsolute := by
      rw [hq.1, Path.isAbsolute_join hp.isAbsolute, Path.isAbsolute_join hr.isAbsolute]
    have hlonger : (dir.join r).segments = q.segments ++ (front ++ r.segments) := by
      rw [Path.segments_join hr.isAbsolute, ← hfront, List.append_assoc]
    exact isDirectoryAt_of_slot hslot habsolute' hlonger
      (List.append_ne_nil_of_right_ne_nil _ hr.segments_ne_nil) hcheck'
  · right
    refine ⟨back, ⟨habsolute.symm, hback, fun hup => hp.up ?_⟩, hon⟩
    have hpre := hx.2
    rw [hsegments, hback, ← hfront, List.append_assoc, List.prefix_append_right_inj] at hpre
    exact hpre.subset (List.mem_append_right front hup)

/-- On the way to a path inside a directory, either nothing has to be made, or the directory that
was asked for is made last. -/
theorem eq_or_made_of_makeFirst (hslot : fs.slot ending (dir.join r) = .ok s) (hr : r.Inside)
    (hp : p.Inside) (hq : q.Above (dir.join p)) (hcheck : q.check = .ok ())
    (hlineage : Lineage (q :: ps)) (h : fs.makeFirst (q :: ps) = (.ok (), made)) :
    made = fs ∨ ∃ mid : FileSystem, mid.makeDirectory q = .ok made := by
  induction ps generalizing q made with
  | nil =>
      rcases makeFirst_cases (Path.check_eq_ok_iff.1 hcheck).2.1 h with hsame | hmade | ⟨hnone, _⟩
      · exact .inl hsame
      · exact .inr hmade
      · cases hnone
        exact .inl rfl
  | cons above ps ih =>
      rcases makeFirst_cases (Path.check_eq_ok_iff.1 hcheck).2.1 h with hsame | hmade | ⟨habove, hdir⟩
      · exact .inl hsame
      · exact .inr hmade
      · left
        cases hne : above.isEmpty with
        | true =>
            rw [makeFirst, hne] at habove
            cases habove
            rfl
        | false =>
            obtain ⟨hparent, hlineage⟩ := List.isChain_cons_cons.1 hlineage
            obtain ⟨hq', hcheck', hway⟩ := isDirectoryAt_or_past hslot hr hp hq hcheck hparent hne
            rcases ih hq' hcheck' hlineage habove with hsame | ⟨mid, hmade⟩
            · exact hsame
            · rcases hway with hthere | ⟨back, hback, hon⟩
              · rw [makeFirst_of_isDirectoryAt hne hthere] at habove
                cases habove
                rfl
              · -- The directory above has just been made, so nothing lies in it.
                obtain ⟨i, hi, _⟩ := isDirectoryAt_iff.1 hdir
                exact absurd hi (find_ne_of_makeDirectory hmade hback hon)

/-- If a path is found after the directory that is to hold it has been provided, that was there. -/
theorem eq_of_provideParent (hslot : fs.slot ending (dir.join r) = .ok s) (hr : r.Inside)
    (hp : p.Inside) (h : fs.provideParent (dir.join p) = (.ok (), made))
    (hi : made.find ending' (dir.join p) = .ok i) : made = fs := by
  unfold provideParent at h
  cases hparent : (dir.join p).parent? with
  | none =>
      rw [hparent] at h
      cases h
      rfl
  | some q =>
      simp only [hparent] at h
      split at h
      · cases h
        rfl
      · next hmissing =>
        have hmissing : q.isEmpty = false ∧ fs.isDirectoryAt q = false := by simpa using hmissing
        obtain ⟨ps, hancestors, hlineage⟩ := lineage_ancestors q
        rw [provideDirectory_eq_ok_iff, hancestors] at h
        obtain ⟨t, ht, _⟩ := find_eq_ok_iff.1 hi
        obtain ⟨hq, hcheck, hway⟩ := isDirectoryAt_or_past hslot hr hp ⟨rfl, List.prefix_rfl⟩
          (slot_eq_ok_iff.1 ht).1 hparent hmissing.1
        rcases eq_or_made_of_makeFirst hslot hr hp hq hcheck hlineage h with hsame | ⟨mid, hmade⟩
        · exact hsame
        · rcases hway with hthere | ⟨back, hback, hon⟩
          · simp [hthere] at hmissing
          · exact absurd hi (find_ne_of_makeDirectory hmade hback hon)

/-- On the way to a path that is found, all entries are there. -/
theorem exists_child?_of_above (hextends : fs.Extends made) (hi : fs.find ending p = .ok i)
    (hq : q.Above p) (hnames : made.Names q d n) : ∃ j, fs.child? d n = some j := by
  obtain ⟨front, hfront⟩ := hnames.exists_segments
  obtain ⟨habsolute, rest, hrest⟩ := hq
  obtain ⟨t, j, hp, hj⟩ := exists_slot_name hi
  obtain ⟨_, links, hroute, _⟩ := slot_eq_ok_iff.1 hp
  obtain ⟨slash, hslot⟩ := hnames
  obtain ⟨_, links', hroute', _⟩ := slot_eq_ok_iff.1 hslot
  rw [PathRoute, ← hextends.origin, origin, ← habsolute, ← hrest, hfront, List.append_assoc,
    List.singleton_append] at hroute
  rw [PathRoute, origin, hfront] at hroute'
  obtain ⟨_, t', k, hstop, hk⟩ := hroute.exists_of_append hj
  have hlater := (hstop.with_slash q.endsInSlash).of_keepsWalks hextends.keepsWalks (.inl rfl)
  obtain ⟨_, heq⟩ := hlater.unique hroute'
  simp only [Slot.mk.injEq] at heq
  rw [heq.1, heq.2.1] at hk
  exact ⟨k, (step_name_eq_ok_iff.1 hk).2⟩

end Hardlinks.FileSystem
