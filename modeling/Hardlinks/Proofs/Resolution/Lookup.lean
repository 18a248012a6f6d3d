-- SUMMARY: Looking up a path below a directory, once the directory has been reached.
import Hardlinks.Proofs.FileSystem.Directories
import Hardlinks.Proofs.Path.Parents
import Hardlinks.Proofs.Resolution.Descent

/-!
# Looking up below a directory

A walk that gets to a directory goes on from there with the links it has left
(`Route.walk_append`), and a walk that goes on past some segments has come to a directory by them
(`Route.of_append`). So whether a path below a directory is found, and which error is given if it is
not, is decided in the directory alone (`LeadsTo.slot_join`). A name of which nothing is found could
be given to a new entry (`LeadsTo.vacant_of_find`).
-/

namespace Hardlinks.FileSystem

variable {fs : FileSystem} {ending : Ending} {dir d i : Inode} {n : Name}
  {segments rest : List Segment} {slash slash' : Bool} {links : List (Inode × Segment)}
  {s t : Slot} {p q : Path}

/-- A walk that gets to a directory goes on from there with the links it has left. -/
theorem Route.walk_append {ending' : Ending} {m : Nat}
    (h : fs.Route .follow dir segments slash links s)
    (hd : fs.step s.dir s.last = .ok d) (hdir : fs.isDirectory d = true) (hrest : rest ≠ [])
    (hlinks : links.length ≤ m) :
    fs.walk ending' m dir (segments ++ rest) slash' =
      fs.walk ending' (m - links.length) d rest slash' := by
  obtain ⟨next, rest, rfl⟩ := List.exists_cons_of_ne_nil hrest
  have hnone := target?_eq_none_of_isDirectory hdir
  induction h generalizing m with
  | stay =>
      obtain rfl := Except.ok.inj hd
      rfl
  | stop henter =>
      rw [FileSystem.walk_eq, List.singleton_append, walkWith_cons, henter, hd]
      simp [hnone, FileSystem.walk_eq]
  | follow henter htarget _ _ ih =>
      obtain ⟨i, hi, hsome⟩ := linkAt?_eq_some_iff.1 htarget
      rw [FileSystem.walk_eq, List.singleton_append, walkWith_cons, henter, hi]
      cases m with
      | zero => simp at hlinks
      | succ m => simpa [hsome, jumpFrom] using ih hd (Nat.le_of_succ_le_succ hlinks)
  | step henter hi htarget _ ih =>
      rw [FileSystem.walk_eq, List.cons_append, List.cons_append, walkWith_cons, henter, hi]
      simpa [htarget, FileSystem.walk_eq] using ih hd hlinks
  | jump henter hi htarget _ ih =>
      rw [FileSystem.walk_eq, List.cons_append, List.cons_append, walkWith_cons, henter, hi]
      cases m with
      | zero => simp at hlinks
      | succ m => simpa [htarget, jumpFrom] using ih hd (Nat.le_of_succ_le_succ hlinks)

/-- A walk that goes on past some segments has come to a directory by them. -/
theorem Route.of_append (h : fs.Route ending dir (segments ++ rest) slash links t)
    (hrest : rest ≠ []) :
    ∃ links' d, links' <+: links ∧ fs.enter d = .ok () ∧ ∀ slash', ∃ s,
      fs.Route .follow dir segments slash' links' s ∧ fs.step s.dir s.last = .ok d := by
  have hnil : ∀ {front : List Segment} {last}, front ++ rest = [last] → front = [] := by
    intro front last hlast
    rcases List.append_eq_singleton_iff.1 hlast with ⟨hfront, _⟩ | ⟨_, hnone⟩
    · exact hfront
    · exact absurd hnone hrest
  generalize hx : segments ++ rest = xs at h
  induction h generalizing segments with
  | stay => simp [hrest] at hx
  | stop henter =>
      obtain rfl := hnil hx
      exact ⟨[], _, List.nil_prefix, henter, fun _ => ⟨_, .stay, rfl⟩⟩
  | follow henter =>
      obtain rfl := hnil hx
      exact ⟨[], _, List.nil_prefix, henter, fun _ => ⟨_, .stay, rfl⟩⟩
  | @step dir segment next rest' _ i _ _ henter hi htarget hroute ih =>
      cases segments with
      | nil => exact ⟨[], _, List.nil_prefix, henter, fun _ => ⟨_, .stay, rfl⟩⟩
      | cons y ys =>
          obtain ⟨rfl, htail⟩ := List.cons.inj hx
          cases ys with
          | nil =>
              refine ⟨[], i, List.nil_prefix, hroute.enter,
                fun _ => ⟨⟨dir, y, _⟩, .stop henter ?_, hi⟩⟩
              intro target hlink
              simp [linkAt?, hi, htarget] at hlink
          | cons z zs =>
              obtain ⟨links', d, hlinks, hd, hall⟩ := ih htail
              refine ⟨links', d, hlinks, hd, fun slash' => ?_⟩
              obtain ⟨s, hroute', hstep⟩ := hall slash'
              exact ⟨s, .step henter hi htarget hroute', hstep⟩
  | @jump dir segment next rest' _ i target _ _ henter hi htarget hroute ih =>
      cases segments with
      | nil => exact ⟨[], _, List.nil_prefix, henter, fun _ => ⟨_, .stay, rfl⟩⟩
      | cons y ys =>
          obtain ⟨rfl, htail⟩ := List.cons.inj hx
          have hfront : target.segments ++ ys ++ rest = target.segments ++ next :: rest' := by
            rw [List.append_assoc]
            exact congrArg _ htail
          obtain ⟨links', d, hlinks, hd, hall⟩ := ih hfront
          refine ⟨(dir, y) :: links', d, List.cons_prefix_cons.2 ⟨rfl, hlinks⟩, hd,
            fun slash' => ?_⟩
          cases ys with
          | nil =>
              obtain ⟨s, hroute', hstep⟩ := hall (slash' || target.endsInSlash)
              rw [List.append_nil] at hroute'
              exact ⟨s, .follow henter (linkAt?_eq_some_iff.2 ⟨i, hi, htarget⟩) rfl hroute', hstep⟩
          | cons z zs =>
              obtain ⟨s, hroute', hstep⟩ := hall slash'
              exact ⟨s, .jump henter hi htarget hroute', hstep⟩

theorem LeadsTo.unique {links' : List (Inode × Segment)} {d' : Inode} (h : fs.LeadsTo p links d)
    (h' : fs.LeadsTo p links' d') : links = links' ∧ d = d' := by
  obtain ⟨⟨s, hroute, hd⟩, _⟩ := h
  obtain ⟨⟨s', hroute', hd'⟩, _⟩ := h'
  obtain ⟨rfl, rfl⟩ := Route.unique hroute hroute'
  exact ⟨rfl, Except.ok.inj (hd.symm.trans hd')⟩

/-- The route of a path inside a directory begins with the way to the directory. -/
theorem PathRoute.leadsTo (hq : q.Inside) (h : fs.PathRoute ending (p.join q) links t) :
    ∃ links' d, links' <+: links ∧ fs.LeadsTo p links' d := by
  have horigin : fs.origin (p.join q) = fs.origin p := by
    rw [origin, origin, Path.isAbsolute_join hq.isAbsolute]
  rw [PathRoute, horigin, Path.segments_join hq.isAbsolute] at h
  obtain ⟨links', d, hpre, henter, hall⟩ := h.of_append hq.segments_ne_nil
  exact ⟨links', d, hpre, hall p.endsInSlash, (enter_eq_ok_iff.1 henter).1⟩

/-- Where a path inside a directory has a slot, the directory's own path leads to the directory. -/
theorem exists_leadsTo_of_slot (hq : q.Inside) (hslot : fs.slot ending (p.join q) = .ok t) :
    ∃ links d, fs.LeadsTo p links d := by
  obtain ⟨_, links, hroute, _⟩ := slot_eq_ok_iff.1 hslot
  obtain ⟨links', d, _, hleads⟩ := hroute.leadsTo hq
  exact ⟨links', d, hleads⟩

/-- A name that is joined to a path is one in the directory that the path leads to. -/
theorem leadsTo_of_names_join {m : Name} (hslash : Path.slash ∉ m) (hne : m ≠ [])
    (h : fs.Names (p.join (.ofParts [m])) d n) : n = m ∧ ∃ links, fs.LeadsTo p links d := by
  obtain ⟨slash, hslot⟩ := h
  obtain ⟨_, links, hroute, _⟩ := slot_eq_ok_iff.1 hslot
  have hparts : (Path.ofParts [m]).parts = [m] :=
    Path.parts_ofParts (by simpa using hslash) (List.cons_ne_nil m [])
  have hrelative : (Path.ofParts [m]).isAbsolute = false := by
    apply Bool.eq_false_iff.2
    intro habsolute
    obtain ⟨rest, _, hroot⟩ := Path.isAbsolute_iff.1 habsolute
    exact hne (List.cons.inj (hparts.symm.trans hroot)).1
  obtain ⟨x, hx, _⟩ := Path.segment?_isSome hne
  have hsegments : (Path.ofParts [m]).segments = [x] := by
    rw [Path.segments, hparts, List.filterMap_cons_some hx, List.filterMap_nil]
  have hlast : .name n = x := by
    rw [PathRoute, Path.segments_join hrelative, hsegments] at hroute
    exact (Route.replace_last (y := .here) hroute).1
  subst hlast
  obtain rfl := Path.eq_of_segment? hx
  have hinside : (Path.ofParts [m]).Inside :=
    Path.inside_ofParts (List.forall_mem_singleton.2 ⟨hslash, hx⟩) (List.cons_ne_nil m [])
  obtain ⟨links', d', hleads⟩ := exists_leadsTo_of_slot hinside hslot
  obtain ⟨_, _, hend⟩ := (hleads.pathRoute_join_iff hinside).1 hroute
  rw [hsegments] at hend
  cases hend with
  | stop => exact ⟨rfl, links', hleads⟩
  | follow _ _ hfollows => cases hfollows

/-- The slot of a path that stays inside a directory is decided in the directory. -/
theorem LeadsTo.slot_join (h : fs.LeadsTo p links d) (hlinks : links.length ≤ linkLimit)
    (hq : q.Inside) (hcheck : (p.join q).check = .ok ()) :
    fs.slot ending (p.join q) =
      fs.walk ending (linkLimit - links.length) d q.segments q.endsInSlash := by
  obtain ⟨⟨s, hroute, hd⟩, hdir⟩ := h
  rw [slot, hcheck, Path.segments_join hq.isAbsolute, Path.isAbsolute_join hq.isAbsolute,
    Path.endsInSlash_join hq.isAbsolute hq.isEmpty]
  exact hroute.walk_append hd hdir hq.segments_ne_nil hlinks

/-- A path that leads to a directory replaces no more links than a walk may. -/
theorem LeadsTo.length_le (h : fs.LeadsTo p links d) (hi : fs.find .follow p = .ok i) :
    links.length ≤ linkLimit := by
  obtain ⟨⟨s, hroute, _⟩, _⟩ := h
  obtain ⟨links', s', _, hroute', hlinks, _⟩ := find_eq_ok_route hi
  obtain ⟨rfl, _⟩ := Route.unique hroute hroute'
  exact hlinks

theorem isEmpty_join (hq : q.Inside) : (p.join q).isEmpty = false := by
  have hne : (p.join q).segments ≠ [] := by
    rw [Path.segments_join hq.isAbsolute]
    exact List.append_ne_nil_of_right_ne_nil _ hq.segments_ne_nil
  apply Bool.eq_false_iff.2
  intro hempty
  have hbytes : (p.join q).bytes = [] := List.isEmpty_iff.1 hempty
  exact hne (by simp [Path.segments, Path.parts, hbytes, Path.segment?])

theorem nul_of_find (hq : q.isAbsolute = false) (hi : fs.find ending (p.join q) = .ok i) :
    0 ∉ q.bytes := by
  intro hmem
  obtain ⟨_, _, hcheck, _⟩ := find_eq_ok_route hi
  exact (Path.check_eq_ok_iff.1 hcheck).1 ((Path.mem_bytes_join hq (by decide)).2 (.inr hmem))

/-- What is missing is found to be by a walk, or by a look into a directory. -/
theorem check_of_find_noEntry (hne : p.isEmpty = false)
    (h : fs.find ending p = .error (.system .noEntry)) : p.check = .ok () := by
  cases hcheck : p.check with
  | ok => rfl
  | error e =>
      have heq : e = .system .noEntry := by simpa [find, slot, hcheck] using h
      exact absurd (by rw [heq]; rfl) (check_of_notFound hne hcheck)

/-- A name under which nothing is found in a directory is free. -/
theorem LeadsTo.vacant_of_find (h : fs.LeadsTo p links d) (hlinks : links.length ≤ linkLimit)
    (hq : q.Inside) (hsegments : q.segments = [.name n]) (hslash : q.endsInSlash = false)
    (hfind : fs.find .keep (p.join q) = .error (.system .noEntry)) :
    fs.slot .name (p.join q) = .ok ⟨d, .name n, false⟩ ∧ n.length ≤ Path.nameLimit ∧
      fs.child? d n = none := by
  have hcheck := check_of_find_noEntry (isEmpty_join hq) hfind
  have hslot : ∀ ending, fs.slot ending (p.join q) =
      fs.walk ending (linkLimit - links.length) d [.name n] false := by
    intro ending
    rw [h.slot_join hlinks hq hcheck, hsegments, hslash]
  cases henter : fs.enter d with
  | error e =>
      -- The directory cannot be searched, which is another error.
      exfalso
      rw [find, hslot, walk_eq, walkWith_of_enter henter] at hfind
      unfold enter at henter
      simp only [h.isDirectory, Bool.not_true, Bool.false_eq_true, if_false] at henter
      split at henter <;> cases henter
      cases hfind
  | ok =>
      have hroute : ∀ ending, ending.follows false = false →
          fs.slot ending (p.join q) = .ok ⟨d, .name n, false⟩ := by
        intro ending hkept
        rw [hslot]
        exact walk_eq_ok_iff.2 ⟨[], .stop henter fun _ _ => hkept, Nat.zero_le _⟩
      have hnode : fs.nodeAt ⟨d, .name n, false⟩ = .error (.system .noEntry) := by
        rwa [find, hroute .keep rfl] at hfind
      refine ⟨hroute .name rfl, ?_⟩
      unfold nodeAt step at hnode
      dsimp only at hnode
      split at hnode
      · next hstep =>
        split at hstep
        · cases hstep
          cases hnode
        · next hlength =>
          split at hstep
          · next hfree => exact ⟨Nat.le_of_not_lt hlength, hfree⟩
          · cases hstep
      · simp at hnode

/-- Nothing is found at a name that is free. -/
theorem find_of_vacant (hslot : fs.slot .name p = .ok ⟨d, .name n, slash⟩)
    (hlength : n.length ≤ Path.nameLimit) (hfree : fs.child? d n = none) :
    fs.find .keep p = .error (.system .noEntry) := by
  have hgone : fs.step d (.name n) = .error (.system .noEntry) := by
    simp [step, hfree, Nat.not_lt.2 hlength]
  obtain ⟨hcheck, links, hroute, hlinks⟩ := slot_eq_ok_iff.1 hslot
  have hkeep : fs.slot .keep p = .ok ⟨d, .name n, slash⟩ :=
    slot_eq_ok_iff.2 ⟨hcheck, links,
      Route.of_name hroute fun target htarget => by simp [linkAt?, hgone] at htarget, hlinks⟩
  simp [find, hkeep, nodeAt, hgone]

end Hardlinks.FileSystem
