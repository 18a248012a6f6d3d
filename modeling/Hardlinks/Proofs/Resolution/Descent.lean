-- SUMMARY: Going down from a directory by names, and the paths that do just that.
import Hardlinks.Proofs.FileSystem.Siblings
import Hardlinks.Proofs.Path.Proper

/-!
# Descents

A descent goes from a directory to an entry of it, from there to an entry of that, and so on by a
list of names. Where no symbolic link lies below a directory, a path that stays inside it is no more
than a descent by the path's names: its slot is found by the names in front of the last one
(`Route.descend?`), and the links on the way are those of the directory's own path
(`LeadsTo.pathRoute_join_iff`).
-/

namespace Hardlinks.FileSystem

/-- The node that the names lead to from the node `d`, each a name in the directory before it. -/
def descend? (fs : FileSystem) (d : Inode) (ns : List Name) : Option Inode :=
  ns.foldlM fs.child? d

/-- No symbolic link lies below the directory. -/
def Plain (fs : FileSystem) (d : Inode) : Prop :=
  ∀ ns i, fs.descend? d ns = some i → fs.target? i = none

/-- The path leads to the directory `d`, by way of the given symbolic links. -/
structure LeadsTo (fs : FileSystem) (p : Path) (links : List (Inode × Segment)) (d : Inode) :
    Prop where
  route : ∃ s, fs.PathRoute .follow p links s ∧ fs.step s.dir s.last = .ok d
  isDirectory : fs.isDirectory d = true

variable {fs fs' : FileSystem} {ending : Ending} {dir d i j : Inode} {n m : Name}
  {ns ms : List Name} {segments rest : List Segment} {slash slash' : Bool}
  {links links' : List (Inode × Segment)} {s t : Slot} {p q : Path}

/-! ## Names below a directory -/

theorem descend?_cons_eq_some_iff :
    fs.descend? d (n :: ns) = some i ↔ ∃ a, fs.child? d n = some a ∧ fs.descend? a ns = some i := by
  rw [descend?, List.foldlM_cons]
  exact Option.bind_eq_some_iff

theorem descend?_append_eq_some_iff :
    fs.descend? d (ns ++ ms) = some i ↔
      ∃ a, fs.descend? d ns = some a ∧ fs.descend? a ms = some i := by
  rw [descend?, List.foldlM_append]
  exact Option.bind_eq_some_iff

theorem descend?_concat_eq_some_iff :
    fs.descend? d (ns ++ [n]) = some i ↔
      ∃ a, fs.descend? d ns = some a ∧ fs.child? a n = some i := by
  rw [descend?_append_eq_some_iff]
  simp [descend?]

theorem descend?_extend (h : fs.Extends fs') (hi : fs.descend? d ns = some i) :
    fs'.descend? d ns = some i := by
  induction ns generalizing d with
  | nil => exact hi
  | cons n ns ih =>
      obtain ⟨a, ha, hrest⟩ := descend?_cons_eq_some_iff.1 hi
      exact descend?_cons_eq_some_iff.2 ⟨a, h.child? ha, ih hrest⟩

/-- What lies in front of something is there. -/
theorem descend?_of_prefix (h : ms <+: ns) (hi : fs.descend? d ns = some i) :
    ∃ a, fs.descend? d ms = some a := by
  obtain ⟨rest, rfl⟩ := h
  obtain ⟨a, ha, _⟩ := descend?_append_eq_some_iff.1 hi
  exact ⟨a, ha⟩

/-- Only directories have entries. -/
theorem isDirectory_of_child? (h : fs.child? d n = some i) : fs.isDirectory d = true := by
  unfold FileSystem.child? FileSystem.entries at h
  split at h
  · next p es hc => exact isDirectory_iff.2 ⟨p, es, hc⟩
  · cases h

theorem child?_of_file (h : fs.isDirectory d = false) (n : Name) : fs.child? d n = none := by
  apply Option.eq_none_iff_forall_ne_some.2
  intro i hi
  simp [isDirectory_of_child? hi] at h

/-- What lies in front of something else is a directory. -/
theorem isDirectory_of_prefix (h : ms <+: ns) (hne : ms ≠ ns) (hi : fs.descend? d ns = some i) :
    ∃ a, fs.descend? d ms = some a ∧ fs.isDirectory a = true := by
  obtain ⟨rest, rfl⟩ := h
  cases rest with
  | nil => simp at hne
  | cons n rest =>
      obtain ⟨a, ha, hrest⟩ := descend?_append_eq_some_iff.1 hi
      obtain ⟨b, hb, _⟩ := descend?_cons_eq_some_iff.1 hrest
      exact ⟨a, ha, isDirectory_of_child? hb⟩

/-- No node is a symbolic link. -/
theorem plain_of_all (h : ((List.range fs.nextInode).all fun i => (fs.target? i).isNone) = true) :
    fs.Plain d := by
  intro ns i _
  by_cases hi : i < fs.nextInode
  · simpa using List.all_eq_true.1 h i (List.mem_range.2 hi)
  · have hnone : fs.node? i = none := Array.getElem?_eq_none (Nat.le_of_not_lt hi)
    simp [target?, content?, hnone]

/-- Below a directory without directories there are just its entries. -/
theorem mem_of_descend? (hflat : ((fs.entries d).all fun e => !fs.isDirectory e.2) = true)
    (hi : fs.descend? d ns = some i) : i ∈ d :: (fs.entries d).map Prod.snd := by
  cases ns with
  | nil => simp [Option.some.inj hi]
  | cons n rest =>
      obtain ⟨j, hj, hrest⟩ := descend?_cons_eq_some_iff.1 hi
      obtain ⟨before, after, hentries, _⟩ := List.lookup_eq_some_iff.1 hj
      have hmem : (n, j) ∈ fs.entries d := by simp [hentries]
      obtain rfl : i = j := by
        cases rest with
        | nil => exact (Option.some.inj hrest).symm
        | cons m rest =>
            obtain ⟨_, hchild, _⟩ := descend?_cons_eq_some_iff.1 hrest
            have hdir := List.all_eq_true.1 hflat _ hmem
            simp [isDirectory_of_child? hchild] at hdir
      exact List.mem_cons_of_mem _ (List.mem_map_of_mem hmem)

theorem Plain.descend? (h : fs.Plain d) (hi : fs.descend? d ns = some i) : fs.Plain i := by
  intro ms j hj
  exact h (ns ++ ms) j (descend?_append_eq_some_iff.2 ⟨i, hi, hj⟩)

/-- What is there on the way down along the names, as far as it goes. -/
def nearest (fs : FileSystem) (d : Inode) : List Name → Inode
  | [] => d
  | n :: ns =>
    match fs.child? d n with
    | some a => fs.nearest a ns
    | none => d

theorem nearest_of_descend? (h : fs.descend? d ns = some i) : fs.nearest d ns = i := by
  induction ns generalizing d with
  | nil => exact Option.some.inj h
  | cons n ns ih =>
      obtain ⟨b, hb, hrest⟩ := descend?_cons_eq_some_iff.1 h
      simp only [nearest, hb, ih hrest]

/-- The nearest node lies on the way down. -/
theorem exists_descend?_nearest (fs : FileSystem) (d : Inode) (ns : List Name) :
    ∃ ms, ms <+: ns ∧ fs.descend? d ms = some (fs.nearest d ns) := by
  induction ns generalizing d with
  | nil => exact ⟨[], List.nil_prefix, rfl⟩
  | cons n ns ih =>
      rw [nearest]
      cases hchild : fs.child? d n with
      | none => exact ⟨[], List.nil_prefix, rfl⟩
      | some a =>
          obtain ⟨ms, hms, hdescent⟩ := ih a
          exact ⟨n :: ms, List.cons_prefix_cons.2 ⟨rfl, hms⟩,
            descend?_cons_eq_some_iff.2 ⟨a, hchild, hdescent⟩⟩

/-- A missing name at the end changes nothing. -/
theorem nearest_concat (h : fs.descend? d (ns ++ [n]) = none) :
    fs.nearest d (ns ++ [n]) = fs.nearest d ns := by
  induction ns generalizing d with
  | nil =>
      cases hchild : fs.child? d n with
      | none => simp [nearest, hchild]
      | some a =>
          have hthere : fs.descend? d [n] = some a := descend?_cons_eq_some_iff.2 ⟨a, hchild, rfl⟩
          simp [hthere] at h
  | cons m ns ih =>
      rw [List.cons_append, nearest, nearest]
      cases hchild : fs.child? d m with
      | none => rfl
      | some a =>
          refine ih (Option.eq_none_iff_forall_ne_some.2 fun i hi => ?_)
          rw [List.cons_append, descend?_cons_eq_some_iff.2 ⟨a, hchild, hi⟩] at h
          cases h

/-! ## Routes without links -/

/-- Where no link lies below, a route that does not go up goes down by its names. -/
theorem Route.descend? (h : fs.Route ending d segments slash links t) (hplain : fs.Plain d)
    (hup : .up ∉ segments) :
    links = [] ∧ t.slash = slash ∧ t.last ≠ .up ∧ ∃ ns, fs.descend? d ns = some t.dir ∧
      segments.filterMap Segment.name? = ns ++ t.last.name?.toList := by
  have hnolink : ∀ {dir segment i}, fs.enter dir = .ok () → fs.Plain dir → segment ≠ .up →
      fs.step dir segment = .ok i → fs.target? i = none := by
    intro dir segment i henter hplain hsegment hi
    cases segment with
    | here =>
        obtain rfl := Except.ok.inj hi
        exact target?_eq_none_of_isDirectory (enter_eq_ok_iff.1 henter).1
    | up => exact absurd rfl hsegment
    | name n =>
        exact hplain [n] i (descend?_cons_eq_some_iff.2 ⟨i, (step_name_eq_ok_iff.1 hi).2, rfl⟩)
  induction h with
  | stay => exact ⟨rfl, rfl, by simp, [], rfl, rfl⟩
  | @stop dir last slash =>
      refine ⟨rfl, rfl, fun heq => hup (by simp_all), [], rfl, ?_⟩
      cases last <;> rfl
  | follow henter htarget =>
      obtain ⟨i, hi, hsome⟩ := linkAt?_eq_some_iff.1 htarget
      rw [hnolink henter hplain (fun heq => hup (by simp [heq])) hi] at hsome
      cases hsome
  | @step dir segment next rest slash i links s henter hi htarget hroute ih =>
      have hrest : .up ∉ next :: rest := fun hmem => hup (List.mem_cons_of_mem segment hmem)
      cases segment with
      | here =>
          obtain rfl := Except.ok.inj hi
          exact ih hplain hrest
      | up => simp at hup
      | name n =>
          have hchild := (step_name_eq_ok_iff.1 hi).2
          have hdown : fs.descend? dir [n] = some i :=
            descend?_cons_eq_some_iff.2 ⟨i, hchild, rfl⟩
          obtain ⟨hlinks, hslash, hlast, ns, hns, hnames⟩ := ih (hplain.descend? hdown) hrest
          refine ⟨hlinks, hslash, hlast, n :: ns,
            descend?_cons_eq_some_iff.2 ⟨i, hchild, hns⟩, ?_⟩
          rw [List.filterMap_cons_some (rfl : Segment.name? (.name n) = some n), hnames,
            List.cons_append]
  | jump henter hi htarget =>
      rw [hnolink henter hplain (fun heq => hup (by simp [heq])) hi] at htarget
      cases htarget

/-- The name that a path leads to is the one that it ends in. -/
theorem Names.exists_segments (h : fs.Names p d n) : ∃ front, p.segments = front ++ [.name n] := by
  obtain ⟨slash, hslot⟩ := h
  obtain ⟨_, links, hroute, _⟩ := slot_eq_ok_iff.1 hslot
  unfold PathRoute at hroute
  rcases List.eq_nil_or_concat' p.segments with hnil | ⟨front, last, hconcat⟩
  · rw [hnil] at hroute
    cases hroute
  · rw [hconcat] at hroute
    obtain rfl : Segment.name n = last := (Route.replace_last (y := .here) hroute).1
    exact ⟨front, hconcat⟩

theorem Names.fileName? (h : fs.Names p d n) : p.fileName? = some n := by
  obtain ⟨front, hfront⟩ := h.exists_segments
  exact Path.fileName?_of_segments hfront

/-! ## Routes by way of a directory -/

/-- Whether a path ends in a slash is nothing to the slot of its name. -/
theorem Route.with_slash (h : fs.Route .name dir segments slash links t) (slash' : Bool) :
    fs.Route .name dir segments slash' links ⟨t.dir, t.last, slash'⟩ := by
  induction h with
  | stay => exact .stay
  | stop henter => exact .stop henter fun _ _ => rfl
  | follow _ _ hfollows => cases hfollows
  | step henter hi htarget _ ih => exact .step henter hi htarget ih
  | jump henter hi htarget _ ih => exact .jump henter hi htarget ih

/-- From what a route leads to, a longer one goes on. -/
theorem Route.append_iff (h : fs.Route .follow dir segments slash links s)
    (hd : fs.step s.dir s.last = .ok d) (hdir : fs.isDirectory d = true) (hrest : rest ≠ []) :
    fs.Route ending dir (segments ++ rest) slash' links' t ↔
      ∃ links'', links' = links ++ links'' ∧ fs.Route ending d rest slash' links'' t := by
  obtain ⟨next, rest, rfl⟩ := List.exists_cons_of_ne_nil hrest
  have htarget := target?_eq_none_of_isDirectory hdir
  induction h generalizing links' with
  | stay =>
      obtain rfl := Except.ok.inj hd
      simp
  | stop henter _ =>
      constructor
      · intro h'
        exact ⟨links', rfl, h'.of_step hd htarget⟩
      · rintro ⟨_, rfl, h'⟩
        exact .step henter hd htarget h'
  | follow henter hlink _ _ ih =>
      obtain ⟨i, hi, hsome⟩ := linkAt?_eq_some_iff.1 hlink
      constructor
      · intro h'
        obtain ⟨_, rfl, hroute⟩ := h'.of_jump hi hsome
        obtain ⟨links'', rfl, hend⟩ := (ih hd).1 hroute
        exact ⟨links'', rfl, hend⟩
      · rintro ⟨links'', rfl, h'⟩
        exact .jump henter hi hsome ((ih hd).2 ⟨links'', rfl, h'⟩)
  | step henter hi hnone _ ih =>
      constructor
      · intro h'
        exact (ih hd).1 (h'.of_step hi hnone)
      · intro h'
        exact .step henter hi hnone ((ih hd).2 h')
  | jump henter hi hsome _ ih =>
      simp only [List.append_assoc, List.cons_append] at ih ⊢
      constructor
      · intro h'
        obtain ⟨_, rfl, hroute⟩ := h'.of_jump hi hsome
        obtain ⟨links'', rfl, hend⟩ := (ih hd).1 hroute
        exact ⟨links'', rfl, hend⟩
      · rintro ⟨links'', rfl, h'⟩
        exact .jump henter hi hsome ((ih hd).2 ⟨links'', rfl, h'⟩)

theorem LeadsTo.extend (h : fs.LeadsTo p links d) (hextends : fs.Extends fs') :
    fs'.LeadsTo p links d := by
  obtain ⟨⟨s, hroute, hd⟩, hdir⟩ := h
  refine ⟨⟨s, hroute.extend hextends (.inr (.inl ⟨d, hd⟩)), ?_⟩, hextends.isDirectory hdir⟩
  rcases Route.slot_enter hroute with hhere | henter
  · rw [hhere] at hd ⊢
    exact hd
  · exact hextends.step henter hd

/-- No file on the way to a directory but its links is of use to it. -/
theorem LeadsTo.removeEntry {a : Inode} (h : fs.LeadsTo p links d)
    (hi : fs.step a (.name n) = .ok i) (hfile : fs.isDirectory i = false)
    (htarget : fs.target? i = none) : (fs.removeEntry a n).LeadsTo p links d := by
  obtain ⟨⟨s, hroute, hd⟩, hdir⟩ := h
  refine ⟨⟨s, ?_, ?_⟩, ?_⟩
  · rw [PathRoute, ← (extends_removeEntry a n).origin]
    exact Route.removeEntry hroute hi hfile (Route.notMem_of_target? hroute hi htarget)
  · rw [step_removeEntry, hd]
    intro heq
    obtain ⟨hdir', hlast⟩ := Prod.mk.inj heq
    rw [hdir', hlast] at hd
    obtain rfl := Except.ok.inj (hi.symm.trans hd)
    simp [hfile] at hdir
  · rwa [FileSystem.removeEntry, isDirectory_modifyEntries]

/-- A path leads to the directory that it is found to name. -/
theorem exists_leadsTo (h : fs.find .follow p = .ok d) (hdir : fs.isDirectory d = true) :
    ∃ links, fs.LeadsTo p links d := by
  obtain ⟨links, s, _, hroute, _, hstep, _⟩ := find_eq_ok_route h
  exact ⟨links, ⟨s, hroute, hstep⟩, hdir⟩

/-- The route of a path that goes on from a directory is one from that directory. -/
theorem LeadsTo.pathRoute_iff (h : fs.LeadsTo p links d) (hq : Path.Past p rest q)
    (hrest : rest ≠ []) :
    fs.PathRoute ending q links' t ↔
      ∃ links'', links' = links ++ links'' ∧ fs.Route ending d rest q.endsInSlash links'' t := by
  obtain ⟨⟨s, hroute, hd⟩, hdir⟩ := h
  have horigin : fs.origin q = fs.origin p := by
    rw [origin, origin, hq.isAbsolute]
  rw [PathRoute, horigin, hq.segments]
  exact Route.append_iff hroute hd hdir hrest

theorem LeadsTo.pathRoute_join_iff (h : fs.LeadsTo p links d) (hq : q.Inside) :
    fs.PathRoute ending (p.join q) links' t ↔
      ∃ links'', links' = links ++ links'' ∧
        fs.Route ending d q.segments q.endsInSlash links'' t := by
  rw [← Path.endsInSlash_join (p := p) hq.isAbsolute hq.isEmpty]
  exact h.pathRoute_iff (hq.past p) hq.segments_ne_nil

/-- Where a path that stays inside a directory leads to, its names do too. -/
theorem LeadsTo.descend?_of_slot (h : fs.LeadsTo p links d) (hplain : fs.Plain d) (hq : q.Inside)
    (hslot : fs.slot ending (p.join q) = .ok t) :
    fs.PathRoute ending (p.join q) links t ∧ t.last ≠ .up ∧
      ∃ ns, fs.descend? d ns = some t.dir ∧ q.names = ns ++ t.last.name?.toList := by
  obtain ⟨_, links', hroute, _⟩ := slot_eq_ok_iff.1 hslot
  obtain ⟨links'', rfl, hend⟩ := (h.pathRoute_join_iff hq).1 hroute
  obtain ⟨rfl, _, hlast, ns, hns, hnames⟩ := hend.descend? hplain hq.up
  refine ⟨?_, hlast, ns, hns, hnames⟩
  rwa [List.append_nil] at hroute

theorem LeadsTo.descend?_of_find (h : fs.LeadsTo p links d) (hplain : fs.Plain d) (hq : q.Inside)
    (hi : fs.find ending (p.join q) = .ok i) : fs.descend? d q.names = some i := by
  obtain ⟨t, hslot, hnode⟩ := find_eq_ok_iff.1 hi
  obtain ⟨_, hlast, ns, hns, hnames⟩ := h.descend?_of_slot hplain hq hslot
  have hstep := (nodeAt_eq_ok_iff.1 hnode).1
  rw [hnames]
  generalize t.last = last at hlast hnames hstep
  cases last with
  | here =>
      obtain rfl := Except.ok.inj hstep
      simpa [Segment.name?] using hns
  | up => exact absurd rfl hlast
  | name n =>
      have hchild := (step_name_eq_ok_iff.1 hstep).2
      exact descend?_concat_eq_some_iff.2 ⟨t.dir, hns, hchild⟩

/-- Names lead a route down to the node that they lead to, if no link is replaced there. What lies
in between are directories. -/
theorem Route.eq_of_descend? (h : fs.Route ending d segments slash links t)
    (hsegments : segments = ns.map .name) (hne : ns ≠ []) (hi : fs.descend? d ns = some i)
    (hkept : ending.follows slash = false ∨ fs.target? i = none)
    (hj : fs.step t.dir t.last = .ok j) : j = i := by
  have hstep : ∀ {d n a k}, fs.child? d n = some a → fs.step d (.name n) = .ok k → k = a := by
    intro d n a k ha hk
    exact Option.some.inj ((step_name_eq_ok_iff.1 hk).2.symm.trans ha)
  induction h generalizing ns with
  | stay => exact absurd (List.map_eq_nil_iff.1 hsegments.symm) hne
  | stop =>
      obtain ⟨n, rfl, rfl⟩ := List.map_eq_singleton_iff.1 hsegments.symm
      obtain ⟨a, ha, hrest⟩ := descend?_cons_eq_some_iff.1 hi
      cases hrest
      exact hstep ha hj
  | follow _ htarget hfollows =>
      obtain ⟨n, rfl, rfl⟩ := List.map_eq_singleton_iff.1 hsegments.symm
      obtain ⟨a, ha, hrest⟩ := descend?_cons_eq_some_iff.1 hi
      cases hrest
      obtain ⟨k, hk, hsome⟩ := linkAt?_eq_some_iff.1 htarget
      rw [hstep ha hk] at hsome
      simp [hfollows, hsome] at hkept
  | step _ hk _ _ ih =>
      obtain ⟨n, ms, rfl, rfl, hms⟩ := List.map_eq_cons_iff.1 hsegments.symm
      obtain ⟨a, ha, hrest⟩ := descend?_cons_eq_some_iff.1 hi
      rw [hstep ha hk] at ih
      exact ih hms.symm (by rintro rfl; cases hms) hrest hkept hj
  | jump _ hk hsome =>
      obtain ⟨n, ms, rfl, rfl, hms⟩ := List.map_eq_cons_iff.1 hsegments.symm
      obtain ⟨a, ha, hrest⟩ := descend?_cons_eq_some_iff.1 hi
      obtain ⟨m, ms, rfl⟩ := List.exists_cons_of_ne_nil (l := ms) (by rintro rfl; cases hms)
      obtain ⟨b, hb, _⟩ := descend?_cons_eq_some_iff.1 hrest
      rw [hstep ha hk, target?_eq_none_of_isDirectory (isDirectory_of_child? hb)] at hsome
      cases hsome

/-- Where a path made of names below a directory is found, it is what the names lead to. -/
theorem LeadsTo.eq_of_find (h : fs.LeadsTo p links d) (hns : ∀ n ∈ ns, Path.IsProper n)
    (hne : ns ≠ []) (hi : fs.descend? d ns = some i)
    (hkept : ending.follows false = false ∨ fs.target? i = none)
    (hj : fs.find ending (p.join (.ofParts ns)) = .ok j) : j = i := by
  obtain ⟨t, hslot, hnode⟩ := find_eq_ok_iff.1 hj
  obtain ⟨_, links', hroute, _⟩ := slot_eq_ok_iff.1 hslot
  obtain ⟨links'', _, hend⟩ := (h.pathRoute_join_iff (Path.inside_ofParts hns hne)).1 hroute
  rw [Path.endsInSlash_ofParts hns hne] at hend
  exact hend.eq_of_descend? (Path.segments_ofParts hns hne) hne hi hkept
    (nodeAt_eq_ok_iff.1 hnode).1

/-- On the way to a directory, everything is there. -/
theorem LeadsTo.exists_step (h : fs.LeadsTo p links d) (habsolute : q.isAbsolute = p.isAbsolute)
    (hsegments : p.segments = q.segments ++ rest) (hslot : fs.slot .name q = .ok t) :
    ∃ i, fs.step t.dir t.last = .ok i := by
  obtain ⟨⟨s, hroute, hd⟩, _⟩ := h
  obtain ⟨_, links', hname, _⟩ := slot_eq_ok_iff.1 hslot
  have horigin : fs.origin q = fs.origin p := by
    rw [origin, origin, habsolute]
  rw [PathRoute, hsegments] at hroute
  rw [PathRoute, horigin] at hname
  by_cases hrest : rest = []
  · rw [hrest, List.append_nil] at hroute
    obtain ⟨links'', t', hname', hend⟩ := Route.split_last hroute
    obtain ⟨_, rfl⟩ := Route.unique hname (hname'.with_slash q.endsInSlash)
    rcases hend with ⟨rfl, _⟩ | ⟨target, _, hlink, _⟩
    · exact ⟨d, hd⟩
    · obtain ⟨i, hi, _⟩ := linkAt?_eq_some_iff.1 hlink
      exact ⟨i, hi⟩
  · cases hstep : fs.step t.dir t.last with
    | ok i => exact ⟨i, rfl⟩
    | error e =>
        -- The walk to the directory would fail here.
        obtain ⟨links'', t', hfront, _⟩ := Route.split_last hroute
        have hwalk := hfront.walk_eq (max links'.length links''.length)
        rw [if_pos (Nat.le_max_right _ _), Route.walk_append_of_missing hname hstep
          (Nat.le_max_left _ _) hrest] at hwalk
        cases hwalk

end Hardlinks.FileSystem
