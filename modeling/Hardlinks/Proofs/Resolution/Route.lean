-- SUMMARY: The route of a walk as a relation: the links it replaces and the slot it stops in.
import Hardlinks.FileSystem.Resolve

/-!
# Routes

A route is a walk without its limit on links: it lists the symbolic links that are replaced on the
way, each by the directory it lies in and the segment that names it, and ends in the slot where the
walk stops. A walk succeeds exactly if there is a route that replaces no more links than the walk
may (`walk_eq_ok_iff`), and there is at most one route (`Route.unique`). What a change of the file
system does to a walk is read off the route.
-/

namespace Hardlinks.FileSystem

/-- The directory where the target of a symbolic link in `dir` starts. -/
def linkBase (dir : Inode) (target : Path) : Inode :=
  if target.isAbsolute then root else dir

inductive Route (fs : FileSystem) (ending : Ending) :
    Inode → List Segment → Bool → List (Inode × Segment) → Slot → Prop
  /-- There is no segment to walk along. -/
  | stay {dir slash} : Route fs ending dir [] slash [] ⟨dir, .here, slash⟩
  /-- The last segment is left to the slot. -/
  | stop {dir last slash} : fs.enter dir = .ok () →
      (∀ target, fs.linkAt? dir last = some target → ending.follows slash = false) →
      Route fs ending dir [last] slash [] ⟨dir, last, slash⟩
  /-- The last segment leads to a link that is replaced. -/
  | follow {dir last slash target links s} : fs.enter dir = .ok () →
      fs.linkAt? dir last = some target → ending.follows slash = true →
      Route fs ending (linkBase dir target) target.segments (slash || target.endsInSlash) links s →
      Route fs ending dir [last] slash ((dir, last) :: links) s
  | step {dir segment next rest slash i links s} : fs.enter dir = .ok () →
      fs.step dir segment = .ok i → fs.target? i = none →
      Route fs ending i (next :: rest) slash links s →
      Route fs ending dir (segment :: next :: rest) slash links s
  | jump {dir segment next rest slash i target links s} : fs.enter dir = .ok () →
      fs.step dir segment = .ok i → fs.target? i = some target →
      Route fs ending (linkBase dir target) (target.segments ++ next :: rest) slash links s →
      Route fs ending dir (segment :: next :: rest) slash ((dir, segment) :: links) s

variable {fs : FileSystem} {ending : Ending} {dir i j : Inode} {segment last : Segment}
  {segments rest : List Segment} {slash : Bool} {links : List (Inode × Segment)} {s t : Slot}
  {e : IoError}

/-! ## Single steps -/

theorem enter_eq_ok_iff :
    fs.enter dir = .ok () ↔ fs.isDirectory dir = true ∧ fs.allows dir Mode.search = true := by
  unfold enter
  cases fs.isDirectory dir <;> cases fs.allows dir Mode.search <;> simp

theorem linkAt?_eq_some_iff {target : Path} :
    fs.linkAt? dir segment = some target ↔
      ∃ i, fs.step dir segment = .ok i ∧ fs.target? i = some target := by
  unfold linkAt?
  cases fs.step dir segment <;> simp

theorem target?_eq_none_of_isDirectory (h : fs.isDirectory i = true) : fs.target? i = none := by
  unfold isDirectory at h
  unfold target?
  split at h <;> simp_all

theorem step_name_eq_ok_iff {n : Name} :
    fs.step dir (.name n) = .ok i ↔ n.length ≤ Path.nameLimit ∧ fs.child? dir n = some i := by
  simp only [step]
  split
  · next h => simp; omega
  · next h =>
    cases fs.child? dir n <;> simp
    omega

/-! ## Walks -/

/-- How a walk that may replace `n` links goes on from a link. -/
def jumpFrom (fs : FileSystem) (ending : Ending) :
    (n : Nat) → Inode → Path → List Segment → Bool → Except IoError Slot
  | 0, _, _, _, _ => .error (.system .linkLoop)
  | n + 1, dir, target, rest, slash =>
    fs.walk ending n (linkBase dir target) (target.segments ++ rest)
      (slash || (rest.isEmpty && target.endsInSlash))

theorem walk_eq (n : Nat) : fs.walk ending n = fs.walkWith ending (fs.jumpFrom ending n) := by
  cases n <;> rfl

theorem walkWith_cons
    {jump : Inode → Path → List Segment → Bool → Except IoError Slot} (next : Segment) :
    fs.walkWith ending jump dir (segment :: next :: rest) slash =
      match fs.enter dir with
      | .error e => .error e
      | .ok () =>
        match fs.step dir segment with
        | .error e => .error e
        | .ok i =>
          match fs.target? i with
          | some target => jump dir target (next :: rest) slash
          | none => fs.walkWith ending jump i (next :: rest) slash :=
  walkWith.eq_3 ..

/-- A walk that succeeds has a route, if all its jumps have one. -/
theorem route_of_walkWith {n : Nat}
    {jump : Inode → Path → List Segment → Bool → Except IoError Slot}
    (hjump : ∀ dir target rest slash s, jump dir target rest slash = .ok s →
      ∃ links, fs.Route ending (linkBase dir target) (target.segments ++ rest)
        (slash || (rest.isEmpty && target.endsInSlash)) links s ∧ links.length + 1 ≤ n)
    (h : fs.walkWith ending jump dir segments slash = .ok s) :
    ∃ links, fs.Route ending dir segments slash links s ∧ links.length ≤ n := by
  fun_induction walkWith fs ending jump dir segments slash with
  | case1 dir slash =>
      cases h
      exact ⟨[], .stay, Nat.zero_le n⟩
  | case2 => cases h
  | case3 dir last slash henter target htarget hfollows =>
      obtain ⟨links, hroute, hlinks⟩ := hjump _ _ _ _ _ h
      exact ⟨_, .follow henter htarget hfollows (by simpa using hroute), hlinks⟩
  | case4 dir last slash henter target _ hfollows =>
      cases h
      exact ⟨[], .stop henter fun _ _ => by simpa using hfollows, Nat.zero_le n⟩
  | case5 dir last slash henter htarget =>
      cases h
      exact ⟨[], .stop henter fun target ht => by simp [htarget] at ht, Nat.zero_le n⟩
  | case6 => cases h
  | case7 => cases h
  | case8 dir segment next rest slash henter i hi target htarget =>
      obtain ⟨links, hroute, hlinks⟩ := hjump _ _ _ _ _ h
      exact ⟨_, .jump henter hi htarget (by simpa using hroute), hlinks⟩
  | case9 dir segment next rest slash henter i hi htarget ih =>
      obtain ⟨links, hroute, hlinks⟩ := ih h
      exact ⟨links, .step henter hi htarget hroute, hlinks⟩

theorem route_of_walk {n : Nat} (h : fs.walk ending n dir segments slash = .ok s) :
    ∃ links, fs.Route ending dir segments slash links s ∧ links.length ≤ n := by
  induction n generalizing dir segments slash s with
  | zero =>
      rw [walk_eq] at h
      exact route_of_walkWith (by simp [jumpFrom]) h
  | succ n ih =>
      rw [walk_eq] at h
      refine route_of_walkWith ?_ h
      intro dir target rest slash s hjump
      have hwalk : fs.walk ending n (linkBase dir target) (target.segments ++ rest)
          (slash || (rest.isEmpty && target.endsInSlash)) = .ok s := hjump
      obtain ⟨links, hroute, hlinks⟩ := ih hwalk
      exact ⟨links, hroute, Nat.succ_le_succ hlinks⟩

/-- A walk with a route can fail only because the route has too many links. -/
theorem Route.walk_eq (h : fs.Route ending dir segments slash links s) (n : Nat) :
    fs.walk ending n dir segments slash =
      if links.length ≤ n then .ok s else .error (.system .linkLoop) := by
  induction h generalizing n with
  | stay => simp [FileSystem.walk_eq, walkWith]
  | @stop dir last slash henter hlink =>
      rw [FileSystem.walk_eq, walkWith, henter]
      cases htarget : fs.linkAt? dir last with
      | none => simp
      | some target => simp [hlink target htarget]
  | @follow dir last slash target links s henter htarget hfollows _ ih =>
      rw [FileSystem.walk_eq, walkWith, henter]
      cases n with
      | zero => simp [htarget, hfollows, jumpFrom]
      | succ n => simpa [htarget, hfollows, jumpFrom] using ih n
  | @step dir segment next rest slash i links s henter hi htarget _ ih =>
      rw [FileSystem.walk_eq, walkWith_cons, henter, hi]
      simpa only [htarget, FileSystem.walk_eq] using ih n
  | @jump dir segment next rest slash i target links s henter hi htarget _ ih =>
      rw [FileSystem.walk_eq, walkWith_cons, henter, hi]
      cases n with
      | zero => simp [htarget, jumpFrom]
      | succ n => simpa [htarget, jumpFrom] using ih n

/-- A walk succeeds exactly if its route has no more links than it may replace. -/
theorem walk_eq_ok_iff {n : Nat} :
    fs.walk ending n dir segments slash = .ok s ↔
      ∃ links, fs.Route ending dir segments slash links s ∧ links.length ≤ n := by
  constructor
  · exact route_of_walk
  · rintro ⟨links, hroute, hlinks⟩
    rw [hroute.walk_eq, if_pos hlinks]

/-! ## Walks that fail -/

theorem walkWith_of_enter {jump : Inode → Path → List Segment → Bool → Except IoError Slot}
    (h : fs.enter dir = .error e) :
    fs.walkWith ending jump dir (segment :: rest) slash = .error e := by
  cases rest <;> simp [walkWith, h]

/-- A walk to a name that fails fails for every longer path too. -/
theorem walk_append_of_error {n : Nat} {slash' : Bool}
    (h : fs.walk .name n dir segments slash = .error e) :
    fs.walk .name n dir (segments ++ rest) slash' = .error e := by
  induction n using Nat.strongRecOn generalizing dir segments slash with
  | ind n ihn =>
      rw [walk_eq] at h ⊢
      fun_induction walkWith fs .name (fs.jumpFrom .name n) dir segments slash with
      | case1 => cases h
      | case2 dir last slash e' henter =>
          cases h
          exact walkWith_of_enter henter
      | case3 dir last slash henter target htarget hfollows => cases hfollows
      | case4 => cases h
      | case5 => cases h
      | case6 dir segment next rest' slash e' henter =>
          cases h
          exact walkWith_of_enter henter
      | case7 dir segment next rest' slash henter e' hstep =>
          cases h
          rw [List.cons_append, List.cons_append, walkWith_cons, henter, hstep]
      | case8 dir segment next rest' slash henter i hi target htarget =>
          rw [List.cons_append, List.cons_append, walkWith_cons, henter, hi]
          cases n with
          | zero => simpa [htarget, jumpFrom] using h
          | succ n =>
              have hwalk := ihn n (Nat.lt_succ_self n) h
              simpa [htarget, jumpFrom] using hwalk
      | case9 dir segment next rest' slash henter i hi htarget ih =>
          rw [List.cons_append, List.cons_append, walkWith_cons, henter, hi]
          simpa [htarget] using ih h

/-- A walk that has to go on from a name without an entry fails. -/
theorem Route.walk_append_of_missing {n : Nat} {slash' : Bool}
    (h : fs.Route .name dir segments slash links t)
    (hmissing : fs.step t.dir t.last = .error e) (hlinks : links.length ≤ n) (hrest : rest ≠ []) :
    fs.walk .name n dir (segments ++ rest) slash' = .error e := by
  obtain ⟨next, rest, rfl⟩ := List.exists_cons_of_ne_nil hrest
  induction h generalizing n with
  | stay => cases hmissing
  | stop henter =>
      rw [FileSystem.walk_eq, List.singleton_append, walkWith_cons, henter, hmissing]
  | follow _ _ hfollows => cases hfollows
  | step henter hi htarget _ ih =>
      rw [FileSystem.walk_eq, List.cons_append, List.cons_append, walkWith_cons, henter, hi]
      simpa [htarget, FileSystem.walk_eq] using ih hmissing hlinks
  | jump henter hi htarget _ ih =>
      rw [FileSystem.walk_eq, List.cons_append, List.cons_append, walkWith_cons, henter, hi]
      cases n with
      | zero => simp at hlinks
      | succ n => simpa [htarget, jumpFrom] using ih hmissing (Nat.le_of_succ_le_succ hlinks)

/-! ## One route at most -/

/-- A route past a segment that leads to no link goes on from the node there. -/
theorem Route.of_step {next : Segment}
    (h : fs.Route ending dir (segment :: next :: rest) slash links s)
    (hi : fs.step dir segment = .ok i) (htarget : fs.target? i = none) :
    fs.Route ending i (next :: rest) slash links s := by
  cases h with
  | step _ hi' _ hroute =>
      obtain rfl := Except.ok.inj (hi.symm.trans hi')
      exact hroute
  | jump _ hi' htarget' _ =>
      obtain rfl := Except.ok.inj (hi.symm.trans hi')
      simp [htarget] at htarget'

/-- A route past a segment that leads to a link goes on from the link's target. -/
theorem Route.of_jump {next : Segment} {target : Path}
    (h : fs.Route ending dir (segment :: next :: rest) slash links s)
    (hi : fs.step dir segment = .ok i) (htarget : fs.target? i = some target) :
    ∃ links', links = (dir, segment) :: links' ∧
      fs.Route ending (linkBase dir target) (target.segments ++ next :: rest) slash links' s := by
  cases h with
  | step _ hi' htarget' _ =>
      obtain rfl := Except.ok.inj (hi.symm.trans hi')
      simp [htarget] at htarget'
  | jump _ hi' htarget' hroute =>
      obtain rfl := Except.ok.inj (hi.symm.trans hi')
      obtain rfl := Option.some.inj (htarget.symm.trans htarget')
      exact ⟨_, rfl, hroute⟩

/-- A slot with a node that is no symbolic link: nothing is left to be replaced there. -/
def Settled (fs : FileSystem) (s : Slot) (i : Inode) : Prop :=
  fs.step s.dir s.last = .ok i ∧ fs.target? i = none

theorem Settled.linkAt? (h : fs.Settled s i) : fs.linkAt? s.dir s.last = none := by
  simp [FileSystem.linkAt?, h.1, h.2]

/-- Two routes along the same segments replace the same links if they agree on what becomes of a
link at the end, or if there is none left there. -/
theorem Route.unique_of_agree {ending' : Ending} {slash' : Bool}
    {links' : List (Inode × Segment)} (h : fs.Route ending dir segments slash links s)
    (h' : fs.Route ending' dir segments slash' links' t)
    (hagree : (ending = ending' ∧ slash = slash') ∨
      ((∃ i, fs.Settled s i) ∧ ∃ j, fs.Settled t j)) :
    links = links' ∧ s.dir = t.dir ∧ s.last = t.last ∧ (slash = slash' → s.slash = t.slash) := by
  induction h generalizing slash' links' t with
  | stay =>
      cases h'
      exact ⟨rfl, rfl, rfl, id⟩
  | stop _ hlink =>
      cases h' with
      | stop => exact ⟨rfl, rfl, rfl, id⟩
      | follow _ htarget hfollows =>
          rcases hagree with ⟨rfl, rfl⟩ | ⟨⟨i, hs⟩, _⟩
          · simp [hlink _ htarget] at hfollows
          · simp [hs.linkAt?] at htarget
  | follow _ htarget hfollows _ ih =>
      cases h' with
      | stop _ hlink =>
          rcases hagree with ⟨rfl, rfl⟩ | ⟨_, j, ht⟩
          · simp [hlink _ htarget] at hfollows
          · simp [ht.linkAt?] at htarget
      | follow _ htarget' _ hroute =>
          obtain rfl := Option.some.inj (htarget.symm.trans htarget')
          obtain ⟨rfl, hdir, hlast, hslash⟩ :=
            ih hroute (hagree.imp_left fun ⟨he, hsl⟩ => ⟨he, by rw [hsl]⟩)
          exact ⟨rfl, hdir, hlast, fun hsl => hslash (by rw [hsl])⟩
  | step _ hi htarget _ ih => exact ih (h'.of_step hi htarget) hagree
  | jump _ hi htarget _ ih =>
      obtain ⟨links'', rfl, hroute⟩ := h'.of_jump hi htarget
      obtain ⟨rfl, hrest⟩ := ih hroute hagree
      exact ⟨rfl, hrest⟩

theorem Route.unique {links' : List (Inode × Segment)}
    (h : fs.Route ending dir segments slash links s)
    (h' : fs.Route ending dir segments slash links' t) : links = links' ∧ s = t := by
  obtain ⟨hlinks, hdir, hlast, hslash⟩ := h.unique_of_agree h' (.inl ⟨rfl, rfl⟩)
  refine ⟨hlinks, ?_⟩
  cases s
  cases t
  simp_all

/-- Every route enters the directory it starts in, if there is a segment to walk along. -/
theorem Route.enter (h : fs.Route ending dir (segment :: rest) slash links s) :
    fs.enter dir = .ok () := by
  cases h <;> assumption

/-- Every route enters the directory of its slot, unless it stays where it is. -/
theorem Route.slot_enter (h : fs.Route ending dir segments slash links s) :
    s.last = .here ∨ fs.enter s.dir = .ok () := by
  induction h with
  | stay => exact .inl rfl
  | stop henter => exact .inr henter
  | follow _ _ _ _ ih => exact ih
  | step _ _ _ _ ih => exact ih
  | jump _ _ _ _ ih => exact ih

/-- The slot of a name lies in a directory, if there is a segment to walk along. -/
theorem Route.enter_of_name (h : fs.Route .name dir segments slash links s)
    (hne : segments ≠ []) : fs.enter s.dir = .ok () := by
  induction h with
  | stay => exact absurd rfl hne
  | stop henter => exact henter
  | follow _ _ hfollows => cases hfollows
  | step _ _ _ _ ih => exact ih (List.cons_ne_nil _ _)
  | jump _ _ _ _ ih => exact ih (List.append_ne_nil_of_right_ne_nil _ (List.cons_ne_nil _ _))

/-- What leads to a file cannot be walked through. -/
theorem Route.not_through_file {ending' : Ending} {slash' : Bool}
    {links' : List (Inode × Segment)} (h : fs.Route ending dir segments slash links s)
    (hs : fs.Settled s i) (hfile : fs.isDirectory i = false) (hrest : rest ≠ []) :
    ¬ fs.Route ending' dir (segments ++ rest) slash' links' t := by
  obtain ⟨next, rest, rfl⟩ := List.exists_cons_of_ne_nil hrest
  induction h generalizing slash' links' t with
  | @stay dir slash =>
      intro h'
      obtain rfl : dir = i := by simpa [FileSystem.step] using hs.1
      simp [(enter_eq_ok_iff.1 h'.enter).1] at hfile
  | stop =>
      intro h'
      have hroute := h'.of_step hs.1 hs.2
      simp [(enter_eq_ok_iff.1 hroute.enter).1] at hfile
  | follow _ htarget _ _ ih =>
      intro h'
      obtain ⟨i', hi, hsome⟩ := linkAt?_eq_some_iff.1 htarget
      obtain ⟨_, _, hroute⟩ := h'.of_jump hi hsome
      exact ih hs hroute
  | step _ hi htarget _ ih =>
      intro h'
      exact ih hs (h'.of_step hi htarget)
  | jump _ hi htarget _ ih =>
      intro h'
      obtain ⟨_, _, hroute⟩ := h'.of_jump hi htarget
      exact ih hs (by simpa using hroute)

/-! ## Parts of a route -/

theorem Route.slash_mono (h : fs.Route ending dir segments slash links s)
    (hslash : slash = true) : s.slash = true := by
  induction h with
  | stay => exact hslash
  | stop => exact hslash
  | follow _ _ _ _ ih => exact ih (by simp [hslash])
  | step _ _ _ _ ih => exact ih hslash
  | jump _ _ _ _ ih => exact ih hslash

/-- From each link on a route the rest of the route goes on. -/
theorem Route.from_link {d : Inode} {x : Segment}
    (h : fs.Route ending dir segments slash links s) (hmem : (d, x) ∈ links) :
    ∃ target rest slash' links', fs.linkAt? d x = some target ∧
      fs.Route ending d (x :: rest) slash' ((d, x) :: links') s ∧ (d, x) :: links' <:+ links := by
  induction h with
  | stay => simp at hmem
  | stop => simp at hmem
  | follow henter htarget hfollows hroute ih =>
      rcases List.mem_cons.1 hmem with heq | hmem
      · cases heq
        exact ⟨_, [], _, _, htarget, .follow henter htarget hfollows hroute, List.suffix_rfl⟩
      · obtain ⟨target, rest, slash', links', hlink, hfrom, hsuffix⟩ := ih hmem
        exact ⟨target, rest, slash', links', hlink, hfrom, hsuffix.trans (List.suffix_cons _ _)⟩
  | step _ _ _ _ ih => exact ih hmem
  | jump henter hi htarget hroute ih =>
      rcases List.mem_cons.1 hmem with heq | hmem
      · cases heq
        exact ⟨_, _, _, _, linkAt?_eq_some_iff.2 ⟨_, hi, htarget⟩, .jump henter hi htarget hroute,
          List.suffix_rfl⟩
      · obtain ⟨target, rest, slash', links', hlink, hfrom, hsuffix⟩ := ih hmem
        exact ⟨target, rest, slash', links', hlink, hfrom, hsuffix.trans (List.suffix_cons _ _)⟩

/-- A route is the route to the name at its end, followed by the route of the link that is replaced
there, if one is. -/
theorem Route.split_last (h : fs.Route ending dir segments slash links s) :
    ∃ links' t, fs.Route .name dir segments slash links' t ∧
      ((s = t ∧ links = links') ∨
        ∃ target links'', fs.linkAt? t.dir t.last = some target ∧ ending.follows slash = true ∧
          links = links' ++ (t.dir, t.last) :: links'' ∧
          fs.Route ending (linkBase t.dir target) target.segments (slash || target.endsInSlash)
            links'' s) := by
  induction h with
  | stay => exact ⟨[], _, .stay, .inl ⟨rfl, rfl⟩⟩
  | stop henter => exact ⟨[], _, .stop henter fun _ _ => rfl, .inl ⟨rfl, rfl⟩⟩
  | @follow dir last slash target links s henter htarget hfollows hroute =>
      exact ⟨[], ⟨dir, last, slash⟩, .stop henter fun _ _ => rfl,
        .inr ⟨target, links, htarget, hfollows, rfl, hroute⟩⟩
  | step henter hi htarget _ ih =>
      obtain ⟨links', t, hname, hend⟩ := ih
      exact ⟨links', t, .step henter hi htarget hname, hend⟩
  | jump henter hi htarget _ ih =>
      obtain ⟨links', t, hname, hend⟩ := ih
      refine ⟨_, t, .jump henter hi htarget hname, ?_⟩
      rcases hend with ⟨rfl, rfl⟩ | ⟨target, links'', hlink, hfollows, rfl, hroute⟩
      · exact .inl ⟨rfl, rfl⟩
      · exact .inr ⟨target, links'', hlink, hfollows, rfl, hroute⟩

/-- The route to the name at the end is the whole route if no link is replaced there. -/
theorem Route.of_name (h : fs.Route .name dir segments slash links t)
    (hkept : ∀ target, fs.linkAt? t.dir t.last = some target → ending.follows slash = false) :
    fs.Route ending dir segments slash links t := by
  induction h with
  | stay => exact .stay
  | stop henter => exact .stop henter hkept
  | follow _ _ hfollows => cases hfollows
  | step henter hi htarget _ ih => exact .step henter hi htarget (ih hkept)
  | jump henter hi htarget _ ih => exact .jump henter hi htarget (ih hkept)

/-- The slot of a name keeps the slash that the path ends in. -/
theorem Route.slash_of_name (h : fs.Route .name dir segments slash links t) : t.slash = slash := by
  induction h with
  | stay => rfl
  | stop => rfl
  | follow _ _ hfollows => cases hfollows
  | step _ _ _ _ ih => exact ih
  | jump _ _ _ _ ih => exact ih

/-- Names side by side have their slots in one directory. -/
theorem Route.replace_last {x y : Segment}
    (h : fs.Route .name dir (segments ++ [x]) slash links t) :
    t.last = x ∧ fs.Route .name dir (segments ++ [y]) slash links ⟨t.dir, y, slash⟩ := by
  generalize hx : segments ++ [x] = xs at h
  induction h generalizing segments with
  | stay => simp at hx
  | stop henter =>
      obtain ⟨rfl, rfl⟩ : segments = [] ∧ x = _ := by
        cases segments with
        | nil => simpa using hx
        | cons _ _ => simp at hx
      exact ⟨rfl, .stop henter fun _ _ => rfl⟩
  | follow _ _ hfollows => cases hfollows
  | @step dir segment next rest _ _ _ _ henter hi htarget hroute ih =>
      cases segments with
      | nil => simp at hx
      | cons z zs =>
          obtain ⟨rfl, htail⟩ : z = segment ∧ zs ++ [x] = next :: rest := by simpa using hx
          obtain ⟨hlast, hroute'⟩ := ih htail
          obtain ⟨w, ws, hw⟩ := List.exists_cons_of_ne_nil
            (List.append_ne_nil_of_right_ne_nil zs (List.cons_ne_nil y []))
          rw [hw] at hroute'
          refine ⟨hlast, ?_⟩
          rw [List.cons_append, hw]
          exact .step henter hi htarget hroute'
  | @jump dir segment next rest _ _ target _ _ henter hi htarget _ ih =>
      cases segments with
      | nil => simp at hx
      | cons z zs =>
          obtain ⟨rfl, htail⟩ : z = segment ∧ zs ++ [x] = next :: rest := by simpa using hx
          obtain ⟨hlast, hroute'⟩ :=
            @ih (target.segments ++ zs) (by rw [List.append_assoc, htail])
          obtain ⟨w, ws, hw⟩ := List.exists_cons_of_ne_nil
            (List.append_ne_nil_of_right_ne_nil zs (List.cons_ne_nil y []))
          rw [List.append_assoc, hw] at hroute'
          refine ⟨hlast, ?_⟩
          rw [List.cons_append, hw]
          exact .jump henter hi htarget hroute'

/-- The name at the end of a route is a segment of the path, or of the target of a link. -/
theorem Route.last_mem (h : fs.Route ending dir segments slash links s) :
    s.last = .here ∨ s.last ∈ segments ∨
      ∃ i target, fs.target? i = some target ∧ s.last ∈ target.segments := by
  induction h with
  | stay => exact .inl rfl
  | stop => exact .inr (.inl (List.mem_singleton_self _))
  | follow _ htarget _ _ ih =>
      obtain ⟨i, _, hi⟩ := linkAt?_eq_some_iff.1 htarget
      rcases ih with hhere | hmem | hlink
      · exact .inl hhere
      · exact .inr (.inr ⟨i, _, hi, hmem⟩)
      · exact .inr (.inr hlink)
  | step _ _ _ _ ih =>
      rcases ih with hhere | hmem | hlink
      · exact .inl hhere
      · exact .inr (.inl (List.mem_cons_of_mem _ hmem))
      · exact .inr (.inr hlink)
  | @jump _ _ next rest _ i target _ _ _ _ htarget _ ih =>
      rcases ih with hhere | hmem | hlink
      · exact .inl hhere
      · rcases List.mem_append.1 hmem with hmem | hmem
        · exact .inr (.inr ⟨i, target, htarget, hmem⟩)
        · exact .inr (.inl (List.mem_cons_of_mem _ hmem))
      · exact .inr (.inr hlink)

end Hardlinks.FileSystem
