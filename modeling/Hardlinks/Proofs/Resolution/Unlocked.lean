-- SUMMARY: Entries that are there whether or not their user gets to them, and walks that do not.
import Hardlinks.Proofs.FileSystem.Directories
import Hardlinks.Proofs.Resolution.Lookup

/-!
# Unlocked file systems

An entry is there whether or not the directories on the way to it can be searched, and however many
symbolic links lie on that way. Where paths lead is therefore told in the unlocked file system,
which differs from the given one in its permissions only (`EntryAt`). A walk that does not get where
the unlocked one gets has met a directory that cannot be searched, or too many links
(`Route.error_of_unlocked`). It never takes for missing what is there, so a directory that is there
is not made again, and none above it (`LeadsTo.makeFirst_of_unlocked`).
-/

namespace Hardlinks.FileSystem

/-- The file system with every permission given. -/
def unlocked (fs : FileSystem) : FileSystem :=
  { fs with nodes := fs.nodes.map fun node => { node with mode := ⟨true, true, true⟩ } }

/-- The path leads to the name `n` in the directory `d`, which is that of the node `i`, as far as
permissions and the limits on paths and links are left aside. -/
def EntryAt (fs : FileSystem) (p : Path) (d : Inode) (n : Name) (i : Inode) : Prop :=
  ∃ links slash, fs.unlocked.PathRoute .name p links ⟨d, .name n, slash⟩ ∧
    fs.step d (.name n) = .ok i

variable {fs : FileSystem} {ending : Ending} {dir d i : Inode} {n : Name} {segment : Segment}
  {segments rest : List Segment} {slash : Bool} {links : List (Inode × Segment)} {s t : Slot}
  {e : IoError} {p : Path}

/-! ## Views -/

@[simp]
theorem content?_unlocked (i : Inode) : fs.unlocked.content? i = fs.content? i := by
  simp [content?, node?, unlocked, Function.comp_def]

@[simp]
theorem isDirectory_unlocked (i : Inode) : fs.unlocked.isDirectory i = fs.isDirectory i := by
  simp [isDirectory]

@[simp]
theorem target?_unlocked (i : Inode) : fs.unlocked.target? i = fs.target? i := by
  simp [target?]

@[simp]
theorem step_unlocked (d : Inode) (segment : Segment) :
    fs.unlocked.step d segment = fs.step d segment := by
  cases segment <;> simp [step, parent, child?, entries]

@[simp]
theorem linkAt?_unlocked (d : Inode) (segment : Segment) :
    fs.unlocked.linkAt? d segment = fs.linkAt? d segment := by
  simp [linkAt?]

theorem allows_unlocked {permission : Mode → Bool} (hd : fs.isDirectory d = true)
    (hpermission : permission ⟨true, true, true⟩ = true) :
    fs.unlocked.allows d permission = true := by
  obtain ⟨_, _, hc⟩ := isDirectory_iff.1 hd
  obtain ⟨node, hnode, _⟩ := Option.map_eq_some_iff.1 hc
  have hnode' : fs.nodes[d]? = some node := hnode
  simp [allows, node?, unlocked, hnode', hpermission]

theorem enter_unlocked_iff : fs.unlocked.enter d = .ok () ↔ fs.isDirectory d = true := by
  rw [enter_eq_ok_iff, isDirectory_unlocked]
  exact ⟨And.left, fun hd => ⟨hd, allows_unlocked hd rfl⟩⟩

/-- A directory that can be entered when unlocked can be entered, or searching it is denied. -/
theorem enter_of_unlocked (h : fs.unlocked.enter d = .ok ()) :
    fs.enter d = .ok () ∨ fs.enter d = .error (.system .accessDenied) := by
  rw [enter_unlocked_iff] at h
  unfold enter
  cases fs.allows d Mode.search <;> simp [h]

/-! ## Routes and walks -/

/-- Giving permissions takes no way away. -/
theorem keepsWalks_unlocked (fs : FileSystem) : fs.KeepsWalks fs.unlocked where
  start := rfl
  isDirectory hi := by rwa [isDirectory_unlocked]
  enter hd := enter_unlocked_iff.2 (enter_eq_ok_iff.1 hd).1
  step _ hi := by rwa [step_unlocked]
  target? _ _ := target?_unlocked _

theorem PathRoute.unlocked (h : fs.PathRoute .name p links s) :
    fs.unlocked.PathRoute .name p links s :=
  h.of_keepsWalks (keepsWalks_unlocked fs) (.inl rfl)

/-- A walk that fails is denied its first directory, or gets into it. -/
theorem denied_or_enter {k : Nat} (henter : fs.unlocked.enter d = .ok ())
    (hwalk : fs.walk ending k d (segment :: rest) slash = .error e) :
    e = .system .accessDenied ∨ fs.enter d = .ok () := by
  rcases enter_of_unlocked henter with hok | hdenied
  · exact .inr hok
  · rw [walk_eq, walkWith_of_enter hdenied] at hwalk
    exact .inl (Except.error.inj hwalk).symm

/-- A walk that does not get where it gets when unlocked is denied a search, or meets too many
links. -/
theorem Route.error_of_unlocked {k : Nat} (h : fs.unlocked.Route ending dir segments slash links s)
    (hwalk : fs.walk ending k dir segments slash = .error e) :
    e = .system .accessDenied ∨ e = .system .linkLoop := by
  induction h generalizing k with
  | stay =>
      rw [FileSystem.walk_eq, walkWith] at hwalk
      cases hwalk
  | @stop dir last slash henter hlink =>
      refine (denied_or_enter henter hwalk).imp_right fun hok => ?_
      rw [linkAt?_unlocked] at hlink
      rw [FileSystem.walk_eq, walkWith, hok] at hwalk
      cases htarget : fs.linkAt? dir last with
      | none => simp [htarget] at hwalk
      | some target => simp [htarget, hlink target htarget] at hwalk
  | @follow dir last slash target links s henter htarget hfollows _ ih =>
      refine (denied_or_enter henter hwalk).elim .inl fun hok => ?_
      rw [linkAt?_unlocked] at htarget
      rw [FileSystem.walk_eq, walkWith, hok] at hwalk
      cases k with
      | zero =>
          simp only [htarget, hfollows, if_true, jumpFrom, Except.error.injEq] at hwalk
          exact .inr hwalk.symm
      | succ k => exact ih (k := k) (by simpa [htarget, hfollows, jumpFrom] using hwalk)
  | @step dir segment next rest slash i links s henter hi htarget _ ih =>
      refine (denied_or_enter henter hwalk).elim .inl fun hok => ?_
      rw [step_unlocked] at hi
      rw [target?_unlocked] at htarget
      rw [FileSystem.walk_eq, walkWith_cons, hok, hi] at hwalk
      exact ih (by simpa only [htarget, FileSystem.walk_eq] using hwalk)
  | @jump dir segment next rest slash i target links s henter hi htarget _ ih =>
      refine (denied_or_enter henter hwalk).elim .inl fun hok => ?_
      rw [step_unlocked] at hi
      rw [target?_unlocked] at htarget
      rw [FileSystem.walk_eq, walkWith_cons, hok, hi] at hwalk
      cases k with
      | zero =>
          simp only [htarget, jumpFrom, Except.error.injEq] at hwalk
          exact .inr hwalk.symm
      | succ k => exact ih (k := k) (by simpa [htarget, jumpFrom] using hwalk)

/-- What a path has a route to when unlocked is not missing. -/
theorem PathRoute.kind_of_unlocked (h : fs.unlocked.PathRoute ending p links s)
    (hne : p.isEmpty = false) (hslot : fs.slot ending p = .error e) : e.kind ≠ .notFound := by
  unfold slot at hslot
  cases hcheck : p.check with
  | error e' =>
      obtain rfl : e' = e := by simpa [hcheck] using hslot
      exact check_of_notFound hne hcheck
  | ok =>
      rw [hcheck] at hslot
      rcases Route.error_of_unlocked h hslot with rfl | rfl <;> simp [IoError.kind, Errno.kind]

/-! ## Entries -/

theorem Names.entryAt (h : fs.Names p d n) (hi : fs.step d (.name n) = .ok i) :
    fs.EntryAt p d n i := by
  obtain ⟨slash, hslot⟩ := h
  obtain ⟨_, links, hroute, _⟩ := slot_eq_ok_iff.1 hslot
  exact ⟨links, slash, hroute.unlocked, hi⟩

theorem EntryAt.child? (h : fs.EntryAt p d n i) : fs.child? d n = some i := by
  obtain ⟨_, _, _, hi⟩ := h
  exact (step_name_eq_ok_iff.1 hi).2

/-- A path that gets to the place of an entry finds that place taken. -/
theorem EntryAt.step_of_slot (h : fs.EntryAt p d n i) (hslot : fs.slot .name p = .ok s) :
    s.dir = d ∧ s.last = .name n ∧ fs.step s.dir s.last = .ok i := by
  obtain ⟨links, slash, hroute, hi⟩ := h
  obtain ⟨_, links', hroute', _⟩ := slot_eq_ok_iff.1 hslot
  obtain ⟨_, rfl⟩ := Route.unique hroute hroute'.unlocked
  exact ⟨rfl, rfl, hi⟩

theorem unlocked_setMode (i : Inode) (mode : Mode) : (fs.setMode i mode).unlocked = fs.unlocked := by
  simp only [unlocked, setMode, FileSystem.mk.injEq, and_true]
  ext j hj hj'
  · simp
  · simp only [Array.getElem_map, Array.getElem_modify]
    split <;> rfl

/-- Whether there is an entry is no matter of permissions. -/
theorem entryAt_setMode (j : Inode) (mode : Mode) :
    (fs.setMode j mode).EntryAt p d n i ↔ fs.EntryAt p d n i := by
  rw [EntryAt, EntryAt, unlocked_setMode, ← step_unlocked, unlocked_setMode, step_unlocked]

/-! ## Directories that are there -/

/-- A directory that is there cannot be made, and not for want of one above it. -/
theorem LeadsTo.makeDirectory_of_unlocked (h : fs.unlocked.LeadsTo p links d)
    (hne : p.isEmpty = false) :
    ∃ e, fs.makeDirectory p = .error e ∧ e.kind ≠ .notFound := by
  obtain ⟨⟨s, hroute, hd⟩, _⟩ := h
  obtain ⟨links', t, hname, hend⟩ := Route.split_last hroute
  have hthere : ∃ j, fs.step t.dir t.last = .ok j := by
    rcases hend with ⟨rfl, _⟩ | ⟨_, _, hlink, _⟩
    · exact ⟨d, by rwa [step_unlocked] at hd⟩
    · rw [linkAt?_unlocked] at hlink
      obtain ⟨j, hj, _⟩ := linkAt?_eq_some_iff.1 hlink
      exact ⟨j, hj⟩
  cases hslot : fs.slot .name p with
  | error e =>
      have hkind := PathRoute.kind_of_unlocked hname hne hslot
      exact ⟨e, by simp [makeDirectory, hslot, bind, Except.bind], hkind⟩
  | ok t' =>
      obtain ⟨_, _, hname', _⟩ := slot_eq_ok_iff.1 hslot
      obtain ⟨_, rfl⟩ := Route.unique hname hname'.unlocked
      obtain ⟨j, hj⟩ := hthere
      refine ⟨.system .exists, ?_, by simp [IoError.kind, Errno.kind]⟩
      simp [makeDirectory, hslot, vacantName_of_step hj, bind, Except.bind]

/-- Nothing is made on the way to a directory that is there. -/
theorem LeadsTo.makeFirst_of_unlocked (h : fs.unlocked.LeadsTo p links d) (ps : List Path) :
    (fs.makeFirst (p :: ps)).2 = fs := by
  cases hne : p.isEmpty with
  | true => simp [makeFirst, hne]
  | false =>
      obtain ⟨e, hmake, hkind⟩ := h.makeDirectory_of_unlocked hne
      rw [makeFirst_cons hne, hmake]
      simp [hkind]

end Hardlinks.FileSystem
