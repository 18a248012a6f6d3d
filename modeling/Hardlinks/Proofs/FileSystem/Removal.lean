-- SUMMARY: What the removal of an entry does to the paths that use the entry, and to all others.
import Hardlinks.Proofs.FileSystem.Calls

/-!
# Removed entries

A path uses the entry at its end and every symbolic link that is replaced on the way. When the entry
of a file or of a symbolic link is removed, a path that was found is found still exactly if it does
not use that entry (`find_removeEntry_iff`); and a file system extends what is left of it, so no
path names something else afterwards.
-/

namespace Hardlinks.FileSystem

variable {fs fs' : FileSystem} {ending : Ending} {dir d i j : Inode} {n : Name}
  {segment x : Segment} {segments : List Segment} {slash slash' : Bool}
  {links links' : List (Inode × Segment)} {s t : Slot} {p q : Path}

/-! ## The file system without an entry -/

theorem allows_modifyEntries (f : List (Name × Inode) → List (Name × Inode)) :
    (fs.modifyEntries d f).allows i = fs.allows i := by
  funext permission
  unfold modifyEntries
  split
  · simp only [allows, node?_setContent]
    split
    · simp [Option.map_map, Function.comp_def]
    · rfl
  · rfl

theorem start_modifyEntries (f : List (Name × Inode) → List (Name × Inode)) :
    (fs.modifyEntries d f).start = fs.start := by
  unfold modifyEntries
  split <;> rfl

/-- A file system extends what is left of it without an entry. -/
theorem extends_removeEntry (d : Inode) (n : Name) : (fs.removeEntry d n).Extends fs where
  start := (start_modifyEntries _).symm
  child? hi := by
    rw [child?_removeEntry] at hi
    split at hi
    · cases hi
    · exact hi
  isDirectory hi := by rwa [removeEntry, isDirectory_modifyEntries] at hi
  parent _ := (parent_modifyEntries _ _ _).symm
  allows _ := (allows_modifyEntries _).symm
  target? _ := (target?_modifyEntries _ _ _).symm

theorem enter_removeEntry : (fs.removeEntry d n).enter dir = fs.enter dir := by
  simp only [enter, removeEntry, isDirectory_modifyEntries, allows_modifyEntries]

theorem step_removeEntry (hne : (dir, segment) ≠ (d, .name n)) :
    (fs.removeEntry d n).step dir segment = fs.step dir segment := by
  cases segment with
  | here => rfl
  | up => simp only [step, removeEntry, parent_modifyEntries]
  | name m =>
      have hother : ¬(dir = d ∧ m = n) := by simpa using hne
      simp only [step, child?_removeEntry, hother, if_false]

theorem step_removeEntry_self {i : Inode} : (fs.removeEntry d n).step d (.name n) ≠ .ok i := by
  intro h
  obtain ⟨_, hchild⟩ := step_name_eq_ok_iff.1 h
  simp [child?_removeEntry] at hchild

theorem removeFile_names {fs' : FileSystem} (h : fs.removeFile p = .ok fs') :
    ∃ d n i, fs.Names p d n ∧ p.endsInSlash = false ∧ fs.step d (.name n) = .ok i ∧
      fs.isDirectory i = false ∧ fs' = fs.removeEntry d n := by
  obtain ⟨s, n, i, hslot, hlast, hi, hslash, _, hdir, rfl⟩ := removeFile_eq_ok_iff.1 h
  obtain ⟨_, links, hroute, _⟩ := slot_eq_ok_iff.1 hslot
  refine ⟨s.dir, n, i, ⟨s.slash, by rw [hslot, ← hlast]⟩, ?_, hlast ▸ hi, hdir, rfl⟩
  rw [← Route.slash_of_name hroute, hslash]

/-- The one entry that is gone is the one that the path names. -/
theorem child?_removeFile_of_names (h : fs.removeFile p = .ok fs') (hp : fs.Names p d n) :
    fs'.child? d n = none := by
  obtain ⟨d', n', _, hnames, _, _, _, rfl⟩ := removeFile_names h
  obtain ⟨rfl, rfl⟩ := hp.unique hnames
  rw [child?_removeEntry, if_pos ⟨rfl, rfl⟩]

theorem child?_removeFile (h : fs.removeFile p = .ok fs') (hp : ¬fs.Names p d n) :
    fs'.child? d n = fs.child? d n := by
  obtain ⟨d', n', _, hnames, _, _, _, rfl⟩ := removeFile_names h
  rw [child?_removeEntry, if_neg]
  rintro ⟨rfl, rfl⟩
  exact hp hnames

/-- An entry can be removed if it is no directory and its own directory may be changed. -/
theorem exists_removeFile_iff (hslot : fs.slot .name p = .ok ⟨d, .name n, slash⟩)
    (hi : fs.child? d n = some i) :
    (∃ removed, fs.removeFile p = .ok removed) ↔
      n.length ≤ Path.nameLimit ∧ slash = false ∧ fs.allows d Mode.write = true ∧
        fs.isDirectory i = false := by
  constructor
  · rintro ⟨removed, hremove⟩
    obtain ⟨s, m, j, hs, _, hj, hslash, hwrite, hfile, _⟩ := removeFile_eq_ok_iff.1 hremove
    obtain rfl := Except.ok.inj (hslot.symm.trans hs)
    obtain ⟨hlength, hchild⟩ := step_name_eq_ok_iff.1 hj
    obtain rfl := Option.some.inj (hi.symm.trans hchild)
    exact ⟨hlength, hslash, hwrite, hfile⟩
  · rintro ⟨hlength, hslash, hwrite, hfile⟩
    have hj : fs.step d (.name n) = .ok i := step_name_eq_ok_iff.2 ⟨hlength, hi⟩
    exact ⟨_, removeFile_eq_ok_iff.2 ⟨_, n, i, hslot, rfl, hj, hslash, hwrite, hfile, rfl⟩⟩

theorem extends_removeFile (h : fs.removeFile p = .ok fs') : fs'.Extends fs := by
  obtain ⟨d, n, _, _, _, _, _, rfl⟩ := removeFile_names h
  exact extends_removeEntry d n

/-! ## Routes -/

/-- A route stays one, unless it replaces the link whose entry is removed. -/
theorem Route.removeEntry (h : fs.Route ending dir segments slash links s)
    (hi : fs.step d (.name n) = .ok i) (hfile : fs.isDirectory i = false)
    (hunused : (d, .name n) ∉ links) :
    (fs.removeEntry d n).Route ending dir segments slash links s := by
  induction h with
  | stay => exact .stay
  | stop henter hlink =>
      rw [← enter_removeEntry] at henter
      exact .stop henter fun target htarget =>
        hlink target ((extends_removeEntry d n).keepsWalks.linkAt? henter htarget)
  | follow henter htarget hfollows _ ih =>
      obtain ⟨hne, hunused⟩ := not_or.1 (mt List.mem_cons.2 hunused)
      refine .follow (by rwa [enter_removeEntry]) ?_ hfollows (ih hunused)
      obtain ⟨j, hj, htarget⟩ := linkAt?_eq_some_iff.1 htarget
      exact linkAt?_eq_some_iff.2 ⟨j, by rwa [step_removeEntry (Ne.symm hne)],
        (target?_modifyEntries _ _ _).trans htarget⟩
  | @step dir segment next rest slash j links s henter hj htarget hroute ih =>
      have hne : (dir, segment) ≠ (d, .name n) := by
        -- The walk goes on from the entry, so it names a directory.
        intro heq
        cases heq
        obtain rfl := Except.ok.inj (hi.symm.trans hj)
        simp [(enter_eq_ok_iff.1 hroute.enter).1] at hfile
      exact .step (by rwa [enter_removeEntry]) (by rwa [step_removeEntry hne])
        ((target?_modifyEntries _ _ _).trans htarget) (ih hunused)
  | jump henter hj htarget _ ih =>
      obtain ⟨hne, hunused⟩ := not_or.1 (mt List.mem_cons.2 hunused)
      exact .jump (by rwa [enter_removeEntry]) (by rwa [step_removeEntry (Ne.symm hne)])
        ((target?_modifyEntries _ _ _).trans htarget) (ih hunused)

/-- Every link that a route replaces is there. -/
theorem Route.step_of_mem (h : fs.Route ending dir segments slash links s) (hmem : (d, x) ∈ links) :
    ∃ i, fs.step d x = .ok i := by
  obtain ⟨target, _, _, _, htarget, _⟩ := h.from_link hmem
  obtain ⟨i, hi, _⟩ := linkAt?_eq_some_iff.1 htarget
  exact ⟨i, hi⟩

/-! ## Paths -/

/-- The path leads through the name `n` in the directory `d`, or ends there. -/
def Uses (fs : FileSystem) (ending : Ending) (p : Path) (d : Inode) (n : Name) : Prop :=
  ∃ links s, fs.PathRoute ending p links s ∧ (d, .name n) ∈ (s.dir, s.last) :: links

theorem find_eq_ok_route (h : fs.find ending p = .ok i) :
    ∃ links s, p.check = .ok () ∧ fs.PathRoute ending p links s ∧ links.length ≤ linkLimit ∧
      fs.step s.dir s.last = .ok i ∧ (s.slash = true → fs.isDirectory i = true) := by
  obtain ⟨s, hslot, hnode⟩ := find_eq_ok_iff.1 h
  obtain ⟨hcheck, links, hroute, hlinks⟩ := slot_eq_ok_iff.1 hslot
  obtain ⟨hstep, hslash⟩ := nodeAt_eq_ok_iff.1 hnode
  exact ⟨links, s, hcheck, hroute, hlinks, hstep, hslash⟩

theorem find_of_route (hcheck : p.check = .ok ()) (hroute : fs.PathRoute ending p links s)
    (hlinks : links.length ≤ linkLimit) (hstep : fs.step s.dir s.last = .ok i)
    (hslash : s.slash = true → fs.isDirectory i = true) : fs.find ending p = .ok i :=
  find_eq_ok_iff.2 ⟨s, slot_eq_ok_iff.2 ⟨hcheck, links, hroute, hlinks⟩,
    nodeAt_eq_ok_iff.2 ⟨hstep, hslash⟩⟩

/-- A path that is found uses only entries that are there. -/
theorem Uses.step (h : fs.Uses ending p d n) (hi : fs.find ending p = .ok i) :
    ∃ j, fs.step d (.name n) = .ok j := by
  obtain ⟨links, s, hroute, hmem⟩ := h
  obtain ⟨links', s', _, hroute', _, hstep, _⟩ := find_eq_ok_route hi
  obtain ⟨rfl, rfl⟩ := Route.unique hroute hroute'
  rcases List.mem_cons.1 hmem with heq | hmem
  · obtain ⟨hdir, hlast⟩ := Prod.mk.inj heq
    rw [hdir, hlast]
    exact ⟨i, hstep⟩
  · exact Route.step_of_mem hroute hmem

/-- A path that is found uses the entry at its last name. -/
theorem Names.uses (hp : fs.Names p d n) (hi : fs.find ending p = .ok i) :
    fs.Uses ending p d n := by
  obtain ⟨links, s, _, hroute, _, _, _⟩ := find_eq_ok_route hi
  obtain ⟨slash, hslot⟩ := hp
  obtain ⟨_, links', hname, _⟩ := slot_eq_ok_iff.1 hslot
  obtain ⟨links'', t, hname', hend⟩ := Route.split_last hroute
  obtain ⟨_, rfl⟩ := Route.unique hname hname'
  refine ⟨links, s, hroute, ?_⟩
  rcases hend with ⟨rfl, _⟩ | ⟨_, _, _, _, rfl, _⟩
  · exact List.mem_cons_self
  · exact List.mem_cons_of_mem _ (List.mem_append_right _ List.mem_cons_self)

/-- A path that is found uses the same entries when there are more of them. -/
theorem uses_extend (h : fs.Extends fs') (hi : fs.find ending p = .ok i) :
    fs'.Uses ending p d n ↔ fs.Uses ending p d n := by
  obtain ⟨links, s, _, hroute, _, hstep, _⟩ := find_eq_ok_route hi
  have hroute' := hroute.extend h (.inr (.inl ⟨i, hstep⟩))
  constructor
  · rintro ⟨links', s', huses, hmem⟩
    obtain ⟨rfl, rfl⟩ := Route.unique hroute' huses
    exact ⟨links, s, hroute, hmem⟩
  · rintro ⟨links', s', huses, hmem⟩
    obtain ⟨rfl, rfl⟩ := Route.unique hroute huses
    exact ⟨links, s, hroute', hmem⟩

/-- A path that was found is found without the entry exactly if it does not use it. -/
theorem find_removeEntry_iff (hi : fs.find ending p = .ok i) (hj : fs.step d (.name n) = .ok j)
    (hfile : fs.isDirectory j = false) :
    (fs.removeEntry d n).find ending p = .ok i ↔ ¬fs.Uses ending p d n := by
  constructor
  · intro hremoved huses
    obtain ⟨links, s, hroute, hmem⟩ := (uses_extend (extends_removeEntry d n) hremoved).1 huses
    obtain ⟨links', s', _, hroute', _, hstep, _⟩ := find_eq_ok_route hremoved
    obtain ⟨rfl, rfl⟩ := Route.unique hroute hroute'
    rcases List.mem_cons.1 hmem with heq | hmem
    · obtain ⟨hdir, hlast⟩ := Prod.mk.inj heq
      rw [← hdir, ← hlast] at hstep
      exact step_removeEntry_self hstep
    · obtain ⟨k, hk⟩ := Route.step_of_mem hroute hmem
      exact step_removeEntry_self hk
  · intro hunused
    obtain ⟨links, s, hcheck, hroute, hlinks, hstep, hslash⟩ := find_eq_ok_route hi
    have hmem : (d, .name n) ∉ (s.dir, s.last) :: links := fun hmem =>
      hunused ⟨links, s, hroute, hmem⟩
    obtain ⟨hne, hmem⟩ := not_or.1 (mt List.mem_cons.2 hmem)
    have hroute' : (fs.removeEntry d n).PathRoute ending p links s := by
      rw [PathRoute, ← (extends_removeEntry d n).origin]
      exact Route.removeEntry hroute hj hfile hmem
    have hstep' : (fs.removeEntry d n).step s.dir s.last = .ok i := by
      rwa [step_removeEntry (Ne.symm hne)]
    refine find_of_route hcheck hroute' hlinks hstep' ?_
    intro hs
    rw [FileSystem.removeEntry, isDirectory_modifyEntries]
    exact hslash hs

/-- A path that does not use the entry of a removed file is found still. -/
theorem find_removeFile_of_unused (h : fs.removeFile q = .ok fs') (hi : fs.find ending p = .ok i)
    (hunused : ∀ d n, fs.Names q d n → ¬fs.Uses ending p d n) : fs'.find ending p = .ok i := by
  obtain ⟨d, n, j, hq, _, hj, hfile, rfl⟩ := removeFile_names h
  exact (find_removeEntry_iff hi hj hfile).2 (hunused d n hq)

theorem content?_removeFile {bytes : List UInt8} (h : fs.removeFile q = .ok fs')
    (hi : fs.content? i = some (.file bytes)) : fs'.content? i = some (.file bytes) := by
  obtain ⟨d, n, _, _, _, _, _, rfl⟩ := removeFile_names h
  rw [FileSystem.removeEntry, content?_modifyEntries, hi]

/-! ## Entries that lead to files -/

/-- From the name in front of its end a route goes on along that name alone. -/
theorem Route.from_slot (h : fs.Route ending dir segments slash links s)
    (ht : fs.Route .name dir segments slash links' t) (hlast : t.last = .name n) :
    ∃ links'', links = links' ++ links'' ∧ fs.Route ending t.dir [.name n] slash links'' s := by
  induction h generalizing links' with
  | stay =>
      cases ht
      cases hlast
  | stop henter hlink =>
      cases ht with
      | stop => exact ⟨_, rfl, hlast ▸ .stop henter hlink⟩
      | follow _ _ hname => cases hname
  | follow henter htarget hfollows hroute =>
      cases ht with
      | stop => exact ⟨_, rfl, hlast ▸ .follow henter htarget hfollows hroute⟩
      | follow _ _ hname => cases hname
  | step _ hi htarget _ ih => exact ih (ht.of_step hi htarget)
  | jump _ hi htarget _ ih =>
      obtain ⟨_, rfl, ht'⟩ := ht.of_jump hi htarget
      obtain ⟨links'', rfl, hroute⟩ := ih ht'
      exact ⟨links'', rfl, hroute⟩

/-- The route to a name, and from there on along the name alone. -/
theorem Route.append_slot {links'' : List (Inode × Segment)}
    (ht : fs.Route .name dir segments slash links t) (hlast : t.last = .name n)
    (h : fs.Route ending t.dir [.name n] slash links'' s) :
    fs.Route ending dir segments slash (links ++ links'') s := by
  induction ht with
  | stay => cases hlast
  | stop =>
      cases hlast
      exact h
  | follow _ _ hname => cases hname
  | step henter hi htarget _ ih => exact .step henter hi htarget (ih hlast h)
  | jump henter hi htarget _ ih => exact .jump henter hi htarget (ih hlast h)

/-- A link that is replaced on the way to something that is there leads to a directory. -/
theorem Route.isDirectory_of_mem (h : fs.Route .keep dir segments slash links s)
    (hi : fs.nodeAt s = .ok i) (hmem : (d, x) ∈ links)
    (ht : fs.Route .follow d [x] slash' links' t) (hj : fs.Settled t j) :
    fs.isDirectory j = true := by
  obtain ⟨hstep, hdir⟩ := nodeAt_eq_ok_iff.1 hi
  obtain ⟨target, rest, slash'', links'', _, hfrom, _⟩ := h.from_link hmem
  cases rest with
  | cons next rest =>
      cases hfile : fs.isDirectory j with
      | true => rfl
      | false => exact absurd hfrom (ht.not_through_file hj hfile (List.cons_ne_nil next rest))
  | nil =>
      -- The link is the last one, and replaced because of a slash at the end.
      have hslash : s.slash = true := by
        cases hfrom with
        | follow henter htarget hfollows hroute =>
            exact hroute.slash_mono (Bool.or_eq_true_iff.2 (.inl hfollows))
      have hsettled : fs.Settled s i := ⟨hstep, target?_eq_none_of_isDirectory (hdir hslash)⟩
      obtain ⟨_, hsame, hlast, _⟩ := hfrom.unique_of_agree ht (.inr ⟨⟨i, hsettled⟩, j, hj⟩)
      rw [hsame, hlast] at hstep
      obtain rfl := Except.ok.inj (hstep.symm.trans hj.1)
      exact hdir hslash

/-- What leads to a file is not on the way to a name. -/
theorem Route.notMem_of_file (h : fs.Route .name dir segments slash links s)
    (ht : fs.Route .follow d [x] slash' links' t) (hj : fs.Settled t j)
    (hfile : fs.isDirectory j = false) : (d, x) ∉ links := by
  intro hmem
  obtain ⟨target, rest, slash'', links'', _, hfrom, _⟩ := h.from_link hmem
  cases rest with
  | cons next rest => exact ht.not_through_file hj hfile (List.cons_ne_nil next rest) hfrom
  | nil =>
      cases hfrom with
      | follow _ _ hfollows => cases hfollows

/-- The entry of a file that can be read leads nowhere but to the file. -/
theorem Names.settled_of_readFile {bytes : List UInt8} (hq : fs.Names q d n)
    (hread : fs.readFile q = .ok bytes) :
    ∃ links t j, fs.Route .follow d [.name n] q.endsInSlash links t ∧ fs.Settled t j ∧
      fs.bytes? j = some bytes := by
  obtain ⟨j, hj, _, hbytes⟩ := readFile_eq_ok_iff.1 hread
  obtain ⟨links, t, _, hroute, _, hstep, _⟩ := find_eq_ok_route hj
  obtain ⟨slash, hslot⟩ := hq
  obtain ⟨_, links', hname, _⟩ := slot_eq_ok_iff.1 hslot
  obtain ⟨links'', _, hfrom⟩ := Route.from_slot hroute hname rfl
  exact ⟨links'', t, j, hfrom, ⟨hstep, (kind_of_bytes? hbytes).2⟩, hbytes⟩

/-- A path that is found uses the entry of a readable file only at its own end. -/
theorem Uses.names {bytes : List UInt8} (huses : fs.Uses .keep p d n) (hi : fs.find .keep p = .ok i)
    (hq : fs.Names q d n) (hread : fs.readFile q = .ok bytes) (hj : fs.step d (.name n) = .ok j)
    (hfile : fs.isDirectory j = false) : fs.Names p d n := by
  obtain ⟨links, s, hroute, hmem⟩ := huses
  obtain ⟨links', s', hcheck, hroute', hlinks, hstep, hslash⟩ := find_eq_ok_route hi
  obtain ⟨rfl, rfl⟩ := Route.unique hroute hroute'
  rcases List.mem_cons.1 hmem with heq | hmem
  · obtain ⟨hdir, hlast⟩ := Prod.mk.inj heq
    obtain ⟨links', t, hname, ⟨rfl, rfl⟩ | ⟨_, _, _, hfollows, _, hend⟩⟩ := Route.split_last hroute
    · exact ⟨s.slash, slot_eq_ok_iff.2 ⟨hcheck, links, by rw [hdir, hlast]; exact hname, hlinks⟩⟩
    · have hdirectory := hslash (hend.slash_mono (Bool.or_eq_true_iff.2 (.inl hfollows)))
      rw [← hdir, ← hlast] at hstep
      obtain rfl := Except.ok.inj (hstep.symm.trans hj)
      simp [hfile] at hdirectory
  · obtain ⟨_, t, k, hfollow, hsettled, hbytes⟩ := hq.settled_of_readFile hread
    have hdirectory := Route.isDirectory_of_mem hroute (nodeAt_eq_ok_iff.2 ⟨hstep, hslash⟩) hmem
      hfollow hsettled
    simp [(kind_of_bytes? hbytes).1] at hdirectory

/-- A path that is found is found still when a file that can be read is removed, unless it names the
file's entry. -/
theorem find_removeFile {bytes : List UInt8} (h : fs.removeFile q = .ok fs')
    (hread : fs.readFile q = .ok bytes) (hi : fs.find .keep p = .ok i)
    (hother : ∀ d n, fs.Names p d n → ¬fs.Names q d n) : fs'.find .keep p = .ok i := by
  obtain ⟨d, n, j, hq, _, hj, hfile, _⟩ := removeFile_names h
  apply find_removeFile_of_unused h hi
  intro d' n' hq' huses
  obtain ⟨rfl, rfl⟩ := hq.unique hq'
  exact hother d n (huses.names hi hq hread hj hfile) hq

/-- Names stay where they are when a file that can be read is removed. -/
theorem Names.removeFile {bytes : List UInt8} (hp : fs.Names p d n) (h : fs.removeFile q = .ok fs')
    (hread : fs.readFile q = .ok bytes) : fs'.Names p d n := by
  obtain ⟨d', n', j, hq, _, hj, hfile, rfl⟩ := removeFile_names h
  obtain ⟨_, t, k, hfollow, hsettled, hbytes⟩ := hq.settled_of_readFile hread
  obtain ⟨slash, hslot⟩ := hp
  obtain ⟨hcheck, links, hroute, hlinks⟩ := slot_eq_ok_iff.1 hslot
  have hunused : (d', .name n') ∉ links :=
    Route.notMem_of_file hroute hfollow hsettled (kind_of_bytes? hbytes).1
  refine ⟨slash, slot_eq_ok_iff.2 ⟨hcheck, links, ?_, hlinks⟩⟩
  rw [PathRoute, ← (extends_removeEntry d' n').origin]
  exact Route.removeEntry hroute hj hfile hunused

/-- A file that was removed is not found any more. -/
theorem find_of_removeFile {bytes : List UInt8} (h : fs.removeFile q = .ok fs')
    (hread : fs.readFile q = .ok bytes) : fs'.find .keep q = .error (.system .noEntry) := by
  obtain ⟨d, n, j, hq, _, hj, _, rfl⟩ := removeFile_names h
  have hgone : (fs.removeEntry d n).step d (.name n) = .error (.system .noEntry) := by
    have hlength := (step_name_eq_ok_iff.1 hj).1
    simp [step, child?_removeEntry, Nat.not_lt.2 hlength]
  obtain ⟨slash, hslot⟩ := hq.removeFile h hread
  obtain ⟨hcheck, links, hroute, hlinks⟩ := slot_eq_ok_iff.1 hslot
  have hkeep : (fs.removeEntry d n).slot .keep q = .ok ⟨d, .name n, slash⟩ :=
    slot_eq_ok_iff.2 ⟨hcheck, links,
      Route.of_name hroute fun target htarget => by simp [linkAt?, hgone] at htarget, hlinks⟩
  simp [find, hkeep, nodeAt, hgone]

end Hardlinks.FileSystem
