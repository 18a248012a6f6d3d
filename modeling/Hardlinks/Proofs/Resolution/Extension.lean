-- SUMMARY: File systems that have all the entries of another one lead every path to the same place.
import Hardlinks.FileSystem.Calls
import Hardlinks.Proofs.Resolution.Route

/-!
# Extensions

A file system extends another one if it has all its entries, between the same directories and
symbolic links. New entries are no harm to a path that leads somewhere already: its walk meets the
same entries again. So whatever a path is found to name in a file system, it names in every
extension (`find_extend`), and the slot of a name stays where it is (`slot_name_extend`).

All that counts for a path is that the steps of its walk are kept. What follows from that alone is
shown for every file system that keeps walks (`KeepsWalks`), which may hold symbolic links that no
walk of the other one comes to.
-/

namespace Hardlinks.FileSystem

/-- `fs'` has all the entries of `fs`, between the same directories and symbolic links. -/
structure Extends (fs fs' : FileSystem) : Prop where
  start : fs'.start = fs.start
  child? : ∀ {dir name i}, fs.child? dir name = some i → fs'.child? dir name = some i
  isDirectory : ∀ {i}, fs.isDirectory i = true → fs'.isDirectory i = true
  parent : ∀ {i}, fs.isDirectory i = true → fs'.parent i = fs.parent i
  allows : ∀ {i}, fs.isDirectory i = true → fs'.allows i = fs.allows i
  target? : ∀ i, fs'.target? i = fs.target? i

/-- Every step that leads somewhere in `fs` leads to the same node in `fs'`, and a symbolic link is
met there exactly if it was, with the same target. -/
structure KeepsWalks (fs fs' : FileSystem) : Prop where
  start : fs'.start = fs.start
  isDirectory : ∀ {i}, fs.isDirectory i = true → fs'.isDirectory i = true
  enter : ∀ {dir}, fs.enter dir = .ok () → fs'.enter dir = .ok ()
  step : ∀ {dir segment i}, fs.enter dir = .ok () → fs.step dir segment = .ok i →
    fs'.step dir segment = .ok i
  target? : ∀ {dir segment i}, fs.enter dir = .ok () → fs.step dir segment = .ok i →
    fs'.target? i = fs.target? i

variable {fs fs' fs'' : FileSystem} {ending : Ending} {dir i : Inode} {segment : Segment}
  {segments : List Segment} {slash : Bool} {links : List (Inode × Segment)} {s : Slot} {p : Path}

theorem Extends.refl (fs : FileSystem) : fs.Extends fs :=
  ⟨rfl, id, id, fun _ => rfl, fun _ => rfl, fun _ => rfl⟩

theorem Extends.trans (h : fs.Extends fs') (h' : fs'.Extends fs'') : fs.Extends fs'' where
  start := h'.start.trans h.start
  child? hi := h'.child? (h.child? hi)
  isDirectory hi := h'.isDirectory (h.isDirectory hi)
  parent hi := (h'.parent (h.isDirectory hi)).trans (h.parent hi)
  allows hi := (h'.allows (h.isDirectory hi)).trans (h.allows hi)
  target? i := (h'.target? i).trans (h.target? i)

/-! ## Steps and routes -/

theorem Extends.enter (h : fs.Extends fs') (hdir : fs.enter dir = .ok ()) :
    fs'.enter dir = .ok () := by
  obtain ⟨hdir, hsearch⟩ := enter_eq_ok_iff.1 hdir
  exact enter_eq_ok_iff.2 ⟨h.isDirectory hdir, by rw [h.allows hdir, hsearch]⟩

theorem Extends.step_name {n : Name} (h : fs.Extends fs') (hi : fs.step dir (.name n) = .ok i) :
    fs'.step dir (.name n) = .ok i := by
  obtain ⟨hlength, hchild⟩ := step_name_eq_ok_iff.1 hi
  exact step_name_eq_ok_iff.2 ⟨hlength, h.child? hchild⟩

theorem Extends.step (h : fs.Extends fs') (hdir : fs.enter dir = .ok ())
    (hi : fs.step dir segment = .ok i) : fs'.step dir segment = .ok i := by
  cases segment with
  | here => exact hi
  | up => simpa [FileSystem.step, h.parent (enter_eq_ok_iff.1 hdir).1] using hi
  | name n => exact h.step_name hi

theorem Extends.keepsWalks (h : fs.Extends fs') : fs.KeepsWalks fs' where
  start := h.start
  isDirectory := h.isDirectory
  enter := h.enter
  step := h.step
  target? _ _ := h.target? _

theorem KeepsWalks.trans (h : fs.KeepsWalks fs') (h' : fs'.KeepsWalks fs'') :
    fs.KeepsWalks fs'' where
  start := h'.start.trans h.start
  isDirectory hi := h'.isDirectory (h.isDirectory hi)
  enter hdir := h'.enter (h.enter hdir)
  step hdir hi := h'.step (h.enter hdir) (h.step hdir hi)
  target? hdir hi := (h'.target? (h.enter hdir) (h.step hdir hi)).trans (h.target? hdir hi)

theorem KeepsWalks.linkAt? (h : fs.KeepsWalks fs') (hdir : fs.enter dir = .ok ()) {target : Path}
    (htarget : fs.linkAt? dir segment = some target) : fs'.linkAt? dir segment = some target := by
  obtain ⟨i, hi, htarget⟩ := linkAt?_eq_some_iff.1 htarget
  exact linkAt?_eq_some_iff.2 ⟨i, h.step hdir hi, by rw [h.target? hdir hi, htarget]⟩

/-- A route stays one. Where it stops at a free name, that name must not be filled by a link that
the walk would replace. -/
theorem Route.of_keepsWalks (h : fs.KeepsWalks fs')
    (hroute : fs.Route ending dir segments slash links s)
    (hlast : ending = .name ∨ (∃ i, fs.step s.dir s.last = .ok i) ∨
      fs'.linkAt? s.dir s.last = none) :
    fs'.Route ending dir segments slash links s := by
  induction hroute with
  | stay => exact .stay
  | @stop dir last slash henter hlink =>
      refine .stop (h.enter henter) ?_
      intro target htarget
      rcases hlast with rfl | ⟨i, hi⟩ | hnone
      · rfl
      · obtain ⟨j, hj, htarget⟩ := linkAt?_eq_some_iff.1 htarget
        obtain rfl := Except.ok.inj ((h.step henter hi).symm.trans hj)
        exact hlink target
          (linkAt?_eq_some_iff.2 ⟨i, hi, by rw [← h.target? henter hi, htarget]⟩)
      · simp [hnone] at htarget
  | follow henter htarget hfollows _ ih =>
      exact .follow (h.enter henter) (h.linkAt? henter htarget) hfollows (ih hlast)
  | step henter hi htarget _ ih =>
      exact .step (h.enter henter) (h.step henter hi) (by rw [h.target? henter hi, htarget])
        (ih hlast)
  | jump henter hi htarget _ ih =>
      exact .jump (h.enter henter) (h.step henter hi) (by rw [h.target? henter hi, htarget])
        (ih hlast)

/-! ## Paths -/

/-- The directory where the walk of a path starts. -/
def origin (fs : FileSystem) (p : Path) : Inode :=
  if p.isAbsolute then root else fs.start

theorem Extends.origin (h : fs.Extends fs') (p : Path) : fs'.origin p = fs.origin p := by
  simp [FileSystem.origin, h.start]

/-- The route of a path. -/
def PathRoute (fs : FileSystem) (ending : Ending) (p : Path) (links : List (Inode × Segment))
    (s : Slot) : Prop :=
  fs.Route ending (fs.origin p) p.segments p.endsInSlash links s

theorem PathRoute.of_keepsWalks (h : fs.KeepsWalks fs') (hroute : fs.PathRoute ending p links s)
    (hlast : ending = .name ∨ (∃ i, fs.step s.dir s.last = .ok i) ∨
      fs'.linkAt? s.dir s.last = none) :
    fs'.PathRoute ending p links s := by
  have horigin : fs'.origin p = fs.origin p := by simp [FileSystem.origin, h.start]
  unfold PathRoute at hroute ⊢
  rw [horigin]
  exact Route.of_keepsWalks h hroute hlast

theorem PathRoute.extend (h : fs.Extends fs') (hroute : fs.PathRoute ending p links s)
    (hlast : ending = .name ∨ (∃ i, fs.step s.dir s.last = .ok i) ∨
      fs'.linkAt? s.dir s.last = none) :
    fs'.PathRoute ending p links s :=
  PathRoute.of_keepsWalks h.keepsWalks hroute hlast

theorem slot_eq_ok_iff :
    fs.slot ending p = .ok s ↔
      p.check = .ok () ∧ ∃ links, fs.PathRoute ending p links s ∧ links.length ≤ linkLimit := by
  unfold slot PathRoute origin
  cases hcheck : p.check with
  | error e => simp
  | ok u => simp [walk_eq_ok_iff]

/-- The empty path leads nowhere. -/
theorem isEmpty_of_slot (h : fs.slot ending p = .ok s) : p.isEmpty = false := by
  obtain ⟨hcheck, _⟩ := slot_eq_ok_iff.1 h
  obtain ⟨_ | ⟨b, bytes⟩⟩ := p
  · cases hcheck
  · rfl

theorem find_eq_ok_iff :
    fs.find ending p = .ok i ↔ ∃ s, fs.slot ending p = .ok s ∧ fs.nodeAt s = .ok i := by
  unfold find
  cases fs.slot ending p <;> simp

theorem isEmpty_of_find (h : fs.find ending p = .ok i) : p.isEmpty = false := by
  obtain ⟨s, hslot, _⟩ := find_eq_ok_iff.1 h
  exact isEmpty_of_slot hslot

theorem nodeAt_eq_ok_iff :
    fs.nodeAt s = .ok i ↔
      fs.step s.dir s.last = .ok i ∧ (s.slash = true → fs.isDirectory i = true) := by
  unfold nodeAt
  cases fs.step s.dir s.last with
  | error e => simp
  | ok j => cases hslash : s.slash <;> cases hdir : fs.isDirectory j <;> simp <;> grind

theorem KeepsWalks.nodeAt (h : fs.KeepsWalks fs') (hslot : fs.slot ending p = .ok s)
    (hi : fs.nodeAt s = .ok i) : fs'.nodeAt s = .ok i := by
  obtain ⟨hstep, hslash⟩ := nodeAt_eq_ok_iff.1 hi
  obtain ⟨_, links, hroute, _⟩ := slot_eq_ok_iff.1 hslot
  refine nodeAt_eq_ok_iff.2 ⟨?_, fun hs => h.isDirectory (hslash hs)⟩
  rcases Route.slot_enter hroute with hhere | henter
  · simpa [hhere, FileSystem.step] using hstep
  · exact h.step henter hstep

/-- What a path names stays what it names. -/
theorem KeepsWalks.find (h : fs.KeepsWalks fs') (hi : fs.find ending p = .ok i) :
    fs'.find ending p = .ok i := by
  obtain ⟨s, hslot, hnode⟩ := find_eq_ok_iff.1 hi
  obtain ⟨hcheck, links, hroute, hlinks⟩ := slot_eq_ok_iff.1 hslot
  have hlast : ∃ j, fs.step s.dir s.last = .ok j := ⟨i, (nodeAt_eq_ok_iff.1 hnode).1⟩
  exact find_eq_ok_iff.2
    ⟨s, slot_eq_ok_iff.2 ⟨hcheck, links, hroute.of_keepsWalks h (.inr (.inl hlast)), hlinks⟩,
      h.nodeAt hslot hnode⟩

theorem isDirectoryAt_iff :
    fs.isDirectoryAt p = true ↔ ∃ i, fs.find .follow p = .ok i ∧ fs.isDirectory i = true := by
  unfold isDirectoryAt
  cases fs.find .follow p <;> simp

theorem KeepsWalks.isDirectoryAt (h : fs.KeepsWalks fs') (hp : fs.isDirectoryAt p = true) :
    fs'.isDirectoryAt p = true := by
  obtain ⟨i, hi, hdir⟩ := isDirectoryAt_iff.1 hp
  exact isDirectoryAt_iff.2 ⟨i, h.find hi, h.isDirectory hdir⟩

/-- The slot of a name stays where it is. -/
theorem slot_name_extend (h : fs.Extends fs') (hslot : fs.slot .name p = .ok s) :
    fs'.slot .name p = .ok s := by
  obtain ⟨hcheck, links, hroute, hlinks⟩ := slot_eq_ok_iff.1 hslot
  exact slot_eq_ok_iff.2 ⟨hcheck, links, hroute.extend h (.inl rfl), hlinks⟩

theorem find_extend (h : fs.Extends fs') (hi : fs.find ending p = .ok i) :
    fs'.find ending p = .ok i :=
  h.keepsWalks.find hi

/-! ## Names of entries -/

/-- The path leads to the name `n` in the directory `d`. -/
def Names (fs : FileSystem) (p : Path) (d : Inode) (n : Name) : Prop :=
  ∃ slash, fs.slot .name p = .ok ⟨d, .name n, slash⟩

theorem Names.extend {d : Inode} {n : Name} (h : fs.Extends fs') (hp : fs.Names p d n) :
    fs'.Names p d n := by
  obtain ⟨slash, hslot⟩ := hp
  exact ⟨slash, slot_name_extend h hslot⟩

theorem Names.unique {d d' : Inode} {n n' : Name} (h : fs.Names p d n) (h' : fs.Names p d' n') :
    d = d' ∧ n = n' := by
  obtain ⟨slash, hslot⟩ := h
  obtain ⟨slash', hslot'⟩ := h'
  have heq := Except.ok.inj (hslot.symm.trans hslot')
  simp only [Slot.mk.injEq, Segment.name.injEq] at heq
  exact ⟨heq.1, heq.2.1⟩

/-- A path that led to a slot leads to no other name afterwards. -/
theorem Names.of_extends {d : Inode} {n : Name} (h : fs.Extends fs')
    (hslot : fs.slot .name p = .ok s) (hp : fs'.Names p d n) : fs.Names p d n := by
  obtain ⟨slash, hslot'⟩ := hp
  obtain rfl := Except.ok.inj ((slot_name_extend h hslot).symm.trans hslot')
  exact ⟨slash, hslot⟩

/-- The two paths name the same entry. -/
def SamePlace (fs : FileSystem) (p q : Path) : Prop :=
  ∃ d n, fs.Names p d n ∧ fs.Names q d n

theorem Names.not_samePlace {q : Path} {d d' : Inode} {n n' : Name} (hp : fs.Names p d n)
    (hq : fs.Names q d' n') (h : n ≠ n') : ¬fs.SamePlace p q := by
  rintro ⟨d₀, n₀, hp', hq'⟩
  exact h ((hp.unique hp').2.trans (hq'.unique hq).2)

end Hardlinks.FileSystem
