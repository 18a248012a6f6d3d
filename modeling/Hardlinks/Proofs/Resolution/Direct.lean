-- SUMMARY: A way through directories alone stays one as long as the directories stay.
import Hardlinks.Proofs.FileSystem.Hierarchy

/-!
# Direct ways

A path that leads to a directory without symbolic links goes from directory to directory. It needs
nothing but their names and their permissions, so whatever happens to files, and wherever entries
are added, it leads to the same directory (`LeadsTo.of_keepsDirectories`). Links, new files, copies
and removals are all of that kind.
-/

namespace Hardlinks.FileSystem

/-- Every directory keeps its name, its parent and its permissions. -/
structure KeepsDirectories (fs fs' : FileSystem) : Prop where
  start : fs'.start = fs.start
  isDirectory : ∀ {i}, fs.isDirectory i = true → fs'.isDirectory i = true
  parent : ∀ {i}, fs.isDirectory i = true → fs'.parent i = fs.parent i
  allows : ∀ {i}, fs.isDirectory i = true → fs'.allows i = fs.allows i
  child? : ∀ {d n i}, fs.child? d n = some i → fs.isDirectory i = true → fs'.child? d n = some i

variable {fs fs' fs'' : FileSystem} {d i j : Inode} {n : Name} {p q : Path} {segment : Segment}
  {segments : List Segment} {slash : Bool} {s : Slot} {mode : Mode} {c : Content}

theorem KeepsDirectories.trans (h : fs.KeepsDirectories fs') (h' : fs'.KeepsDirectories fs'') :
    fs.KeepsDirectories fs'' where
  start := h'.start.trans h.start
  isDirectory hi := h'.isDirectory (h.isDirectory hi)
  parent hi := (h'.parent (h.isDirectory hi)).trans (h.parent hi)
  allows hi := (h'.allows (h.isDirectory hi)).trans (h.allows hi)
  child? hi hdir := h'.child? (h.child? hi hdir) (h.isDirectory hdir)

theorem Extends.keepsDirectories (h : fs.Extends fs') : fs.KeepsDirectories fs' where
  start := h.start
  isDirectory := h.isDirectory
  parent := h.parent
  allows := h.allows
  child? hi _ := h.child? hi

theorem KeepsDirectories.refl (fs : FileSystem) : fs.KeepsDirectories fs :=
  (Extends.refl fs).keepsDirectories

/-! ## Ways -/

theorem KeepsDirectories.enter (h : fs.KeepsDirectories fs') (hd : fs.enter d = .ok ()) :
    fs'.enter d = .ok () := by
  obtain ⟨hdir, hsearch⟩ := enter_eq_ok_iff.1 hd
  apply enter_eq_ok_iff.2
  exact ⟨h.isDirectory hdir, by rw [h.allows hdir, hsearch]⟩

theorem KeepsDirectories.step (h : fs.KeepsDirectories fs') (hd : fs.isDirectory d = true)
    (hi : fs.step d segment = .ok i) (hdir : fs.isDirectory i = true) :
    fs'.step d segment = .ok i := by
  cases segment with
  | here => exact hi
  | up => simpa [FileSystem.step, h.parent hd] using hi
  | name n =>
      obtain ⟨hlength, hchild⟩ := step_name_eq_ok_iff.1 hi
      exact step_name_eq_ok_iff.2 ⟨hlength, h.child? hchild hdir⟩

/-- A way that replaces no link leads to the directory that it led to. -/
theorem Route.of_keepsDirectories (h : fs.KeepsDirectories fs')
    (hroute : fs.Route .follow d segments slash [] s) (hi : fs.step s.dir s.last = .ok i)
    (hdir : fs.isDirectory i = true) :
    fs'.Route .follow d segments slash [] s ∧ fs'.step s.dir s.last = .ok i := by
  generalize hlinks : ([] : List (Inode × Segment)) = links at hroute
  induction hroute with
  | stay => exact ⟨.stay, hi⟩
  | @stop d last slash henter hlink =>
      have hi' := h.step (enter_eq_ok_iff.1 henter).1 hi hdir
      refine ⟨.stop (h.enter henter) ?_, hi'⟩
      intro target htarget
      have htarget' := target?_eq_none_of_isDirectory (h.isDirectory hdir)
      rw [Settled.linkAt? (s := ⟨d, last, slash⟩) ⟨hi', htarget'⟩] at htarget
      cases htarget
  | follow => cases hlinks
  | step henter hj htarget hnext ih =>
      have hjdir := (enter_eq_ok_iff.1 hnext.enter).1
      obtain ⟨hnext', hi'⟩ := ih hi hlinks
      have hj' := h.step (enter_eq_ok_iff.1 henter).1 hj hjdir
      have htarget' := target?_eq_none_of_isDirectory (h.isDirectory hjdir)
      exact ⟨.step (h.enter henter) hj' htarget' hnext', hi'⟩
  | jump => cases hlinks

/-- A directory that a path leads to without symbolic links stays there. -/
theorem LeadsTo.of_keepsDirectories (h : fs.KeepsDirectories fs') (hd : fs.LeadsTo p [] d) :
    fs'.LeadsTo p [] d := by
  obtain ⟨⟨s, hroute, hstep⟩, hdir⟩ := hd
  have horigin : fs'.origin p = fs.origin p := by
    simp [origin, h.start]
  obtain ⟨hroute', hstep'⟩ := Route.of_keepsDirectories h hroute hstep hdir
  refine ⟨⟨s, ?_, hstep'⟩, h.isDirectory hdir⟩
  rwa [PathRoute, horigin]

/-! ## Calls -/

theorem keepsDirectories_copyFile (h : fs.copyFile p q = .ok fs') : fs.KeepsDirectories fs' := by
  obtain ⟨_, _, _, _, _, _, _, _, hopens, hwritten⟩ := copyFile_spec h
  exact (hopens.extends.trans hwritten.tree.extends).keepsDirectories

/-- A removed entry is none of a directory. -/
theorem keepsDirectories_removeFile (h : fs.removeFile p = .ok fs') : fs.KeepsDirectories fs' := by
  obtain ⟨d, n, i, _, _, hi, hfile, rfl⟩ := removeFile_names h
  have hextends : (fs.removeEntry d n).Extends fs := extends_removeEntry d n
  have hsame : ∀ j, (fs.removeEntry d n).isDirectory j = fs.isDirectory j :=
    fun j => isDirectory_modifyEntries _ _ _
  refine ⟨hextends.start.symm, ?_, ?_, ?_, ?_⟩
  · intro j hj
    rw [hsame, hj]
  · intro j hj
    exact parent_modifyEntries _ _ _
  · intro j hj
    exact allows_modifyEntries _
  · intro e m j hj hdir
    rw [child?_removeEntry, if_neg, hj]
    rintro ⟨rfl, rfl⟩
    obtain rfl := Option.some.inj ((step_name_eq_ok_iff.1 hi).2.symm.trans hj)
    simp [hfile] at hdir

end Hardlinks.FileSystem
