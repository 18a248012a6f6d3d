-- SUMMARY: Asking for the directory of a path: the same as making it, whether it is there or not.
import Hardlinks.Proofs.FileSystem.LawfulGrowth

/-!
# Parent directories

Nothing is made for a path whose parent directory is there. This is no more than a short cut: making
that directory with its missing ancestors would find it and change nothing
(`provideParent_eq_provideDirectory`). Whichever way it ends, the directories made on the way are
all that is new (`ParentProvided`), each of them an entry of its own
(`exists_child?_of_provideParent`).
-/

namespace Hardlinks.FileSystem

/-- What asking for the directory `dir` that is to hold a path has done. -/
structure ParentProvided (dir : Path) (fs : FileSystem) (result : Except Failure Unit)
    (made : FileSystem) : Prop where
  /-- Every node is what it was, but for further entries of a directory. -/
  grows : fs.Grows made
  /-- Every entry names the node that it named. -/
  kept : ∀ {d n i}, fs.child? d n = some i → made.child? d n = some i
  /-- A new entry is a new directory, in the place of the one that was asked for or of one above
  it. -/
  added : ∀ {d n i}, made.child? d n = some i → fs.child? d n = some i ∨
    ∃ q ∈ dir.ancestors, made.Names q d n ∧ made.isDirectory i = true ∧ fs.nextInode ≤ i
  /-- A new node is a directory as they are made, and has an entry. -/
  node : ∀ {i node}, fs.node? i = none → made.node? i = some node →
    (∃ p es, node.content = .directory p es) ∧ node.mode = .ofNewDirectory ∧
      ∃ d n, made.child? d n = some i
  there : result = .ok () → made.isDirectoryAt dir = true
  /-- A failure names the directory that was asked for. -/
  failure : ∀ {f}, result = .error f → ∃ cause, f = .createDirectory dir cause

variable {fs made : FileSystem} {dir p : Path} {i : Inode} {node : Node}
  {result : Except Failure Unit}

/-- A directory that is there is found when it is made. -/
theorem provideParent_eq_provideDirectory (hparent : p.parent? = some dir)
    (hne : dir.isEmpty = false) : fs.provideParent p = fs.provideDirectory dir := by
  simp only [provideParent, hparent, hne, Bool.false_or]
  split
  · next hdir => exact (provideDirectory_of_isDirectoryAt (.inr hdir)).symm
  · rfl

/-! ## New nodes -/

theorem exists_child?_of_makeDirectory (h : fs.makeDirectory p = .ok made)
    (hnone : fs.node? i = none) (hnode : made.node? i = some node) :
    ∃ d n, made.child? d n = some i := by
  obtain ⟨s, name, hslot, hname, _, rfl⟩ := makeDirectory_eq_ok_iff.1 h
  rw [node?_create _ _ _ _ _ (dir_ne_nextInode hslot hname)] at hnode
  split at hnode
  · next hi =>
    refine ⟨s.dir, name, ?_⟩
    rw [child?_create (by simp) hslot hname, if_pos ⟨rfl, rfl⟩, hi]
  · rw [addEntry, node?_modifyEntries_eq, hnone] at hnode
    cases hnode

theorem exists_child?_of_provideParent (h : fs.provideParent p = (result, made))
    (hnone : fs.node? i = none) (hnode : made.node? i = some node) :
    ∃ d n, made.child? d n = some i := by
  suffices hentry : ∀ node, made.node? i = some node → ∃ d n, made.child? d n = some i from
    hentry node hnode
  refine provideParent_induction (P := fun mid => ∀ node, mid.node? i = some node →
    ∃ d n, mid.child? d n = some i) h (fun node hold => by simp [hnone] at hold) ?_
  intro mid made q hmid hmade node hnode
  cases hold : mid.node? i with
  | none => exact exists_child?_of_makeDirectory hmade hold hnode
  | some node' =>
      obtain ⟨d, n, hchild⟩ := hmid node' hold
      exact ⟨d, n, (grows_of_makeDirectory hmade).extends.child? hchild⟩

/-! ## Asking for a directory -/

theorem isDirectoryAt_of_provideDirectory (hne : dir.isEmpty = false)
    (h : fs.provideDirectory dir = (.ok (), made)) : made.isDirectoryAt dir = true := by
  obtain ⟨rest, hancestors, _⟩ := lineage_ancestors dir
  rw [provideDirectory_eq_ok_iff, hancestors] at h
  exact isDirectoryAt_of_makeFirst hne h

theorem parentProvided_of_eq (hparent : p.parent? = some dir) (hne : dir.isEmpty = false)
    (h : fs.provideParent p = (result, made)) : ParentProvided dir fs result made where
  grows := grows_of_provideParent h
  kept := (grows_of_provideParent h).extends.child?
  added hi := by
    have henclosing : p.enclosing = dir.ancestors := by simp [Path.enclosing, hparent, hne]
    exact henclosing ▸ child?_provideParent h hi
  node hnone hnode := by
    obtain ⟨hdir, hmode, _⟩ := (growsLawfully_of_provideParent h).node hnone hnode
    exact ⟨hdir, hmode, exists_child?_of_provideParent h hnone hnode⟩
  there := by
    rintro rfl
    rw [provideParent_eq_provideDirectory hparent hne] at h
    exact isDirectoryAt_of_provideDirectory hne h
  failure := by
    rintro f rfl
    obtain ⟨q, cause, hq, rfl⟩ := provideParent_eq_error (congrArg Prod.fst h)
    obtain rfl := Option.some.inj (hparent.symm.trans hq)
    exact ⟨cause, rfl⟩

/-- Asking for the parent directory of a path is making it, makes at most that directory and those
above it, and is done once it has worked. -/
theorem parentProvided_of_parent (fs : FileSystem) (hparent : p.parent? = some dir)
    (hne : dir.isEmpty = false) :
    fs.provideParent p = fs.provideDirectory dir ∧
      ParentProvided dir fs (fs.provideParent p).1 (fs.provideParent p).2 ∧
      ((fs.provideParent p).1 = .ok () →
        (fs.provideParent p).2.provideParent p = (.ok (), (fs.provideParent p).2)) := by
  refine ⟨provideParent_eq_provideDirectory hparent hne, parentProvided_of_eq hparent hne rfl, ?_⟩
  intro hok
  have h : fs.provideParent p = (.ok (), (fs.provideParent p).2) := Prod.ext hok rfl
  exact provideParent_again h (Extends.refl _).keepsWalks

/-- A file, and a symbolic link to a directory. -/
def linkedDirectory : FileSystem :=
  let fs := withFiles [("a", "alpha")]
  let fs := (fs.makeDirectory (.ofString "t")).toOption.getD fs
  (fs.makeSymlink (.ofString "t") (.ofString "l")).toOption.getD fs

/-- Two directories are made through the symbolic link; where a file is in the way only the one in
front of it is made. -/
theorem provideParent_of_linkedDirectory :
    let through := Path.ofString "l/x/./y/f"
    let blocked := Path.ofString "new/../a/b/f"
    let failure := Failure.createDirectory (.ofString "new/../a/b") (.system .exists)
    (linkedDirectory.provideParent through).1 = .ok () ∧
      (linkedDirectory.provideParent blocked).1 = .error failure ∧
      (linkedDirectory.provideParent blocked).2.isDirectoryAt (.ofString "new") = true ∧
      linkedDirectory.provideParent through =
        linkedDirectory.provideDirectory (.ofString "l/x/./y") ∧
      (linkedDirectory.provideParent through).2.isDirectoryAt (.ofString "t/x/y") = true ∧
      (linkedDirectory.provideParent through).2.provideParent through =
        (.ok (), (linkedDirectory.provideParent through).2) ∧
      ParentProvided (.ofString "new/../a/b") linkedDirectory (.error failure)
        (linkedDirectory.provideParent blocked).2 := by
  intro through blocked failure
  have hthrough : (linkedDirectory.provideParent through).1 = .ok () := by rfl
  have hblocked : (linkedDirectory.provideParent blocked).1 = .error failure := by rfl
  have hparent : through.parent? = some (.ofString "l/x/./y") := by rfl
  have hparent' : blocked.parent? = some (.ofString "new/../a/b") := by rfl
  obtain ⟨hsame, _, hagain⟩ := parentProvided_of_parent linkedDirectory hparent (by rfl)
  obtain ⟨_, hprovided, _⟩ := parentProvided_of_parent linkedDirectory hparent' (by rfl)
  exact ⟨hthrough, hblocked, by rfl, hsame, by rfl, hagain hthrough, hblocked ▸ hprovided⟩

end Hardlinks.FileSystem
