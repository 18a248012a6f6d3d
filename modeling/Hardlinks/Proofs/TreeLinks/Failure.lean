-- SUMMARY: A linking of a tree that fails has placed the first entries, and changed nothing else.
import Hardlinks.Proofs.TreeLinks

/-!
# Failures of linked trees

The source is listed before anything is changed, so a run that cannot list it leaves everything as
it was. Later failures are failures at one entry: those in front of it have their places, in the
order of the paths, and nothing of the entry itself or of those behind it is made
(`exists_first_of_placeAll`). At most the destination and directories above it are new besides, also
where making them stops half way.
-/

namespace Hardlinks.TreeLinks

open FileSystem

/-- The paths lead from the directory `d` to everything below it, and are in the order of their
components. -/
structure PathsBelow (fs : FileSystem) (d : Inode) (paths : List Path) : Prop where
  mem_iff : ∀ {p}, p ∈ paths ↔ ∃ ns i, fs.LiesBelow d ns i ∧ p = .ofParts ns
  sorted : paths.Pairwise fun p q => p.rank < q.rank

/-- The failure names the second place of the entry `p`, or the directory that is to hold it. -/
def StopsAt (source destination p : Path) : Failure → Prop
  | .createDirectory q _ => q = destination.join p ∨ (destination.join p).parent? = some q
  | .link old new _ => old = source.join p ∧ new = destination.join p
  | _ => False

/-- The first entries below the directory `d`, which have the given paths, have their second places,
and that is all that was done. -/
structure FirstPlaced (source destination : Path) (d : Inode) (fs after : FileSystem)
    (paths : List Path) : Prop where
  /-- The second place of a directory is a directory, and everything else is one node in both
  places, the node that it was. -/
  placed : ∀ p ∈ paths, ∃ ns i, fs.LiesBelow d ns i ∧ p = .ofParts ns ∧
    if fs.isDirectory i then after.isDirectoryAt (destination.join p) = true
    else after.find .keep (source.join p) = .ok i ∧ after.find .keep (destination.join p) = .ok i
  /-- Every entry names the node that it named. -/
  kept : ∀ {a n i}, fs.child? a n = some i → after.child? a n = some i
  /-- Every node is what it was, but for further entries of a directory. -/
  grows : fs.Grows after
  /-- A new entry is one of the second places, or the destination, or a directory on the way to
  it. -/
  added : ∀ {a n i}, after.child? a n = some i → fs.child? a n = some i ∨
    (∃ p ∈ paths, after.Names (destination.join p) a n) ∨
    ∃ q, q.Above destination ∧ after.Names q a n ∧ after.isDirectory i = true

variable {source destination root : Path} {fs fs₀ after : FileSystem} {traversal : Traversal}
  {l : Listed} {before listed front back : List Listed} {p q : Progress} {d : Inode} {f : Failure}
  {ns : List Name}

/-! ## Listings -/

theorem pathsBelow_of_lists (h : fs.Lists d listed) :
    PathsBelow fs d (listed.map Listed.path) where
  mem_iff {p} := by
    rw [List.mem_map]
    constructor
    · rintro ⟨l, hl, rfl⟩
      obtain ⟨ns, i, hi, rfl⟩ := h.mem_iff.1 hl
      exact ⟨ns, i, hi, rfl⟩
    · rintro ⟨ns, i, hi, rfl⟩
      exact ⟨_, h.mem_of_liesBelow hi, rfl⟩
  sorted := List.pairwise_map.2 h.sorted

/-- A listing fails with the first failure of the traversal, or at what does not lie below its
root. -/
theorem all_eq_error {found : List (Except TraversalError Found)}
    (h : Listed.all root found = .error f) : ∃ p e, f = .walk p e := by
  obtain ⟨_, x, _, _, _, hx⟩ := mapM_eq_error_iff.1 h
  unfold Listed.ofFound at hx
  split at hx
  · exact ⟨_, _, (Except.error.inj hx).symm⟩
  · split at hx
    · exact ⟨_, _, (Except.error.inj hx).symm⟩
    · cases hx

/-! ## The entry at which a run fails -/

theorem additions_of_refused (hready : Ready destination fs l ns)
    (h : place source destination fs l = (.error f, after)) :
    Additions source destination [] fs after where
  grows := grows_place h
  placed := by simp
  added hi := by
    rcases child?_place hready h hi with hold | ⟨hok, _⟩ | habove
    · exact .inl hold
    · cases hok
    · exact .inr (.inr habove)

theorem stopsAt_of_place (h : place source destination fs l = (.error f, after)) :
    StopsAt source destination l.path f := by
  cases places_of_eq h with
  | noParent hparent =>
      obtain ⟨q, e, hq, rfl⟩ := provideParent_eq_error (congrArg Prod.fst hparent)
      exact .inr hq
  | notMade => exact .inl rfl
  | notLinked => exact ⟨rfl, rfl⟩

/-- Entries that do not all get their places get them up to the one at which this fails. -/
theorem exists_first_of_placeAll (hfs : fs₀.Regular) (h : fs₀.Lists d (before ++ listed))
    (hbefore : ∀ k ∈ before, Placed source destination p.files k)
    (hplace : placeAll source destination p listed = (.error f, q)) :
    ∃ front l back, listed = front ++ l :: back ∧ StopsAt source destination l.path f ∧
      Additions source destination front p.files q.files := by
  induction listed generalizing before p with
  | nil => cases hplace
  | cons l rest ih =>
      rw [placeAll] at hplace
      obtain ⟨ns, hready⟩ := ready_of_placed hfs h hbefore
      split at hplace
      · next f' after' hfailed =>
        cases hplace
        exact ⟨[], l, rest, rfl, stopsAt_of_place hfailed, additions_of_refused hready hfailed⟩
      · next mid hmid =>
        have hfirst := additions_place hready hmid
        have hlists : fs₀.Lists d ((before ++ [l]) ++ rest) := by
          rwa [List.append_assoc, List.singleton_append]
        have hplaced : ∀ k ∈ before ++ [l], Placed source destination mid k := by
          intro k hk
          rcases List.mem_append.1 hk with hk | hk
          · exact (hbefore k hk).extend hfirst.grows.extends
          · exact hfirst.placed k hk
        obtain ⟨front, l', back, rfl, hstops, hadditions⟩ := ih hlists hplaced hplace
        exact ⟨l :: front, l', back, rfl, hstops, hfirst.trans hadditions⟩

/-! ## Runs -/

theorem firstPlaced_of_additions (hfs : fs.Regular) (hd : fs.find .follow source = .ok d)
    (hdir : fs.isDirectory d = true) (h : fs.Lists d (front ++ l :: back))
    (hadditions : Additions source destination front fs after) :
    FirstPlaced source destination d fs after (front.map Listed.path) where
  placed p hp := by
    obtain ⟨k, hk, rfl⟩ := List.mem_map.1 hp
    obtain ⟨ns, i, hi, rfl⟩ := h.mem_iff.1 (List.mem_append_left _ hk)
    refine ⟨ns, i, hi, rfl, ?_⟩
    have hplaced := hadditions.placed _ hk
    split
    · next hkind =>
      cases hplaced with
      | directory _ hthere => exact hthere
      | link hfile => simp [hkind] at hfile
    · next hkind =>
      have hkind : fs.isDirectory i = false := by simpa using hkind
      rw [hkind] at hplaced
      exact find_of_placed hfs hd hdir hadditions.grows.extends hi hplaced
  kept := hadditions.grows.extends.child?
  grows := hadditions.grows
  added hi := by
    rcases hadditions.added hi with hold | ⟨k, hk, hnames⟩ | habove
    · exact .inl hold
    · exact .inr (.inl ⟨k.path, List.mem_map_of_mem hk, hnames⟩)
    · exact .inr (.inr habove)

/-- A run that fails has changed nothing if its source is no directory or cannot be listed.
Otherwise it fails at one of the entries, and only those before it have their second places. -/
theorem firstPlaced_of_run_failed (htraversal : traversal.Complete) (hfs : fs.Regular)
    (h : (run source destination fs traversal).result = .error f) :
    ((∃ p, f = .notADirectory p) ∨ ∃ p e, f = .walk p e) ∧
        (run source destination fs traversal).files = fs ∨
      ∃ d front p back, fs.find .follow source = .ok d ∧ fs.isDirectory d = true ∧
        PathsBelow fs d (front ++ p :: back) ∧ StopsAt source destination p f ∧
        FirstPlaced source destination d fs (run source destination fs traversal).files front := by
  have hruns := runs_run source destination fs traversal
  rw [h] at hruns
  generalize (run source destination fs traversal).files = after at hruns ⊢
  cases hruns with
  | notDirectory => exact .inl ⟨.inl ⟨_, rfl⟩, rfl⟩
  | notListed _ hlist => exact .inl ⟨.inr (all_eq_error hlist), rfl⟩
  | @stopped listed _ p hsource hlist hplace =>
      obtain ⟨d, hd, hdir⟩ := isDirectoryAt_iff.1 hsource
      have hlists : fs.Lists d ([] ++ Listed.sort listed) :=
        lists_of_all htraversal hfs hd hdir hlist
      obtain ⟨front, l, back, hsplit, hstops, hadditions⟩ :=
        exists_first_of_placeAll hfs hlists (by simp) hplace
      rw [List.nil_append, hsplit] at hlists
      have hpaths := pathsBelow_of_lists hlists
      rw [List.map_append, List.map_cons] at hpaths
      exact .inr ⟨d, _, _, _, hd, hdir, hpaths, hstops,
        firstPlaced_of_additions hfs hd hdir hlists hadditions⟩

/-- Two files and a directory, in which the second place of the second file is taken. -/
def takenPlace : FileSystem :=
  let fs := withFiles [("a", "alpha"), ("b", "beta")]
  let fs := (fs.makeDirectory (.ofString "t")).toOption.getD fs
  (fs.linkFile (.ofString "a") (.ofString "t/b")).toOption.getD fs

/-- The first file is linked, and the run fails at the second one. -/
theorem firstPlaced_of_taken_place :
    let failure : Failure := .link (.ofString "./b") (.ofString "t/b") (.system .exists)
    FileSystem.traverse.Complete ∧ takenPlace.Regular ∧
      (run (.ofString ".") (.ofString "t") takenPlace).result = .error failure ∧
      ∃ d front p back, takenPlace.find .follow (.ofString ".") = .ok d ∧
        takenPlace.isDirectory d = true ∧ PathsBelow takenPlace d (front ++ p :: back) ∧
        StopsAt (.ofString ".") (.ofString "t") p failure ∧
        FirstPlaced (.ofString ".") (.ofString "t") d takenPlace
          (run (.ofString ".") (.ofString "t") takenPlace).files front := by
  intro failure
  have hfiles := regular_withFiles [("a", "alpha"), ("b", "beta")]
  have hmade := hfiles.call (.makeDirectory (p := .ofString "t") (by rfl))
  have hregular : takenPlace.Regular :=
    hmade.call (.linkFile (p := .ofString "a") (q := .ofString "t/b") (by rfl))
  have hrun : (run (.ofString ".") (.ofString "t") takenPlace).result = .error failure := by rfl
  rcases firstPlaced_of_run_failed complete_traverse hregular hrun with ⟨hnone, _⟩ | hfirst
  · simp [failure] at hnone
  · exact ⟨complete_traverse, hregular, hrun, hfirst⟩

end Hardlinks.TreeLinks
