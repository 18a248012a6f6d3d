-- SUMMARY: A replay that fails has only added links and directories, and nothing is lost.
import Hardlinks.Proofs.FileSystem.WellFormed
import Hardlinks.Proofs.Replay.Run

/-!
# Aborted replays

A replay that fails leaves everything that was there, the manifest and all sources included. What it
adds are the destinations of the first entries, each for the node of its source, and directories
above those destinations and the next one. The step is one entry (`additions_place`); a pass strings
such steps together (`additions_placeAll`), and its failure tells where it stopped.
-/

namespace Hardlinks.Replay

open FileSystem

/-- The name `n` in the directory `d` is the destination of one of the entries, and `i` its source's
node. -/
def IsDestination (dir : Path) (entries : List Entry) (fs : FileSystem) (d : Inode) (n : Name)
    (i : Inode) : Prop :=
  ∃ e ∈ entries, fs.Names (destination dir e) d n ∧ fs.find .keep (source dir e) = .ok i

/-- The name `n` in the directory `d` is a directory above the destination of one of the entries. -/
def IsEnclosing (dir : Path) (entries : List Entry) (fs : FileSystem) (d : Inode) (n : Name)
    (i : Inode) : Prop :=
  ∃ e ∈ entries, ∃ q ∈ (destination dir e).enclosing, fs.Names q d n ∧ fs.isDirectory i = true

/-- What a pass that placed some of the entries it tried has done to the file system. -/
structure Additions (dir : Path) (placed tried : List Entry) (fs after : FileSystem) : Prop where
  /-- All nodes are kept, with their contents. -/
  grows : fs.Grows after
  /-- All entries are kept. -/
  kept : ∀ {d n i}, fs.child? d n = some i → after.child? d n = some i
  named : ∀ e ∈ placed, ∃ i, after.find .keep (source dir e) = .ok i ∧
    after.find .keep (destination dir e) = .ok i
  /-- Every other entry is a destination that was placed or a new directory above one that was
  tried. -/
  added : ∀ {d n i}, after.child? d n = some i → fs.child? d n = some i ∨
    IsDestination dir placed after d n i ∨
    (IsEnclosing dir tried after d n i ∧ fs.nextInode ≤ i)

variable {cfg : CheckedConfig} {policy : ExistingLinks} {dir : Path} {deleteSources : Bool}
  {fs mid after : FileSystem} {e : Entry} {xs xs' ys ys' : List Entry} {placement : Placement}
  {f : Failure} {d i : Inode} {n : Name}

/-! ## Steps -/

theorem IsDestination.extend (h : mid.Extends after) (hi : IsDestination dir xs mid d n i) :
    IsDestination dir xs after d n i := by
  obtain ⟨e, he, hnames, hfind⟩ := hi
  exact ⟨e, he, hnames.extend h, find_extend h hfind⟩

theorem IsEnclosing.extend (h : mid.Extends after) (hi : IsEnclosing dir xs mid d n i) :
    IsEnclosing dir xs after d n i := by
  obtain ⟨e, he, q, hq, hnames, hdir⟩ := hi
  exact ⟨e, he, q, hq, hnames.extend h, h.isDirectory hdir⟩

theorem IsDestination.mono (h : xs ⊆ ys) (hi : IsDestination dir xs fs d n i) :
    IsDestination dir ys fs d n i := by
  obtain ⟨e, he, hrest⟩ := hi
  exact ⟨e, h he, hrest⟩

theorem IsEnclosing.mono (h : xs ⊆ ys) (hi : IsEnclosing dir xs fs d n i) :
    IsEnclosing dir ys fs d n i := by
  obtain ⟨e, he, hrest⟩ := hi
  exact ⟨e, h he, hrest⟩

theorem Additions.refl (dir : Path) (fs : FileSystem) : Additions dir [] [] fs fs where
  grows := .refl fs
  kept := id
  named := by simp
  added := .inl

theorem Additions.trans (h : Additions dir xs ys fs mid) (h' : Additions dir xs' ys' mid after) :
    Additions dir (xs ++ xs') (ys ++ ys') fs after where
  grows := h.grows.trans h'.grows
  kept hi := h'.kept (h.kept hi)
  named e he := by
    rcases List.mem_append.1 he with he | he
    · obtain ⟨i, hsource, hdestination⟩ := h.named e he
      exact ⟨i, find_extend h'.grows.extends hsource, find_extend h'.grows.extends hdestination⟩
    · exact h'.named e he
  added hi := by
    have hextends := h'.grows.extends
    rcases h'.added hi with hmid | hplaced | ⟨htried, hnew⟩
    · rcases h.added hmid with hold | hplaced | ⟨htried, hnew⟩
      · exact .inl hold
      · exact .inr (.inl ((hplaced.extend hextends).mono (List.subset_append_left _ _)))
      · exact .inr (.inr ⟨(htried.extend hextends).mono (List.subset_append_left _ _), hnew⟩)
    · exact .inr (.inl (hplaced.mono (List.subset_append_right _ _)))
    · exact .inr (.inr ⟨htried.mono (List.subset_append_right _ _),
        Nat.le_trans h.grows.nextInode_le hnew⟩)

/-- The step of a pass: an entry that is placed adds its destination, and directories above it. -/
theorem additions_place (h : place policy dir fs e = (.ok placement, after)) :
    Additions dir [e] [e] fs after where
  grows := by simpa [h] using grows_place policy dir fs e
  kept hi := by
    have hgrows := grows_place policy dir fs e
    rw [h] at hgrows
    exact hgrows.extends.child? hi
  named e' he' := by
    obtain rfl := List.mem_singleton.1 he'
    exact find_of_place h
  added hi := by
    rcases child?_place h hi with hold | ⟨_, hnames, hfind⟩ | ⟨q, hq, hnames, hdir, hnew⟩
    · exact .inl hold
    · exact .inr (.inl ⟨e, List.mem_singleton_self e, hnames, hfind⟩)
    · exact .inr (.inr ⟨⟨e, List.mem_singleton_self e, q, hq, hnames, hdir⟩, hnew⟩)

/-- An entry that is not placed adds no more than directories above its destination. -/
theorem additions_of_refused (h : place policy dir fs e = (.error f, after)) :
    Additions dir [] [e] fs after where
  grows := by simpa [h] using grows_place policy dir fs e
  kept hi := by
    have hgrows := grows_place policy dir fs e
    rw [h] at hgrows
    exact hgrows.extends.child? hi
  named e' he' := by cases he'
  added hi := by
    rcases child?_place h hi with hold | ⟨⟨placement, hok⟩, _⟩ | ⟨q, hq, hnames, hdir, hnew⟩
    · exact .inl hold
    · cases hok
    · exact .inr (.inr ⟨⟨e, List.mem_singleton_self e, q, hq, hnames, hdir⟩, hnew⟩)

/-! ## Passes -/

theorem additions_placeAll (h : (placeAll policy dir fs xs).failure? = none) :
    Additions dir xs xs fs (placeAll policy dir fs xs).files := by
  induction xs generalizing fs with
  | nil => exact .refl dir fs
  | cons e xs ih =>
      obtain ⟨placement, after, hplace, hrest⟩ := place_of_placeAll h
      rw [placeAll_cons_of_ok hplace]
      exact (additions_place hplace).trans (ih hrest)

/-- A pass that fails does so at one entry, after all entries before it were placed. -/
theorem placeAll_of_failure (h : (placeAll policy dir fs xs).failure? = some f) :
    ∃ k, ∃ hk : k < xs.length, (placeAll policy dir fs (xs.take k)).failure? = none ∧
      place policy dir (placeAll policy dir fs (xs.take k)).files xs[k] =
        (.error f, (placeAll policy dir fs xs).files) := by
  induction xs generalizing fs with
  | nil => cases h
  | cons e xs ih =>
      rcases hplace : place policy dir fs e with ⟨f' | placement, after⟩
      · rw [placeAll_cons_of_error hplace] at h ⊢
        cases h
        exact ⟨0, Nat.zero_lt_succ _, rfl, hplace⟩
      · rw [placeAll_cons_of_ok hplace] at h ⊢
        obtain ⟨k, hk, hfirst, hlast⟩ := ih h
        refine ⟨k + 1, Nat.succ_lt_succ hk, ?_⟩
        rw [List.take_succ_cons, placeAll_cons_of_ok hplace]
        exact ⟨hfirst, hlast⟩

theorem additions_of_failure (h : (placeAll policy dir fs xs).failure? = some f) :
    ∃ k, ∃ hk : k < xs.length,
      Additions dir (xs.take k) (xs.take (k + 1)) fs (placeAll policy dir fs xs).files ∧
      ((∃ cause, f = .link (source dir xs[k]) (destination dir xs[k]) cause) ∨
        ∃ parent cause, (destination dir xs[k]).parent? = some parent ∧
          f = .createDirectory parent cause) := by
  obtain ⟨k, hk, hfirst, hlast⟩ := placeAll_of_failure h
  refine ⟨k, hk, ?_, ?_⟩
  · have hadditions := (additions_placeAll hfirst).trans (additions_of_refused hlast)
    rwa [List.append_nil, List.take_append_getElem hk] at hadditions
  · cases places_of_eq hlast with
    | noParent hparent =>
        obtain ⟨parent, cause, hdir, hf⟩ := provideParent_eq_error (congrArg Prod.fst hparent)
        exact .inr ⟨parent, cause, hdir, hf⟩
    | refused _ _ => exact .inl ⟨_, rfl⟩

/-! ## Replays -/

/-- A failure names the entry at which the replay stopped; otherwise it is the manifest that could
not be removed after all entries, or could not be read and gave none. -/
def StopsAt (dir : Path) (entries : List Entry) (k : Nat) : Failure → Prop
  | .link p q _ => ∃ e, entries[k]? = some e ∧ p = source dir e ∧ q = destination dir e
  | .createDirectory p _ => ∃ e, entries[k]? = some e ∧ (destination dir e).parent? = some p
  | .deleteManifest _ _ => k = entries.length
  | .io _ => entries = []
  | _ => False

/-- A replay that fails has only added the destinations of the first `k` entries, and directories
above the destinations of the first `k + 1`. -/
theorem additions_of_run_failed (h : (run cfg dir deleteSources fs).result = .error f) :
    ∃ k ≤ (waiting cfg dir fs).length,
      Additions dir ((waiting cfg dir fs).take k) ((waiting cfg dir fs).take (k + 1)) fs
        (run cfg dir deleteSources fs).files ∧
      StopsAt dir (waiting cfg dir fs) k f := by
  have hruns := runs_run cfg dir deleteSources fs
  rw [h] at hruns
  generalize (run cfg dir deleteSources fs).files = files at hruns ⊢
  cases hruns with
  | unreadable hread =>
      have hwaiting : waiting cfg dir fs = [] := by rw [waiting, hread]
      rw [hwaiting]
      exact ⟨0, Nat.le_refl 0, .refl dir fs, rfl⟩
  | aborted hfailure =>
      obtain ⟨k, hk, hadditions, hf⟩ := additions_of_failure hfailure
      have hget : (waiting cfg dir fs)[k]? = some (waiting cfg dir fs)[k] :=
        List.getElem?_eq_getElem hk
      refine ⟨k, Nat.le_of_lt hk, hadditions, ?_⟩
      rcases hf with ⟨cause, rfl⟩ | ⟨parent, cause, hparent, rfl⟩
      · exact ⟨_, hget, rfl, rfl⟩
      · exact ⟨_, hget, hparent⟩
  | manifestKept hfailure hremove =>
      have hadditions := additions_placeAll hfailure
      refine ⟨(waiting cfg dir fs).length, Nat.le_refl _, ?_, rfl⟩
      rwa [List.take_length, List.take_of_length_le (Nat.le_succ _)]

/-- Two links wait, of which the second has no source. -/
def missingSource : FileSystem :=
  withFiles [("a", "alpha"), ("hardLinkFile", "b\ta\nc/d\tmissing\n")]

/-- The replay fails at the second link. -/
theorem additions_of_missing_source :
    let failure : Failure :=
      .link (.ofString "missing") (.ofString "c/d") (.system .noEntry)
    let entries := waiting .default ⟨[]⟩ missingSource
    (run .default ⟨[]⟩ true missingSource).result = .error failure ∧
      ∃ k ≤ entries.length,
        Additions ⟨[]⟩ (entries.take k) (entries.take (k + 1)) missingSource
          (run .default ⟨[]⟩ true missingSource).files ∧
        StopsAt ⟨[]⟩ entries k failure := by
  intro failure entries
  have hrun : (run .default ⟨[]⟩ true missingSource).result = .error failure := by rfl
  exact ⟨hrun, additions_of_run_failed hrun⟩

end Hardlinks.Replay
