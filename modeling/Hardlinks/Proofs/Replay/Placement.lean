-- SUMMARY: One entry's link and the links of a pass: what they add, and that they are made once.
import Hardlinks.Proofs.FileSystem.Directories
import Hardlinks.Replay

/-!
# Placement

Placing an entry only adds to the file system: the directories above the destination, and the
destination itself (`child?_place`). When it works, source and destination name one node
(`find_of_place`), and this stays so when more is added. So an entry that was placed is present
wherever the pass went on from there (`place_again`), and a pass over entries that were all placed
changes nothing (`placeAll_again`).
-/

namespace Hardlinks.Replay

open FileSystem

/-! ## One entry -/

/-- All that placing an entry can do. -/
inductive Places (policy : ExistingLinks) (dir : Path) (fs : FileSystem) (e : Entry) :
    Except Failure Placement × FileSystem → Prop
  | linked {made linked} : fs.provideParent (destination dir e) = (.ok (), made) →
      made.linkFile (source dir e) (destination dir e) = .ok linked →
      Places policy dir fs e (.ok .linked, linked)
  | present {made cause} : fs.provideParent (destination dir e) = (.ok (), made) →
      made.linkFile (source dir e) (destination dir e) = .error cause →
      cause.kind = .alreadyExists → accepts policy made (source dir e) (destination dir e) = true →
      Places policy dir fs e (.ok .present, made)
  | noParent {f made} : fs.provideParent (destination dir e) = (.error f, made) →
      Places policy dir fs e (.error f, made)
  | refused {made cause} : fs.provideParent (destination dir e) = (.ok (), made) →
      made.linkFile (source dir e) (destination dir e) = .error cause →
      Places policy dir fs e (.error (.link (source dir e) (destination dir e) cause), made)

variable {policy : ExistingLinks} {dir : Path} {fs made after mid : FileSystem} {e : Entry}
  {placement : Placement} {f : Failure} {xs ys : List Entry} {d i : Inode} {n : Name}

theorem places_place (policy : ExistingLinks) (dir : Path) (fs : FileSystem) (e : Entry) :
    Places policy dir fs e (place policy dir fs e) := by
  unfold place
  split
  · next f made hparent => exact .noParent hparent
  · next made hparent =>
    split
    · next linked hlink => exact .linked hparent hlink
    · next cause hlink =>
      split
      · next haccepts => exact .present hparent hlink haccepts.1 haccepts.2
      · exact .refused hparent hlink

theorem places_of_eq {outcome : Except Failure Placement × FileSystem}
    (h : place policy dir fs e = outcome) : Places policy dir fs e outcome :=
  h ▸ places_place policy dir fs e

theorem grows_place (policy : ExistingLinks) (dir : Path) (fs : FileSystem) (e : Entry) :
    fs.Grows (place policy dir fs e).2 := by
  generalize houtcome : place policy dir fs e = outcome
  cases places_of_eq houtcome with
  | linked hparent hlink => exact (grows_of_provideParent hparent).trans (grows_of_linkFile hlink)
  | present hparent => exact grows_of_provideParent hparent
  | noParent hparent => exact grows_of_provideParent hparent
  | refused hparent => exact grows_of_provideParent hparent

theorem accepts_iff {p q : Path} :
    accepts policy fs p q = true ↔
      policy = .acceptSame ∧ ∃ i, fs.find .keep p = .ok i ∧ fs.find .keep q = .ok i := by
  cases policy with
  | refuse => simp [accepts]
  | acceptSame =>
      simp only [accepts, sameEntry, true_and]
      cases hp : fs.find .keep p with
      | error e => simp [bind, Except.bind]
      | ok i =>
          cases hq : fs.find .keep q with
          | error e => simp [bind, Except.bind]
          | ok j =>
              constructor
              · intro h
                have hsame : fs.nodeId i = fs.nodeId j := by simpa [bind, Except.bind] using h
                obtain rfl : i = j := congrArg NodeId.number hsame
                exact ⟨i, rfl, rfl⟩
              · rintro ⟨k, hi, hj⟩
                cases hi
                cases hj
                simp [bind, Except.bind]

/-- When it works, source and destination name one node. -/
theorem find_of_place (h : place policy dir fs e = (.ok placement, after)) :
    ∃ i, after.find .keep (source dir e) = .ok i ∧
      after.find .keep (destination dir e) = .ok i := by
  cases places_of_eq h with
  | linked hparent hlink => exact find_of_linkFile hlink
  | present _ _ _ haccepts => exact (accepts_iff.1 haccepts).2

/-- An entry with a destination that names its source is present. -/
theorem place_of_find (hparent : fs.provideParent (destination dir e) = (.ok (), fs))
    (hsource : fs.find .keep (source dir e) = .ok i)
    (hdestination : fs.find .keep (destination dir e) = .ok i) :
    place .acceptSame dir fs e = (.ok .present, fs) := by
  have haccepts : accepts .acceptSame fs (source dir e) (destination dir e) = true :=
    accepts_iff.2 ⟨rfl, i, hsource, hdestination⟩
  simp [place, hparent, linkFile_of_find hsource hdestination, haccepts, IoError.kind, Errno.kind]

/-- An entry that was placed is present from there on. -/
theorem place_again (h : place policy dir fs e = (.ok placement, after))
    (hmid : after.KeepsWalks mid) : place .acceptSame dir mid e = (.ok .present, mid) := by
  obtain ⟨i, hsource, hdestination⟩ := find_of_place h
  have hparent : mid.provideParent (destination dir e) = (.ok (), mid) := by
    cases places_of_eq h with
    | linked hparent hlink =>
        exact provideParent_again hparent ((grows_of_linkFile hlink).extends.keepsWalks.trans hmid)
    | present hparent => exact provideParent_again hparent hmid
  exact place_of_find hparent (hmid.find hsource) (hmid.find hdestination)

/-- What placing an entry adds: the destination, if it works, and directories above it. -/
theorem child?_place {result : Except Failure Placement}
    (h : place policy dir fs e = (result, after)) (hi : after.child? d n = some i) :
    fs.child? d n = some i ∨
      (∃ placement, result = .ok placement) ∧ after.Names (destination dir e) d n ∧
        after.find .keep (source dir e) = .ok i ∨
      ∃ q ∈ (destination dir e).enclosing, after.Names q d n ∧ after.isDirectory i = true ∧
        fs.nextInode ≤ i := by
  cases places_of_eq h with
  | linked hparent hlink =>
      have hextends := (grows_of_linkFile hlink).extends
      rcases child?_linkFile hlink hi with hmade | hnew
      · rcases child?_provideParent hparent hmade with hold | ⟨q, hq, hnames, hdir, hnew⟩
        · exact .inl hold
        · exact .inr (.inr ⟨q, hq, hnames.extend hextends, hextends.isDirectory hdir, hnew⟩)
      · exact .inr (.inl ⟨⟨_, rfl⟩, hnew⟩)
  | present hparent => exact (child?_provideParent hparent hi).imp_right .inr
  | noParent hparent => exact (child?_provideParent hparent hi).imp_right .inr
  | refused hparent => exact (child?_provideParent hparent hi).imp_right .inr

/-- Begun again while the parent directory is made, placing an entry ends the same. -/
theorem place_of_midParent (h : place policy dir fs e = (.ok placement, after))
    (hmid : fs.MidParent (destination dir e) mid) :
    place policy dir mid e = (.ok placement, after) := by
  obtain ⟨made, hparent⟩ : ∃ made, fs.provideParent (destination dir e) = (.ok (), made) := by
    cases places_of_eq h with
    | linked hparent => exact ⟨_, hparent⟩
    | present hparent => exact ⟨_, hparent⟩
  rw [place, hparent] at h
  rw [place, hmid.resume hparent]
  exact h

/-! ## All entries -/

theorem placeAll_cons_of_ok (h : place policy dir fs e = (.ok placement, after)) :
    placeAll policy dir fs (e :: xs) =
      { placeAll policy dir after xs with
        placed := (e, placement) :: (placeAll policy dir after xs).placed } := by
  rw [placeAll, h]

theorem placeAll_cons_of_error (h : place policy dir fs e = (.error f, after)) :
    placeAll policy dir fs (e :: xs) = ⟨[], some f, after⟩ := by
  rw [placeAll, h]

/-- If all entries are placed, the first of them is, and then the others. -/
theorem place_of_placeAll (h : (placeAll policy dir fs (e :: xs)).failure? = none) :
    ∃ placement after, place policy dir fs e = (.ok placement, after) ∧
      (placeAll policy dir after xs).failure? = none := by
  rcases hplace : place policy dir fs e with ⟨f | placement, after⟩
  · simp [placeAll_cons_of_error hplace] at h
  · rw [placeAll_cons_of_ok hplace] at h
    exact ⟨placement, after, rfl, h⟩

theorem grows_placeAll (policy : ExistingLinks) (dir : Path) (fs : FileSystem) (xs : List Entry) :
    fs.Grows (placeAll policy dir fs xs).files := by
  induction xs generalizing fs with
  | nil => exact .refl fs
  | cons e xs ih =>
      have hplaced := grows_place policy dir fs e
      rcases hplace : place policy dir fs e with ⟨f | placement, after⟩
      · rw [placeAll_cons_of_error hplace]
        simpa [hplace] using hplaced
      · rw [placeAll_cons_of_ok hplace]
        rw [hplace] at hplaced
        exact hplaced.trans (ih after)

/-- A pass over two lists is a pass over the first and then over the second. -/
theorem placeAll_append (h : (placeAll policy dir fs xs).failure? = none) (ys : List Entry) :
    placeAll policy dir fs (xs ++ ys) =
      { placeAll policy dir (placeAll policy dir fs xs).files ys with
        placed := (placeAll policy dir fs xs).placed ++
          (placeAll policy dir (placeAll policy dir fs xs).files ys).placed } := by
  induction xs generalizing fs with
  | nil => rfl
  | cons e xs ih =>
      obtain ⟨placement, after, hplace, hrest⟩ := place_of_placeAll h
      rw [List.cons_append, placeAll_cons_of_ok hplace, placeAll_cons_of_ok hplace, ih hrest]
      rfl

theorem placeAll_of_append (h : (placeAll policy dir fs (xs ++ ys)).failure? = none) :
    (placeAll policy dir fs xs).failure? = none ∧
      (placeAll policy dir (placeAll policy dir fs xs).files ys).failure? = none := by
  suffices hxs : (placeAll policy dir fs xs).failure? = none by
    rw [placeAll_append hxs ys] at h
    exact ⟨hxs, h⟩
  induction xs generalizing fs with
  | nil => rfl
  | cons e xs ih =>
      obtain ⟨placement, after, hplace, hrest⟩ := place_of_placeAll h
      rw [placeAll_cons_of_ok hplace]
      exact ih hrest

/-- In a pass that works, every entry is placed. -/
theorem placed_of_placeAll (h : (placeAll policy dir fs xs).failure? = none) :
    (placeAll policy dir fs xs).placed.map Prod.fst = xs := by
  induction xs generalizing fs with
  | nil => rfl
  | cons e xs ih =>
      obtain ⟨placement, after, hplace, hrest⟩ := place_of_placeAll h
      rw [placeAll_cons_of_ok hplace, List.map_cons, ih hrest]

/-- Every placed entry is either linked or present. -/
theorem count_linked_add_present (pass : Pass) :
    pass.count .linked + pass.count .present = pass.placed.length := by
  unfold Pass.count
  induction pass.placed with
  | nil => rfl
  | cons p placed ih =>
      obtain ⟨e, placement⟩ := p
      cases placement <;> simp <;> omega

theorem count_of_placeAll (h : (placeAll policy dir fs xs).failure? = none) :
    (placeAll policy dir fs xs).count .linked + (placeAll policy dir fs xs).count .present =
      xs.length := by
  rw [count_linked_add_present, ← List.length_map Prod.fst, placed_of_placeAll h]

/-- In a pass that works, source and destination of every entry name one node in the end. -/
theorem find_of_placeAll (h : (placeAll policy dir fs xs).failure? = none) (he : e ∈ xs) :
    ∃ i, (placeAll policy dir fs xs).files.find .keep (source dir e) = .ok i ∧
      (placeAll policy dir fs xs).files.find .keep (destination dir e) = .ok i := by
  induction xs generalizing fs with
  | nil => cases he
  | cons e' xs ih =>
      obtain ⟨placement, after, hplace, hrest⟩ := place_of_placeAll h
      rw [placeAll_cons_of_ok hplace]
      rcases List.mem_cons.1 he with rfl | he
      · obtain ⟨i, hsource, hdestination⟩ := find_of_place hplace
        have hextends := (grows_placeAll policy dir after xs).extends
        exact ⟨i, find_extend hextends hsource, find_extend hextends hdestination⟩
      · exact ih hrest he

/-- A pass over entries that were all placed finds them present. -/
theorem placeAll_again (h : (placeAll policy dir fs xs).failure? = none)
    (hmid : (placeAll policy dir fs xs).files.KeepsWalks mid) :
    placeAll .acceptSame dir mid xs = ⟨xs.map fun e => (e, .present), none, mid⟩ := by
  induction xs generalizing fs with
  | nil => rfl
  | cons e xs ih =>
      obtain ⟨placement, after, hplace, hrest⟩ := place_of_placeAll h
      rw [placeAll_cons_of_ok hplace] at hmid
      have hafter := (grows_placeAll policy dir after xs).extends.keepsWalks.trans hmid
      rw [placeAll_cons_of_ok (place_again hplace hafter), ih hrest hmid]
      rfl

end Hardlinks.Replay
