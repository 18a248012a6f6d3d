-- SUMMARY: The order of a listing: a directory has its turn before all below it, and is made in it.
import Hardlinks.Proofs.FileSystem.NewDirectories
import Hardlinks.Proofs.TreeLinks.Failure

/-!
# The order of entries

A sorted listing is in the order of the components of its paths, so the directories that lead to an
entry come before it (`ParentsFirst`). When the entry has its turn they have their places, and
nothing has to be made to hold its own place unless it comes first (`provideParent_later`). Every
new directory is therefore made by the call for its own entry and counted in that turn, but for
those that are made to hold the first one (`madeInTurn_iff_of_placeAll`): the destination, if it was
no directory before, and the directories on the way to it. If that way goes up again, these can lie
below the destination all the same, and then nothing counts them
(`not_madeInTurn_of_roundabout_destination`).
-/

namespace Hardlinks.TreeLinks

open FileSystem

/-- The listing has everything below the directory `d`, in the order of the components of the
paths. -/
structure ParentsFirst (fs : FileSystem) (d : Inode) (listed : List Listed) : Prop where
  mem_iff : ∀ {l}, l ∈ listed ↔
    ∃ ns i, fs.LiesBelow d ns i ∧ l = ⟨.ofParts ns, fs.isDirectory i⟩
  sorted : listed.Pairwise fun k l => k.path.rank < l.path.rank
  /-- No path occurs twice, however it is spelled. -/
  nodup : (listed.map fun l => l.path.components).Nodup
  /-- What an entry lies below is a directory and comes before it. -/
  front : ∀ {front l back k}, listed = front ++ l :: back → k ∈ listed →
    k.path.components <+: l.path.components → k.path.components ≠ l.path.components →
    k ∈ front ∧ k.isDirectory = true
  /-- All directories that lead to an entry come before it. -/
  exists_front : ∀ {front l back cs}, listed = front ++ l :: back →
    cs <+: l.path.components → cs ≠ l.path.components → cs ≠ [] →
    ∃ k ∈ front, k.isDirectory = true ∧ k.path.components = cs

/-- The entries in front of `l` have got their places, which has made the progress `mid`. -/
def InTurn (source destination : Path) (fs : FileSystem) (listed : List Listed) (l : Listed)
    (mid : Progress) : Prop :=
  ∃ front back, listed = front ++ l :: back ∧
    placeAll source destination ⟨⟨0, 0⟩, fs⟩ front = (.ok (), mid)

/-- In the turn of a directory, the call that is to make its second place makes the entry `n` of the
directory `a`, and one directory more is counted. -/
def MadeInTurn (source destination : Path) (fs : FileSystem) (listed : List Listed) (a : Inode)
    (n : Name) : Prop :=
  ∃ l mid made next, InTurn source destination fs listed l mid ∧ l.isDirectory = true ∧
    mid.files.provideParent (destination.join l.path) = (.ok (), made) ∧
    made.makeDirectory (destination.join l.path) = .ok next.files ∧
    made.child? a n = none ∧ (∃ i, next.files.child? a n = some i) ∧
    placeAll source destination mid [l] = (.ok (), next) ∧
    next.report.directories = mid.report.directories + 1

/-- The entry `n` of the directory `a` is there when the first place is about to be made: it was
there before, or it has been made on the way to that place. -/
def ProvidedFirst (destination : Path) (fs : FileSystem) (listed : List Listed) (a : Inode)
    (n : Name) : Prop :=
  ∃ l rest i, listed = l :: rest ∧
    (fs.provideParent (destination.join l.path)).2.child? a n = some i

/-- What a run makes of a listing in which directories come first. -/
structure DirectoriesInTurn (source destination : Path) (fs : FileSystem) (traversal : Traversal)
    (listed : List Listed) : Prop where
  /-- Nothing is made to hold an entry that does not lie directly in the source. -/
  parent : ∀ {l mid}, InTurn source destination fs listed l mid → 1 < l.path.components.length →
    ∃ q, (destination.join l.path).parent? = some q ∧ mid.files.isDirectoryAt q = true ∧
      mid.files.provideParent (destination.join l.path) = (.ok (), mid.files)
  /-- A new directory is made and counted in the turn of its entry, exactly if it is not made on the
  way to the first place. -/
  made : ∀ {a n i}, (run source destination fs traversal).files.child? a n = some i →
    fs.child? a n = none → (run source destination fs traversal).files.isDirectory i = true →
    (MadeInTurn source destination fs listed a n ↔ ¬ProvidedFirst destination fs listed a n)
  /-- What is made on the way to the first place is a destination that was no directory, or a
  directory on the way to it. -/
  provided : ∀ {a n}, ProvidedFirst destination fs listed a n → fs.child? a n = none →
    fs.isDirectoryAt destination = false ∧
      ∃ q, q.Above destination ∧ (run source destination fs traversal).files.Names q a n
  /-- At all times the directories that have had their turns are counted, also in a run that
  fails. -/
  counted : ∀ {front back mid}, listed = front ++ back →
    placeAll source destination ⟨⟨0, 0⟩, fs⟩ front = (.ok (), mid) →
    mid.report.directories = front.countP (·.isDirectory)
  /-- In the end all of them are. -/
  reported : ∀ {report}, (run source destination fs traversal).result = .ok report →
    report.directories = listed.countP (·.isDirectory)

variable {source destination : Path} {fs mid after : FileSystem} {traversal : Traversal}
  {l k : Listed} {listed front back : List Listed} {p q : Progress} {result : Except Failure Unit}
  {a d i : Inode} {n : Name} {ns : List Name}

/-! ## Listings -/

theorem components_of_lists (hfs : fs.Regular) (hi : fs.LiesBelow d ns i) :
    (Path.ofParts ns).components = ns.map .name :=
  Path.components_ofParts (hfs.isProper_of_liesBelow hi) hi.1

theorem parentsFirst_of_lists (hfs : fs.Regular) (h : fs.Lists d listed) :
    ParentsFirst fs d listed := by
  -- What is above an entry by components is so by names, and there are no two of one path.
  have hexists : ∀ {front l back cs}, listed = front ++ l :: back → cs <+: l.path.components →
      cs ≠ l.path.components → cs ≠ [] →
      ∃ k ∈ front, k.isDirectory = true ∧ k.path.components = cs := by
    rintro front l back cs rfl hpre hne hnil
    obtain ⟨ns, i, hi, rfl⟩ := h.mem_iff.1 (List.mem_append_right front List.mem_cons_self)
    rw [components_of_lists hfs hi] at hpre hne
    obtain ⟨ms, hms, rfl⟩ := List.prefix_map_iff.1 hpre
    have hmem := h.mem_of_prefix hfs hi rfl hms (fun heq => hne (heq ▸ rfl)) (by simpa using hnil)
    have hproper : ∀ m ∈ ms, Path.IsProper m := fun m hm =>
      hfs.isProper_of_liesBelow hi m (hms.subset hm)
    exact ⟨_, hmem, rfl, Path.components_ofParts hproper (by simpa using hnil)⟩
  refine ⟨h.mem_iff, h.sorted, ?nodup, ?front, hexists⟩
  case nodup =>
    exact List.pairwise_map.2 (h.rank_ne.imp fun hne heq => hne (Path.rank_eq_iff.2 heq))
  case front =>
    intro front l back k hlisted hk hpre hne
    have hnil : k.path.components ≠ [] := by
      obtain ⟨ns, i, hi, rfl⟩ := h.mem_iff.1 hk
      simpa [components_of_lists hfs hi] using hi.1
    obtain ⟨k', hk', hdir, heq⟩ := hexists hlisted hpre hne hnil
    have hmem : k' ∈ listed := hlisted ▸ List.mem_append_left _ hk'
    by_cases hsame : k' = k
    · exact hsame ▸ ⟨hk', hdir⟩
    · have : Std.Symm fun k l : Listed => k.path.rank ≠ l.path.rank := ⟨fun _ _ => Ne.symm⟩
      exact absurd (Path.rank_eq_iff.2 heq) (h.rank_ne.forall hmem hk hsame)

/-! ## What the turns keep -/

theorem grows_placeAll (h : placeAll source destination p listed = (result, q)) :
    p.files.Grows q.files := by
  induction listed generalizing p with
  | nil =>
      cases h
      exact .refl _
  | cons l rest ih =>
      rw [placeAll] at h
      split at h
      · next hplace =>
        cases h
        exact grows_place hplace
      · next hplace => exact (grows_place hplace).trans (ih h)

theorem placed_of_placeAll (h : placeAll source destination p listed = (.ok (), q)) :
    ∀ l ∈ listed, Placed source destination q.files l := by
  induction listed generalizing p with
  | nil => simp
  | cons l rest ih =>
      rw [placeAll] at h
      split at h
      · cases h
      · next mid hplace =>
        have hfirst := (placed_of_place hplace).extend (grows_placeAll h).extends
        exact List.forall_mem_cons.2 ⟨hfirst, ih h⟩

theorem wellFormed_place (hfs : fs.WellFormed)
    (h : place source destination fs l = (result, after)) : after.WellFormed := by
  cases places_of_eq h with
  | made _ hparent hmade => exact (hfs.provideParent hparent).call (.makeDirectory hmade)
  | there _ hparent => exact hfs.provideParent hparent
  | linked _ hparent hlink => exact (hfs.provideParent hparent).call (.linkFile hlink)
  | noParent hparent => exact hfs.provideParent hparent
  | notMade _ hparent => exact hfs.provideParent hparent
  | notLinked _ hparent => exact hfs.provideParent hparent

theorem wellFormed_placeAll (hfs : p.files.WellFormed)
    (h : placeAll source destination p listed = (result, q)) : q.files.WellFormed := by
  induction listed generalizing p with
  | nil =>
      cases h
      exact hfs
  | cons l rest ih =>
      rw [placeAll] at h
      split at h
      · next hplace =>
        cases h
        exact wellFormed_place hfs hplace
      · next hplace => exact ih (wellFormed_place hfs hplace) h

/-! ## One turn -/

/-- In its turn an entry finds the directories that lead to it in their places. -/
theorem exists_ready (hfs : fs.Regular) (h : fs.Lists d (front ++ l :: back))
    (hfront : placeAll source destination p front = (.ok (), q)) :
    ∃ ns, Ready destination q.files l ns :=
  ready_of_placed hfs h (placed_of_placeAll hfront)

/-- An entry that does not lie directly in the source finds the directory that is to hold it. -/
theorem Ready.exists_parent? (hready : Ready destination mid l ns)
    (hdeep : 1 < l.path.components.length) :
    ∃ q, (destination.join l.path).parent? = some q ∧ mid.isDirectoryAt q = true ∧
      mid.provideParent (destination.join l.path) = (.ok (), mid) := by
  obtain ⟨ms, n, rfl⟩ := (List.eq_nil_or_concat' ns).resolve_left hready.ne_nil
  have hms : ms ≠ [] := by
    rintro rfl
    rw [hready.path, Path.components_ofParts hready.isProper hready.ne_nil] at hdeep
    simp at hdeep
  obtain ⟨hparent, hsame⟩ := hready.provideParent_eq hms
  exact ⟨_, hparent, hready.parent rfl hms, hsame⟩

theorem provideParent_of_place (h : place source destination mid l = (.ok (), after)) :
    ∃ made, mid.provideParent (destination.join l.path) = (.ok (), made) ∧ made.Grows after := by
  cases places_of_eq h with
  | made _ hparent hmade => exact ⟨_, hparent, grows_of_makeDirectory hmade⟩
  | there _ hparent => exact ⟨_, hparent, .refl _⟩
  | linked _ hparent hlink => exact ⟨_, hparent, grows_of_linkFile hlink⟩

/-- What comes first lies directly in the source. -/
theorem exists_name_of_first (hfs : fs.Regular) (h : fs.Lists d (l :: listed)) :
    ∃ n, Path.IsProper n ∧ l.path = .ofParts [n] := by
  obtain ⟨ns, i, hi, rfl⟩ := h.mem_iff.1 List.mem_cons_self
  obtain ⟨ms, n, rfl⟩ := (List.eq_nil_or_concat' ns).resolve_left hi.1
  cases ms with
  | nil => exact ⟨n, hfs.isProper_of_liesBelow hi n (by simp), rfl⟩
  | cons m ms =>
      have hlists : fs.Lists d ([] ++ _ :: listed) := h
      have hmem := hlists.mem_of_prefix hfs hi rfl (List.prefix_append (m :: ms) [n]) (by simp)
        (List.cons_ne_nil m ms)
      cases hmem

/-- For later entries nothing has to be made besides. -/
theorem provideParent_later {first : Listed} (hfs : fs.Regular)
    (h : fs.Lists d (first :: front ++ l :: back))
    (hfront : placeAll source destination p (first :: front) = (.ok (), q)) :
    q.files.provideParent (destination.join l.path) = (.ok (), q.files) := by
  obtain ⟨ns, hready⟩ := exists_ready hfs h hfront
  obtain ⟨ms, n, rfl⟩ := (List.eq_nil_or_concat' ns).resolve_left hready.ne_nil
  by_cases hms : ms = []
  · -- It lies in the directory that the first entry lies in.
    subst hms
    obtain ⟨m, hm, hfirst⟩ := exists_name_of_first hfs h
    have hparent : (destination.join l.path).parent? = (destination.join first.path).parent? := by
      rw [hready.path, hfirst]
      exact Path.parent?_join_name (hready.isProper n (by simp)) hm
    rw [placeAll] at hfront
    split at hfront
    · cases hfront
    · next next hplace =>
      obtain ⟨made, hmade, hgrows⟩ := provideParent_of_place hplace
      have hagain := provideParent_again hmade
        (hgrows.trans (grows_placeAll hfront)).extends.keepsWalks
      simp only [FileSystem.provideParent, hparent] at hagain ⊢
      exact hagain
  · exact (hready.provideParent_eq hms).2

/-- A directory that is new after a turn is the second place of a directory, or it was made on the
way to the place of the entry. -/
theorem made_of_place (hmid : mid.WellFormed)
    (h : place source destination mid l = (result, after)) (hi : after.child? a n = some i)
    (hdir : after.isDirectory i = true) :
    (l.isDirectory = true ∧ ∃ made, mid.provideParent (destination.join l.path) = (.ok (), made) ∧
        made.makeDirectory (destination.join l.path) = .ok after ∧ made.child? a n = none) ∨
      ∃ j, (mid.provideParent (destination.join l.path)).2.child? a n = some j := by
  cases places_of_eq h with
  | @made made _ hkind hparent hmade =>
      cases hold : made.child? a n with
      | none => exact .inl ⟨hkind, made, hparent, hmade, hold⟩
      | some j => exact .inr ⟨j, by rw [hparent, hold]⟩
  | @linked made _ _ hparent hlink =>
      have hgrows := grows_of_linkFile hlink
      rcases child?_linkFile hlink hi with hold | ⟨_, hfound⟩
      · exact .inr ⟨i, by rw [hparent, hold]⟩
      · -- A link is no directory.
        obtain ⟨j, _, _, hj, _, _, _, _, _, hfile, _⟩ := linkFile_eq_ok_iff.1 hlink
        obtain rfl := Except.ok.inj ((find_extend hgrows.extends hj).symm.trans hfound)
        rw [hgrows.isDirectory_eq ((hmid.provideParent hparent).find hj), hfile] at hdir
        cases hdir
  | there _ hparent => exact .inr ⟨i, by rw [hparent, hi]⟩
  | noParent hparent => exact .inr ⟨i, by rw [hparent, hi]⟩
  | notMade _ hparent => exact .inr ⟨i, by rw [hparent, hi]⟩
  | notLinked _ hparent => exact .inr ⟨i, by rw [hparent, hi]⟩

/-! ## All turns -/

/-- What is new after all turns is new after one of them. -/
theorem exists_turn (h : placeAll source destination p listed = (result, q))
    (hnew : p.files.child? a n = none) (hi : q.files.child? a n = some i) :
    ∃ front l back mid r next, listed = front ++ l :: back ∧
      placeAll source destination p front = (.ok (), mid) ∧
      place source destination mid.files l = (r, next) ∧ mid.files.child? a n = none ∧
      next.child? a n = some i ∧ next.Grows q.files := by
  induction listed generalizing p with
  | nil =>
      cases h
      simp [hnew] at hi
  | cons l rest ih =>
      rw [placeAll] at h
      split at h
      · next next hplace =>
        cases h
        exact ⟨[], l, rest, p, _, next, rfl, rfl, hplace, hnew, hi, .refl _⟩
      · next next hplace =>
        have hgrows := grows_placeAll h
        cases hold : next.child? a n with
        | some j =>
            obtain rfl := Option.some.inj ((hgrows.extends.child? hold).symm.trans hi)
            exact ⟨[], l, rest, p, _, next, rfl, rfl, hplace, hnew, hold, hgrows⟩
        | none =>
            obtain ⟨front, k, back, mid, r, last, rfl, hfront, hturn⟩ := ih h hold
            refine ⟨l :: front, k, back, mid, r, last, rfl, ?_, hturn⟩
            rw [placeAll, hplace]
            exact hfront

/-- What is made on the way to the first place is there in all later turns. -/
theorem ProvidedFirst.child? (h : ProvidedFirst destination fs listed a n)
    (hturn : InTurn source destination fs listed l p) {made : FileSystem}
    (hmade : p.files.provideParent (destination.join l.path) = (.ok (), made)) :
    ∃ i, made.child? a n = some i := by
  obtain ⟨first, rest, i, rfl, hi⟩ := h
  obtain ⟨front, back, hlisted, hfront⟩ := hturn
  cases front with
  | nil =>
      obtain ⟨rfl, rfl⟩ := List.cons.inj hlisted
      cases hfront
      rw [hmade] at hi
      exact ⟨i, hi⟩
  | cons k front =>
      obtain ⟨rfl, rfl⟩ := List.cons.inj hlisted
      rw [placeAll] at hfront
      split at hfront
      · cases hfront
      · next next hplace =>
        obtain ⟨provided, hprovided, hgrows⟩ := provideParent_of_place hplace
        rw [hprovided] at hi
        have hall := (hgrows.trans (grows_placeAll hfront)).trans (grows_of_provideParent hmade)
        exact ⟨i, hall.extends.child? hi⟩

/-- New directories are made in their own turns, but for those that are made to hold the first
entry. -/
theorem madeInTurn_iff_of_placeAll (hfs : fs.Regular) (hlists : fs.Lists d listed)
    (h : placeAll source destination ⟨⟨0, 0⟩, fs⟩ listed = (result, q))
    (hi : q.files.child? a n = some i) (hnew : fs.child? a n = none)
    (hdir : q.files.isDirectory i = true) :
    MadeInTurn source destination fs listed a n ↔ ¬ProvidedFirst destination fs listed a n := by
  constructor
  · rintro ⟨l, mid, made, next, hturn, _, hparent, _, hvacant, _⟩ hfirst
    obtain ⟨j, hj⟩ := hfirst.child? hturn hparent
    simp [hvacant] at hj
  · intro hlater
    obtain ⟨front, l, back, mid, r, next, rfl, hfront, hplace, hfree, hnext, hgrows⟩ :=
      exists_turn h hnew hi
    have hmid : mid.files.WellFormed := wellFormed_placeAll hfs.wellFormed hfront
    have hkind : next.isDirectory i = true := by
      rwa [hgrows.isDirectory_eq ((wellFormed_place hmid hplace).child? hnext)] at hdir
    rcases made_of_place hmid hplace hnext hkind with
      ⟨hlisted, made, hparent, hmade, hvacant⟩ | ⟨j, hj⟩
    · have hturn : InTurn source destination fs (front ++ l :: back) l mid :=
        ⟨front, back, rfl, hfront⟩
      have hcount : mid.report.count l =
          { mid.report with directories := mid.report.directories + 1 } := by
        simp [TreeReport.count, hlisted]
      refine ⟨l, mid, made, ⟨mid.report.count l, next⟩, hturn, hlisted, hparent, hmade, hvacant,
        ⟨i, hnext⟩, ?_, by rw [hcount]⟩
      have hdone : place source destination mid.files l = (.ok (), next) := by
        rw [place, hparent]
        simp [hlisted, hmade]
      simp [placeAll, hdone]
    · exfalso
      cases front with
      | nil =>
          cases hfront
          exact hlater ⟨l, back, j, rfl, hj⟩
      | cons first front =>
          rw [provideParent_later hfs hlists hfront, hfree] at hj
          cases hj

/-- What is made on the way to the first place leads to a destination that was no directory. -/
theorem provided_of_placeAll (hfs : fs.Regular) (hlists : fs.Lists d listed)
    (h : placeAll source destination ⟨⟨0, 0⟩, fs⟩ listed = (result, q))
    (hfirst : ProvidedFirst destination fs listed a n) (hnew : fs.child? a n = none) :
    fs.isDirectoryAt destination = false ∧ ∃ r, r.Above destination ∧ q.files.Names r a n := by
  obtain ⟨l, rest, i, rfl, hi⟩ := hfirst
  have hlists' : fs.Lists d ([] ++ l :: rest) := hlists
  have hnone : placeAll source destination ⟨⟨0, 0⟩, fs⟩ [] = (.ok (), ⟨⟨0, 0⟩, fs⟩) := rfl
  obtain ⟨ns, hready⟩ := exists_ready hfs hlists' hnone
  have hgrows : (fs.provideParent (destination.join l.path)).2.Grows q.files := by
    rw [placeAll] at h
    split at h
    · next hplace =>
      cases h
      exact grows_of_place hplace
    · next hplace => exact (grows_of_place hplace).trans (grows_placeAll h)
  rcases hready.child?_provideParent rfl hi with hold | ⟨r, hr, hnames, _⟩
  · simp [hnew] at hold
  · have hnames := hnames.extend hgrows.extends
    refine ⟨Bool.eq_false_iff.2 fun hthere => ?_, r, hr, hnames⟩
    -- Then what is on the way to it would not be new.
    obtain ⟨j, hj, _⟩ := isDirectoryAt_iff.1 hthere
    obtain ⟨k, hk⟩ := exists_child?_of_above (grows_placeAll h).extends hj hr hnames
    simp [hnew] at hk

/-! ## Runs -/

theorem directoriesInTurn_of_lists (hfs : fs.Regular)
    (hsource : fs.isDirectoryAt source = true)
    (hlist : Listed.all source (traversal fs source) = .ok listed)
    (hlists : fs.Lists d (Listed.sort listed)) (destination : Path) :
    DirectoriesInTurn source destination fs traversal (Listed.sort listed) := by
  obtain ⟨result, q, hplace⟩ : ∃ result q, placeAll source destination ⟨⟨0, 0⟩, fs⟩
      (Listed.sort listed) = (result, q) := ⟨_, _, rfl⟩
  have hfiles : (run source destination fs traversal).files = q.files := by
    cases result <;> simp [run, hsource, hlist, hplace]
  have hcounted : ∀ {front mid}, placeAll source destination ⟨⟨0, 0⟩, fs⟩ front = (.ok (), mid) →
      mid.report.directories = front.countP (·.isDirectory) := by
    intro front mid hfront
    simpa using (counts_placeAll hfront).1
  refine ⟨?parent, ?made, ?provided, fun _ => hcounted, ?reported⟩
  case parent =>
    rintro l mid ⟨front, back, hsplit, hfront⟩ hdeep
    obtain ⟨ns, hready⟩ := exists_ready hfs (hsplit ▸ hlists) hfront
    exact hready.exists_parent? hdeep
  case made =>
    intro a n i hi hnew hdir
    rw [hfiles] at hi hdir
    exact madeInTurn_iff_of_placeAll hfs hlists hplace hi hnew hdir
  case provided =>
    intro a n hfirst hnew
    rw [hfiles]
    exact provided_of_placeAll hfs hlists hplace hfirst hnew
  case reported =>
    intro report hreport
    cases result with
    | error f => simp [run, hsource, hlist, hplace] at hreport
    | ok =>
        have hsame : q.report = report := by simpa [run, hsource, hlist, hplace] using hreport
        rw [← hsame]
        exact hcounted hplace

/-- In a sorted listing every directory comes before all that lies below it, and a run makes and
counts the directories in that order, each in its own turn, but for those that it has to make before
it comes to the first place. -/
theorem parentsFirst_of_traversal (htraversal : traversal.Complete) (hfs : fs.Regular)
    (hsource : fs.isDirectoryAt source = true)
    (hlist : Listed.all source (traversal fs source) = .ok listed) :
    ∃ d, fs.find .follow source = .ok d ∧ ParentsFirst fs d (Listed.sort listed) ∧
      ∀ destination, DirectoriesInTurn source destination fs traversal (Listed.sort listed) := by
  obtain ⟨d, hd, hdir⟩ := isDirectoryAt_iff.1 hsource
  have hlists := lists_of_all htraversal hfs hd hdir hlist
  exact ⟨d, hd, parentsFirst_of_lists hfs hlists,
    directoriesInTurn_of_lists hfs hsource hlist hlists⟩

/-- A directory with a directory in it that came first, and then one with another one below it. -/
def nestedDirectories : FileSystem :=
  let make := fun (fs : FileSystem) p => (fs.makeDirectory (.ofString p)).toOption.getD fs
  ["s", "s/x.b", "s/x", "s/x/y"].foldl make empty

theorem regular_nestedDirectories : nestedDirectories.Regular :=
  (((regular_empty.call (.makeDirectory (p := .ofString "s") (by rfl))).call
    (.makeDirectory (p := .ofString "s/x.b") (by rfl))).call
    (.makeDirectory (p := .ofString "s/x") (by rfl))).call
    (.makeDirectory (p := .ofString "s/x/y") (by rfl))

/-- What lies below a directory comes before what lies beside it, although its path has the greater
bytes and it was made later. -/
theorem parentsFirst_of_nestedDirectories :
    let source := Path.ofString "s"
    let listed : List Listed :=
      [⟨.ofString "x.b", true⟩, ⟨.ofString "x", true⟩, ⟨.ofString "x/y", true⟩]
    FileSystem.traverse.Complete ∧ nestedDirectories.Regular ∧
      nestedDirectories.isDirectoryAt source = true ∧
      Listed.all source (nestedDirectories.traverse source) = .ok listed ∧
      Listed.sort listed =
        [⟨.ofString "x", true⟩, ⟨.ofString "x/y", true⟩, ⟨.ofString "x.b", true⟩] ∧
      ∃ d, nestedDirectories.find .follow source = .ok d ∧
        ParentsFirst nestedDirectories d (Listed.sort listed) ∧
        DirectoriesInTurn source (.ofString "t") nestedDirectories FileSystem.traverse
          (Listed.sort listed) := by
  intro source listed
  have hsource : nestedDirectories.isDirectoryAt source = true := by rfl
  have hlist : Listed.all source (nestedDirectories.traverse source) = .ok listed := by
    decide +kernel
  obtain ⟨d, hd, hfirst, hturns⟩ :=
    parentsFirst_of_traversal complete_traverse regular_nestedDirectories hsource hlist
  exact ⟨complete_traverse, regular_nestedDirectories, hsource, hlist, by decide +kernel, d, hd,
    hfirst, hturns _⟩

/-- A directory with one directory in it. -/
def singleDirectory : FileSystem :=
  let fs := (empty.makeDirectory (.ofString "s")).toOption.getD empty
  (fs.makeDirectory (.ofString "s/x")).toOption.getD fs

theorem regular_singleDirectory : singleDirectory.Regular :=
  (regular_empty.call (.makeDirectory (p := .ofString "s") (by rfl))).call
    (.makeDirectory (p := .ofString "s/x") (by rfl))

/-- The way to the destination goes into two directories and out again. So both are made on it and
lie below the destination, where the only entry has its place in the first one, and nothing counts
the second one. -/
theorem not_madeInTurn_of_roundabout_destination :
    let source := Path.ofString "s"
    let destination := Path.ofString "d/x/../z/.."
    let listed : List Listed := [⟨.ofString "x", true⟩]
    let after := (run source destination singleDirectory).files
    singleDirectory.Regular ∧
      Listed.all source (singleDirectory.traverse source) = .ok listed ∧
      (run source destination singleDirectory).result = .ok ⟨1, 0⟩ ∧
      ∃ d, after.find .follow destination = .ok d ∧
        ∀ n ∈ [Utf8.encode "x", Utf8.encode "z"], singleDirectory.child? d n = none ∧
          (∃ i, after.child? d n = some i ∧ after.isDirectory i = true) ∧
          ProvidedFirst destination singleDirectory (Listed.sort listed) d n ∧
          ¬MadeInTurn source destination singleDirectory (Listed.sort listed) d n := by
  intro source destination listed after
  have hx : (singleDirectory.provideParent (destination.join (.ofString "x"))).2.child? 6
      (Utf8.encode "x") = some 7 := by decide +kernel
  have hz : (singleDirectory.provideParent (destination.join (.ofString "x"))).2.child? 6
      (Utf8.encode "z") = some 8 := by decide +kernel
  have hprovided : ∀ {n i},
      (singleDirectory.provideParent (destination.join (.ofString "x"))).2.child? 6 n = some i →
      ProvidedFirst destination singleDirectory (Listed.sort listed) 6 n ∧
        ¬MadeInTurn source destination singleDirectory (Listed.sort listed) 6 n := by
    intro n i hi
    have hfirst : ProvidedFirst destination singleDirectory (Listed.sort listed) 6 n :=
      ⟨⟨.ofString "x", true⟩, [], i, rfl, hi⟩
    refine ⟨hfirst, ?_⟩
    rintro ⟨l, mid, made, _, hturn, _, hparent, _, hvacant, _⟩
    obtain ⟨j, hj⟩ := hfirst.child? hturn hparent
    simp [hvacant] at hj
  refine ⟨regular_singleDirectory, by decide +kernel, by decide +kernel, 6, by decide +kernel, ?_⟩
  intro n hn
  simp only [List.mem_cons, List.not_mem_nil, or_false] at hn
  obtain rfl | rfl := hn
  · exact ⟨by rfl, ⟨7, by decide +kernel, by decide +kernel⟩, hprovided hx⟩
  · exact ⟨by rfl, ⟨8, by decide +kernel, by decide +kernel⟩, hprovided hz⟩

end Hardlinks.TreeLinks
