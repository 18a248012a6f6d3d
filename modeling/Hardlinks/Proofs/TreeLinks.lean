-- SUMMARY: What linking a tree adds: second places for all below its source, and nothing else.
import Hardlinks.Proofs.FileSystem.Listing
import Hardlinks.TreeLinks

/-!
# Linked trees

The source is listed before anything is changed, so the run goes by the tree that was there, also
when its destination lies in the source or the source in its destination. An entry finds the place
of its directory made when its turn comes (`Ready`), because the directory came first. So what is
made on the way are the places of the entries and, for the first one, the destination with the
directories above it (`child?_place`). Nothing that was placed is lost later, so after a run that
goes through all entries are in place (`additions_placeAll`) and have been counted
(`counts_placeAll`), and in terms of the tree that was there the run has done just what it is for
(`linkedTree_of_run`). In which order the traversal takes the tree makes no difference.
-/

namespace Hardlinks.TreeLinks

open FileSystem

/-- All that giving an entry its second place can do. -/
inductive Places (source destination : Path) (fs : FileSystem) (l : Listed) :
    Except Failure Unit × FileSystem → Prop
  | made {made grown} : l.isDirectory = true →
      fs.provideParent (destination.join l.path) = (.ok (), made) →
      made.makeDirectory (destination.join l.path) = .ok grown →
      Places source destination fs l (.ok (), grown)
  | there {made cause} : l.isDirectory = true →
      fs.provideParent (destination.join l.path) = (.ok (), made) →
      made.makeDirectory (destination.join l.path) = .error cause →
      made.isDirectoryAt (destination.join l.path) = true →
      Places source destination fs l (.ok (), made)
  | linked {made linked} : l.isDirectory = false →
      fs.provideParent (destination.join l.path) = (.ok (), made) →
      made.linkFile (source.join l.path) (destination.join l.path) = .ok linked →
      Places source destination fs l (.ok (), linked)
  | noParent {f made} : fs.provideParent (destination.join l.path) = (.error f, made) →
      Places source destination fs l (.error f, made)
  | notMade {made cause} : l.isDirectory = true →
      fs.provideParent (destination.join l.path) = (.ok (), made) →
      made.makeDirectory (destination.join l.path) = .error cause →
      Places source destination fs l
        (.error (.createDirectory (destination.join l.path) cause), made)
  | notLinked {made cause} : l.isDirectory = false →
      fs.provideParent (destination.join l.path) = (.ok (), made) →
      made.linkFile (source.join l.path) (destination.join l.path) = .error cause →
      Places source destination fs l
        (.error (.link (source.join l.path) (destination.join l.path) cause), made)

/-- The entry has its second place. -/
inductive Placed (source destination : Path) (fs : FileSystem) (l : Listed) : Prop
  | directory : l.isDirectory = true → fs.isDirectoryAt (destination.join l.path) = true →
      Placed source destination fs l
  | link {i} : l.isDirectory = false → fs.find .keep (source.join l.path) = .ok i →
      fs.find .keep (destination.join l.path) = .ok i → Placed source destination fs l

/-- The path of the entry is made of the proper names `ns`, and the place of the directory that the
entry lies in is made. -/
structure Ready (destination : Path) (fs : FileSystem) (l : Listed) (ns : List Name) : Prop where
  path : l.path = .ofParts ns
  ne_nil : ns ≠ []
  isProper : ∀ n ∈ ns, Path.IsProper n
  parent : ∀ {ms n}, ns = ms ++ [n] → ms ≠ [] →
    fs.isDirectoryAt (destination.join (.ofParts ms)) = true

/-- What giving the entries their second places has done to the file system. -/
structure Additions (source destination : Path) (listed : List Listed) (fs after : FileSystem) :
    Prop where
  grows : fs.Grows after
  placed : ∀ l ∈ listed, Placed source destination after l
  /-- A new entry is the second place of an entry, or a directory on the way to the destination. -/
  added : ∀ {d n i}, after.child? d n = some i → fs.child? d n = some i ∨
    (∃ l ∈ listed, after.Names (destination.join l.path) d n) ∨
    ∃ q, q.Above destination ∧ after.Names q d n ∧ after.isDirectory i = true

/-- What a run that goes through does: everything below the directory `d`, to which `source` leads,
has a second place below `destination`. -/
structure LinkedTree (source destination : Path) (d : Inode) (fs after : FileSystem)
    (report : TreeReport) : Prop where
  /-- The second place of a directory is a directory. -/
  made : ∀ {ns i}, fs.LiesBelow d ns i → fs.isDirectory i = true →
    after.isDirectoryAt (destination.join (.ofParts ns)) = true
  /-- Everything else is one node in both places, the node that it was. -/
  linked : ∀ {ns i}, fs.LiesBelow d ns i → fs.isDirectory i = false →
    after.find .keep (source.join (.ofParts ns)) = .ok i ∧
      after.find .keep (destination.join (.ofParts ns)) = .ok i
  /-- The report counts the directories and all else that was there. -/
  directories : (report.directories : ℕ∞) =
    {ns | ∃ i, fs.LiesBelow d ns i ∧ fs.isDirectory i = true}.encard
  links : (report.links : ℕ∞) =
    {ns | ∃ i, fs.LiesBelow d ns i ∧ fs.isDirectory i = false}.encard
  /-- Every entry names the node that it named. -/
  kept : ∀ {a n i}, fs.child? a n = some i → after.child? a n = some i
  /-- Every node is what it was, but for further entries of a directory. -/
  grows : fs.Grows after
  /-- A new entry is a second place, or the destination, or a directory on the way to it. -/
  added : ∀ {a n i}, after.child? a n = some i → fs.child? a n = some i ∨
    (∃ ns j, fs.LiesBelow d ns j ∧ after.Names (destination.join (.ofParts ns)) a n) ∨
    ∃ q, q.Above destination ∧ after.Names q a n ∧ after.isDirectory i = true
  /-- Where there is nothing to place, nothing is made. -/
  unchanged : (∀ ns i, ¬fs.LiesBelow d ns i) → after = fs

/-- The ways in which a run can end. -/
inductive Runs (source destination : Path) (fs : FileSystem) (traversal : Traversal) :
    Except Failure TreeReport → FileSystem → Prop
  | notDirectory : fs.isDirectoryAt source = false →
      Runs source destination fs traversal (.error (.notADirectory source)) fs
  | notListed {f : Failure} : fs.isDirectoryAt source = true →
      Listed.all source (traversal fs source) = .error f →
      Runs source destination fs traversal (.error f) fs
  | stopped {listed : List Listed} {f : Failure} {p : Progress} :
      fs.isDirectoryAt source = true → Listed.all source (traversal fs source) = .ok listed →
      placeAll source destination ⟨⟨0, 0⟩, fs⟩ (Listed.sort listed) = (.error f, p) →
      Runs source destination fs traversal (.error f) p.files
  | linked {listed : List Listed} {p : Progress} :
      fs.isDirectoryAt source = true → Listed.all source (traversal fs source) = .ok listed →
      placeAll source destination ⟨⟨0, 0⟩, fs⟩ (Listed.sort listed) = (.ok (), p) →
      Runs source destination fs traversal (.ok p.report) p.files

variable {source destination : Path} {fs fs₀ mid after : FileSystem} {traversal : Traversal}
  {l : Listed} {before listed xs ys : List Listed} {p q : Progress} {result : Except Failure Unit}
  {d i : Inode} {n : Name} {ns : List Name}

/-! ## One entry -/

theorem places_place (source destination : Path) (fs : FileSystem) (l : Listed) :
    Places source destination fs l (place source destination fs l) := by
  unfold place
  dsimp only
  split
  · next f made hparent => exact .noParent hparent
  · next made hparent =>
    split
    · next hdir =>
      split
      · next grown hmade => exact .made hdir hparent hmade
      · next cause hfailed =>
        split
        · next hthere => exact .there hdir hparent hfailed hthere.2
        · exact .notMade hdir hparent hfailed
    · next hfile =>
      have hfile : l.isDirectory = false := by simpa using hfile
      split
      · next linked hlink => exact .linked hfile hparent hlink
      · next cause hfailed => exact .notLinked hfile hparent hfailed

theorem places_of_eq (h : place source destination fs l = (result, after)) :
    Places source destination fs l (result, after) :=
  h ▸ places_place source destination fs l

theorem grows_place (h : place source destination fs l = (result, after)) : fs.Grows after := by
  cases places_of_eq h with
  | made _ hparent hmade =>
      exact (grows_of_provideParent hparent).trans (grows_of_makeDirectory hmade)
  | there _ hparent => exact grows_of_provideParent hparent
  | linked _ hparent hlink => exact (grows_of_provideParent hparent).trans (grows_of_linkFile hlink)
  | noParent hparent => exact grows_of_provideParent hparent
  | notMade _ hparent => exact grows_of_provideParent hparent
  | notLinked _ hparent => exact grows_of_provideParent hparent

/-- A turn begins with making the directory that is to hold the place. -/
theorem grows_of_place (h : place source destination fs l = (result, after)) :
    (fs.provideParent (destination.join l.path)).2.Grows after := by
  cases places_of_eq h with
  | made _ hparent hmade => exact hparent ▸ grows_of_makeDirectory hmade
  | there _ hparent => exact hparent ▸ .refl _
  | linked _ hparent hlink => exact hparent ▸ grows_of_linkFile hlink
  | noParent hparent => exact hparent ▸ .refl _
  | notMade _ hparent => exact hparent ▸ .refl _
  | notLinked _ hparent => exact hparent ▸ .refl _

theorem Placed.extend (h : Placed source destination fs l) (hextends : fs.Extends after) :
    Placed source destination after l := by
  cases h with
  | directory hdir hthere =>
      exact .directory hdir (hextends.keepsWalks.isDirectoryAt hthere)
  | link hfile hsource hdestination =>
      exact .link hfile (find_extend hextends hsource) (find_extend hextends hdestination)

theorem placed_of_place (h : place source destination fs l = (.ok (), after)) :
    Placed source destination after l := by
  cases places_of_eq h with
  | made hdir _ hmade => exact .directory hdir (isDirectoryAt_of_makeDirectory hmade)
  | there hdir _ _ hthere => exact .directory hdir hthere
  | linked hfile _ hlink =>
      obtain ⟨i, hsource, hdestination⟩ := find_of_linkFile hlink
      exact .link hfile hsource hdestination

/-- Nothing is made to hold a ready entry that does not lie directly in the source. -/
theorem Ready.provideParent_eq {ms : List Name} (hready : Ready destination fs l (ms ++ [n]))
    (hms : ms ≠ []) :
    (destination.join l.path).parent? = some (destination.join (.ofParts ms)) ∧
      fs.provideParent (destination.join l.path) = (.ok (), fs) := by
  have hparent : (destination.join l.path).parent? = some (destination.join (.ofParts ms)) := by
    rw [hready.path]
    exact Path.parent?_join_ofParts hready.isProper hms
  exact ⟨hparent, provideParent_of_parent? hparent (hready.parent rfl hms)⟩

/-- For an entry that is ready, at most the destination and what lies above it are made first. -/
theorem Ready.child?_provideParent (hready : Ready destination fs l ns)
    (h : fs.provideParent (destination.join l.path) = (result, after))
    (hi : after.child? d n = some i) :
    fs.child? d n = some i ∨
      ∃ q, q.Above destination ∧ after.Names q d n ∧ after.isDirectory i = true := by
  obtain ⟨ms, m, rfl⟩ := (List.eq_nil_or_concat' ns).resolve_left hready.ne_nil
  by_cases hms : ms = []
  · have hproper : Path.IsProper m := hready.isProper m (by simp)
    rw [hready.path, hms, List.nil_append] at h
    rcases FileSystem.child?_provideParent h hi with hold | ⟨q, hq, ⟨slash, hslot⟩, hdir, _⟩
    · exact .inl hold
    · have habove := Path.above_of_mem_enclosing_join hproper hq (isEmpty_of_slot hslot)
      exact .inr ⟨q, habove, ⟨slash, hslot⟩, hdir⟩
  · rw [(hready.provideParent_eq hms).2] at h
    cases h
    exact .inl hi

/-- What giving a ready entry its second place adds: that place, if it works, and directories on the
way to the destination. -/
theorem child?_place (hready : Ready destination fs l ns)
    (h : place source destination fs l = (result, after)) (hi : after.child? d n = some i) :
    fs.child? d n = some i ∨ result = .ok () ∧ after.Names (destination.join l.path) d n ∨
      ∃ q, q.Above destination ∧ after.Names q d n ∧ after.isDirectory i = true := by
  have hprovide : ∀ {made r}, fs.provideParent (destination.join l.path) = (r, made) →
      made.Extends after → made.child? d n = some i → fs.child? d n = some i ∨
        ∃ q, q.Above destination ∧ after.Names q d n ∧ after.isDirectory i = true := by
    intro made r hparent hextends hi
    rcases hready.child?_provideParent hparent hi with hold | ⟨q, hq, hnames, hdir⟩
    · exact .inl hold
    · exact .inr ⟨q, hq, hnames.extend hextends, hextends.isDirectory hdir⟩
  cases places_of_eq h with
  | made _ hparent hmade =>
      rcases child?_makeDirectory hmade hi with hold | ⟨hnames, _⟩
      · exact (hprovide hparent (grows_of_makeDirectory hmade).extends hold).imp_right .inr
      · exact .inr (.inl ⟨rfl, hnames⟩)
  | linked _ hparent hlink =>
      rcases child?_linkFile hlink hi with hold | ⟨hnames, _⟩
      · exact (hprovide hparent (grows_of_linkFile hlink).extends hold).imp_right .inr
      · exact .inr (.inl ⟨rfl, hnames⟩)
  | there _ hparent => exact (hprovide hparent (.refl _) hi).imp_right .inr
  | noParent hparent => exact (hprovide hparent (.refl _) hi).imp_right .inr
  | notMade _ hparent => exact (hprovide hparent (.refl _) hi).imp_right .inr
  | notLinked _ hparent => exact (hprovide hparent (.refl _) hi).imp_right .inr

/-! ## All entries -/

theorem Additions.refl (source destination : Path) (fs : FileSystem) :
    Additions source destination [] fs fs :=
  ⟨.refl fs, by simp, .inl⟩

theorem Additions.trans (h : Additions source destination xs fs mid)
    (h' : Additions source destination ys mid after) :
    Additions source destination (xs ++ ys) fs after where
  grows := h.grows.trans h'.grows
  placed l hl := by
    rcases List.mem_append.1 hl with hl | hl
    · exact (h.placed l hl).extend h'.grows.extends
    · exact h'.placed l hl
  added hi := by
    have hextends := h'.grows.extends
    rcases h'.added hi with hmid | ⟨l, hl, hnames⟩ | habove
    · rcases h.added hmid with hold | ⟨l, hl, hnames⟩ | ⟨q, hq, hnames, hdir⟩
      · exact .inl hold
      · exact .inr (.inl ⟨l, List.mem_append_left ys hl, hnames.extend hextends⟩)
      · exact .inr (.inr ⟨q, hq, hnames.extend hextends, hextends.isDirectory hdir⟩)
    · exact .inr (.inl ⟨l, List.mem_append_right xs hl, hnames⟩)
    · exact .inr (.inr habove)

theorem additions_place (hready : Ready destination fs l ns)
    (h : place source destination fs l = (.ok (), after)) :
    Additions source destination [l] fs after where
  grows := grows_place h
  placed := by simpa using placed_of_place h
  added hi := by
    rcases child?_place hready h hi with hold | ⟨_, hnames⟩ | habove
    · exact .inl hold
    · exact .inr (.inl ⟨l, List.mem_singleton_self l, hnames⟩)
    · exact .inr (.inr habove)

/-- When the entries in front have their places, the next one is ready. -/
theorem ready_of_placed (hfs : fs₀.Regular) (h : fs₀.Lists d (before ++ l :: listed))
    (hbefore : ∀ k ∈ before, Placed source destination fs k) :
    ∃ ns, Ready destination fs l ns := by
  obtain ⟨ns, i, hi, rfl⟩ := h.mem_iff.1 (List.mem_append_right before List.mem_cons_self)
  refine ⟨ns, rfl, hi.1, hfs.isProper_of_liesBelow hi, ?_⟩
  rintro ms m rfl hms
  have hmem := h.mem_of_prefix hfs hi rfl (List.prefix_append ms [m]) (by simp) hms
  cases hbefore _ hmem with
  | directory _ hthere => exact hthere
  | link hfile => cases hfile

/-- The entries of a listing get their places one after the other. -/
theorem additions_placeAll (hfs : fs₀.Regular) (h : fs₀.Lists d (before ++ listed))
    (hbefore : ∀ k ∈ before, Placed source destination p.files k)
    (hplace : placeAll source destination p listed = (.ok (), q)) :
    Additions source destination listed p.files q.files := by
  induction listed generalizing before p with
  | nil =>
      cases hplace
      exact .refl source destination _
  | cons l rest ih =>
      rw [placeAll] at hplace
      split at hplace
      · cases hplace
      · next mid hmid =>
        obtain ⟨ns, hready⟩ := ready_of_placed hfs h hbefore
        have hfirst := additions_place hready hmid
        have hlists : fs₀.Lists d ((before ++ [l]) ++ rest) := by
          rwa [List.append_assoc, List.singleton_append]
        refine hfirst.trans (ih hlists ?_ hplace)
        intro k hk
        rcases List.mem_append.1 hk with hk | hk
        · exact (hbefore k hk).extend hfirst.grows.extends
        · exact hfirst.placed k hk

/-- Each entry is counted when it has got its place. -/
theorem counts_placeAll (h : placeAll source destination p listed = (.ok (), q)) :
    q.report.directories = p.report.directories + listed.countP (·.isDirectory) ∧
      q.report.links = p.report.links + listed.countP (!·.isDirectory) := by
  induction listed generalizing p with
  | nil =>
      cases h
      exact ⟨rfl, rfl⟩
  | cons l rest ih =>
      rw [placeAll] at h
      split at h
      · cases h
      · obtain ⟨hdirectories, hlinks⟩ := ih h
        rw [hdirectories, hlinks, List.countP_cons, List.countP_cons]
        cases hkind : l.isDirectory with
        | false => simp [TreeReport.count, hkind, Nat.add_right_comm, ← Nat.add_assoc]
        | true => simp [TreeReport.count, hkind, Nat.add_right_comm, ← Nat.add_assoc]

/-! ## Runs -/

theorem runs_run (source destination : Path) (fs : FileSystem) (traversal : Traversal) :
    Runs source destination fs traversal (run source destination fs traversal).result
      (run source destination fs traversal).files := by
  unfold run
  split
  · next hmissing => exact .notDirectory (by simpa using hmissing)
  · next hdir =>
    have hdir : fs.isDirectoryAt source = true := by simpa using hdir
    dsimp only
    split
    · next f hlist => exact .notListed hdir hlist
    · next listed hlist =>
      split
      · next f p hplace => exact .stopped hdir hlist hplace
      · next p hplace => exact .linked hdir hlist hplace

/-- The listing that a run goes by. -/
theorem lists_of_all (htraversal : traversal.Complete) (hfs : fs.Regular)
    (hd : fs.find .follow source = .ok d) (hdir : fs.isDirectory d = true)
    (hlist : Listed.all source (traversal fs source) = .ok listed) :
    fs.Lists d (Listed.sort listed) := by
  obtain ⟨found, hfound⟩ := exists_found hlist
  rw [hfound] at hlist
  exact hfs.lists_of_finds (isEmpty_of_find hd) (htraversal hfs hd hdir hfound) hlist

/-- What is no directory keeps its node, and its second place is an entry of that node. -/
theorem find_of_placed (hfs : fs.Regular) (hd : fs.find .follow source = .ok d)
    (hdir : fs.isDirectory d = true) (hextends : fs.Extends after) (hi : fs.LiesBelow d ns i)
    (h : Placed source destination after ⟨.ofParts ns, false⟩) :
    after.find .keep (source.join (.ofParts ns)) = .ok i ∧
      after.find .keep (destination.join (.ofParts ns)) = .ok i := by
  cases h with
  | directory hdir' => cases hdir'
  | @link j _ hsource hdestination =>
      obtain ⟨links, hleads⟩ := exists_leadsTo hd hdir
      have hnode : j = i :=
        (hleads.extend hextends).eq_of_find (hfs.isProper_of_liesBelow hi) hi.1
          (descend?_extend hextends hi.2) (.inl rfl) hsource
      rw [← hnode]
      exact ⟨hsource, hdestination⟩

/-- A listing whose entries all got their places makes a linked tree. -/
theorem linkedTree_of_lists (hfs : fs.Regular) (hd : fs.find .follow source = .ok d)
    (hdir : fs.isDirectory d = true) (h : fs.Lists d listed)
    (hplace : placeAll source destination ⟨⟨0, 0⟩, fs⟩ listed = (.ok (), p)) :
    LinkedTree source destination d fs p.files p.report := by
  have hlists : fs.Lists d ([] ++ listed) := h
  have hadditions : Additions source destination listed fs p.files :=
    additions_placeAll hfs hlists (by simp) hplace
  have hextends := hadditions.grows.extends
  have hplaced : ∀ {ns i}, fs.LiesBelow d ns i →
      Placed source destination p.files ⟨.ofParts ns, fs.isDirectory i⟩ := fun hi =>
    hadditions.placed _ (h.mem_of_liesBelow hi)
  obtain ⟨hdirectories, hlinks⟩ := counts_placeAll hplace
  rw [Nat.zero_add] at hdirectories hlinks
  refine ⟨?made, ?linked, ?directories, ?links, hextends.child?, hadditions.grows, ?added,
    ?unchanged⟩
  case made =>
    intro ns i hi hkind
    cases hplaced hi with
    | directory _ hthere => exact hthere
    | link hfile => simp [hkind] at hfile
  case linked =>
    intro ns i hi hkind
    exact find_of_placed hfs hd hdir hextends hi (hkind ▸ hplaced hi)
  case directories =>
    rw [hdirectories]
    exact h.countP_eq hfs id
  case links =>
    rw [hlinks, h.countP_eq hfs (!·)]
    simp
  case added =>
    intro a n i hi
    rcases hadditions.added hi with hold | ⟨l, hl, hnames⟩ | habove
    · exact .inl hold
    · obtain ⟨ns, j, hj, rfl⟩ := h.mem_iff.1 hl
      exact .inr (.inl ⟨ns, j, hj, hnames⟩)
    · exact .inr (.inr habove)
  case unchanged =>
    intro hnothing
    obtain rfl := h.eq_nil hnothing
    cases hplace
    rfl

/-- A run that goes through links everything that was below its source, wherever its destination
lies and in whatever order the traversal has found it. -/
theorem linkedTree_of_run {report : TreeReport} (htraversal : traversal.Complete)
    (hfs : fs.Regular) (h : (run source destination fs traversal).result = .ok report) :
    ∃ d, fs.find .follow source = .ok d ∧ fs.isDirectory d = true ∧
      LinkedTree source destination d fs (run source destination fs traversal).files report := by
  have hruns := runs_run source destination fs traversal
  rw [h] at hruns
  generalize (run source destination fs traversal).files = after at hruns ⊢
  cases hruns with
  | linked hsource hlist hplace =>
      obtain ⟨d, hd, hdir⟩ := isDirectoryAt_iff.1 hsource
      have hlists := lists_of_all htraversal hfs hd hdir hlist
      exact ⟨d, hd, hdir, linkedTree_of_lists hfs hd hdir hlists hplace⟩

/-- A file and an empty directory. -/
def fileAndDirectory : FileSystem :=
  let fs := withFiles [("a", "alpha")]
  (fs.makeDirectory (.ofString "s")).toOption.getD fs

/-- The destination lies in the source, in a directory that is linked itself. -/
theorem linkedTree_of_nested_destination :
    FileSystem.traverse.Complete ∧ fileAndDirectory.Regular ∧
      (run (.ofString ".") (.ofString "s/t") fileAndDirectory).result = .ok ⟨1, 1⟩ ∧
      LinkedTree (.ofString ".") (.ofString "s/t") 1 fileAndDirectory
        (run (.ofString ".") (.ofString "s/t") fileAndDirectory).files ⟨1, 1⟩ := by
  have hregular : fileAndDirectory.Regular :=
    (regular_withFiles [("a", "alpha")]).call (.makeDirectory (p := .ofString "s") (by rfl))
  have hrun : (run (.ofString ".") (.ofString "s/t") fileAndDirectory).result = .ok ⟨1, 1⟩ := by
    rfl
  obtain ⟨d, hd, _, htree⟩ := linkedTree_of_run complete_traverse hregular hrun
  have hstart : fileAndDirectory.find .follow (.ofString ".") = .ok 1 := by rfl
  obtain rfl := Except.ok.inj (hstart.symm.trans hd)
  exact ⟨complete_traverse, hregular, hrun, htree⟩

end Hardlinks.TreeLinks
