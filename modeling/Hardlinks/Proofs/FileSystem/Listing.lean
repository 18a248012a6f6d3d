-- SUMMARY: A listing has everything below its directory, each entry once, in the order of the paths.
import Mathlib.Data.List.Sort
import Mathlib.Data.Set.Card
import Hardlinks.FileSystem.Listing
import Hardlinks.Proofs.FileSystem.Regular

/-!
# Listings

A traversal is asked for everything below a directory, each entry once, in any order
(`Traversal.Complete`). Then the sorted listing is in the order of the components of the paths, and
no two of its entries have the same path (`Regular.lists_of_finds`), so parents come before what
lies in them. How many entries are directories can be counted in the listing (`Lists.countP_eq`).

The traversal by paths is such a one (`complete_traverse`): each directory below is opened by the
path that leads to it from the root, and in a regular file system such a path leads where its names
do.
-/

namespace Hardlinks

/-! ## Sorting -/

namespace Listed

variable {k l m : Listed} {listed : List Listed}

theorem le_iff : k.le l = true ↔
    k.path.rank < l.path.rank ∨ k.path.rank = l.path.rank ∧ (!k.isDirectory || l.isDirectory) := by
  simp [le]

theorem le_trans (h : k.le l = true) (h' : l.le m = true) : k.le m = true := by
  rw [le_iff] at h h' ⊢
  rcases h with hlt | ⟨heq, hkind⟩
  · rcases h' with hlt' | ⟨heq', _⟩
    · exact .inl (List.lt_trans hlt hlt')
    · exact .inl (heq' ▸ hlt)
  · rcases h' with hlt' | ⟨heq', hkind'⟩
    · exact .inl (heq ▸ hlt')
    · exact .inr ⟨heq.trans heq', by grind⟩

theorem le_total (k l : Listed) : k.le l = true ∨ l.le k = true := by
  rw [le_iff, le_iff]
  by_cases heq : k.path.rank = l.path.rank
  · rcases hk : k.isDirectory with _ | _
    · exact .inl (.inr ⟨heq, rfl⟩)
    · exact .inr (.inr ⟨heq.symm, by simp⟩)
  · rcases List.le_total k.path.rank l.path.rank with hle | hle
    · exact .inl (.inl (Std.lt_of_le_of_ne hle heq))
    · exact .inr (.inl (Std.lt_of_le_of_ne hle (Ne.symm heq)))

theorem insert_eq (l : Listed) (listed : List Listed) :
    insert l listed = listed.orderedInsert (fun k l => k.le l = true) l := by
  induction listed with
  | nil => rfl
  | cons k listed ih => simp only [insert, List.orderedInsert, ih]

theorem sort_eq (listed : List Listed) :
    sort listed = listed.insertionSort fun k l => k.le l = true := by
  rw [sort, List.insertionSort]
  congr
  funext l listed
  exact insert_eq l listed

theorem perm_sort (listed : List Listed) : (sort listed).Perm listed := by
  rw [sort_eq]
  exact List.perm_insertionSort _ _

theorem sorted_sort (listed : List Listed) : (sort listed).Pairwise fun k l => k.le l = true := by
  have : Std.Total fun k l : Listed => k.le l = true := ⟨le_total⟩
  have : IsTrans Listed fun k l => k.le l = true := ⟨fun _ _ _ => le_trans⟩
  rw [sort_eq]
  exact List.pairwise_insertionSort _ _

end Listed

namespace FileSystem

/-- The names lead from the directory `d` down to the node `i`. -/
def LiesBelow (fs : FileSystem) (d : Inode) (ns : List Name) (i : Inode) : Prop :=
  ns ≠ [] ∧ fs.descend? d ns = some i

/-- Everything below the directory `d`, to which `root` leads, has been found, and each entry
once. -/
structure Finds (fs : FileSystem) (root : Path) (d : Inode) (found : List Found) : Prop where
  mem_iff : ∀ {f}, f ∈ found ↔
    ∃ ns i, fs.LiesBelow d ns i ∧ f = ⟨root.join (.ofParts ns), fs.isDirectory i⟩
  nodup : found.Nodup

/-- The listing has everything below the directory `d`, in the order of the components of the
paths. -/
structure Lists (fs : FileSystem) (d : Inode) (listed : List Listed) : Prop where
  mem_iff : ∀ {l}, l ∈ listed ↔
    ∃ ns i, fs.LiesBelow d ns i ∧ l = ⟨.ofParts ns, fs.isDirectory i⟩
  sorted : listed.Pairwise fun k l => k.path.rank < l.path.rank

end FileSystem

/-- A traversal that goes through has found everything, each entry once. It may take the entries in
any order. -/
def Traversal.Complete (traversal : Traversal) : Prop :=
  ∀ {fs : FileSystem} {root d found}, fs.Regular → fs.find .follow root = .ok d →
    fs.isDirectory d = true → traversal fs root = found.map .ok → fs.Finds root d found

namespace FileSystem

/-- The entry `l` of the listing is there for `f`. -/
def ListedAs (fs : FileSystem) (root : Path) (d : Inode) (f : Found) (l : Listed) : Prop :=
  ∃ ns i, fs.LiesBelow d ns i ∧ f = ⟨root.join (.ofParts ns), fs.isDirectory i⟩ ∧
    l = ⟨.ofParts ns, fs.isDirectory i⟩

/-- The part of a traversal that one entry of a directory stands for: the entry itself and
everything below it. -/
structure FindsEntry (fs : FileSystem) (p : Path) (e : Name × Inode) (block : List Found) :
    Prop where
  mem_iff : ∀ {f}, f ∈ block ↔ ∃ ns i, fs.descend? e.2 ns = some i ∧
    f = ⟨p.join (.ofParts (e.1 :: ns)), fs.isDirectory i⟩
  nodup : block.Nodup

variable {fs : FileSystem} {d i j : Inode} {n : Name} {ns ms : List Name} {p root : Path}
  {listed : List Listed} {l : Listed} {found : List Found} {es : List (Name × Inode)}

/-! ## From what was found to the listing -/

theorem Regular.isProper_of_liesBelow (h : fs.Regular) (hi : fs.LiesBelow d ns i) :
    ∀ n ∈ ns, Path.IsProper n :=
  h.isProper_of_descend? hi.2

/-- Different names are listed by different paths. -/
theorem Regular.ofParts_inj (h : fs.Regular) (hi : fs.LiesBelow d ns i) (hj : fs.LiesBelow d ms j)
    (heq : (Path.ofParts ns).rank = (Path.ofParts ms).rank) : ns = ms := by
  rw [Path.rank_ofParts (h.isProper_of_liesBelow hi) hi.1,
    Path.rank_ofParts (h.isProper_of_liesBelow hj) hj.1] at heq
  exact List.map_injective_iff.2 (fun _ _ hcons => List.tail_eq_of_cons_eq hcons) heq

theorem Regular.biUnique_listedAs (h : fs.Regular) (hroot : root.isEmpty = false) (d : Inode) :
    Relator.BiUnique (fs.ListedAs root d) := by
  constructor
  · rintro _ _ _ ⟨ns, i, hi, rfl, rfl⟩ ⟨ms, j, hj, rfl, heq⟩
    obtain ⟨hpath, hkind⟩ := Listed.mk.inj heq
    rw [hpath, hkind]
  · rintro _ _ _ ⟨ns, i, hi, rfl, rfl⟩ ⟨ms, j, hj, heq, rfl⟩
    obtain ⟨hpath, hkind⟩ := Found.mk.inj heq
    rw [Path.join_ofParts_inj hroot (h.isProper_of_liesBelow hi) hi.1 (h.isProper_of_liesBelow hj)
      hj.1 hpath, hkind]

/-- A listing goes through if the traversal did. -/
theorem exists_found {found : List (Except TraversalError Found)}
    (h : Listed.all root found = .ok listed) : ∃ fs : List Found, found = fs.map Except.ok := by
  induction found generalizing listed with
  | nil => exact ⟨[], rfl⟩
  | cons x found ih =>
      rw [Listed.all, List.mapM_cons] at h
      obtain ⟨l, hl, h⟩ := bind_eq_ok_iff.1 h
      obtain ⟨rest, hrest, _⟩ := bind_eq_ok_iff.1 h
      obtain ⟨fs, rfl⟩ := ih hrest
      cases x with
      | error e => cases hl
      | ok f => exact ⟨f :: fs, rfl⟩

/-- Everything that was found is listed by its names. -/
theorem Regular.forall₂_listedAs (h : fs.Regular) (hroot : root.isEmpty = false)
    (hfound : fs.Finds root d found) (hall : Listed.all root (found.map .ok) = .ok listed) :
    List.Forall₂ (fs.ListedAs root d) found listed := by
  have hlisted := List.forall₂_map_left_iff.1 (mapM_eq_ok_iff.1 hall)
  refine ((List.forall₂_and_left _ _).2 ⟨fun f hf => hf, hlisted⟩).imp ?_
  rintro f l ⟨hf, hl⟩
  obtain ⟨ns, i, hi, rfl⟩ := hfound.mem_iff.1 hf
  refine ⟨ns, i, hi, rfl, ?_⟩
  rw [Listed.ofFound, Path.stripPrefix?_join_ofParts hroot (h.isProper_of_liesBelow hi) hi.1] at hl
  exact (Except.ok.inj hl).symm

theorem liesBelow_of_listedAs (h : List.Forall₂ (fs.ListedAs root d) found listed)
    (hl : l ∈ listed) : ∃ ns i, fs.LiesBelow d ns i ∧ l = ⟨.ofParts ns, fs.isDirectory i⟩ := by
  induction h with
  | nil => cases hl
  | cons hlisted _ ih =>
      rcases List.mem_cons.1 hl with rfl | hl
      · obtain ⟨ns, i, hi, _, hl⟩ := hlisted
        exact ⟨ns, i, hi, hl⟩
      · exact ih hl

/-- The sorted listing of all that was found. -/
theorem Regular.lists_of_finds (h : fs.Regular) (hroot : root.isEmpty = false)
    (hfound : fs.Finds root d found) (hall : Listed.all root (found.map .ok) = .ok listed) :
    fs.Lists d (Listed.sort listed) := by
  have hlisted := h.forall₂_listedAs hroot hfound hall
  have hunique := h.biUnique_listedAs hroot d
  have hperm := Listed.perm_sort listed
  have hmem : ∀ {l}, l ∈ Listed.sort listed ↔
      ∃ ns i, fs.LiesBelow d ns i ∧ l = ⟨.ofParts ns, fs.isDirectory i⟩ := by
    intro l
    rw [hperm.mem_iff]
    constructor
    · exact liesBelow_of_listedAs hlisted
    · rintro ⟨ns, i, hi, rfl⟩
      exact (List.rel_mem hunique ⟨ns, i, hi, rfl, rfl⟩ hlisted).1 (hfound.mem_iff.2 ⟨ns, i, hi, rfl⟩)
  refine ⟨hmem, ?_⟩
  have hnodup : (Listed.sort listed).Nodup :=
    hperm.nodup_iff.2 ((List.rel_nodup hunique hlisted).1 hfound.nodup)
  refine ((Listed.sorted_sort listed).and hnodup).imp_of_mem ?_
  rintro k l hk hl ⟨hle, hne⟩
  rcases Listed.le_iff.1 hle with hlt | ⟨heq, _⟩
  · exact hlt
  · obtain ⟨ns, i, hi, rfl⟩ := hmem.1 hk
    obtain ⟨ms, j, hj, rfl⟩ := hmem.1 hl
    obtain rfl := h.ofParts_inj hi hj heq
    rw [Option.some.inj (hi.2.symm.trans hj.2)] at hne
    exact absurd rfl hne

/-! ## A traversal by paths -/

theorem Regular.isProper_of_child? (h : fs.Regular) (hj : fs.child? d n = some j) :
    Path.IsProper n :=
  (h.proper d).isProper (n, j) (h.mem_entries_iff.2 hj)

theorem findsEntry_of_directory {below : List Found} (h : fs.Regular) (hp : p.isEmpty = false)
    (hj : fs.child? d n = some j) (hdir : fs.isDirectory j = true)
    (hbelow : fs.Finds (p.join ⟨n⟩) j below) :
    fs.FindsEntry p (n, j) (⟨p.join ⟨n⟩, true⟩ :: below) := by
  have hn := h.isProper_of_child? hj
  have hjoin : ∀ {ns i}, fs.LiesBelow j ns i →
      (p.join ⟨n⟩).join (.ofParts ns) = p.join (.ofParts (n :: ns)) := fun hi =>
    Path.join_join_ofParts hp hn (h.isProper_of_liesBelow hi) hi.1
  constructor
  · intro f
    rw [List.mem_cons, hbelow.mem_iff]
    constructor
    · rintro (rfl | ⟨ns, i, hi, rfl⟩)
      · exact ⟨[], j, rfl, by rw [hdir, Path.ofParts_singleton]⟩
      · exact ⟨ns, i, hi.2, by rw [hjoin hi]⟩
    · rintro ⟨ns, i, hi, rfl⟩
      cases ns with
      | nil =>
          cases hi
          exact .inl (by rw [hdir, Path.ofParts_singleton])
      | cons m ns =>
          have hi : fs.LiesBelow j (m :: ns) i := ⟨List.cons_ne_nil m ns, hi⟩
          exact .inr ⟨m :: ns, i, hi, by rw [hjoin hi]⟩
  · -- The directory itself is not below itself.
    refine List.nodup_cons.2 ⟨fun hmem => ?_, hbelow.nodup⟩
    obtain ⟨ns, i, hi, heq⟩ := hbelow.mem_iff.1 hmem
    have hpath := (Found.mk.inj heq).1
    rw [hjoin hi, ← Path.ofParts_singleton n] at hpath
    have hnames := Path.join_ofParts_inj hp (by simpa using hn) (List.cons_ne_nil n [])
      (List.forall_mem_cons.2 ⟨hn, h.isProper_of_liesBelow hi⟩) (List.cons_ne_nil n ns) hpath
    exact hi.1 (List.cons.inj hnames).2.symm

theorem findsEntry_of_file (hfile : fs.isDirectory j = false) :
    fs.FindsEntry p (n, j) [⟨p.join ⟨n⟩, false⟩] where
  mem_iff {f} := by
    rw [List.mem_singleton]
    constructor
    · rintro rfl
      exact ⟨[], j, rfl, by rw [hfile, Path.ofParts_singleton]⟩
    · rintro ⟨ns, i, hi, rfl⟩
      cases ns with
      | nil =>
          cases hi
          rw [hfile, Path.ofParts_singleton]
      | cons m ns =>
          obtain ⟨a, ha, _⟩ := descend?_cons_eq_some_iff.1 hi
          rw [child?_of_file hfile] at ha
          cases ha
  nodup := List.nodup_singleton _

/-- The blocks of entries of different names, put together. -/
theorem finds_flatten {blocks : List (List Found)} (h : fs.Regular) (hp : p.isEmpty = false)
    (hblocks : List.Forall₂ (fs.FindsEntry p) es blocks)
    (hentries : ∀ e ∈ es, fs.child? d e.1 = some e.2) (hnames : (es.map Prod.fst).Nodup) :
    (∀ f, f ∈ blocks.flatten ↔ ∃ e ∈ es, ∃ ns i, fs.descend? e.2 ns = some i ∧
      f = ⟨p.join (.ofParts (e.1 :: ns)), fs.isDirectory i⟩) ∧ blocks.flatten.Nodup := by
  induction hblocks with
  | nil => simp
  | @cons e block es blocks hblock _ ih =>
      obtain ⟨hentry, hentries⟩ := List.forall_mem_cons.1 hentries
      obtain ⟨hfresh, hnames⟩ := List.nodup_cons.1 hnames
      obtain ⟨hmem, hnodup⟩ := ih hentries hnames
      rw [List.flatten_cons]
      constructor
      · intro f
        rw [List.mem_append, hblock.mem_iff, hmem, List.exists_mem_cons_iff]
      · refine List.nodup_append'.2 ⟨hblock.nodup, hnodup, fun f hf hrest => ?_⟩
        obtain ⟨ns, i, hi, rfl⟩ := hblock.mem_iff.1 hf
        obtain ⟨e', he', ms, j, hj, heq⟩ := (hmem _).1 hrest
        have hproper : ∀ {e : Name × Inode} {ns i}, fs.child? d e.1 = some e.2 →
            fs.descend? e.2 ns = some i → ∀ n ∈ e.1 :: ns, Path.IsProper n := fun he hi =>
          h.isProper_of_descend? (descend?_cons_eq_some_iff.2 ⟨_, he, hi⟩)
        have hcons := Path.join_ofParts_inj hp (hproper hentry hi) (List.cons_ne_nil _ ns)
          (hproper (hentries e' he') hj) (List.cons_ne_nil _ ms) (Found.mk.inj heq).1
        exact hfresh ((List.cons.inj hcons).1 ▸ List.mem_map_of_mem he')

/-- What is found below a directory is made of the blocks of its entries. -/
theorem Regular.finds_of_blocks (h : fs.Regular) (hp : p.isEmpty = false)
    {blocks : List (List Found)}
    (hblocks : List.Forall₂ (fs.FindsEntry p) (fs.entries d) blocks) :
    fs.Finds p d blocks.flatten := by
  have hentries : ∀ e ∈ fs.entries d, fs.child? d e.1 = some e.2 := fun e he =>
    h.mem_entries_iff.1 he
  obtain ⟨hmem, hnodup⟩ := finds_flatten h hp hblocks hentries (h.proper d).nodup
  refine ⟨?_, hnodup⟩
  intro f
  rw [hmem]
  constructor
  · rintro ⟨e, he, ns, i, hi, rfl⟩
    exact ⟨e.1 :: ns, i, ⟨List.cons_ne_nil e.1 ns,
      descend?_cons_eq_some_iff.2 ⟨e.2, hentries e he, hi⟩⟩, rfl⟩
  · rintro ⟨ns, i, ⟨hne, hi⟩, rfl⟩
    obtain ⟨n, ms, rfl⟩ := List.exists_cons_of_ne_nil hne
    obtain ⟨j, hj, hrest⟩ := descend?_cons_eq_some_iff.1 hi
    exact ⟨(n, j), h.mem_entries_iff.2 hj, ms, i, hrest, rfl⟩

theorem openDirectory_eq_ok (h : fs.openDirectory p = .ok i) :
    fs.find .follow p = .ok i ∧ fs.isDirectory i = true := by
  obtain ⟨j, hj, h⟩ := bind_eq_ok_iff.1 h
  split at h
  · cases h
  · next hdir =>
    split at h <;> cases h
    exact ⟨hj, by simpa using hdir⟩

/-- What goes through goes through entry by entry. -/
theorem exists_blocks {block : Name × Inode → List (Except TraversalError Found)}
    (h : es.flatMap block = found.map .ok) :
    ∃ blocks, List.Forall₂ (fun e b => block e = b.map Except.ok) es blocks ∧
      found = blocks.flatten := by
  induction es generalizing found with
  | nil => exact ⟨[], .nil, List.map_eq_nil_iff.1 h.symm⟩
  | cons e es ih =>
      obtain ⟨first, rest, rfl, hfirst, hrest⟩ := List.map_eq_append_iff.1 h.symm
      obtain ⟨blocks, hblocks, rfl⟩ := ih hrest.symm
      exact ⟨first :: blocks, .cons hfirst.symm hblocks, rfl⟩

/-- A traversal that has the depth for all directories finds everything below its directory. -/
theorem Regular.finds_of_traverseBelow (h : fs.Regular) {depth : Nat}
    (hdir : fs.isDirectory d = true) (hp : ∀ i, fs.find .follow p = .ok i → i = d)
    (hdepth : ∀ ns i, fs.descend? d ns = some i → fs.isDirectory i = true → ns.length < depth)
    (hfound : fs.traverseBelow depth p = found.map .ok) : fs.Finds p d found := by
  induction depth generalizing d p found with
  | zero => exact absurd (hdepth [] d rfl hdir) (Nat.not_lt_zero _)
  | succ depth ih =>
      rw [traverseBelow] at hfound
      split at hfound
      · cases found <;> cases hfound
      · next k hopen =>
        obtain ⟨hfind, _⟩ := openDirectory_eq_ok hopen
        obtain rfl := hp k hfind
        obtain ⟨links, hleads⟩ := exists_leadsTo hfind hdir
        have hne := isEmpty_of_find hfind
        obtain ⟨blocks, hblocks, rfl⟩ := exists_blocks hfound
        apply h.finds_of_blocks hne
        have hmem : ∀ e ∈ fs.entries k, fs.child? k e.1 = some e.2 := fun e he =>
          h.mem_entries_iff.1 he
        refine ((List.forall₂_and_left _ _).2 ⟨hmem, hblocks⟩).imp ?_
        rintro ⟨n, j⟩ block ⟨hj, hblock⟩
        dsimp only at hj hblock
        obtain ⟨first, below, rfl, hfirst, hbelow⟩ := List.map_eq_cons_iff.1 hblock.symm
        obtain rfl := Except.ok.inj hfirst
        cases hkind : fs.isDirectory j with
        | false =>
            rw [hkind] at hbelow
            obtain rfl := List.map_eq_nil_iff.1 hbelow
            exact findsEntry_of_file hkind
        | true =>
            rw [hkind, if_pos rfl] at hbelow
            apply findsEntry_of_directory h hne hj hkind
            have hdown : fs.descend? k [n] = some j := descend?_cons_eq_some_iff.2 ⟨j, hj, rfl⟩
            refine ih hkind ?_ ?_ hbelow.symm
            · -- The path of an entry leads where its name does.
              intro i hi
              rw [← Path.ofParts_singleton] at hi
              exact hleads.eq_of_find (h.isProper_of_descend? hdown) (List.cons_ne_nil n []) hdown
                (.inr (target?_eq_none_of_isDirectory hkind)) hi
            · intro ns i hi hidir
              have hlength := hdepth (n :: ns) i (descend?_cons_eq_some_iff.2 ⟨j, hj, hi⟩) hidir
              exact Nat.lt_of_succ_lt_succ hlength

/-- The traversal by paths finds everything, each entry once. -/
theorem complete_traverse : Traversal.Complete traverse := by
  intro fs root d found h hd hdir hfound
  refine h.finds_of_traverseBelow hdir ?_ ?_ hfound
  · intro i hi
    exact Except.ok.inj (hi.symm.trans hd)
  · intro ns i hi hidir
    exact h.toHierarchical.length_lt_size hi hidir

/-! ## What a listing tells -/

theorem lt_append {above : List Name} (hne : ns ≠ []) : above < above ++ ns := by
  obtain ⟨n, rest, rfl⟩ := List.exists_cons_of_ne_nil hne
  have hlt : above ++ [] < above ++ n :: rest := List.append_left_lt (List.nil_lt_cons n rest)
  rwa [List.append_nil] at hlt

theorem Lists.mem_of_liesBelow (h : fs.Lists d listed) (hi : fs.LiesBelow d ns i) :
    ⟨.ofParts ns, fs.isDirectory i⟩ ∈ listed :=
  h.mem_iff.2 ⟨ns, i, hi, rfl⟩

theorem Lists.rank_ne (h : fs.Lists d listed) :
    listed.Pairwise fun k l => k.path.rank ≠ l.path.rank := by
  refine h.sorted.imp ?_
  intro k l hlt heq
  exact List.lt_irrefl l.path.rank (heq ▸ hlt)

theorem Lists.eq_nil (h : fs.Lists d listed) (hnothing : ∀ ns i, ¬fs.LiesBelow d ns i) :
    listed = [] := by
  apply List.eq_nil_iff_forall_not_mem.2
  intro l hl
  obtain ⟨ns, i, hi, _⟩ := h.mem_iff.1 hl
  exact hnothing ns i hi

/-- A directory comes before everything below it. -/
theorem Lists.mem_of_prefix {before after : List Listed} (hfs : fs.Regular)
    (h : fs.Lists d (before ++ l :: after)) (hi : fs.LiesBelow d ns i) (hl : l.path = .ofParts ns)
    (hpre : ms <+: ns) (hms : ms ≠ ns) (hne : ms ≠ []) : ⟨.ofParts ms, true⟩ ∈ before := by
  obtain ⟨a, ha, hdir⟩ := isDirectory_of_prefix hpre hms hi.2
  have hbelow : fs.LiesBelow d ms a := ⟨hne, ha⟩
  have hlisted := h.mem_of_liesBelow hbelow
  rw [hdir] at hlisted
  have hlt : (Path.ofParts ms).rank < l.path.rank := by
    have hless : ms < ns := by
      obtain ⟨rest, rfl⟩ := hpre
      exact lt_append (by simpa using hms)
    rw [hl]
    exact Path.rank_ofParts_lt (hfs.isProper_of_liesBelow hbelow) hne
      (hfs.isProper_of_liesBelow hi) hi.1 hless
  obtain ⟨_, hsorted, _⟩ := List.pairwise_append.1 h.sorted
  rcases List.mem_append.1 hlisted with hbefore | hrest
  · exact hbefore
  · exfalso
    rcases List.mem_cons.1 hrest with rfl | hafter
    · exact List.lt_irrefl _ hlt
    · exact List.lt_irrefl _ (List.lt_trans hlt ((List.pairwise_cons.1 hsorted).1 _ hafter))

/-- So many entries of the listing are directories as directories lie below, and the same holds of
all others. -/
theorem Lists.countP_eq (hfs : fs.Regular) (h : fs.Lists d listed) (kind : Bool → Bool) :
    (listed.countP fun l => kind l.isDirectory : ℕ∞) =
      {ns | ∃ i, fs.LiesBelow d ns i ∧ kind (fs.isDirectory i) = true}.encard := by
  have hnodup : ((listed.filter fun l => kind l.isDirectory).map Listed.path).Nodup := by
    refine List.pairwise_map.2 ((h.rank_ne.sublist List.filter_sublist).imp ?_)
    exact fun hne heq => hne (congrArg Path.rank heq)
  have hset : Path.ofParts '' {ns | ∃ i, fs.LiesBelow d ns i ∧ kind (fs.isDirectory i) = true} =
      (((listed.filter fun l => kind l.isDirectory).map Listed.path).toFinset : Set Path) := by
    ext p
    simp only [Set.mem_image, Set.mem_ofPred_eq, List.coe_toFinset, List.mem_map, List.mem_filter]
    constructor
    · rintro ⟨ns, ⟨i, hi, hkind⟩, rfl⟩
      exact ⟨_, ⟨h.mem_of_liesBelow hi, hkind⟩, rfl⟩
    · rintro ⟨l, ⟨hl, hkind⟩, rfl⟩
      obtain ⟨ns, i, hi, rfl⟩ := h.mem_iff.1 hl
      exact ⟨ns, ⟨i, hi, hkind⟩, rfl⟩
  have hinj : Set.InjOn Path.ofParts
      {ns | ∃ i, fs.LiesBelow d ns i ∧ kind (fs.isDirectory i) = true} := by
    rintro ns ⟨i, hi, _⟩ ms ⟨j, hj, _⟩ heq
    exact hfs.ofParts_inj hi hj (congrArg Path.rank heq)
  rw [← hinj.encard_image, hset, Set.encard_coe_eq_coe_finsetCard,
    List.toFinset_card_of_nodup hnodup, List.length_map, List.countP_eq_length_filter]

end FileSystem

end Hardlinks
