-- SUMMARY: In a directory that is well prepared for its manifest, a replay links every entry.
import Hardlinks.Proofs.Replay.Counts
import Hardlinks.Proofs.Replay.Room

/-!
# Replays that cannot fail

A directory is well prepared for a manifest if everything below it lies on one device and is open to
changes, every source is there, and each entry has a place of its own for its destination
(`WellPrepared`). No entry takes anything from the next one then: it uses up its own place, and the
directories that it makes are shared. So every entry is linked, whatever the policy is
(`WellPrepared.placeAll`), and the manifest and the sources can all be removed
(`run_of_wellPrepared`).
-/

namespace Hardlinks.Replay

open FileSystem

/-- All that the entries of a manifest need of the directory `d`, the path of which is `dir`. -/
structure WellPrepared (fs : FileSystem) (dir : Path) (d : Inode) (entries : List Entry) :
    Prop where
  /-- Every directory can be searched and changed. -/
  permitted : ∀ {ns a}, fs.descend? d ns = some a → fs.isDirectory a = true →
    fs.allows a Mode.search = true ∧ fs.allows a Mode.write = true
  /-- Everything lies on one device. -/
  device : ∀ {ns i}, fs.descend? d ns = some i → fs.device i = fs.device d
  source : ∀ e ∈ entries, ∃ i, fs.find .keep (source dir e) = .ok i ∧ fs.isDirectory i = false
  distinct : entries.Pairwise fun e e' => (destination dir e).same (destination dir e') = false
  absent : ∀ e ∈ entries, fs.descend? d e.destination.names = none
  /-- No destination lies below another one. -/
  apart : ∀ e ∈ entries, ∀ e' ∈ entries, e.destination.names <+: e'.destination.names →
    e.destination.names = e'.destination.names
  /-- What is there above a destination is a directory. -/
  above : ∀ e ∈ entries, ∀ {ns a}, ns <+: e.destination.names → fs.descend? d ns = some a →
    fs.isDirectory a = true
  ends : ∀ e ∈ entries, e.destination.EndsInName
  check : ∀ e ∈ entries, (destination dir e).check = .ok ()
  name_le : ∀ e ∈ entries, ∀ n ∈ e.destination.names, n.length ≤ Path.nameLimit

variable {cfg : CheckedConfig} {dir : Path} {links : List (Inode × Segment)}
  {fs s : FileSystem} {entries done rest : List Entry} {e e' : Entry} {d : Inode}
  {text : List UInt8}

/-! ## The pass -/

theorem WellPrepared.room (h : WellPrepared fs dir d entries) (hsite : fs.Site dir links d) :
    Room fs dir links d entries :=
  ⟨hsite, h.permitted, h.absent, h.apart, h.above, h.name_le⟩

theorem WellPrepared.names_ne (h : WellPrepared fs dir d entries) (hdir : dir.isEmpty = false)
    (hinside : ∀ e ∈ entries, EntryInside e) (hm : entries = done ++ e :: rest) (he' : e' ∈ done) :
    e'.destination.names ≠ e.destination.names := by
  have hdistinct := h.distinct
  rw [hm] at hdistinct
  have hother := (List.pairwise_append.1 hdistinct).2.2 e' he' e List.mem_cons_self
  intro hnames
  have hsame : (destination dir e').same (destination dir e) = true :=
    (Path.same_join_iff hdir (hinside e' (by simp [hm, he'])).destination
      (hinside e (by simp [hm])).destination).2 hnames
  simp [hsame] at hother

/-- The next entry is linked, whatever has been placed. -/
theorem WellPrepared.exists_linked (policy : ExistingLinks) (h : WellPrepared fs dir d entries)
    (hsite : fs.Site dir links d) (hlinks : links.length ≤ linkLimit) (hdir : dir.isEmpty = false)
    (hinside : ∀ e ∈ entries, EntryInside e) (hm : entries = done ++ e :: rest)
    (hs : Foreseen fs dir links d done s) :
    ∃ linked, place policy dir s e = (.ok .linked, linked) := by
  have he : e ∈ entries := by simp [hm]
  have hdone : done ⊆ entries := by simp [hm]
  obtain ⟨i, hi, hfile⟩ := h.source e he
  obtain ⟨ms, _, hms⟩ := exists_descend?_nearest fs d e.destination.names
  have hdevice : fs.device i = fs.device (fs.nearest d e.destination.names) := by
    rw [h.device (hsite.descend?_of_find (hinside e he).source hi), h.device hms]
  exact (h.room hsite).exists_linked policy hlinks hs hdone he
    (fun e' he' => h.names_ne hdir hinside hm he') (hinside e he) (h.ends e he) (h.check e he) hi
    hfile hdevice (find_extend hs.lawful.grows.extends hi)

/-- So are all that are left. -/
theorem WellPrepared.placeAll (policy : ExistingLinks) (h : WellPrepared fs dir d entries)
    (hsite : fs.Site dir links d) (hlinks : links.length ≤ linkLimit) (hdir : dir.isEmpty = false)
    (hinside : ∀ e ∈ entries, EntryInside e) (hm : entries = done ++ rest)
    (hs : Foreseen fs dir links d done s) :
    (placeAll policy dir s rest).failure? = none ∧
      (placeAll policy dir s rest).count .linked = rest.length ∧
      (placeAll policy dir s rest).count .present = 0 := by
  induction rest generalizing done s with
  | nil => exact ⟨rfl, rfl, rfl⟩
  | cons e rest ih =>
      obtain ⟨linked, hlinked⟩ := h.exists_linked policy hsite hlinks hdir hinside hm hs
      have hnext : Foreseen fs dir links d (done ++ [e]) linked := by
        have hplaced : Foreseen fs dir links d (done ++ [e]) (place policy dir s e).2 :=
          (hs.mono (List.subset_append_left done [e])).place (by simp) (hinside e (by simp [hm]))
        rwa [hlinked] at hplaced
      obtain ⟨hfailure, hcount, hpresent⟩ := ih (by simp [hm]) hnext
      refine ⟨?_, ?_, ?_⟩
      · rw [placeAll_cons_of_ok hlinked, hfailure]
      · rw [count_cons hlinked, hcount]
        rfl
      · rw [count_cons hlinked, hpresent]
        rfl

/-! ## The replay -/

/-- In a file system whose directories form a tree, a replay goes through in a directory without
symbolic links below it that is well prepared for its manifest. It links every entry, skips the
malformed lines, and fails to remove nothing. -/
theorem run_of_wellPrepared (hfs : fs.Hierarchical) (hd : fs.find .follow dir = .ok d)
    (hdir : fs.isDirectory d = true) (hplain : fs.Plain d)
    (hread : fs.readText (cfg.manifestPath dir) = .ok text)
    (h : WellPrepared fs dir d (Manifest.read text).entries) (deleteSources : Bool) :
    ∃ deleted, (run cfg dir deleteSources fs).result = .ok
      { manifestFound := true
        linked := (Manifest.read text).entries.length
        alreadyLinked := 0
        skippedLines := (Manifest.read text).malformed.length
        sourcesDeleted := deleted
        cleanupFailures := 0 } := by
  obtain ⟨links, hleads⟩ := exists_leadsTo hd hdir
  have hsite : fs.Site dir links d := ⟨hfs, hleads, hplain⟩
  have hroom := h.room hsite
  have hwaiting := waiting_of_readText hread
  rw [← hwaiting] at h hroom ⊢
  have hinside : ∀ e ∈ waiting cfg dir fs, EntryInside e := fun e he => entryInside_of_mem_waiting he
  obtain ⟨hfailure, hlinked, hpresent⟩ :=
    h.placeAll cfg.existingLinks hsite (hroom.length_links_le hread) (isEmpty_of_find hd) hinside
      (List.nil_append _).symm (.refl hsite [])
  have hs : Foreseen fs dir links d (waiting cfg dir fs) (pass cfg dir fs).files :=
    (Foreseen.refl hsite _).placeAll (List.Subset.refl _) hinside
  obtain ⟨i, unlisted, hi, hremove, _⟩ := hroom.removeFile_manifest hread hs
  obtain ⟨hresult, _⟩ := run_of_pass deleteSources hread hfailure hremove
  have hsources : ∀ e ∈ waiting cfg dir fs, e.source.Inside ∧
      ∃ i, (pass cfg dir fs).files.find .keep (source dir e) = .ok i := by
    intro e he
    obtain ⟨i, hi, _⟩ := h.source e he
    exact ⟨(hinside e he).source, i, find_extend hs.lawful.grows.extends hi⟩
  have hremovable : ∀ e ∈ waiting cfg dir fs,
      (pass cfg dir fs).files.removable d e.source.names = true := by
    intro e he
    obtain ⟨i, hi, hfile⟩ := h.source e he
    obtain ⟨node, hnode⟩ := exists_node?_of_find hsite hi
    have hthere := hsite.descend?_of_find (hinside e he).source hi
    exact hroom.removable hs (descend?_extend hs.lawful.grows.extends hthere)
      (by rw [isDirectory_eq_of_shape? (hs.shape?_old hnode), hfile])
  have hcleanup := failures_clean_of_removable deleteSources hs.site cfg.inside_manifestName.1 hi
    hremove hsources hremovable
  refine ⟨(clean deleteSources dir (waiting cfg dir fs) unlisted).deleted, ?_⟩
  rw [hresult, report, pass, hlinked, hpresent, hcleanup]

/-- A malformed line between two entries with one source, of which one leads into a new directory.
-/
def brokenLine : FileSystem :=
  withFiles [("a", "alpha"), ("hardLinkFile", "b\ta\nbroken\nc/d\ta\n")]

theorem mem_of_descend?_brokenLine (h : brokenLine.descend? 1 ns = some i) : i ∈ [1, 4, 5] :=
  mem_of_descend? (by rfl) h

theorem wellPrepared_brokenLine :
    WellPrepared brokenLine (.ofString ".") 1
      [⟨.ofString "b", .ofString "a"⟩, ⟨.ofString "c/d", .ofString "a"⟩] where
  permitted {ns a} ha hdir := by
    have hmem := mem_of_descend?_brokenLine ha
    simp only [List.mem_cons, List.not_mem_nil, or_false] at hmem
    rcases hmem with rfl | rfl | rfl
    · exact ⟨rfl, rfl⟩
    · cases hdir
    · cases hdir
  device {ns i} hi := by
    have hmem := mem_of_descend?_brokenLine hi
    simp only [List.mem_cons, List.not_mem_nil, or_false] at hmem
    rcases hmem with rfl | rfl | rfl
    · rfl
    · rfl
    · rfl
  source := by
    simp only [List.forall_mem_cons]
    exact ⟨⟨4, by rfl, by rfl⟩, ⟨4, by rfl, by rfl⟩, by simp⟩
  distinct := by decide
  absent := by
    simp only [List.forall_mem_cons]
    exact ⟨by rfl, by rfl, by simp⟩
  apart := by decide
  above {e} he {ns a} hns ha := by
    have hall : ∀ ns ∈ [Path.ofString "b", Path.ofString "c/d"].flatMap fun p => p.names.inits,
        (brokenLine.descend? 1 ns).all brokenLine.isDirectory = true := by decide
    have hmem : e.destination ∈ [Path.ofString "b", Path.ofString "c/d"] :=
      List.mem_map_of_mem (f := Entry.destination) he
    simpa [ha] using hall ns (List.mem_flatMap.2 ⟨_, hmem, (List.mem_inits _ _).2 hns⟩)
  ends := by
    simp only [List.forall_mem_cons]
    exact ⟨⟨by decide, by decide⟩, ⟨by decide, by decide⟩, by simp⟩
  check := by
    simp only [List.forall_mem_cons]
    exact ⟨by rfl, by rfl, by simp⟩
  name_le := by decide

/-- Both entries are linked, and the line between them is skipped. -/
theorem brokenLine_linked :
    ∃ deleted, (run .default (.ofString ".") true brokenLine).result =
      .ok ⟨true, 2, 0, 1, deleted, 0⟩ := by
  have hread : brokenLine.readText (CheckedConfig.default.manifestPath (.ofString ".")) =
      .ok (Utf8.encode "b\ta\nbroken\nc/d\ta\n") := by rfl
  exact run_of_wellPrepared (hierarchical_withFiles _) (by rfl) (by rfl) (plain_of_all (by rfl)) hread
    wellPrepared_brokenLine true

end Hardlinks.Replay
