-- SUMMARY: Writing a draft adds one file with the manifest of the plan, or nothing at all.
import Hardlinks.Proofs.Draft
import Hardlinks.Proofs.FileSystem.WellFormed
import Hardlinks.Proofs.FileSystem.Nodes
import Hardlinks.Proofs.FileSystem.Rewriting
import Hardlinks.Proofs.Resolution.Spelling

/-!
# What writing a draft leaves

Whatever step fails, a draft that could not be written has left nothing (`unchanged_of_write`): what
had been made of it is removed again. One that was written is a new file in the directory for
drafts, all else is as it was, and what reads back from it is the manifest of the plan
(`newDraft_of_write`). Its path leads nowhere before, under any spelling, so it is none of the
drafts that are still there (`pairwise_of_standing`).
-/

namespace Hardlinks

/-- A file with the given bytes has been added, as the next node and with the name `n` in the
directory `d`, and nothing else has changed. -/
structure AddsFile (fs : FileSystem) (d : Inode) (n : Name) (bytes : List UInt8)
    (after : FileSystem) : Prop where
  free : fs.child? d n = none
  content? : after.content? fs.nextInode = some (.file bytes)
  child? : ∀ a m, after.child? a m =
    if a = d ∧ m = n then some fs.nextInode else fs.child? a m
  node? : ∀ {i}, i ≠ d → i ≠ fs.nextInode → after.node? i = fs.node? i
  /-- Of the directory, too, only the entries have changed. -/
  bare : ∀ {i}, i ≠ fs.nextInode → (after.node? i).map Node.bare = (fs.node? i).map Node.bare
  start : after.start = fs.start

/-- Every entry and every node are what they were. -/
structure Unchanged (fs after : FileSystem) : Prop where
  start : after.start = fs.start
  child? : ∀ d n, after.child? d n = fs.child? d n
  node? : ∀ {i node}, fs.node? i = some node → after.node? i = some node
  /-- What has been removed again was a file, and no entry is left that leads to it. -/
  removed : ∀ {i node}, fs.node? i = none → after.node? i = some node →
    (∃ bytes, node.content = .file bytes) ∧ (fs.WellFormed → ∀ d n, after.child? d n ≠ some i)

namespace Draft

open FileSystem

/-- The path is that of a new draft of the manifest, with the name `n` in the directory `d`, and the
draft is all that is new. -/
structure NewDraft (cfg : CheckedConfig) (location : Path) (tags : List (List UInt8)) (m : Manifest)
    (fs after : FileSystem) (p : Path) (d : Inode) (n : Name) : Prop where
  path : p = location.join ⟨n⟩
  name : ∃ tag ∈ tags, n = Utf8.encode cfg.draftPrefix ++ tag ++ Utf8.encode cfg.draftSuffix
  leads : ∃ links, fs.LeadsTo location links d
  missing : fs.find .keep p = .error (.system .noEntry)
  names : after.Names p d n
  adds : AddsFile fs d n m.text after
  readText : after.readText p = .ok m.text
  read : Manifest.read m.text = ⟨m, []⟩

/-- The drafts that have been written and are still there, after drafts were written and the file
system has changed in any other way, again and again. -/
inductive Standing : List Path → FileSystem → Prop
  | start {fs} : Standing [] fs
  | written {ps fs cfg systemTemp tags length plan fault? p} : Standing ps fs →
      (write cfg systemTemp tags length plan fs fault?).result = .ok p →
      Standing (p :: ps) (write cfg systemTemp tags length plan fs fault?).files
  | failed {ps fs cfg systemTemp tags length plan fault? f} : Standing ps fs →
      (write cfg systemTemp tags length plan fs fault?).result = .error f →
      Standing ps (write cfg systemTemp tags length plan fs fault?).files
  | changed {ps fs after} : Standing ps fs →
      Standing (ps.filter fun p => (after.find .keep p).isOk) after

variable {cfg : CheckedConfig} {systemTemp p : Path} {tags : List (List UInt8)} {length : Nat}
  {plan : LinkPlan} {fs after : FileSystem} {fault? : Option Fault} {f : Failure} {d : Inode}
  {n : Name} {mode : Mode} {bytes : List UInt8} {ps : List Path}

/-! ## New files -/

theorem addsFile_of_createFile (h : fs.createFile p mode bytes = .ok after) :
    ∃ d n, fs.slot .name p = .ok ⟨d, .name n, false⟩ ∧ n.length ≤ Path.nameLimit ∧
      AddsFile fs d n bytes after := by
  obtain ⟨s, n, hslot, hslash, hname, _, rfl⟩ := createFile_eq_ok_iff.1 h
  obtain ⟨hlast, hlength, hfree⟩ := vacantName_eq_ok_iff.1 hname
  have hne := dir_ne_nextInode hslot hname
  refine ⟨s.dir, n, by rw [hslot, ← hlast, ← hslash], hlength, hfree, content?_create_nextInode,
    fun a m => child?_create (by simp) hslot hname, fun hd hi => ?_, fun hi => ?_, ?_⟩
  · rw [node?_create _ _ _ _ _ hne, if_neg hi, addEntry, node?_modifyEntries hd]
  · rw [node?_create _ _ _ _ _ hne, if_neg hi, addEntry, bare_modifyEntries]
  · simp only [create, addEntry, start_modifyEntries, addNode]

/-- A new file is what its path leads to, whatever is asked for. -/
theorem find_of_createFile (h : fs.createFile p mode bytes = .ok after) (ending : Ending) :
    after.find ending p = .ok fs.nextInode := by
  have hextends := (grows_of_createFile h).extends
  obtain ⟨s, n, hslot, hslash, hname, _, rfl⟩ := createFile_eq_ok_iff.1 h
  refine find_of_slot_name (slot_name_extend hextends hslot) (step_create (by simp) hslot hname)
    (fun hs => by simp [hslash] at hs) (.inr ?_)
  rw [target?, content?_create_nextInode]

/-- A new file reads as what it was made with. -/
theorem readText_of_createFile (h : fs.createFile p .ofNewFile bytes = .ok after)
    (hvalid : Utf8.isValid bytes = true) : after.readText p = .ok bytes := by
  have hfind := find_of_createFile h .follow
  obtain ⟨s, n, hslot, _, hname, _, rfl⟩ := createFile_eq_ok_iff.1 h
  have hne := dir_ne_nextInode hslot hname
  have hallows : (fs.create s.dir n .ofNewFile (.file bytes)).allows fs.nextInode Mode.read =
      true := by
    rw [allows, node?_create_nextInode hne]
    rfl
  exact readText_eq_ok_iff.2
    ⟨readFile_eq_ok_iff.2 ⟨_, hfind, hallows, bytes?_of_content? content?_create_nextInode⟩, hvalid⟩

/-! ## Drafts -/

theorem draftPrefix_ne_nil (cfg : CheckedConfig) : Utf8.encode cfg.draftPrefix ≠ [] := by
  intro hnil
  have hdata : cfg.draftPrefix.toByteArray.data = #[] := by simpa [Utf8.encode] using hnil
  have hempty : cfg.draftPrefix = "" := String.toByteArray_inj.1 (ByteArray.ext hdata)
  have hchecked := cfg.defect?_eq_none
  unfold Config.defect? at hchecked
  simp only [hempty] at hchecked
  grind

theorem unchanged_addNode (fs : FileSystem) (device : Nat) (bytes : List UInt8) :
    Unchanged fs (fs.addNode ⟨device, mode, default, .file bytes⟩) where
  start := rfl
  child? _ _ := child?_addNode (by simp)
  node? {i node} hi := by
    rw [node?_addNode, if_neg, hi]
    rintro rfl
    simp [node?_nextInode] at hi
  removed {i node} hnone hnode := by
    rw [node?_addNode] at hnode
    split at hnode
    · next heq =>
      cases hnode
      refine ⟨⟨bytes, rfl⟩, fun hfs d n hchild => ?_⟩
      rw [child?_addNode (by simp)] at hchild
      exact Nat.ne_of_lt (hfs.child? hchild) heq
    · simp [hnone] at hnode

/-- Writing a draft that fails leaves nothing behind. -/
theorem unchanged_of_write
    (h : (write cfg systemTemp tags length plan fs fault?).result = .error f) :
    Unchanged fs (write cfg systemTemp tags length plan fs fault?).files := by
  have hwrites := writes_write cfg systemTemp tags length plan fs fault?
  rw [h] at hwrites
  generalize (write cfg systemTemp tags length plan fs fault?).files = files at hwrites ⊢
  cases hwrites with
  | refused => exact ⟨rfl, fun _ _ => rfl, id, fun hnone hnode => by simp [hnone] at hnode⟩
  | discarded => exact unchanged_addNode fs _ _

theorem newDraft_of_write (hbegin : Path.slash ∉ Utf8.encode cfg.draftPrefix)
    (hend : Path.slash ∉ Utf8.encode cfg.draftSuffix) (htags : ∀ tag ∈ tags, Path.slash ∉ tag)
    (h : (write cfg systemTemp tags length plan fs fault?).result = .ok p) :
    ∃ m d n, plan.manifest cfg length = .ok m ∧
      NewDraft cfg (cfg.draftLocation systemTemp) tags m fs
        (write cfg systemTemp tags length plan fs fault?).files p d n := by
  obtain ⟨m, hm, ⟨tag, htag, rfl⟩, hcreate⟩ := write_eq_ok h
  obtain ⟨d, n, hslot, hlength, hadds⟩ := addsFile_of_createFile hcreate
  have hslash : Path.slash ∉ Utf8.encode cfg.draftPrefix ++ tag ++ Utf8.encode cfg.draftSuffix := by
    simp [hbegin, hend, htags tag htag]
  have hne : Utf8.encode cfg.draftPrefix ++ tag ++ Utf8.encode cfg.draftSuffix ≠ [] := by
    simp [draftPrefix_ne_nil cfg]
  have hjoin : path cfg (cfg.draftLocation systemTemp) tag = (cfg.draftLocation systemTemp).join
      (.ofParts [Utf8.encode cfg.draftPrefix ++ tag ++ Utf8.encode cfg.draftSuffix]) := by
    simp [path, Path.ofParts, List.intercalate]
  have hnames := hslot
  rw [hjoin] at hnames
  obtain ⟨rfl, hleads⟩ := leadsTo_of_names_join hslash hne ⟨false, hnames⟩
  refine ⟨m, d, _, hm, rfl, ⟨tag, htag, rfl⟩, hleads, find_of_vacant hslot hlength hadds.free,
    ⟨false, slot_name_extend (grows_of_createFile hcreate).extends hslot⟩, hadds,
    readText_of_createFile hcreate (LinkPlan.isValid_text hm),
    Manifest.read_text (LinkPlan.writable_of_manifest hm)⟩

/-! ## Drafts over time -/

/-- A path that leads somewhere is not that of a file that is made, under any spelling. -/
theorem same_eq_false_of_createFile {q : Path} {i : Inode} {ending : Ending}
    (h : fs.createFile p mode bytes = .ok after) (hi : fs.find ending q = .ok i) :
    p.same q = false := by
  apply Bool.eq_false_iff.2
  intro hsame
  obtain ⟨d, n, hslot, _, hadds⟩ := addsFile_of_createFile h
  obtain ⟨j, hj⟩ := exists_child?_of_same (p := q) (by rwa [Path.same, Bool.beq_comm]) hi
    ⟨false, hslot⟩
  simp [hadds.free] at hj

theorem find_of_standing (h : Standing ps fs) : ∀ p ∈ ps, ∃ i, fs.find .keep p = .ok i := by
  induction h with
  | start => simp
  | written _ hresult ih =>
      obtain ⟨m, _, _, hcreate⟩ := write_eq_ok hresult
      refine List.forall_mem_cons.2 ⟨⟨_, find_of_createFile hcreate .keep⟩, fun q hq => ?_⟩
      obtain ⟨i, hi⟩ := ih q hq
      exact ⟨i, find_extend (grows_of_createFile hcreate).extends hi⟩
  | failed _ _ ih =>
      intro q hq
      obtain ⟨i, hi⟩ := ih q hq
      exact ⟨i, find_extend (grows_of_write _ _ _ _ _ _ _).extends hi⟩
  | @changed ps fs after _ _ =>
      intro p hp
      have hfound := (List.mem_filter.1 hp).2
      cases hi : after.find .keep p with
      | ok i => exact ⟨i, rfl⟩
      | error e => simp [hi, Except.isOk, Except.toBool] at hfound

/-- Of the drafts that are still there, no two have one path. -/
theorem pairwise_of_standing (h : Standing ps fs) :
    ps.Pairwise fun p q => p.same q = false := by
  induction h with
  | start => exact .nil
  | written hstanding hresult ih =>
      obtain ⟨m, _, _, hcreate⟩ := write_eq_ok hresult
      refine .cons (fun q hq => ?_) ih
      obtain ⟨i, hi⟩ := find_of_standing hstanding q hq
      exact same_eq_false_of_createFile hcreate hi
  | failed _ _ ih => exact ih
  | changed _ ih => exact ih.filter _

/-- Whatever step fails, writing a draft leaves nothing or the draft alone, which reads back as the
manifest of the plan, and drafts that are there together have different paths. -/
theorem write_all_or_nothing (cfg : CheckedConfig) (systemTemp : Path) (tags : List (List UInt8))
    (length : Nat) (plan : LinkPlan) (fs : FileSystem) (fault? : Option Fault)
    (hbegin : Path.slash ∉ Utf8.encode cfg.draftPrefix)
    (hend : Path.slash ∉ Utf8.encode cfg.draftSuffix)
    (htags : ∀ tag ∈ tags, Path.slash ∉ tag) :
    (∀ f, (write cfg systemTemp tags length plan fs fault?).result = .error f →
        Unchanged fs (write cfg systemTemp tags length plan fs fault?).files) ∧
      (∀ p, (write cfg systemTemp tags length plan fs fault?).result = .ok p →
        ∃ m d n, plan.manifest cfg length = .ok m ∧
          NewDraft cfg (cfg.draftLocation systemTemp) tags m fs
            (write cfg systemTemp tags length plan fs fault?).files p d n) ∧
      ∀ ps after, Standing ps after → ps.Pairwise fun p q => p.same q = false :=
  ⟨fun _ h => unchanged_of_write h, fun _ h => newDraft_of_write hbegin hend htags h,
    fun _ _ h => pairwise_of_standing h⟩

/-- One link below a root that is cut off. -/
def linkOfA : LinkPlan :=
  .ofList [(.ofString "r/b", .ofString "r/a")]

/-- Drafts with the same tags to try. The first tag is taken by then, and the last draft can be
filled with three bytes only. -/
theorem write_all_or_nothing_of_two_drafts :
    let tags := [Utf8.encode "x", Utf8.encode "y", Utf8.encode "z"]
    let full : Fault := ⟨.fill 3, .plain .other⟩
    let first := write .default (.ofString ".") tags 2 linkOfA FileSystem.empty
    let second := write .default (.ofString ".") tags 2 linkOfA first.files
    let third := write .default (.ofString ".") tags 2 linkOfA second.files (some full)
    first.result = .ok (.ofString "./datax.txt") ∧
      second.result = .ok (.ofString "./datay.txt") ∧
      (∃ m d n, linkOfA.manifest .default 2 = .ok m ∧
        NewDraft .default (.ofString ".") tags m first.files second.files
          (.ofString "./datay.txt") d n) ∧
      third.result = .error (.io (.plain .other)) ∧ third.files ≠ second.files ∧
      Unchanged second.files third.files ∧
      ([.ofString "./datay.txt", .ofString "./datax.txt"] : List Path).Pairwise
        fun p q => p.same q = false := by
  intro tags full first second third
  have hfirst : first.result = .ok (.ofString "./datax.txt") := by rfl
  have hsecond : second.result = .ok (.ofString "./datay.txt") := by rfl
  have hthird : third.result = .error (.io (.plain .other)) := by decide +kernel
  obtain ⟨_, hwritten, hstanding⟩ := write_all_or_nothing .default (.ofString ".") tags 2 linkOfA
    first.files none (by decide) (by decide) (by decide)
  obtain ⟨hfailed, _⟩ := write_all_or_nothing .default (.ofString ".") tags 2 linkOfA
    second.files (some full) (by decide) (by decide) (by decide)
  exact ⟨hfirst, hsecond, hwritten _ hsecond, hthird, by decide +kernel, hfailed _ hthird,
    hstanding _ _ (.failed (.written (.written .start hfirst) hsecond) hthird)⟩

end Draft

end Hardlinks
