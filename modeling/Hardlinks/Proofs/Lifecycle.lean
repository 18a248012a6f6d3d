-- SUMMARY: A manifest waits unchanged until a replay goes through, and is replayed no second time.
import Hardlinks.Proofs.Installation.Endings
import Hardlinks.Proofs.Replay.Cleanup
import Hardlinks.Proofs.Resolution.Direct

/-!
# The life of a manifest

Drafts are written, installed and replayed in any order, for one directory and with one
configuration. As long as a manifest waits, no other one is installed, and neither its node nor its
bytes change; it takes a replay that goes through to remove it, and what is replayed afterwards is
nothing. All of that needs only that the path of the directory goes through no symbolic link: it
leads to the same directory then, whatever the operations do (`keepsDirectories_of_performs`).
-/

namespace Hardlinks

open FileSystem

/-- What one of the three operations left. -/
inductive Deed where
  | written (outcome : Outcome Path)
  | installed (outcome : Outcome Path)
  | applied (outcome : Outcome ReplayReport)

def Deed.files : Deed → FileSystem
  | .written outcome => outcome.files
  | .installed outcome => outcome.files
  | .applied outcome => outcome.files

/-- The operations on the directory `dir` with one configuration. No draft is given the manifest's
name. -/
inductive Performs (cfg : CheckedConfig) (dir : Path) (fs : FileSystem) : Deed → Prop
  | write {systemTemp : Path} {tags : List (List UInt8)} {length : Nat} {plan : LinkPlan}
      {fault? : Option Draft.Fault} :
      (∀ tag ∈ tags, (Draft.path cfg (cfg.draftLocation systemTemp) tag).fileName? ≠
        (Path.ofString cfg.manifestName).fileName?) →
      Performs cfg dir fs (.written (Draft.write cfg systemTemp tags length plan fs fault?))
  | install (draft : Path) : Performs cfg dir fs (.installed (Installation.run cfg draft dir fs))
  | apply (deleteSources : Bool) :
      Performs cfg dir fs (.applied (Replay.run cfg dir deleteSources fs))

/-- A sequence of operations, each from where the one before it ended. -/
inductive History (cfg : CheckedConfig) (dir : Path) :
    FileSystem → List Deed → FileSystem → Prop
  | nil {fs} : History cfg dir fs [] fs
  | cons {fs after deed deeds} : Performs cfg dir fs deed →
      History cfg dir deed.files deeds after → History cfg dir fs (deed :: deeds) after

/-- The node `i`, a file with the given bytes, is in the manifest's place. -/
structure Pending (cfg : CheckedConfig) (dir : Path) (fs : FileSystem) (i : Inode)
    (bytes : List UInt8) : Prop where
  find : fs.find .keep (cfg.manifestPath dir) = .ok i
  content? : fs.content? i = some (.file bytes)

/-- The manifest's place is the name `n` in the directory `d`, and the way there goes through no
symbolic link. -/
structure Place (cfg : CheckedConfig) (dir : Path) (d : Inode) (n : Name) (fs : FileSystem) :
    Prop where
  single : Single (.ofString cfg.manifestName) n
  length : n.length ≤ Path.nameLimit
  check : (cfg.manifestPath dir).check = .ok ()
  leads : fs.LeadsTo dir [] d
  enter : fs.enter d = .ok ()

variable {cfg : CheckedConfig} {dir draft : Path} {fs fs' after : FileSystem} {d i : Inode}
  {n : Name} {bytes : List UInt8} {deed : Deed} {deeds : List Deed} {ending : Ending}
  {deleteSources : Bool} {e : IoError} {f : Failure} {result : ReplayReport}

/-- What every operation keeps holds in the end, and what every one of them shows is shown. -/
theorem History.invariant {P : FileSystem → Prop} {Q : Deed → Prop}
    (h : History cfg dir fs deeds after) (hfs : P fs)
    (hstep : ∀ {mid deed}, deed ∈ deeds → P mid → Performs cfg dir mid deed →
      P deed.files ∧ Q deed) : P after ∧ ∀ deed ∈ deeds, Q deed := by
  induction h with
  | nil => exact ⟨hfs, by simp⟩
  | @cons fs after deed deeds hperforms _ ih =>
      obtain ⟨hdeed, hshown⟩ := hstep List.mem_cons_self hfs hperforms
      obtain ⟨hafter, hall⟩ := ih hdeed fun hmem => hstep (List.mem_cons_of_mem deed hmem)
      exact ⟨hafter, List.forall_mem_cons.2 ⟨hshown, hall⟩⟩

/-! ## The manifest's place -/

theorem Place.of_keepsDirectories (h : Place cfg dir d n fs) (hkeeps : fs.KeepsDirectories fs') :
    Place cfg dir d n fs' where
  single := h.single
  length := h.length
  check := h.check
  leads := h.leads.of_keepsDirectories hkeeps
  enter := hkeeps.enter h.enter

theorem Place.slot (h : Place cfg dir d n fs)
    (hkept : ∀ target, fs.linkAt? d (.name n) = some target → ending.follows false = false) :
    fs.slot ending (cfg.manifestPath dir) = .ok ⟨d, .name n, false⟩ := by
  refine slot_eq_ok_iff.2 ⟨h.check, [], ?_, Nat.zero_le _⟩
  refine (h.leads.pathRoute_join_iff h.single.inside).2 ⟨[], rfl, ?_⟩
  rw [h.single.segments, h.single.endsInSlash]
  exact .stop h.enter hkept

theorem Place.find_iff (h : Place cfg dir d n fs) :
    fs.find .keep (cfg.manifestPath dir) = .ok i ↔ fs.child? d n = some i := by
  rw [find, h.slot fun _ _ => rfl]
  simp [nodeAt_eq_ok_iff, step_name_eq_ok_iff, h.length]

/-- A file that is found under the manifest's name is in the manifest's place. -/
theorem exists_place (hd : fs.LeadsTo dir [] d) (h : Pending cfg dir fs i bytes) :
    ∃ n, Place cfg dir d n fs := by
  obtain ⟨n, hcomponents⟩ := cfg.components_manifestName
  have hsingle : Single (.ofString cfg.manifestName) n :=
    single_of_find hcomponents h.find (by simp [isDirectory, h.content?])
  obtain ⟨links, s, hcheck, hroute, _, hstep, _⟩ := find_eq_ok_route h.find
  obtain ⟨_, _, hend⟩ := (hd.pathRoute_join_iff hsingle.inside).1 hroute
  rw [hsingle.segments, hsingle.endsInSlash] at hend
  cases hend with
  | stop henter => exact ⟨n, hsingle, (step_name_eq_ok_iff.1 hstep).1, hcheck, hd, henter⟩
  | follow _ _ hfollows => cases hfollows

/-- Without an entry in the manifest's place, there is nothing to replay. -/
theorem Place.run_of_vacant (h : Place cfg dir d n fs) (hvacant : fs.child? d n = none) :
    Replay.run cfg dir deleteSources fs = ⟨.ok .empty, fs, [.noManifest dir]⟩ := by
  have hmissing : fs.step d (.name n) = .error (.system .noEntry) := by
    simp [step, hvacant, Nat.not_lt.2 h.length]
  have hslot : fs.slot .follow (cfg.manifestPath dir) = .ok ⟨d, .name n, false⟩ := by
    apply h.slot
    intro target htarget
    simp [linkAt?, hmissing] at htarget
  have hread : fs.readText (cfg.manifestPath dir) = .error (.system .noEntry) := by
    simp [readText, readFile, openRead, find, hslot, nodeAt, hmissing, bind, Except.bind]
  simp [Replay.run, hread, IoError.kind, Errno.kind]

/-- A manifest that waits is not missing. -/
theorem Place.kind_of_readText (h : Place cfg dir d n fs) (hpending : Pending cfg dir fs i bytes)
    (hread : fs.readText (cfg.manifestPath dir) = .error e) : e.kind ≠ .notFound := by
  have hi := h.find_iff.1 hpending.find
  have htarget : fs.target? i = none := by simp [target?, hpending.content?]
  have hslot : fs.slot .name (cfg.manifestPath dir) = .ok ⟨d, .name n, false⟩ :=
    h.slot fun _ _ => rfl
  exact FileSystem.kind_of_readText (find_of_slot_name hslot
    (step_name_eq_ok_iff.2 ⟨h.length, hi⟩) (by simp) (.inr htarget)) hread

/-! ## Directories -/

theorem keepsDirectories_dropStaging (staging : Path) (fs : FileSystem) :
    fs.KeepsDirectories (Installation.dropStaging staging fs) := by
  rcases Installation.dropStaging_cases staging fs with hremove | ⟨_, heq⟩
  · exact keepsDirectories_removeFile hremove
  · rw [heq]
    exact .refl fs

theorem keepsDirectories_placeCopy (cfg : CheckedConfig) (draft staging manifest : Path)
    (fs : FileSystem) :
    fs.KeepsDirectories (Installation.placeCopy cfg draft staging manifest fs).2 := by
  rcases Installation.placeCopy_cases cfg draft staging manifest fs with
    ⟨f, h, _⟩ | ⟨copied, hcopy, ⟨f, h⟩ | ⟨placed, h, hlink⟩⟩
  · rw [h]
    exact .refl fs
  · rw [h]
    exact keepsDirectories_copyFile hcopy
  · rw [h]
    exact (keepsDirectories_copyFile hcopy).trans
      (grows_of_linkFile hlink).extends.keepsDirectories

theorem keepsDirectories_install (cfg : CheckedConfig) (draft dir : Path) (fs : FileSystem) :
    fs.KeepsDirectories (Installation.run cfg draft dir fs).files := by
  have hprepared := (Installation.grows_prepared dir fs).extends.keepsDirectories
  have hcopied : ∀ {r left}, Installation.fallback cfg draft dir (Installation.prepared dir fs) =
      (r, left) → fs.KeepsDirectories
        (Installation.dropStaging (Installation.stagingPath cfg dir) left) := by
    intro r left hcopy
    have hleft : (Installation.prepared dir fs).KeepsDirectories left := by
      have hplaced := keepsDirectories_placeCopy cfg draft (Installation.stagingPath cfg dir)
        (cfg.manifestPath dir) (Installation.prepared dir fs)
      rw [Installation.fallback] at hcopy
      rwa [hcopy] at hplaced
    exact (hprepared.trans hleft).trans (keepsDirectories_dropStaging _ left)
  have hbrought : ∀ {placed}, Installation.Brings cfg draft dir fs placed →
      fs.KeepsDirectories placed := by
    intro placed hbrings
    cases hbrings with
    | linked _ hlink =>
        exact hprepared.trans (grows_of_linkFile hlink).extends.keepsDirectories
    | copied _ hcopy => exact hcopied hcopy
  have hruns := Installation.runs_run cfg draft dir fs
  generalize (Installation.run cfg draft dir fs).result = r at hruns
  generalize (Installation.run cfg draft dir fs).files = files at hruns ⊢
  cases hruns with
  | noDirectory => exact hprepared
  | refused => exact hprepared
  | notCopied _ hcopy => exact hcopied hcopy
  | draftKept hbrings => exact hbrought hbrings
  | unsynced hbrings hremove =>
      exact (hbrought hbrings).trans (keepsDirectories_removeFile hremove)
  | installed hbrings hremove =>
      exact (hbrought hbrings).trans (keepsDirectories_removeFile hremove)

theorem keepsDirectories_deleteAll (fs : FileSystem) (ps : List Path) :
    fs.KeepsDirectories (Replay.deleteAll fs ps).files := by
  induction ps generalizing fs with
  | nil => exact .refl fs
  | cons p ps ih =>
      rcases Replay.delete_cases fs p with ⟨removed, hremove, hdelete⟩ | ⟨_, hfiles⟩
      · simp only [Replay.deleteAll, hdelete]
        exact (keepsDirectories_removeFile hremove).trans (ih removed)
      · simp only [Replay.deleteAll, hfiles]
        exact ih fs

theorem keepsDirectories_replay (cfg : CheckedConfig) (dir : Path) (deleteSources : Bool)
    (fs : FileSystem) : fs.KeepsDirectories (Replay.run cfg dir deleteSources fs).files := by
  have hpass := (Replay.grows_pass cfg dir fs).extends.keepsDirectories
  have hruns := Replay.runs_run cfg dir deleteSources fs
  generalize (Replay.run cfg dir deleteSources fs).result = r at hruns
  generalize (Replay.run cfg dir deleteSources fs).files = files at hruns ⊢
  cases hruns with
  | noManifest => exact .refl fs
  | unreadable => exact .refl fs
  | aborted => exact hpass
  | manifestKept => exact hpass
  | @applied text unlisted _ _ hremove =>
      have hunlisted := hpass.trans (keepsDirectories_removeFile hremove)
      unfold Replay.clean
      split
      · exact hunlisted.trans (keepsDirectories_deleteAll unlisted _)
      · exact hunlisted

/-- Directories outlive all three operations. -/
theorem keepsDirectories_of_performs (h : Performs cfg dir fs deed) :
    fs.KeepsDirectories deed.files := by
  cases h with
  | write => exact (Draft.grows_of_write _ _ _ _ _ fs _).extends.keepsDirectories
  | install draft => exact keepsDirectories_install cfg draft dir fs
  | apply deleteSources => exact keepsDirectories_replay cfg dir deleteSources fs

/-! ## A manifest that waits -/

theorem Pending.grows (h : Pending cfg dir fs i bytes) (hgrows : fs.Grows after) :
    Pending cfg dir after i bytes where
  find := find_extend hgrows.extends h.find
  content? := hgrows.content?_file h.content?

/-- The hidden file has another name than the manifest. -/
theorem Place.pending_dropStaging (hplace : Place cfg dir d n fs)
    (h : Pending cfg dir fs i bytes) :
    Pending cfg dir (Installation.dropStaging (Installation.stagingPath cfg dir) fs) i bytes := by
  refine ⟨?_, Installation.content?_dropStaging h.content?⟩
  have hplace' := hplace.of_keepsDirectories
    (keepsDirectories_dropStaging (Installation.stagingPath cfg dir) fs)
  apply hplace'.find_iff.2
  apply (Installation.child?_dropStaging_iff (hplace.find_iff.1 h.find)).2
  rintro ⟨hnames, _⟩
  obtain ⟨t, hother, hhidden⟩ := single_stagingName hplace.single
  exact hother (hhidden.eq_of_names hnames).symm

/-- Nothing is linked where a manifest waits. -/
theorem Pending.linkFile_ne (h : Pending cfg dir fs i bytes) {linked : FileSystem} :
    fs.linkFile draft (cfg.manifestPath dir) ≠ .ok linked := by
  intro hlink
  obtain ⟨j, _, _, hj, _⟩ := linkFile_eq_ok_iff.1 hlink
  rw [linkFile_of_find hj h.find] at hlink
  cases hlink

/-- Where a manifest waits, a draft that cannot be linked cannot be copied. -/
theorem Pending.copyFile_ne (h : Pending cfg dir fs i bytes)
    (hlink : fs.linkFile draft (cfg.manifestPath dir) = .error e) (hkind : e.kind ≠ .alreadyExists)
    {staging : Path} {copied : FileSystem} : fs.copyFile draft staging ≠ .ok copied := by
  intro hcopy
  obtain ⟨j, hopen, _⟩ := bind_eq_ok_iff.1 hcopy
  obtain ⟨k, hk, _⟩ := bind_eq_ok_iff.1 hopen
  obtain ⟨l, hl⟩ := exists_find_keep hk
  obtain rfl := Except.error.inj ((linkFile_of_find hl h.find).symm.trans hlink)
  exact hkind rfl

/-- Where a manifest waits, no other one is installed, and it stays. -/
theorem Place.pending_install (hplace : Place cfg dir d n fs) (h : Pending cfg dir fs i bytes)
    (draft : Path) :
    Pending cfg dir (Installation.run cfg draft dir fs).files i bytes ∧
      ∃ f, (Installation.run cfg draft dir fs).result = .error f := by
  have hgrows := Installation.grows_prepared dir fs
  have hprepared := h.grows hgrows
  have hnot : ∀ {r left}, Installation.FallsBack cfg draft dir fs →
      Installation.fallback cfg draft dir (Installation.prepared dir fs) = (r, left) →
      (∃ f, r = .error f) ∧ left = Installation.prepared dir fs := by
    rintro r left ⟨_, e, hlink, hkind⟩ hcopy
    rcases Installation.placeCopy_cases cfg draft (Installation.stagingPath cfg dir)
      (cfg.manifestPath dir) (Installation.prepared dir fs) with ⟨f, hfailed, _⟩ | ⟨copied, hok, _⟩
    · rw [Installation.fallback, hfailed] at hcopy
      cases hcopy
      exact ⟨⟨f, rfl⟩, rfl⟩
    · exact absurd hok (hprepared.copyFile_ne hlink hkind)
  have hbrings : ∀ placed, ¬Installation.Brings cfg draft dir fs placed := by
    intro placed hbrings
    cases hbrings with
    | linked _ hlink => exact hprepared.linkFile_ne hlink
    | copied hback hcopy =>
        obtain ⟨⟨f, hf⟩, _⟩ := hnot hback hcopy
        cases hf
  have hruns := Installation.runs_run cfg draft dir fs
  generalize (Installation.run cfg draft dir fs).result = r at hruns ⊢
  generalize (Installation.run cfg draft dir fs).files = files at hruns ⊢
  cases hruns with
  | noDirectory => exact ⟨hprepared, _, rfl⟩
  | refused => exact ⟨hprepared, _, rfl⟩
  | notCopied hback hcopy =>
      obtain ⟨_, rfl⟩ := hnot hback hcopy
      have hplace' := hplace.of_keepsDirectories hgrows.extends.keepsDirectories
      exact ⟨hplace'.pending_dropStaging hprepared, _, rfl⟩
  | draftKept hplaced => exact absurd hplaced (hbrings _)
  | unsynced hplaced => exact absurd hplaced (hbrings _)
  | installed hplaced => exact absurd hplaced (hbrings _)

/-- A replay that fails leaves the manifest. -/
theorem Pending.replay (h : Pending cfg dir fs i bytes)
    (hfailed : (Replay.run cfg dir deleteSources fs).result = .error f) :
    Pending cfg dir (Replay.run cfg dir deleteSources fs).files i bytes := by
  have hpass := h.grows (Replay.grows_pass cfg dir fs)
  have hruns := Replay.runs_run cfg dir deleteSources fs
  rw [hfailed] at hruns
  generalize (Replay.run cfg dir deleteSources fs).files = files at hruns ⊢
  cases hruns with
  | unreadable => exact h
  | aborted => exact hpass
  | manifestKept => exact hpass

/-! ## After a replay -/

/-- A replay that goes through takes the manifest away. -/
theorem Place.vacant_of_replay (hplace : Place cfg dir d n fs) (h : Pending cfg dir fs i bytes)
    (hok : (Replay.run cfg dir deleteSources fs).result = .ok result) :
    (Replay.run cfg dir deleteSources fs).files.child? d n = none := by
  have hruns := Replay.runs_run cfg dir deleteSources fs
  rw [hok] at hruns
  generalize (Replay.run cfg dir deleteSources fs).files = files at hruns ⊢
  cases hruns with
  | noManifest hread hkind => exact absurd hkind (hplace.kind_of_readText h hread)
  | @applied text unlisted _ _ hremove =>
      have hpass := hplace.of_keepsDirectories
        (Replay.grows_pass cfg dir fs).extends.keepsDirectories
      have hnames : (Replay.pass cfg dir fs).files.Names (cfg.manifestPath dir) d n :=
        ⟨false, hpass.slot fun _ _ => rfl⟩
      have hunlisted : unlisted.child? d n = none := child?_removeFile_of_names hremove hnames
      unfold Replay.clean
      split
      · apply Option.eq_none_iff_forall_ne_some.2
        intro j hj
        rw [(Replay.extends_deleteAll unlisted _).child? hj] at hunlisted
        cases hunlisted
      · exact hunlisted

/-- A draft is not put into the manifest's place. -/
theorem Place.vacant_of_write {systemTemp : Path} {tags : List (List UInt8)} {length : Nat}
    {plan : LinkPlan} {fault? : Option Draft.Fault} (hplace : Place cfg dir d n fs)
    (hvacant : fs.child? d n = none)
    (hnames : ∀ tag ∈ tags, (Draft.path cfg (cfg.draftLocation systemTemp) tag).fileName? ≠
      (Path.ofString cfg.manifestName).fileName?) :
    (Draft.write cfg systemTemp tags length plan fs fault?).files.child? d n = none := by
  have hwrites := Draft.writes_write cfg systemTemp tags length plan fs fault?
  generalize (Draft.write cfg systemTemp tags length plan fs fault?).result = r at hwrites
  generalize (Draft.write cfg systemTemp tags length plan fs fault?).files = files at hwrites ⊢
  cases hwrites with
  | refused => exact hvacant
  | discarded => rw [child?_addNode (by simp), hvacant]
  | @written m tag _ _ htag hcreate =>
      obtain ⟨s, n', hslot, _, hname, _, hfiles⟩ := createFile_eq_ok_iff.1 hcreate
      rw [hfiles, child?_create (by simp) hslot hname, if_neg, hvacant]
      rintro ⟨_, rfl⟩
      have hsegments : (Path.ofString cfg.manifestName).segments = [] ++ [.name n] :=
        hplace.single.segments
      have hmanifest := Path.fileName?_of_segments hsegments
      apply hnames tag htag
      rw [hmanifest, (names_of_vacantName hslot hname).fileName?]

/-- What remains to be said of a manifest that waits. -/
structure ConsumedOnce (cfg : CheckedConfig) (dir : Path) (fs : FileSystem) (i : Inode)
    (bytes : List UInt8) : Prop where
  /-- As long as no replay goes through, the manifest stays and no other one is installed. -/
  kept : ∀ {deeds after}, History cfg dir fs deeds after →
    (∀ outcome, .applied outcome ∈ deeds → ∃ f, outcome.result = .error f) →
    Pending cfg dir after i bytes ∧
      ∀ outcome, .installed outcome ∈ deeds → ∃ f, outcome.result = .error f
  /-- If the manifest does not stay, a replay went through. -/
  removed : ∀ {deeds after}, History cfg dir fs deeds after → ¬Pending cfg dir after i bytes →
    ∃ outcome result, .applied outcome ∈ deeds ∧ outcome.result = .ok result
  /-- After a replay that went through, and until an installation leaves something in the
  manifest's place, every replay finds nothing and does nothing. -/
  spent : ∀ {deleteSources result deeds after},
    (Replay.run cfg dir deleteSources fs).result = .ok result →
    History cfg dir (Replay.run cfg dir deleteSources fs).files deeds after →
    (∀ outcome, .installed outcome ∈ deeds →
      ∀ j, outcome.files.find .keep (cfg.manifestPath dir) ≠ .ok j) →
    ∀ again, Replay.run cfg dir again after = ⟨.ok .empty, after, [.noManifest dir]⟩

/-- One step of a manifest that waits, if it is no replay that goes through. -/
theorem Place.pending_of_performs (hplace : Place cfg dir d n fs) (h : Pending cfg dir fs i bytes)
    (hperforms : Performs cfg dir fs deed)
    (hfailed : ∀ outcome, deed = .applied outcome → ∃ f, outcome.result = .error f) :
    Pending cfg dir deed.files i bytes ∧
      ∀ outcome, deed = .installed outcome → ∃ f, outcome.result = .error f := by
  cases hperforms with
  | write => exact ⟨h.grows (Draft.grows_of_write _ _ _ _ _ fs _), by simp⟩
  | install draft =>
      obtain ⟨hpending, hresult⟩ := hplace.pending_install h draft
      refine ⟨hpending, ?_⟩
      intro outcome heq
      cases heq
      exact hresult
  | apply deleteSources =>
      obtain ⟨f, hf⟩ := hfailed _ rfl
      exact ⟨h.replay hf, by simp⟩

/-- One step without a manifest, if nothing is installed by it. -/
theorem Place.vacant_of_performs (hplace : Place cfg dir d n fs) (hvacant : fs.child? d n = none)
    (hperforms : Performs cfg dir fs deed)
    (hnot : ∀ outcome, deed = .installed outcome →
      ∀ j, outcome.files.find .keep (cfg.manifestPath dir) ≠ .ok j) :
    deed.files.child? d n = none := by
  have hplace' := hplace.of_keepsDirectories (keepsDirectories_of_performs hperforms)
  cases hperforms with
  | write hnames => exact hplace.vacant_of_write hvacant hnames
  | install draft =>
      apply Option.eq_none_iff_forall_ne_some.2
      intro j hj
      exact hnot _ rfl j (hplace'.find_iff.2 hj)
  | apply deleteSources =>
      rw [Deed.files, hplace.run_of_vacant hvacant, hvacant]

/-- The directory that a path leads to without symbolic links stays there through all operations. -/
theorem History.leadsTo (h : History cfg dir fs deeds after) (hd : fs.LeadsTo dir [] d) :
    after.LeadsTo dir [] d := by
  refine (h.invariant (P := fun mid => mid.LeadsTo dir [] d) (Q := fun _ => True) hd ?_).1
  intro mid deed _ hmid hperforms
  exact ⟨hmid.of_keepsDirectories (keepsDirectories_of_performs hperforms), trivial⟩

/-- However operations on one directory follow each other, a manifest that waits in it is consumed
once, by a replay that goes through. -/
theorem consumedOnce_of_pending (hd : fs.LeadsTo dir [] d) (h : History cfg dir fs deeds after)
    (hpending : Pending cfg dir after i bytes) : ConsumedOnce cfg dir after i bytes := by
  obtain ⟨n, hplace⟩ := exists_place (h.leadsTo hd) hpending
  have hkept : ∀ {deeds' later}, History cfg dir after deeds' later →
      (∀ outcome, .applied outcome ∈ deeds' → ∃ f, outcome.result = .error f) →
      Pending cfg dir later i bytes ∧
        ∀ outcome, .installed outcome ∈ deeds' → ∃ f, outcome.result = .error f := by
    intro deeds' later hhistory hfailed
    have hinvariant := hhistory.invariant
      (P := fun mid => Place cfg dir d n mid ∧ Pending cfg dir mid i bytes)
      (Q := fun deed => ∀ outcome, deed = .installed outcome → ∃ f, outcome.result = .error f)
      ⟨hplace, hpending⟩ ?_
    · exact ⟨hinvariant.1.2, fun outcome hmem => hinvariant.2 _ hmem outcome rfl⟩
    · rintro mid deed hmem ⟨hmid, hwaits⟩ hperforms
      obtain ⟨hwaits', hrefused⟩ := hmid.pending_of_performs hwaits hperforms
        fun outcome heq => hfailed outcome (heq ▸ hmem)
      exact ⟨⟨hmid.of_keepsDirectories (keepsDirectories_of_performs hperforms), hwaits'⟩, hrefused⟩
  refine ⟨hkept, ?_, ?_⟩
  · intro deeds' later hhistory hgone
    apply Classical.byContradiction
    intro hnone
    refine hgone (hkept hhistory ?_).1
    intro outcome hmem
    cases hresult : outcome.result with
    | error f => exact ⟨f, rfl⟩
    | ok result => exact absurd ⟨outcome, result, hmem, hresult⟩ hnone
  · intro deleteSources result deeds' later hok hhistory hnot again
    have hreplayed := hplace.of_keepsDirectories
      (keepsDirectories_replay cfg dir deleteSources after)
    have hvacant := hplace.vacant_of_replay hpending hok
    obtain ⟨⟨hlater, hvacant'⟩, _⟩ := hhistory.invariant
      (P := fun mid => Place cfg dir d n mid ∧ mid.child? d n = none) (Q := fun _ => True)
      ⟨hreplayed, hvacant⟩ <| by
        rintro mid deed hmem ⟨hmid, hfree⟩ hperforms
        refine ⟨⟨hmid.of_keepsDirectories (keepsDirectories_of_performs hperforms), ?_⟩, trivial⟩
        exact hmid.vacant_of_performs hfree hperforms fun outcome heq => hnot outcome (heq ▸ hmem)
    exact hlater.run_of_vacant hvacant'

/-- A draft in the directory where it is to be installed. -/
def draftBeside : FileSystem :=
  withFiles [("a", "alpha"), ("draft", "b\ta\n")]

/-- The installation of that draft. -/
def draftInstalled : Outcome Path :=
  Installation.run .default (.ofString "draft") (.ofString ".") draftBeside

/-- The manifest waits then, and a replay of it goes through. -/
theorem consumedOnce_of_draftInstalled :
    Pending .default (.ofString ".") draftInstalled.files 5 (Utf8.encode "b\ta\n") ∧
      (Replay.run .default (.ofString ".") true draftInstalled.files).result =
        .ok ⟨true, 1, 0, 0, 1, 0⟩ ∧
      ConsumedOnce .default (.ofString ".") draftInstalled.files 5 (Utf8.encode "b\ta\n") := by
  have hleads : draftBeside.LeadsTo (.ofString ".") [] 1 := by
    have hroute : draftBeside.Route .follow 1 [.here] false [] ⟨1, .here, false⟩ :=
      .stop (by rfl) fun target htarget => by cases htarget
    exact ⟨⟨_, hroute, by rfl⟩, by rfl⟩
  have hhistory : History .default (.ofString ".") draftBeside [.installed draftInstalled]
      draftInstalled.files := .cons (.install _) .nil
  have hpending : Pending .default (.ofString ".") draftInstalled.files 5
      (Utf8.encode "b\ta\n") := ⟨by rfl, by rfl⟩
  refine ⟨hpending, ?_, consumedOnce_of_pending hleads hhistory hpending⟩
  decide +kernel

end Hardlinks
