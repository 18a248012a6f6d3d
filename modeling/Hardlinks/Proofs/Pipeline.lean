-- SUMMARY: When a plan that is written, installed and applied has made all its links.
import Hardlinks.Proofs.Installation.Manifest
import Hardlinks.Proofs.Replay.Run

/-!
# From a plan to its links

A plan is written to a draft, the draft is installed in a directory, and the manifest there is
applied. If all three work, every line of the manifest should be an entry of the plan again, all
entries should have been placed, and the manifest should be gone (`Fulfilled`). That is what happens
unless the copy of the draft is lost on its way, by what somebody else has put under the hidden name
(`fulfilled_iff`).
-/

namespace Hardlinks

open FileSystem

variable {cfg : CheckedConfig} {dir : Path} {fs : FileSystem} {m : Manifest} {result : ReplayReport}

theorem Outcome.eq_of_result {α : Type} {outcome : Outcome α} {result : Except Failure α}
    (h : outcome.result = result) : outcome = ⟨result, outcome.files, outcome.events⟩ := by
  rw [← h]

/-- What is to be expected when a plan has been written, installed in a directory and applied there:
each of its pairs is linked, so that destination and source name the same node, unless one of them
is the manifest's own place. -/
structure Fulfilled (cfg : CheckedConfig) (dir : Path) (length : Nat) (plan : LinkPlan)
    (result : ReplayReport) (final : FileSystem) : Prop where
  found : result.manifestFound = true
  skipped : result.skippedLines = 0
  counted : result.linked + result.alreadyLinked = plan.pairs.length
  gone : final.find .keep (cfg.manifestPath dir) = .error (.system .noEntry)
  linked : ∀ pair ∈ plan.pairs, ∃ d s, pair.1.cut length = .ok d ∧ pair.2.cut length = .ok s ∧
    (¬final.SamePlace (dir.join d) (cfg.manifestPath dir) →
      ¬final.SamePlace (dir.join (s.flatten (.ofString cfg.activeMarker))) (cfg.manifestPath dir) →
      ∃ i, final.find .keep (dir.join d) = .ok i ∧
        final.find .keep (dir.join (s.flatten (.ofString cfg.activeMarker))) = .ok i)

/-- The draft is copied, but not to a file of its own: the hidden name leads to the draft itself, or
to the null device although there is something to copy. -/
def Strays (cfg : CheckedConfig) (plan : LinkPlan) (draft dir : Path) (fs : FileSystem) : Prop :=
  Installation.FallsBack cfg draft dir fs ∧
    ∃ j, (Installation.prepared dir fs).find .follow (Installation.stagingPath cfg dir) = .ok j ∧
      ((Installation.prepared dir fs).find .follow draft = .ok j ∨
        (Installation.prepared dir fs).content? j = some .null ∧ plan.pairs ≠ [])

/-! ## Applying a manifest that was written -/

/-- A file that is there is read, or it fails for another reason than that it is missing. -/
theorem readText_of_holds {p : Path} {bytes : List UInt8} (h : Holds fs p bytes) :
    fs.readText p = .ok bytes ∨ ∃ e, fs.readText p = .error e ∧ e.kind ≠ .notFound := by
  obtain ⟨j, hj, hcontent⟩ := h
  cases hallows : fs.allows j Mode.read with
  | false =>
      refine .inr ⟨.system .accessDenied, ?_, by decide⟩
      simp [readText, readFile, openRead, hj, hallows, bind, Except.bind]
  | true =>
      have hread : fs.readFile p = .ok bytes := readFile_eq_ok_iff.2 ⟨j, hj, hallows, hcontent⟩
      cases hvalid : Utf8.isValid bytes with
      | false =>
          refine .inr ⟨.notText, ?_, by decide⟩
          simp [readText, hread, hvalid, bind, Except.bind]
      | true => exact .inl (readText_eq_ok_iff.2 ⟨hread, hvalid⟩)

/-- Applying a manifest that was written places all its entries and removes it. -/
theorem run_of_holds (hm : ∀ e ∈ m, e.Writable) (hholds : Holds fs (cfg.manifestPath dir) m.text)
    (h : (Replay.run cfg dir false fs).result = .ok result) :
    result.manifestFound = true ∧ result.skippedLines = 0 ∧
      result.linked + result.alreadyLinked = m.length ∧
      (Replay.run cfg dir false fs).files.find .keep (cfg.manifestPath dir) =
        .error (.system .noEntry) ∧
      ∀ e ∈ m,
        let final := (Replay.run cfg dir false fs).files
        ¬final.SamePlace (Replay.destination dir e) (cfg.manifestPath dir) →
        ¬final.SamePlace (Replay.source dir e) (cfg.manifestPath dir) →
        ∃ i, final.find .keep (Replay.destination dir e) = .ok i ∧
          final.find .keep (Replay.source dir e) = .ok i := by
  have hruns := Replay.runs_run cfg dir false fs
  rw [h] at hruns
  generalize (Replay.run cfg dir false fs).files = files at hruns ⊢
  cases hruns with
  | noManifest hread hkind =>
      rcases readText_of_holds hholds with hok | ⟨e, he, hother⟩
      · simp [hread] at hok
      · rw [hread] at he
        cases he
        exact absurd hkind hother
  | @applied text unlisted hread hfailure hremove =>
      obtain rfl : text = m.text := by
        rcases readText_of_holds hholds with hok | ⟨e, he, _⟩
        · exact Except.ok.inj (hread.symm.trans hok)
        · simp [hread] at he
      have hwaiting : Replay.waiting cfg dir fs = m := by
        rw [Replay.waiting_of_readText hread, Manifest.read_text hm]
      have hread' := (readText_eq_ok_iff.1
        (readText_of_grows (Replay.grows_pass cfg dir fs) hread)).1
      refine ⟨rfl, ?_, ?_, find_of_removeFile hremove hread', ?_⟩
      · simp only [Replay.report, Manifest.read_text hm, List.length_nil]
      · rw [← hwaiting]
        exact Replay.count_of_placeAll hfailure
      · intro e he final hdestination hsource
        obtain ⟨i, hs, hd⟩ := Replay.find_of_placeAll hfailure (hwaiting ▸ he)
        have hother : ∀ {p : Path}, ¬final.SamePlace p (cfg.manifestPath dir) → ∀ d n,
            (Replay.pass cfg dir fs).files.Names p d n →
            ¬(Replay.pass cfg dir fs).files.Names (cfg.manifestPath dir) d n :=
          fun hplace d n hp hq =>
            hplace ⟨d, n, hp.removeFile hremove hread', hq.removeFile hremove hread'⟩
        exact ⟨i, find_removeFile hremove hread' hd (hother hdestination),
          find_removeFile hremove hread' hs (hother hsource)⟩

/-- A replay that reports a manifest has read it, and has placed as many entries as it has. -/
theorem readText_of_found (h : (Replay.run cfg dir false fs).result = .ok result)
    (hfound : result.manifestFound = true) :
    ∃ text, fs.readText (cfg.manifestPath dir) = .ok text ∧
      result.linked + result.alreadyLinked = (Manifest.read text).entries.length := by
  have hruns := Replay.runs_run cfg dir false fs
  rw [h] at hruns
  generalize (Replay.run cfg dir false fs).files = files at hruns
  cases hruns with
  | noManifest => cases hfound
  | @applied text unlisted hread hfailure _ =>
      refine ⟨text, hread, ?_⟩
      rw [← Replay.waiting_of_readText hread]
      exact Replay.count_of_placeAll hfailure

/-! ## From the plan on -/

variable {systemTemp draft manifest : Path} {tags : List (List UInt8)} {length : Nat}
  {plan : LinkPlan} {fault? : Option Draft.Fault} {written installed final : FileSystem}
  {events events' events'' : List Event}

/-- A manifest that holds what was written is applied as planned. -/
theorem fulfilled_of_holds (hm : plan.manifest cfg length = .ok m)
    (hholds : Holds installed (cfg.manifestPath dir) m.text)
    (hrun : Replay.run cfg dir false installed = ⟨.ok result, final, events⟩) :
    Fulfilled cfg dir length plan result final := by
  obtain ⟨hfound, hskipped, hcount, hgone, hlinks⟩ :=
    run_of_holds (LinkPlan.writable_of_manifest hm) hholds (congrArg Outcome.result hrun)
  rw [hrun] at hgone hlinks
  refine ⟨hfound, hskipped, hcount.trans (LinkPlan.length_manifest hm), hgone, ?_⟩
  intro pair hpair
  obtain ⟨e, he, hentry⟩ := LinkPlan.exists_entry hm hpair
  obtain ⟨d, s, hd, hs, rfl, _⟩ := LinkPlan.entry_eq_ok hentry
  exact ⟨d, s, hd, hs, hlinks _ he⟩

theorem text_of_pairs_eq_nil (hm : plan.manifest cfg length = .ok m) (h : plan.pairs = []) :
    m.text = [] := by
  have hlength := LinkPlan.length_manifest hm
  rw [h] at hlength
  obtain rfl := List.length_eq_zero_iff.1 hlength
  rfl

/-- When a plan is written, installed in a directory and applied there, all is as it is to be
expected, unless the draft was copied to where it is lost. -/
theorem fulfilled_iff (hfs : fs.WellFormed)
    (hwrite : Draft.write cfg systemTemp tags length plan fs fault? = ⟨.ok draft, written, events⟩)
    (hinstall : Installation.run cfg draft dir written = ⟨.ok manifest, installed, events'⟩)
    (hrun : Replay.run cfg dir false installed = ⟨.ok result, final, events''⟩) :
    Fulfilled cfg dir length plan result final ↔ ¬Strays cfg plan draft dir written := by
  obtain ⟨m, hm, _, hcreate⟩ := Draft.write_eq_ok (congrArg Outcome.result hwrite)
  simp only [hwrite] at hcreate
  obtain ⟨placed, hbrings, hremove⟩ :=
    Installation.brings_of_run (congrArg Outcome.result hinstall)
  simp only [hinstall] at hremove
  obtain ⟨d, n, i, hfile, hsole⟩ := Installation.sole_of_createFile hfs hcreate dir
  constructor
  · rintro hfulfilled ⟨hback, j, hj, hcase⟩
    obtain ⟨text, hread, hcount⟩ :=
      readText_of_found (congrArg Outcome.result hrun) hfulfilled.found
    rcases hcase with hdraft | ⟨hnull, hpairs⟩
    · -- The manifest leads to the draft's name, which is gone.
      obtain rfl := Except.ok.inj ((hfile.find .follow).symm.trans hdraft)
      obtain ⟨k, hk, _⟩ := readFile_eq_ok_iff.1 (readText_eq_ok_iff.1 hread).1
      exact Installation.find_of_own_copy hbrings hback hremove hfile hsole hj hk
    · -- The manifest is empty.
      obtain rfl := Installation.text_of_null hbrings hback hremove hj hnull hread
      rw [hfulfilled.counted] at hcount
      exact hpairs (List.length_eq_zero_iff.1 hcount)
  · intro hstays
    have hwell := Installation.wellFormed_prepared (hfs.call (.createFile hcreate)) dir
    obtain ⟨hholds, hapart⟩ := hbrings.holds hwell hfile fun hback j hj => by
      refine ⟨?_, fun hnull => ?_⟩
      · rintro rfl
        exact hstays ⟨hback, i, hj, .inl (hfile.find .follow)⟩
      · by_contra htext
        have hpairs : plan.pairs ≠ [] := fun hpairs => htext (text_of_pairs_eq_nil hm hpairs)
        exact hstays ⟨hback, j, hj, .inr ⟨hnull, hpairs⟩⟩
    exact fulfilled_of_holds hm (hholds.removeFile hapart hremove) hrun

/-- A file is there to be linked. -/
def oneFile : FileSystem := withFiles [("a", "alpha")]

/-- The file is the source, under the path that it has in a checkpoint. -/
def onePair : LinkPlan :=
  .ofList [(.ofString "base/b/c", .ofString "base/db.checkpoints/7/a")]

/-- The tag that is drawn. -/
def drawn : List UInt8 := Utf8.encode "aB3xYz"

/-- A directory on another device, in which the hidden name is a link to the null device. -/
def nullBeside : FileSystem where
  nodes := #[
    ⟨0, ⟨true, false, true⟩, default,
      .directory 0 [(Utf8.encode "work", 1), (Utf8.encode "dev", 2)]⟩,
    ⟨0, .ofNewDirectory, default, .directory 0 [(Utf8.encode "t", 4)]⟩,
    ⟨2, ⟨true, false, true⟩, default, .directory 0 [(Utf8.encode "null", 3)]⟩,
    ⟨2, .ofNewFile, default, .null⟩,
    ⟨1, .ofNewDirectory, default,
      .directory 1 [(Utf8.encode "a", 5), (Utf8.encode ".hardLinkFile.tmp", 6)]⟩,
    ⟨1, .ofNewFile, default, .file (Utf8.encode "alpha")⟩,
    ⟨1, ⟨true, true, true⟩, default, .symlink (.ofString "/dev/null")⟩]
  start := 1

theorem wellFormed_nullBeside : nullBeside.WellFormed where
  start := by decide
  content? {i c} hc := by
    match i with
    | 0 | 1 | 2 | 4 =>
        cases hc
        exact ⟨by decide, by decide⟩
    | 3 | 5 | 6 =>
        cases hc
        trivial
    | i + 7 => cases hc

/-- Nothing is synchronised. -/
def unsynced : CheckedConfig :=
  ⟨{ Config.default with sync := false }, by decide⟩

/-- The draft of the pair, its installation in a directory, and the replay there. -/
def onePairRun (cfg : CheckedConfig) (dir : Path) (fs : FileSystem) :
    Outcome Path × Outcome Path × Outcome ReplayReport :=
  let written := Draft.write cfg (.ofString ".") [drawn] 5 onePair fs
  let installed := Installation.run cfg (.ofString "./dataaB3xYz.txt") dir written.files
  (written, installed, Replay.run cfg dir false installed.files)

/-- The pair is linked where the draft is linked, and is not where the draft is copied to the null
device, although the three steps go through. -/
theorem fulfilled_of_oneFile_not_of_nullBeside :
    let near := onePairRun .default (.ofString ".") oneFile
    let far := onePairRun unsynced (.ofString "t") nullBeside
    (near.1.result = .ok (.ofString "./dataaB3xYz.txt") ∧
      near.2.1.result = .ok (.ofString "./hardLinkFile") ∧
      near.2.2.result = .ok ⟨true, 1, 0, 0, 0, 0⟩ ∧
      Fulfilled .default (.ofString ".") 5 onePair ⟨true, 1, 0, 0, 0, 0⟩ near.2.2.files) ∧
    far.1.result = .ok (.ofString "./dataaB3xYz.txt") ∧
      far.2.1.result = .ok (.ofString "t/hardLinkFile") ∧
      far.2.2.result = .ok ⟨true, 0, 0, 0, 0, 0⟩ ∧
      ¬Fulfilled unsynced (.ofString "t") 5 onePair ⟨true, 0, 0, 0, 0, 0⟩ far.2.2.files := by
  constructor
  · have hwrite : (onePairRun .default (.ofString ".") oneFile).1.result =
        .ok (.ofString "./dataaB3xYz.txt") := by rfl
    have hinstall : (onePairRun .default (.ofString ".") oneFile).2.1.result =
        .ok (.ofString "./hardLinkFile") := by rfl
    have hrun : (onePairRun .default (.ofString ".") oneFile).2.2.result =
        .ok ⟨true, 1, 0, 0, 0, 0⟩ := by rfl
    have hlink : ∃ linked, (Installation.prepared (.ofString ".")
        (onePairRun .default (.ofString ".") oneFile).1.files).linkFile
          (.ofString "./dataaB3xYz.txt") (.ofString "./hardLinkFile") = .ok linked := ⟨_, by rfl⟩
    obtain ⟨linked, hlink⟩ := hlink
    refine ⟨hwrite, hinstall, hrun, ?_⟩
    exact (fulfilled_iff (wellFormed_withFiles _) (Outcome.eq_of_result hwrite)
      (Outcome.eq_of_result hinstall) (Outcome.eq_of_result hrun)).2
      fun hstrays => hstrays.1.linkFile_ne hlink
  · have hwrite : (onePairRun unsynced (.ofString "t") nullBeside).1.result =
        .ok (.ofString "./dataaB3xYz.txt") := by rfl
    have hinstall : (onePairRun unsynced (.ofString "t") nullBeside).2.1.result =
        .ok (.ofString "t/hardLinkFile") := by rfl
    have hrun : (onePairRun unsynced (.ofString "t") nullBeside).2.2.result =
        .ok ⟨true, 0, 0, 0, 0, 0⟩ := by rfl
    have hstrays : Strays unsynced onePair (.ofString "./dataaB3xYz.txt") (.ofString "t")
        (onePairRun unsynced (.ofString "t") nullBeside).1.files :=
      ⟨⟨by rfl, _, by rfl, by decide⟩, 3, by rfl, .inr ⟨by rfl, by decide⟩⟩
    refine ⟨hwrite, hinstall, hrun, fun hfulfilled => ?_⟩
    exact (fulfilled_iff wellFormed_nullBeside (Outcome.eq_of_result hwrite)
      (Outcome.eq_of_result hinstall) (Outcome.eq_of_result hrun)).1 hfulfilled hstrays

end Hardlinks
