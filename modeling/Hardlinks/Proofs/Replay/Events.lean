-- SUMMARY: The report of a replay, its events and the lines of its manifest tell the same.
import Hardlinks.Proofs.Replay.Disposal

/-!
# Events

A replay tells three times what it did: in the counts of its report, in its events, and in the lines
of the manifest, which the counts and the events are about. All of them agree (`told_of_run`). The
lines are told by the reading (`countP_isEntry`, `malformed_read`), the links by the pass
(`events_pass`) and the sources by the cleanup, which tries each of them once
(`card_staged`, `deleted_add_failures_le`).
-/

namespace Hardlinks

/-- True for a line that reads as an entry. -/
def Entry.isLine (line : List UInt8) : Bool :=
  (Entry.ofLine line).isOk

/-- A line with its number, if it is malformed. -/
def MalformedLine.of? (l : List UInt8 × Nat) : Option MalformedLine :=
  match Entry.ofLine l.1 with
  | .ok _ => none
  | .error defect => some ⟨l.2, l.1, defect⟩

/-- A count that a record has among its fields. -/
def Record.count? (record : Record) (name : String) : Option Nat :=
  match record.fields.lookup name with
  | some (.count n) => some n
  | _ => none

namespace Replay

/-- The entries whose destinations a pass found present. -/
def Pass.present (pass : Pass) : List Entry :=
  (pass.placed.filter fun p => p.2 == .present).map Prod.fst

/-- The sources that a cleanup could not remove. -/
def Cleanup.failed (cleanup : Cleanup) : List (Path × IoError) :=
  cleanup.removals.filterMap fun (source, removal) =>
    match removal with
    | .failed cause => some (source, cause)
    | _ => none

/-- The sources that are no destinations, each with its components. -/
def staged (dir : Path) (entries : List Entry) : Finset (List Component) :=
  (entries.map fun e => (source dir e).components).toFinset \
    (entries.map fun e => (destination dir e).components).toFinset

/-- A warning about each malformed line, in the order of the lines. -/
def warnings (manifest : Path) (text : List UInt8) : List Event :=
  (((Text.lines text).zipIdx 1).filterMap MalformedLine.of?).map (.lineSkipped manifest)

/-- A note about each destination that was found present. -/
def notes (dir : Path) (pass : Pass) : List Event :=
  pass.present.map fun e => .alreadyLinked (destination dir e)

/-- What a replay tells that applies a manifest with the given text. -/
structure Told (cfg : CheckedConfig) (dir : Path) (deleteSources : Bool) (fs : FileSystem)
    (text : List UInt8) (report : ReplayReport) (events : List Event) : Prop where
  placed : report.linked + report.alreadyLinked = (Text.lines text).countP Entry.isLine
  skipped : report.skippedLines = (Text.lines text).countP fun line => !Entry.isLine line
  removed : report.sourcesDeleted + report.cleanupFailures ≤
    (staged dir (waiting cfg dir fs)).card
  kept : deleteSources = false → report.sourcesDeleted + report.cleanupFailures = 0
  emitted : ∃ unlisted, (pass cfg dir fs).files.removeFile (cfg.manifestPath dir) = .ok unlisted ∧
    events = warnings (cfg.manifestPath dir) text ++ notes dir (pass cfg dir fs) ++
      (clean deleteSources dir (waiting cfg dir fs) unlisted).failed.map
        (fun p => .sourceNotDeleted p.1 p.2) ++
      [.applied dir report]
  levels : events.map Event.level =
    List.replicate report.skippedLines .warn ++ List.replicate report.alreadyLinked .debug ++
      List.replicate report.cleanupFailures .warn ++ [.info]
  /-- The last record has the counts of the report, but for the sources that could not be removed:
  the record has no field for them, and each has a warning of its own. -/
  counts : ∃ event, events.getLast? = some event ∧
    event.record.count? "linked" = some report.linked ∧
    event.record.count? "already_linked" = some report.alreadyLinked ∧
    event.record.count? "skipped" = some report.skippedLines ∧
    event.record.count? "sources_deleted" = some report.sourcesDeleted

variable {cfg : CheckedConfig} {dir manifest : Path} {deleteSources : Bool}
  {fs unlisted : FileSystem} {text : List UInt8} {result : ReplayReport} {f : Failure}

/-! ## Lines -/

theorem malformed_readLines (number : Nat) (lines : List (List UInt8)) :
    (Manifest.readLines number lines).malformed =
      (lines.zipIdx number).filterMap MalformedLine.of? := by
  induction lines generalizing number with
  | nil => rfl
  | cons line lines ih =>
      rw [Manifest.readLines, List.zipIdx_cons, List.filterMap_cons, ← ih, MalformedLine.of?]
      cases Entry.ofLine line <;> rfl

theorem warnings_eq (manifest : Path) (text : List UInt8) :
    (Manifest.read text).malformed.map (.lineSkipped manifest) = warnings manifest text := by
  rw [Manifest.read, malformed_readLines, warnings]

/-- The well-formed lines are as many as the entries. -/
theorem countP_isLine (text : List UInt8) :
    (Text.lines text).countP Entry.isLine = (Manifest.read text).entries.length := by
  rw [Manifest.read, Manifest.entries_readLines, List.length_filterMap_eq_countP]
  refine List.countP_congr fun line _ => ?_
  rw [Entry.isLine]
  cases Entry.ofLine line <;> simp [Except.isOk, Except.toBool, Except.toOption]

/-- All other lines are malformed. -/
theorem countP_not_isLine (text : List UInt8) :
    ((Text.lines text).countP fun line => !Entry.isLine line) =
      (Manifest.read text).malformed.length := by
  have hlines := List.length_eq_countP_add_countP Entry.isLine (l := Text.lines text)
  have hlength := Manifest.length_readLines 1 (Text.lines text)
  rw [countP_isLine, Manifest.read] at hlines
  simp only [Bool.not_eq_true, Bool.decide_eq_false] at hlines
  rw [Manifest.read]
  omega

/-! ## Links -/

theorem events_pass (pass : Pass) (dir : Path) : pass.events dir = notes dir pass := by
  unfold Pass.events notes Pass.present
  induction pass.placed with
  | nil => rfl
  | cons p placed ih =>
      obtain ⟨e, placement⟩ := p
      cases placement <;> simpa using ih

theorem length_present (pass : Pass) : pass.present.length = pass.count .present := by
  rw [Pass.present, List.length_map, Pass.count, List.countP_eq_length_filter]

/-! ## Sources -/

theorem events_cleanup (cleanup : Cleanup) :
    cleanup.events = cleanup.failed.map fun p => .sourceNotDeleted p.1 p.2 := by
  unfold Cleanup.events Cleanup.failed
  induction cleanup.removals with
  | nil => rfl
  | cons r removals ih =>
      obtain ⟨p, removal⟩ := r
      cases removal <;> simpa using ih

theorem length_failed (cleanup : Cleanup) : cleanup.failed.length = cleanup.failures := by
  rw [Cleanup.failures, events_cleanup, List.length_map]

/-- A source is removed, or cannot be removed, or is missing. -/
theorem deleted_add_failures_le (cleanup : Cleanup) :
    cleanup.deleted + cleanup.failures ≤ cleanup.removals.length := by
  unfold Cleanup.deleted Cleanup.failures Cleanup.events
  induction cleanup.removals with
  | nil => rfl
  | cons r removals ih =>
      obtain ⟨p, removal⟩ := r
      cases removal <;> simp at ih ⊢ <;> omega

theorem card_staged (dir : Path) (entries : List Entry) :
    (staged dir entries).card = (disposable dir entries).length := by
  have hset : staged dir entries = ((disposable dir entries).map Path.components).toFinset := by
    ext c
    rw [List.mem_toFinset, components_mem_disposable_iff]
    simp [staged]
  rw [hset, List.toFinset_card_of_nodup (components_disposable_nodup dir entries), List.length_map]

theorem deleted_add_failures_clean_le (deleteSources : Bool) (dir : Path) (entries : List Entry)
    (fs : FileSystem) :
    (clean deleteSources dir entries fs).deleted + (clean deleteSources dir entries fs).failures ≤
      (staged dir entries).card := by
  cases deleteSources with
  | false => exact Nat.zero_le _
  | true =>
      rw [card_staged, ← map_fst_removals fs (disposable dir entries), List.length_map]
      exact deleted_add_failures_le _

/-! ## Replays -/

/-- A replay that has found a manifest has read it, has placed its entries and has removed it. -/
theorem applied_of_run (h : (run cfg dir deleteSources fs).result = .ok result)
    (hfound : result.manifestFound = true) :
    ∃ text unlisted, fs.readText (cfg.manifestPath dir) = .ok text ∧
      (pass cfg dir fs).failure? = none ∧
      (pass cfg dir fs).files.removeFile (cfg.manifestPath dir) = .ok unlisted ∧
      result = report (pass cfg dir fs) (Manifest.read text).malformed.length
        (clean deleteSources dir (waiting cfg dir fs) unlisted) := by
  have hruns := runs_run cfg dir deleteSources fs
  rw [h] at hruns
  generalize (run cfg dir deleteSources fs).files = files at hruns
  cases hruns with
  | noManifest => cases hfound
  | applied hread hfailure hremove => exact ⟨_, _, hread, hfailure, hremove, rfl⟩

theorem told_of_pass (deleteSources : Bool)
    (hread : fs.readText (cfg.manifestPath dir) = .ok text)
    (hfailure : (pass cfg dir fs).failure? = none)
    (hremove : (pass cfg dir fs).files.removeFile (cfg.manifestPath dir) = .ok unlisted) :
    Told cfg dir deleteSources fs text
      (report (pass cfg dir fs) (Manifest.read text).malformed.length
        (clean deleteSources dir (waiting cfg dir fs) unlisted))
      (run cfg dir deleteSources fs).events := by
  have hevents := events_of_pass deleteSources hread hfailure hremove
  rw [warnings_eq, events_pass, events_cleanup] at hevents
  refine ⟨?_, (countP_not_isLine text).symm, ?_, ?_, ⟨unlisted, hremove, hevents⟩, ?_, ?_⟩
  · rw [countP_isLine, ← waiting_of_readText hread]
    exact count_of_placeAll hfailure
  · exact deleted_add_failures_clean_le deleteSources dir _ unlisted
  · rintro rfl
    rfl
  · rw [hevents, ← warnings_eq, notes]
    simp only [List.map_append, List.map_map, Function.comp_def, Event.level, List.map_const',
      length_present, length_failed, List.map_singleton]
    rfl
  · exact ⟨_, by rw [hevents, List.getLast?_concat], rfl, rfl, rfl, rfl⟩

/-- A replay that fails after reading the manifest has told of every malformed line and of nothing
that it would only tell in the end. -/
theorem events_of_run_failed (hread : fs.readText (cfg.manifestPath dir) = .ok text)
    (h : (run cfg dir deleteSources fs).result = .error f) :
    (run cfg dir deleteSources fs).events =
        warnings (cfg.manifestPath dir) text ++ notes dir (pass cfg dir fs) ∧
      ∀ event ∈ (run cfg dir deleteSources fs).events, event.level ≠ .info := by
  have hevents := events_of_failed hread h
  rw [warnings_eq, events_pass] at hevents
  refine ⟨hevents, fun event hevent => ?_⟩
  rw [hevents, warnings, notes] at hevent
  rcases List.mem_append.1 hevent with hevent | hevent
  · obtain ⟨line, _, rfl⟩ := List.mem_map.1 hevent
    simp [Event.level]
  · obtain ⟨e, _, rfl⟩ := List.mem_map.1 hevent
    simp [Event.level]

/-- The report of a replay, its events and the lines of the manifest tell the same; a replay that
fails after reading the manifest tells of the lines and of the links that it found. -/
theorem told_of_run (cfg : CheckedConfig) (dir : Path) (deleteSources : Bool) (fs : FileSystem) :
    (∀ result, (run cfg dir deleteSources fs).result = .ok result →
        result.manifestFound = true →
        ∃ text, fs.readText (cfg.manifestPath dir) = .ok text ∧
          Told cfg dir deleteSources fs text result (run cfg dir deleteSources fs).events) ∧
      ∀ text f, fs.readText (cfg.manifestPath dir) = .ok text →
        (run cfg dir deleteSources fs).result = .error f →
        (run cfg dir deleteSources fs).events =
            warnings (cfg.manifestPath dir) text ++ notes dir (pass cfg dir fs) ∧
          ∀ event ∈ (run cfg dir deleteSources fs).events, event.level ≠ .info := by
  refine ⟨fun result h hfound => ?_, fun text f hread h => events_of_run_failed hread h⟩
  obtain ⟨text, unlisted, hread, hfailure, hremove, rfl⟩ := applied_of_run h hfound
  exact ⟨text, hread, told_of_pass deleteSources hread hfailure hremove⟩

/-- A file in a directory that cannot be changed, and a manifest with the given text. -/
def lockedWith (text : String) : FileSystem :=
  let fs := (FileSystem.empty.makeDirectory (.ofString "locked")).toOption.getD .empty
  let fs := (fs.writeFile (.ofString "locked/a") (Utf8.encode "alpha")).toOption.getD fs
  let fs := (fs.writeFile (.ofString "hardLinkFile") (Utf8.encode text)).toOption.getD fs
  (fs.changeMode (.ofString "locked") ⟨true, false, true⟩).toOption.getD fs

/-- A replay of this tells of something of each kind. -/
def keptSource : FileSystem :=
  lockedWith "b\tlocked/a\nbroken\nb\tlocked/a\n"

/-- A replay of this fails at the last line. -/
def missingLast : FileSystem :=
  lockedWith "broken\nb\tlocked/a\nb\tlocked/a\nc\tmissing\n"

theorem told_of_kept_source :
    ((run .default ⟨[]⟩ true keptSource).result = .ok ⟨true, 1, 1, 1, 0, 1⟩ ∧
        ∃ text, keptSource.readText (.ofString "hardLinkFile") = .ok text ∧
          Told .default ⟨[]⟩ true keptSource text ⟨true, 1, 1, 1, 0, 1⟩
            (run .default ⟨[]⟩ true keptSource).events) ∧
      ∃ text f, missingLast.readText (.ofString "hardLinkFile") = .ok text ∧
        (run .default ⟨[]⟩ true missingLast).result = .error f ∧
        (run .default ⟨[]⟩ true missingLast).events =
            warnings (.ofString "hardLinkFile") text ++ notes ⟨[]⟩ (pass .default ⟨[]⟩ missingLast) ∧
        ∀ event ∈ (run .default ⟨[]⟩ true missingLast).events, event.level ≠ .info := by
  have hkept : (run .default ⟨[]⟩ true keptSource).result = .ok ⟨true, 1, 1, 1, 0, 1⟩ := by rfl
  have hfailed : (run .default ⟨[]⟩ true missingLast).result =
      .error (.link (.ofString "missing") (.ofString "c") (.system .noEntry)) := by rfl
  have hread : missingLast.readText (.ofString "hardLinkFile") =
      .ok (Utf8.encode "broken\nb\tlocked/a\nb\tlocked/a\nc\tmissing\n") := by rfl
  exact ⟨⟨hkept, (told_of_run .default ⟨[]⟩ true keptSource).1 _ hkept rfl⟩, _, _, hread, hfailed,
    (told_of_run .default ⟨[]⟩ true missingLast).2 _ _ hread hfailed⟩

end Replay

end Hardlinks
