-- SUMMARY: A replay that failed at one entry never falls behind that entry when it is run again.
import Hardlinks.Proofs.FileSystem.Parts
import Hardlinks.Proofs.Replay.Abort
import Hardlinks.Proofs.Replay.Restart

/-!
# Retries

A replay that fails at an entry leaves the first ones placed. Before it is run again, somebody may
add what was missing, and anything else. Nothing of that gets in the way of the paths which the
first replay used, so the second one finds the first entries present without changing anything
(`placeAll_again`). If it fails, it does so at the same entry or after it, and if it works, it
counts the first entries as present (`retried_of_run_failed`).
-/

namespace Hardlinks.Replay

open FileSystem

/-- A pass over the entries places the first `k` of them and fails at the next one. -/
def FailsAt (policy : ExistingLinks) (dir : Path) (fs : FileSystem) (entries : List Entry) (k : Nat)
    (f : Failure) : Prop :=
  (placeAll policy dir fs (entries.take k)).failure? = none ∧
    ∃ e after, entries[k]? = some e ∧
      place policy dir (placeAll policy dir fs (entries.take k)).files e = (.error f, after)

/-- What a second replay does about the entries, of which `k` are placed already. -/
structure Retried (cfg : CheckedConfig) (dir : Path) (deleteSources : Bool) (entries : List Entry)
    (k : Nat) (fs : FileSystem) : Prop where
  waiting : waiting cfg dir fs = entries
  /-- Each of the first entries is counted as present, and nothing changes meanwhile. -/
  before : ∀ j ≤ k, before cfg dir fs j = ⟨(entries.take j).map fun e => (e, .present), none, fs⟩
  /-- A failure comes later: at the same entry or after it, or after all entries. -/
  failed : ∀ {f}, (run cfg dir deleteSources fs).result = .error f →
    (∃ j, k ≤ j ∧ FailsAt cfg.existingLinks dir fs entries j f) ∨
      (pass cfg dir fs).failure? = none ∧ ∃ e, f = .deleteManifest (cfg.manifestPath dir) e
  worked : ∀ {report}, (run cfg dir deleteSources fs).result = .ok report →
    k ≤ report.alreadyLinked ∧ report.linked + report.alreadyLinked = entries.length

variable {cfg : CheckedConfig} {policy : ExistingLinks} {dir : Path} {deleteSources : Bool}
  {fs mid : FileSystem} {e : Entry} {xs : List Entry} {f : Failure} {j k : Nat}

/-! ## Well-formedness -/

theorem wellFormed_place (hfs : fs.WellFormed) (policy : ExistingLinks) (dir : Path) (e : Entry) :
    (place policy dir fs e).2.WellFormed := by
  generalize houtcome : place policy dir fs e = outcome
  cases places_of_eq houtcome with
  | linked hparent hlink => exact (hfs.provideParent hparent).call (.linkFile hlink)
  | present hparent => exact hfs.provideParent hparent
  | noParent hparent => exact hfs.provideParent hparent
  | refused hparent => exact hfs.provideParent hparent

theorem wellFormed_placeAll (hfs : fs.WellFormed) :
    (placeAll policy dir fs xs).files.WellFormed := by
  induction xs generalizing fs with
  | nil => exact hfs
  | cons e xs ih =>
      have hplaced := wellFormed_place hfs policy dir e
      rcases hplace : place policy dir fs e with ⟨f | placement, after⟩
      · rw [placeAll_cons_of_error hplace]
        simpa [hplace] using hplaced
      · rw [placeAll_cons_of_ok hplace]
        rw [hplace] at hplaced
        exact ih hplaced

/-! ## Where a pass fails -/

/-- A pass that fails does so at one entry. -/
theorem exists_failsAt (h : (placeAll policy dir fs xs).failure? = some f) :
    ∃ k, FailsAt policy dir fs xs k f := by
  obtain ⟨k, hk, hfirst, hlast⟩ := placeAll_of_failure h
  exact ⟨k, hfirst, xs[k], _, List.getElem?_eq_getElem hk, hlast⟩

theorem placeAll_take_of_le (h : (placeAll policy dir fs (xs.take k)).failure? = none)
    (hj : j ≤ k) : (placeAll policy dir fs (xs.take j)).failure? = none := by
  have htake : (xs.take k).take j = xs.take j := by rw [List.take_take, Nat.min_eq_left hj]
  have hsplit : xs.take k = xs.take j ++ (xs.take k).drop j := by
    rw [← htake, List.take_append_drop]
  rw [hsplit] at h
  exact (placeAll_of_append h).1

/-- Entries that are placed come before the one that fails. -/
theorem FailsAt.le (h : FailsAt policy dir fs xs j f)
    (hk : (placeAll policy dir fs (xs.take k)).failure? = none) : k ≤ j := by
  apply Nat.le_of_not_lt
  intro hlt
  obtain ⟨hfirst, e, after, he, hplace⟩ := h
  have hnext := placeAll_take_of_le hk (Nat.succ_le_of_lt hlt)
  rw [List.take_add_one, he, Option.toList_some, placeAll_append hfirst,
    placeAll_cons_of_error hplace] at hnext
  cases hnext

/-- The first entries are placed when the pass goes on from them. -/
theorem grows_placeAll_take (h : (placeAll policy dir fs (xs.take k)).failure? = none) :
    (placeAll policy dir fs (xs.take k)).files.Grows (placeAll policy dir fs xs).files := by
  have happend := placeAll_append h (xs.drop k)
  rw [List.take_append_drop] at happend
  rw [happend]
  exact grows_placeAll _ _ _ _

/-! ## Replays -/

/-- What was read before the replay failed is read again. -/
theorem waiting_of_partOf {text : List UInt8} (hfs : fs.WellFormed)
    (hread : fs.readText (cfg.manifestPath dir) = .ok text)
    (hmid : (pass cfg dir fs).files.PartOf mid) :
    mid.readText (cfg.manifestPath dir) = .ok text ∧ waiting cfg dir mid = waiting cfg dir fs := by
  have hpass := readText_of_grows (grows_pass cfg dir fs) hread
  have hread' := hmid.readText (wellFormed_placeAll hfs) hpass
  exact ⟨hread', by rw [waiting_of_readText hread', waiting_of_readText hread]⟩

/-- The entries that were placed before the failure are present. -/
theorem placeAll_take_again (hfs : fs.WellFormed) (hpolicy : policy = .acceptSame)
    (h : (placeAll policy dir fs (xs.take k)).failure? = none)
    (hmid : (placeAll policy dir fs xs).files.PartOf mid) (hj : j ≤ k) :
    placeAll policy dir mid (xs.take j) = ⟨(xs.take j).map fun e => (e, .present), none, mid⟩ := by
  have hfirst := placeAll_take_of_le h hj
  have hgrows := (grows_placeAll_take hfirst).extends.keepsWalks
  have hkeeps := hgrows.trans (hmid.keepsWalks (wellFormed_placeAll hfs))
  rw [hpolicy]
  exact placeAll_again hfirst hkeeps

/-- A replay that finds the first `k` entries present fails after them, or counts them. -/
theorem retried_of_before {text : List UInt8}
    (hread : fs.readText (cfg.manifestPath dir) = .ok text) (hk : k ≤ (waiting cfg dir fs).length)
    (hbefore : ∀ j ≤ k, before cfg dir fs j =
      ⟨((waiting cfg dir fs).take j).map fun e => (e, .present), none, fs⟩) :
    Retried cfg dir deleteSources (waiting cfg dir fs) k fs := by
  have hnone : (placeAll cfg.existingLinks dir fs ((waiting cfg dir fs).take k)).failure? = none :=
    congrArg Pass.failure? (hbefore k (Nat.le_refl k))
  refine ⟨rfl, hbefore, ?_, ?_⟩
  · intro f hrun
    have hruns := runs_run cfg dir deleteSources fs
    rw [hrun] at hruns
    generalize (run cfg dir deleteSources fs).files = files at hruns
    cases hruns with
    | unreadable hunread =>
        rw [hread] at hunread
        cases hunread
    | aborted hfailure =>
        obtain ⟨j, hfails⟩ := exists_failsAt hfailure
        exact .inl ⟨j, hfails.le hnone, hfails⟩
    | manifestKept hplaced _ => exact .inr ⟨hplaced, _, rfl⟩
  · intro report hrun
    have hruns := runs_run cfg dir deleteSources fs
    rw [hrun] at hruns
    generalize (run cfg dir deleteSources fs).files = files at hruns
    cases hruns with
    | noManifest hunread _ =>
        rw [hread] at hunread
        cases hunread
    | applied _ hplaced _ =>
        have hfirst : (before cfg dir fs k).count .present = k := by
          rw [hbefore k (Nat.le_refl k), Pass.count, countP_present, if_pos rfl,
            List.length_take, Nat.min_eq_left hk]
        have hpresent := count_pass hplaced k .present
        rw [hfirst] at hpresent
        exact ⟨by rw [Replay.report, hpresent]; exact Nat.le_add_right k _,
          count_of_placeAll hplaced⟩

/-- A replay that fails to place an entry, run again after anything was added, finds the entries
before that one present. It changes nothing for them, fails, if at all, no earlier than before, and
otherwise counts them as present. -/
theorem retried_of_run_failed (hfs : fs.WellFormed) (hpolicy : cfg.existingLinks = .acceptSame)
    (h : (run cfg dir deleteSources fs).result = .error f)
    (hf : (∃ p q e, f = .link p q e) ∨ ∃ p e, f = .createDirectory p e) :
    ∃ k, FailsAt cfg.existingLinks dir fs (waiting cfg dir fs) k f ∧
      ∀ mid, (run cfg dir deleteSources fs).files.PartOf mid →
        Retried cfg dir deleteSources (waiting cfg dir fs) k mid := by
  have hruns := runs_run cfg dir deleteSources fs
  rw [h] at hruns
  generalize (run cfg dir deleteSources fs).files = files at hruns ⊢
  cases hruns with
  | unreadable => simp at hf
  | manifestKept => simp at hf
  | aborted hfailure =>
      obtain ⟨k, hfails⟩ := exists_failsAt hfailure
      refine ⟨k, hfails, ?_⟩
      intro mid hmid
      obtain ⟨hfirst, e, _, he, _⟩ := hfails
      have hk : k < (waiting cfg dir fs).length := (List.getElem?_eq_some_iff.1 he).1
      cases hread : fs.readText (cfg.manifestPath dir) with
      | error cause => simp [waiting, hread] at hk
      | ok text =>
          obtain ⟨hread', hwaiting⟩ := waiting_of_partOf hfs hread hmid
          rw [← hwaiting] at hk ⊢
          apply retried_of_before hread' (Nat.le_of_lt hk)
          intro j hj
          rw [before, hwaiting]
          exact placeAll_take_again hfs hpolicy hfirst hmid hj

/-- In the place of the missing source, a symbolic link is made. -/
def repaired : FileSystem :=
  ((run .default ⟨[]⟩ true missingSource).files.makeSymlink (.ofString "a")
    (.ofString "missing")).toOption.getD .empty

/-- The second replay finds the first link there and makes the other one, for the symbolic link. -/
theorem retried_of_missing_source :
    let failure : Failure := .link (.ofString "missing") (.ofString "c/d") (.system .noEntry)
    let entries := waiting .default ⟨[]⟩ missingSource
    (run .default ⟨[]⟩ true missingSource).result = .error failure ∧
      (run .default ⟨[]⟩ true missingSource).files.PartOf repaired ∧
      FailsAt .acceptSame ⟨[]⟩ missingSource entries 1 failure ∧
      Retried .default ⟨[]⟩ true entries 1 repaired ∧
      (run .default ⟨[]⟩ true repaired).result = .ok ⟨true, 1, 1, 0, 2, 0⟩ := by
  intro failure entries
  have hrun : (run .default ⟨[]⟩ true missingSource).result = .error failure := by rfl
  have hmade : (run .default ⟨[]⟩ true missingSource).files.makeSymlink (.ofString "a")
      (.ofString "missing") = .ok repaired := by rfl
  have hpart := partOf_of_makeSymlink hmade
  have hwell : missingSource.WellFormed := wellFormed_withFiles _
  have hsecond : FailsAt .acceptSame ⟨[]⟩ missingSource entries 1 failure :=
    ⟨by rfl, ⟨.ofString "c/d", .ofString "missing"⟩, _, by rfl, by rfl⟩
  obtain ⟨k, hfails, hretried⟩ := retried_of_run_failed hwell rfl hrun (.inl ⟨_, _, _, rfl⟩)
  have hk : k = 1 := Nat.le_antisymm (hsecond.le hfails.1) (hfails.le hsecond.1)
  subst hk
  exact ⟨hrun, hpart, hfails, hretried repaired hpart, by rfl⟩

end Hardlinks.Replay
