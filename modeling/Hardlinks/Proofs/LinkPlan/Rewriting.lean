-- SUMMARY: The manifest of a plan told without running it: the rewriting of every pair, or the first refusal.
import Hardlinks.Proofs.LinkPlan
import Hardlinks.Proofs.Manifest.Grammar
import Hardlinks.Proofs.Text.Unicode

/-!
# The rewriting of a plan

A path loses the bytes in front exactly if it is a text that falls into two there
(`Path.cut_eq_ok_iff`), a source keeps its name alone exactly if it begins with the components of
the marker (`Path.flatten_eq_iff`), and what an entry may be made of is told by the grammar of
manifests. With these the manifest of a plan is told pair by pair, without running anything
(`LinkPlan.manifest_iff`): every pair has its rewriting, or the first pair that has none is refused
with the first of the reasons against it.

Two destinations that differ can become one, since the bytes that are cut off are not looked at. No
others do (`LinkPlan.nodup_destinations_iff`).
-/

namespace Hardlinks

/-! ## Paths -/

namespace Path

variable {p q rest marker : Path} {length : Nat} {n : Name} {f : Failure}

/-- The path is a text that falls into two, the first of them `length` bytes long, and `rest` is the
second. -/
def Leaves (p : Path) (length : Nat) (rest : Path) : Prop :=
  ∃ front back : String,
    p = .ofString (front ++ back) ∧ (Utf8.encode front).length = length ∧ rest = .ofString back

/-- Why nothing is cut off a path: it is no text, or a text that does not fall into two there. -/
inductive Uncut (p : Path) (length : Nat) : Failure → Prop where
  | notText (h : ∀ text : String, p ≠ .ofString text) : Uncut p length (.notUtf8 p)
  | noBoundary (text : String) (htext : p = .ofString text) (h : ∀ rest, ¬ p.Leaves length rest) :
      Uncut p length (.cut p length)

/-- What is left of a source: the name at the end of one that begins with the components of the
marker, and all of any other. -/
inductive Flattens (p marker : Path) : Path → Prop where
  | active (n : Name) (hstarts : marker.components <+: p.components)
      (hname : p.components.getLast? = some (.name n)) : Flattens p marker ⟨n⟩
  | unnamed (h : ∀ n, p.components.getLast? ≠ some (.name n)) : Flattens p marker p
  | outside (h : ¬ marker.components <+: p.components) : Flattens p marker p

theorem isUtf8_iff : p.isUtf8 = true ↔ ∃ text : String, p = .ofString text := by
  rw [isUtf8, Utf8.isValid_iff]
  constructor
  · rintro ⟨text, h⟩
    exact ⟨text, congrArg Path.mk h.symm⟩
  · rintro ⟨text, rfl⟩
    exact ⟨text, rfl⟩

theorem cut_eq_ok_iff : p.cut length = .ok rest ↔ p.Leaves length rest := by
  constructor
  · intro h
    obtain ⟨hvalid, hboundary, hbytes⟩ := cut_eq_ok h
    obtain ⟨text, rfl⟩ := isUtf8_iff.1 hvalid
    obtain ⟨front, back, rfl, hlength⟩ := Utf8.isBoundary_encode_iff.1 hboundary
    refine ⟨front, back, rfl, hlength, congrArg Path.mk ?_⟩
    rw [hbytes, ofString, Utf8.encode_append, ← hlength, List.drop_left]
  · rintro ⟨front, back, rfl, rfl, rfl⟩
    have hvalid : (ofString (front ++ back)).isUtf8 = true := isUtf8_iff.2 ⟨_, rfl⟩
    have hboundary : Utf8.isBoundary (ofString (front ++ back)).bytes (Utf8.encode front).length =
        true := Utf8.isBoundary_encode_iff.2 ⟨front, back, rfl, rfl⟩
    have hdrop : (ofString (front ++ back)).bytes.drop (Utf8.encode front).length =
        Utf8.encode back := by
      rw [ofString, Utf8.encode_append, List.drop_left]
    rw [cut, hvalid, hboundary, hdrop]
    rfl

theorem cut_eq_error_iff : p.cut length = .error f ↔ p.Uncut length f := by
  constructor
  · intro h
    have hleaves : ∀ rest, ¬ p.Leaves length rest := by
      intro rest hrest
      rw [cut_eq_ok_iff.2 hrest] at h
      cases h
    unfold cut at h
    split at h
    · next hinvalid =>
      cases h
      refine .notText fun text htext => ?_
      simp [isUtf8_iff.2 ⟨text, htext⟩] at hinvalid
    · next hvalid =>
      obtain ⟨text, htext⟩ := isUtf8_iff.1 (by simpa using hvalid)
      split at h
      · cases h
      · cases h
        exact .noBoundary text htext hleaves
  · intro h
    cases h with
    | notText h =>
        have hinvalid : p.isUtf8 = false := by
          apply Bool.eq_false_iff.2
          intro hvalid
          obtain ⟨text, htext⟩ := isUtf8_iff.1 hvalid
          exact h text htext
        rw [cut, hinvalid]
        rfl
    | noBoundary text htext h =>
        have hvalid : p.isUtf8 = true := isUtf8_iff.2 ⟨text, htext⟩
        have hboundary : Utf8.isBoundary p.bytes length = false := by
          apply Bool.eq_false_iff.2
          intro hboundary
          have hcut : p.cut length = .ok ⟨p.bytes.drop length⟩ := by
            rw [cut, hvalid, hboundary]
            rfl
          exact h _ (cut_eq_ok_iff.1 hcut)
        rw [cut, hvalid, hboundary]
        rfl

theorem fileName?_eq_some_iff : p.fileName? = some n ↔ p.components.getLast? = some (.name n) := by
  unfold fileName?
  split
  · next hlast => simp [hlast]
  · next hlast => exact ⟨fun h => (nomatch h), fun h => absurd h (hlast n)⟩

theorem flatten_eq_iff : p.flatten marker = q ↔ p.Flattens marker q := by
  have hbegins : p.startsWith marker = true ↔ marker.components <+: p.components :=
    List.isPrefixOf_iff_prefix
  constructor
  · rintro rfl
    unfold flatten
    split
    · next hstarts =>
      cases hname : p.fileName? with
      | none =>
          refine .unnamed fun n hlast => ?_
          rw [fileName?_eq_some_iff.2 hlast] at hname
          cases hname
      | some n => exact .active n (hbegins.1 hstarts) (fileName?_eq_some_iff.1 hname)
    · next hstarts => exact .outside (hstarts ∘ hbegins.2)
  · intro h
    unfold flatten
    cases h with
    | active n hstarts hname =>
        rw [if_pos (hbegins.2 hstarts), fileName?_eq_some_iff.2 hname]
    | unnamed h =>
        have hname : p.fileName? = none :=
          Option.eq_none_iff_forall_ne_some.2 fun n hn => h n (fileName?_eq_some_iff.1 hn)
        rw [hname, ite_self]
    | outside h => rw [if_neg (h ∘ hbegins.1)]

end Path

/-! ## Pairs -/

namespace LinkPlan

open FileSystem

variable {cfg : CheckedConfig} {length : Nat} {plan : LinkPlan} {pair : Path × Path} {e : Entry}
  {m : Manifest} {f : Failure}

/-- What a pair of a plan is rewritten to. -/
structure Rewrites (cfg : CheckedConfig) (length : Nat) (pair : Path × Path) (e : Entry) :
    Prop where
  destination : pair.1.Leaves length e.destination
  source : ∃ source, pair.2.Leaves length source ∧
    source.Flattens (.ofString cfg.activeMarker) e.source
  admitted : Entry.Admitted e.destination e.source

/-- Why a pair of a plan has no rewriting: first the cut of the source, then the cut of the
destination, then what no entry is made of. -/
inductive Refuses (cfg : CheckedConfig) (length : Nat) (pair : Path × Path) : Failure → Prop where
  | source {f : Failure} (h : pair.2.Uncut length f) : Refuses cfg length pair f
  | destination {source : Path} {f : Failure} (hsource : pair.2.Leaves length source)
      (h : pair.1.Uncut length f) : Refuses cfg length pair f
  | entry {destination source kept : Path} {f : Failure}
      (hdestination : pair.1.Leaves length destination) (hsource : pair.2.Leaves length source)
      (hkept : source.Flattens (.ofString cfg.activeMarker) kept)
      (h : Entry.Refused destination kept f) : Refuses cfg length pair f

theorem entry_eq_ok_iff : entry cfg length pair = .ok e ↔ Rewrites cfg length pair e := by
  rw [entry, bind_eq_ok_iff]
  simp only [bind_eq_ok_iff, Path.cut_eq_ok_iff, Entry.make_eq_ok_iff_admitted]
  constructor
  · rintro ⟨source, hsource, destination, hdestination, rfl, hadmitted⟩
    exact ⟨hdestination, ⟨source, hsource, Path.flatten_eq_iff.1 rfl⟩, hadmitted⟩
  · rintro ⟨hdestination, ⟨source, hsource, hflattens⟩, hadmitted⟩
    have hkept := Path.flatten_eq_iff.2 hflattens
    refine ⟨source, hsource, e.destination, hdestination, ?_⟩
    rw [hkept]
    exact ⟨rfl, hadmitted⟩

theorem entry_eq_error_iff : entry cfg length pair = .error f ↔ Refuses cfg length pair f := by
  rw [entry, bind_eq_error_iff]
  simp only [bind_eq_error_iff, Path.cut_eq_ok_iff, Path.cut_eq_error_iff, Entry.make_eq_error_iff]
  constructor
  · rintro (h | ⟨source, hsource, h | ⟨destination, hdestination, h⟩⟩)
    · exact .source h
    · exact .destination hsource h
    · exact .entry hdestination hsource (Path.flatten_eq_iff.1 rfl) h
  · intro h
    cases h with
    | source h => exact .inl h
    | destination hsource h => exact .inr ⟨_, hsource, .inl h⟩
    | entry hdestination hsource hkept h =>
        rw [← Path.flatten_eq_iff.2 hkept] at h
        exact .inr ⟨_, hsource, .inr ⟨_, hdestination, h⟩⟩

theorem manifest_eq_ok_iff :
    plan.manifest cfg length = .ok m ↔ List.Forall₂ (Rewrites cfg length) plan.pairs m := by
  simp only [manifest, mapM_eq_ok_iff, entry_eq_ok_iff]

/-- A plan has a manifest if every pair has a rewriting, and then it is the list of these.
Otherwise it fails as the first pair does that has none. -/
theorem manifest_iff (cfg : CheckedConfig) (length : Nat) (plan : LinkPlan) :
    (∀ m, plan.manifest cfg length = .ok m ↔ List.Forall₂ (Rewrites cfg length) plan.pairs m) ∧
      ((∃ m, plan.manifest cfg length = .ok m) ↔
        ∀ pair ∈ plan.pairs, ∃ e, Rewrites cfg length pair e) ∧
      ∀ f, plan.manifest cfg length = .error f ↔
        ∃ front pair rest, plan.pairs = front ++ pair :: rest ∧
          (∀ other ∈ front, ∃ e, Rewrites cfg length other e) ∧ Refuses cfg length pair f := by
  have hok : ∀ m, plan.manifest cfg length = .ok m ↔
      List.Forall₂ (Rewrites cfg length) plan.pairs m := fun _ => manifest_eq_ok_iff
  refine ⟨hok, ?_, fun f => ?_⟩
  · constructor
    · rintro ⟨m, hm⟩ pair hpair
      obtain ⟨e, _, hentry⟩ := exists_entry hm hpair
      exact ⟨e, entry_eq_ok_iff.1 hentry⟩
    · -- A failure would be that of a pair without a rewriting.
      intro h
      cases hm : plan.manifest cfg length with
      | ok m => exact ⟨m, rfl⟩
      | error f =>
          obtain ⟨front, pair, rest, hpairs, _, herror⟩ := mapM_eq_error_iff.1 hm
          obtain ⟨e, hrewrites⟩ := h pair (by simp [hpairs])
          rw [entry_eq_ok_iff.2 hrewrites] at herror
          cases herror
  · simp only [manifest, mapM_eq_error_iff, entry_eq_ok_iff, entry_eq_error_iff]

/-! ## Destinations -/

/-- A plan has one pair for each place. -/
theorem nodup_ranks (plan : LinkPlan) : (plan.pairs.map fun pair => pair.1.rank).Nodup := by
  refine List.pairwise_map.2 (plan.sorted.imp ?_)
  intro pair other hlt heq
  rw [heq] at hlt
  exact List.lt_irrefl _ hlt

theorem map_destination (h : plan.manifest cfg length = .ok m) :
    m.map Entry.destination = plan.pairs.map fun pair => ⟨pair.1.bytes.drop length⟩ := by
  have hpairs := forall₂_manifest h
  clear h
  generalize plan.pairs = pairs at hpairs
  induction hpairs with
  | nil => rfl
  | cons hentry _ ih =>
      obtain ⟨d, _, hcut, _, rfl, _⟩ := entry_eq_ok hentry
      obtain ⟨_, _, hbytes⟩ := Path.cut_eq_ok hcut
      rw [List.map_cons, List.map_cons, ih, ← hbytes]

/-- No two entries have the same destination exactly if the destinations of the plan that agree
behind the cut agree in front of it, as they do if all of them begin with what is cut off. -/
theorem nodup_destinations_iff (h : plan.manifest cfg length = .ok m) :
    ((m.map Entry.destination).Nodup ↔
      ∀ pair ∈ plan.pairs, ∀ other ∈ plan.pairs,
        pair.1.bytes.drop length = other.1.bytes.drop length →
          pair.1.bytes.take length = other.1.bytes.take length) ∧
      ∀ front : List UInt8, front.length = length → (∀ pair ∈ plan.pairs, front <+: pair.1.bytes) →
        (m.map Entry.destination).Nodup := by
  have hpairs : plan.pairs.Nodup := (nodup_ranks plan).of_map
  have hnodup : (m.map Entry.destination).Nodup ↔
      ∀ pair ∈ plan.pairs, ∀ other ∈ plan.pairs,
        pair.1.bytes.drop length = other.1.bytes.drop length →
          pair.1.bytes.take length = other.1.bytes.take length := by
    rw [map_destination h, List.nodup_map_iff_inj_on hpairs]
    refine forall₂_congr fun pair hpair => forall₂_congr fun other hother => ?_
    constructor
    · intro hinj hdrop
      rw [hinj (congrArg Path.mk hdrop)]
    · intro htake hdrop
      replace hdrop : pair.1.bytes.drop length = other.1.bytes.drop length :=
        congrArg Path.bytes hdrop
      have hbytes : pair.1.bytes = other.1.bytes := by
        rw [← List.take_append_drop length pair.1.bytes, htake hdrop, hdrop,
          List.take_append_drop]
      have hrank : pair.1.rank = other.1.rank := congrArg (Path.rank ∘ Path.mk) hbytes
      exact List.inj_on_of_nodup_map (nodup_ranks plan) hpair hother hrank
  refine ⟨hnodup, fun front hlength hfront => hnodup.2 fun pair hpair other hother _ => ?_⟩
  have htake : ∀ pair ∈ plan.pairs, pair.1.bytes.take length = front := by
    intro pair hpair
    rw [← hlength]
    exact (List.prefix_iff_eq_take.1 (hfront pair hpair)).symm
  rw [htake pair hpair, htake other hother]

/-- A plan whose destinations lie below two roots, which the cut does not tell apart. -/
def twoRoots : LinkPlan :=
  .ofList [(.ofString "ra/x", .ofString "ra/y"), (.ofString "rb/x", .ofString "rb/y")]

/-- The destinations of two roots become one. -/
theorem nodup_destinations_twoRoots :
    let m : Manifest := [⟨.ofString "x", .ofString "y"⟩, ⟨.ofString "x", .ofString "y"⟩]
    twoRoots.manifest .default 3 = .ok m ∧ ¬ (m.map Entry.destination).Nodup := by
  have hmanifest : twoRoots.manifest .default 3 =
      .ok [⟨.ofString "x", .ofString "y"⟩, ⟨.ofString "x", .ofString "y"⟩] := by rfl
  refine ⟨hmanifest, fun hnodup => ?_⟩
  have htake := (nodup_destinations_iff hmanifest).1.1 hnodup
    (.ofString "ra/x", .ofString "ra/y") (by decide) (.ofString "rb/x", .ofString "rb/y")
    (by decide) (by decide)
  exact absurd htake (by decide)

end LinkPlan

end Hardlinks
