-- SUMMARY: Tokens tell identities apart, and times count in whole milliseconds as far as a word goes.
import Mathlib.Algebra.Group.Int.Defs
import Hardlinks.Proofs.FileSystem.WellFormed

/-!
# Identities

The text of a node ends with the one bracket that it holds, so it can be read off the front of any
text that begins with it (`NodeId.text_append_inj`), and what follows it in a token is one integer:
identities with the same token are the same.

A modification time counts as its distance from the epoch in whole milliseconds, with the sign of
the time and rounded toward the epoch (`Timestamp.wholeMillis`). The count is kept in a signed word,
and it is right exactly for the times whose count is the value of one
(`Timestamp.millis_eq_wholeMillis_iff`).
-/

namespace Hardlinks

variable {b m n : Nat} {i j : Int} {c : Char} {xs ys as bs : List Char}

/-! ## Digits -/

theorem digitChar_inj (hm : m < 16) (hn : n < 16) (h : m.digitChar = n.digitChar) : m = n := by
  have hall : ∀ m n : Fin 16, (m : Nat).digitChar = (n : Nat).digitChar → m = n := by decide
  exact congrArg Fin.val (hall ⟨m, hm⟩ ⟨n, hn⟩ h)

theorem toDigits_inj (hb : 1 < b) (hbase : b ≤ 16) (h : Nat.toDigits b m = Nat.toDigits b n) :
    m = n := by
  have hdigit : ∀ k, k % b < 16 := fun k => Nat.lt_of_lt_of_le (Nat.mod_lt k (by omega)) hbase
  induction m using Nat.strongRecOn generalizing n with
  | ind m ih =>
      rw [Nat.toDigits_eq_if hb, Nat.toDigits_eq_if (n := n) hb] at h
      split at h
      · next hm =>
        split at h
        · next hn => exact digitChar_inj (by omega) (by omega) (List.cons.inj h).1
        · have hnone := (List.append_eq_singleton_iff.1 h.symm)
          simp [Nat.toDigits_ne_nil] at hnone
      · next hm =>
        split at h
        · have hnone := List.append_eq_singleton_iff.1 h
          simp [Nat.toDigits_ne_nil] at hnone
        · obtain ⟨hfront, hlast⟩ := List.append_inj' h rfl
          have hdiv := ih (m / b) (Nat.div_lt_self (by omega) hb) hfront
          have hmod := digitChar_inj (hdigit m) (hdigit n) (List.cons.inj hlast).1
          rw [← Nat.div_add_mod m b, ← Nat.div_add_mod n b, hdiv, hmod]

theorem mem_toDigits (hb : 1 < b) (h : c ∈ Nat.toDigits b n) : ∃ d < b, c = d.digitChar := by
  induction n using Nat.strongRecOn with
  | ind n ih =>
      rw [Nat.toDigits_eq_if hb] at h
      split at h
      · next hn => exact ⟨n, hn, List.mem_singleton.1 h⟩
      · rcases List.mem_append.1 h with hfront | hlast
        · exact ih (n / b) (Nat.div_lt_self (by omega) hb) hfront
        · exact ⟨n % b, Nat.mod_lt n (by omega), List.mem_singleton.1 hlast⟩

/-- Digits are letters and digits, so nothing that stands between numbers is one. -/
theorem notMem_toDigits (hb : 1 < b) (hbase : b ≤ 16) (hc : c.isAlphanum = false) :
    c ∉ Nat.toDigits b n := by
  intro hmem
  obtain ⟨d, hd, rfl⟩ := mem_toDigits hb hmem
  have hall : ∀ d : Fin 16, (d : Nat).digitChar.isAlphanum = true := by decide
  rw [hall ⟨d, by omega⟩] at hc
  cases hc

theorem decimal_inj (h : decimal i = decimal j) : i = j := by
  have hsign : ∀ k ds, Nat.toDigits 10 k ≠ '-' :: ds := by
    intro k ds hk
    have hmem : '-' ∉ Nat.toDigits 10 k := notMem_toDigits (by decide) (by decide) rfl
    exact hmem (hk ▸ List.mem_cons_self)
  cases i with
  | ofNat m =>
      cases j with
      | ofNat n => rw [toDigits_inj (by decide) (by decide) h]
      | negSucc n => exact absurd h (hsign m _)
  | negSucc m =>
      cases j with
      | ofNat n => exact absurd h.symm (hsign n _)
      | negSucc n =>
          have hdigits := toDigits_inj (by decide) (by decide) (List.cons.inj h).2
          rw [Nat.succ_inj.1 hdigits]

/-! ## Tokens -/

/-- Where a character is in neither front, two texts that go on with it after their fronts agree in
both parts. -/
theorem append_cons_inj_of_notMem_fronts (hxs : c ∉ xs) (hys : c ∉ ys)
    (h : xs ++ c :: as = ys ++ c :: bs) : xs = ys ∧ as = bs := by
  induction xs generalizing ys with
  | nil =>
      cases ys with
      | nil => exact ⟨rfl, (List.cons.inj h).2⟩
      | cons y ys => exact absurd ((List.cons.inj h).1 ▸ List.mem_cons_self) hys
  | cons x xs ih =>
      cases ys with
      | nil => exact absurd ((List.cons.inj h).1 ▸ List.mem_cons_self) hxs
      | cons y ys =>
          obtain ⟨rfl, hrest⟩ := List.cons.inj h
          obtain ⟨rfl, has⟩ := ih (fun hc => hxs (List.mem_cons_of_mem _ hc))
            (fun hc => hys (List.mem_cons_of_mem _ hc)) hrest
          exact ⟨rfl, has⟩

/-- A node's text, with the literals spelled out. -/
theorem NodeId.text_eq (k : NodeId) :
    k.text = ['(', 'd', 'e', 'v', '='] ++ Nat.toDigits 16 k.device ++
      [',', 'i', 'n', 'o', '='] ++ Nat.toDigits 10 k.number ++ [')'] := by
  rfl

/-- No node's text is the beginning of another one's. -/
theorem NodeId.text_append_inj {k l : NodeId} (h : k.text ++ as = l.text ++ bs) :
    k = l ∧ as = bs := by
  have hcomma : ∀ m, ',' ∉ Nat.toDigits 16 m := fun m => notMem_toDigits (by decide) (by decide) rfl
  have hbracket : ∀ m, ')' ∉ Nat.toDigits 10 m := fun m =>
    notMem_toDigits (by decide) (by decide) rfl
  simp only [text_eq, List.append_assoc, List.cons_append, List.nil_append, List.cons.injEq,
    true_and] at h
  obtain ⟨hdevice, hrest⟩ := append_cons_inj_of_notMem_fronts (hcomma _) (hcomma _) h
  simp only [List.cons.injEq, true_and] at hrest
  obtain ⟨hnumber, hback⟩ := append_cons_inj_of_notMem_fronts (hbracket _) (hbracket _) hrest
  cases k
  cases l
  cases toDigits_inj (by decide) (by decide) hdevice
  cases toDigits_inj (by decide) (by decide) hnumber
  exact ⟨rfl, hback⟩

/-- Two identities have one token exactly if they are the same, and two nodes one text. -/
theorem FileIdentity.token_eq_iff_and_text_eq_iff :
    (∀ a b : FileIdentity, a.token = b.token ↔ a = b) ∧
      ∀ k l : NodeId, k.text = l.text ↔ k = l := by
  refine ⟨fun a b => ⟨fun h => ?_, fun h => h ▸ rfl⟩, fun k l => ⟨fun h => ?_, fun h => h ▸ rfl⟩⟩
  · obtain ⟨hnode, hmillis⟩ := NodeId.text_append_inj h
    cases a
    cases b
    cases hnode
    cases decimal_inj (List.cons.inj hmillis).2
    rfl
  · exact (NodeId.text_append_inj (congrArg (· ++ []) h)).1

/-! ## Milliseconds -/

namespace Timestamp

variable {t u : Timestamp} {k : Int}

/-- The milliseconds from the epoch to the time, negative before the epoch, without the last part of
one on either side. -/
def wholeMillis (t : Timestamp) : Int :=
  t.nanosSinceEpoch.tdiv 1000000

/-- The values of a signed word. -/
def FitsWord (k : Int) : Prop :=
  -2 ^ 63 ≤ k ∧ k < 2 ^ 63

theorem toWord_eq_self_iff : toWord k = k ↔ FitsWord k := by
  constructor
  · intro h
    rw [← h]
    exact ⟨BitVec.le_toInt _, BitVec.toInt_lt⟩
  · intro h
    exact BitVec.toInt_ofInt_eq_self (by decide) h.1 h.2

theorem toWord_neg_toWord (k : Int) : toWord (-toWord k) = toWord (-k) := by
  simp only [toWord, BitVec.ofInt_neg, BitVec.ofInt_toInt]

/-- Only the low bits of a count are kept, those of the negative count before the epoch. -/
theorem millis_eq_toWord (t : Timestamp) : t.millis = toWord t.wholeMillis := by
  have hdistance : ∀ k : Nat, Int.ofNat (k / 1000000) = (k : Int).tdiv 1000000 := fun k =>
    Int.ofNat_tdiv k 1000000
  unfold millis wholeMillis
  rw [hdistance]
  split
  · next hafter => rw [Int.natAbs_of_nonneg hafter]
  · next hbefore =>
    rw [toWord_neg_toWord, Int.ofNat_natAbs_of_nonpos (by omega), Int.neg_tdiv, Int.neg_neg]

theorem wholeMillis_mono (h : t.nanosSinceEpoch ≤ u.nanosSinceEpoch) :
    t.wholeMillis ≤ u.wholeMillis :=
  Int.tdiv_le_tdiv (by decide) h

/-- A time is counted right exactly if its count fits a word, and narrowing the distance from the
epoch keeps it exactly if it fits without a sign. Of two times that are counted right the later one
has no smaller count. -/
theorem millis_eq_wholeMillis_iff (t u : Timestamp) :
    (t.millis = t.wholeMillis ↔ FitsWord t.wholeMillis) ∧
      (toWord t.wholeMillis.natAbs = t.wholeMillis.natAbs ↔ FitsWord t.wholeMillis.natAbs) ∧
      (FitsWord t.wholeMillis → FitsWord u.wholeMillis → t.nanosSinceEpoch ≤ u.nanosSinceEpoch →
        t.millis ≤ u.millis) := by
  have hexact : ∀ v : Timestamp, v.millis = v.wholeMillis ↔ FitsWord v.wholeMillis := by
    intro v
    rw [millis_eq_toWord]
    exact toWord_eq_self_iff
  refine ⟨hexact t, toWord_eq_self_iff, fun ht hu hle => ?_⟩
  rw [(hexact t).2 ht, (hexact u).2 hu]
  exact wholeMillis_mono hle

/-- A file that was last changed in a far future. -/
def farFuture : FileSystem :=
  let fs := FileSystem.withFiles [("a", "alpha")]
  (fs.changeModified (.ofString "a") ⟨9223372036854776, 0⟩).toOption.getD fs

/-- The count of the file's time wraps to one long before the epoch, and so it is smaller than that
of every time near the epoch, where half a millisecond on either side counts as none. -/
theorem millis_of_farFuture :
    let t : Timestamp := ⟨9223372036854776, 0⟩
    let before : Timestamp := ⟨-1, 999500000⟩
    let after : Timestamp := ⟨0, 500000⟩
    farFuture.identity (.ofString "a") = .ok ⟨⟨0, 4⟩, t.millis⟩ ∧
      t.wholeMillis = 9223372036854776000 ∧ t.millis = -9223372036854775616 ∧
      t.millis ≠ t.wholeMillis ∧
      (before.millis ≤ after.millis ∧ before.millis = 0 ∧ after.millis = 0) ∧
      after.nanosSinceEpoch ≤ t.nanosSinceEpoch ∧ t.millis < after.millis := by
  intro t before after
  have hwhole : t.wholeMillis = 9223372036854776000 := by decide
  have hnear : FitsWord before.wholeMillis ∧ FitsWord after.wholeMillis := by
    unfold FitsWord
    decide
  refine ⟨by rfl, hwhole, by decide, fun heq => ?_, ⟨?_, by decide, by decide⟩, by decide, by decide⟩
  · have hfits := (millis_eq_wholeMillis_iff t after).1.1 heq
    rw [hwhole] at hfits
    exact absurd hfits.2 (by decide)
  · exact (millis_eq_wholeMillis_iff before after).2.2 hnear.1 hnear.2 (by decide)

end Timestamp

end Hardlinks
