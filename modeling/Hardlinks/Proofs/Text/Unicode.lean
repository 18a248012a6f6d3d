-- SUMMARY: Bytes that are valid UTF-8 are those of a text, and the boundaries are where it can be cut in two.
import Mathlib.Algebra.Group.Nat.Defs
import Hardlinks.Proofs.Text.Utf8

/-!
# Texts as bytes

Inside a character the reader has the first bits of the character's number, and takes exactly the
continuation bytes of the numbers that begin with them (`ends_iff`). With the first byte, which
tells how many bytes follow and keeps out what is no character, it takes exactly the bytes that a
character is written with (`lead_ends_iff`). So the valid bytes are those of the texts
(`isValid_iff`), and a boundary is where a text falls into two (`isBoundary_encode_iff`).
-/

namespace Hardlinks.Utf8

/-- Bytes that take a reader inside a character to the end of it, and the character. -/
inductive Ends : Pending → List UInt8 → Char → Prop where
  | last {p : Pending} {b : UInt8} {c : Char} (h : p.step b = .done c) : Ends p [b] c
  | next {p q : Pending} {b : UInt8} {rest : List UInt8} {c : Char} (h : p.step b = .more q)
      (hrest : Ends q rest c) : Ends p (b :: rest) c

/-- The continuation byte for the `k`-th group of six bits, counted from the last. -/
def continuation (v k : Nat) : UInt8 :=
  UInt8.ofNat (v / 64 ^ k % 64 + 0x80)

/-- The last `k` bytes of the character with the number `v`. -/
def continuations (v : Nat) : Nat → List UInt8
  | 0 => []
  | k + 1 => continuation v k :: continuations v k

variable {p q : Pending} {b low high : UInt8} {c : Char} {bytes front rest : List UInt8}
  {k n v w : Nat} {text : String}

/-! ## Continuation bytes -/

theorem toNat_continuation : (continuation v k).toNat = v / 64 ^ k % 64 + 0x80 := by
  rw [continuation, UInt8.toNat_ofNat']
  omega

theorem continuation_bounds : 0x80 ≤ continuation v k ∧ continuation v k ≤ 0xBF := by
  simp only [UInt8.le_iff_toNat_le, toNat_continuation, UInt8.reduceToNat]
  omega

/-- A continuation byte, with the bits in front of it, is the one of the number that they make. -/
theorem continuation_eq_iff (hb : 0x80 ≤ b ∧ b < 0xC0) :
    (continuation v k = b ∧ v / 64 ^ (k + 1) = w) ↔ v / 64 ^ k = w * 64 + (b.toNat - 0x80) := by
  simp only [UInt8.le_iff_toNat_le, UInt8.lt_iff_toNat_lt, UInt8.reduceToNat] at hb
  rw [← UInt8.toNat_inj, toNat_continuation, Nat.pow_succ, ← Nat.div_div_eq_div_mul]
  omega

theorem Pending.step_eq_done_iff :
    p.step b = .done c ↔
      (p.low ≤ b ∧ b ≤ p.high) ∧ p.owed = 0 ∧ Char.ofNat (p.bits * 64 + (b.toNat - 0x80)) = c := by
  obtain ⟨owed, low, high, bits⟩ := p
  by_cases h : low ≤ b ∧ b ≤ high <;> cases owed <;> simp [step, h]

theorem Pending.step_eq_more_iff :
    p.step b = .more q ↔
      (p.low ≤ b ∧ b ≤ p.high) ∧
        ∃ k, p.owed = k + 1 ∧ q = ⟨k, 0x80, 0xBF, p.bits * 64 + (b.toNat - 0x80)⟩ := by
  obtain ⟨owed, low, high, bits⟩ := p
  by_cases h : low ≤ b ∧ b ≤ high <;> cases owed <;> simp [step, h, eq_comm]

theorem TakesContinuations.bounds (h : TakesContinuations (some p)) (hb : p.low ≤ b ∧ b ≤ p.high) :
    0x80 ≤ b ∧ b < 0xC0 :=
  ⟨UInt8.le_trans h.1 hb.1, UInt8.lt_of_le_of_lt hb.2 h.2⟩

theorem Ends.decodeFrom (h : Ends p front c) (rest : List UInt8) :
    decodeFrom (some p) (front ++ rest) = some c :: decodeFrom none rest := by
  induction h with
  | last h => simp [Utf8.decodeFrom, h]
  | next h _ ih => simpa [Utf8.decodeFrom, h] using ih

/-- A valid text from inside a character goes on with the end of that character. -/
theorem exists_ends (h : (decodeFrom (some p) bytes).all Option.isSome = true) :
    ∃ front c rest, bytes = front ++ rest ∧ Ends p front c ∧
      (decodeFrom none rest).all Option.isSome = true := by
  induction bytes generalizing p with
  | nil => simp [decodeFrom] at h
  | cons b bytes ih =>
      rw [decodeFrom] at h
      cases hstep : p.step b with
      | done c =>
          rw [hstep] at h
          simp only [List.all_cons, Option.isSome_some, Bool.true_and] at h
          exact ⟨[b], c, bytes, rfl, .last hstep, h⟩
      | more q =>
          rw [hstep] at h
          obtain ⟨front, c, rest, rfl, hends, hrest⟩ := ih h
          exact ⟨b :: front, c, rest, rfl, .next hstep hends, hrest⟩
      | refused => simp [hstep] at h

/-- Inside a character, the continuation bytes of the numbers are read that have the bits read so
far, if the next byte is in range. -/
theorem ends_iff (h : TakesContinuations (some ⟨n, low, high, w⟩)) :
    Ends ⟨n, low, high, w⟩ rest c ↔ ∃ v, (v / 64 ^ (n + 1) = w ∧
      low ≤ continuation v n ∧ continuation v n ≤ high) ∧
      rest = continuations v (n + 1) ∧ Char.ofNat v = c := by
  -- By the number of bytes still owed. Only the first of them has a range of its own.
  induction n generalizing low high w rest with
  | zero =>
      constructor
      · intro hends
        cases hends with
        | next hstep _ => simp [Pending.step_eq_more_iff] at hstep
        | @last _ b _ hstep =>
          obtain ⟨hrange, _, hc⟩ := Pending.step_eq_done_iff.1 hstep
          have hvalue : (w * 64 + (b.toNat - 0x80)) / 64 ^ 0 = w * 64 + (b.toNat - 0x80) :=
            Nat.div_one _
          obtain ⟨hb, hbits⟩ := (continuation_eq_iff (h.bounds hrange)).2 hvalue
          have hrest : [b] = continuations (w * 64 + (b.toNat - 0x80)) 1 :=
            congrArg (fun b => [b]) hb.symm
          exact ⟨_, ⟨hbits, by rwa [hb]⟩, hrest, hc⟩
      · rintro ⟨v, ⟨hv, hrange⟩, rfl, rfl⟩
        have hvalue := (continuation_eq_iff (h.bounds hrange)).1 ⟨rfl, hv⟩
        rw [Nat.pow_zero, Nat.div_one] at hvalue
        exact .last (Pending.step_eq_done_iff.2 ⟨hrange, rfl, congrArg Char.ofNat hvalue.symm⟩)
  | succ k ih =>
      have hmore {w : Nat} : TakesContinuations (some ⟨k, 0x80, 0xBF, w⟩) := by
        unfold TakesContinuations
        dsimp only
        decide
      constructor
      · intro hends
        cases hends with
        | last hstep => simp [Pending.step_eq_done_iff] at hstep
        | next hstep hrest =>
          obtain ⟨hrange, _, hk, rfl⟩ := Pending.step_eq_more_iff.1 hstep
          obtain rfl := Nat.succ.inj hk
          obtain ⟨v, ⟨hv, _⟩, rfl, hc⟩ := (ih hmore).1 hrest
          obtain ⟨hb, hbits⟩ := (continuation_eq_iff (h.bounds hrange)).2 hv
          exact ⟨v, ⟨hbits, by rwa [hb]⟩, congrArg (· :: continuations v (k + 1)) hb.symm, hc⟩
      · rintro ⟨v, ⟨hv, hrange⟩, rfl, hc⟩
        have hvalue := (continuation_eq_iff (h.bounds hrange)).1 ⟨rfl, hv⟩
        refine .next (Pending.step_eq_more_iff.2 ⟨hrange, k, rfl, rfl⟩) ?_
        exact (ih hmore).2 ⟨v, ⟨hvalue, continuation_bounds⟩, rfl, hc⟩

/-! ## First bytes -/

theorem lead_eq_more_iff :
    lead b = .more p ↔
      (0xC2 ≤ b ∧ b < 0xE0) ∧ p = ⟨0, 0x80, 0xBF, b.toNat - 0xC0⟩ ∨
      (0xE0 ≤ b ∧ b < 0xF0) ∧ p =
        ⟨1, if b = 0xE0 then 0xA0 else 0x80, if b = 0xED then 0x9F else 0xBF, b.toNat - 0xE0⟩ ∨
      (0xF0 ≤ b ∧ b < 0xF5) ∧ p =
        ⟨2, if b = 0xF0 then 0x90 else 0x80, if b = 0xF4 then 0x8F else 0xBF, b.toNat - 0xF0⟩ := by
  unfold lead
  grind

/-! The ranges of the first two bytes leave exactly the numbers that need as many bytes and are
those of characters. -/

theorem two_iff :
    ((0xC2 ≤ b ∧ b < 0xE0) ∧ v / 64 ^ 1 = b.toNat - 0xC0 ∧
      0x80 ≤ continuation v 0 ∧ continuation v 0 ≤ 0xBF) ↔
      v.isValidChar ∧ 0x7F < v ∧ v ≤ 0x7FF ∧ UInt8.ofNat (v / 64 ^ 1 + 0xC0) = b := by
  simp only [← UInt8.toNat_inj, UInt8.le_iff_toNat_le, UInt8.lt_iff_toNat_lt, UInt8.toNat_ofNat',
    UInt8.reduceToNat, toNat_continuation, Nat.reducePow, Nat.isValidChar]
  omega

theorem three_iff :
    ((0xE0 ≤ b ∧ b < 0xF0) ∧ v / 64 ^ 2 = b.toNat - 0xE0 ∧
      (if b = 0xE0 then 0xA0 else 0x80) ≤ continuation v 1 ∧
      continuation v 1 ≤ if b = 0xED then 0x9F else 0xBF) ↔
      v.isValidChar ∧ 0x7FF < v ∧ v ≤ 0xFFFF ∧ UInt8.ofNat (v / 64 ^ 2 + 0xE0) = b := by
  simp only [← UInt8.toNat_inj, UInt8.le_iff_toNat_le, UInt8.lt_iff_toNat_lt, UInt8.toNat_ofNat',
    UInt8.reduceToNat, toNat_continuation, Nat.reducePow, Nat.isValidChar, apply_ite UInt8.toNat]
  split <;> split <;> omega

theorem four_iff :
    ((0xF0 ≤ b ∧ b < 0xF5) ∧ v / 64 ^ 3 = b.toNat - 0xF0 ∧
      (if b = 0xF0 then 0x90 else 0x80) ≤ continuation v 2 ∧
      continuation v 2 ≤ if b = 0xF4 then 0x8F else 0xBF) ↔
      v.isValidChar ∧ 0xFFFF < v ∧ UInt8.ofNat (v / 64 ^ 3 + 0xF0) = b := by
  simp only [← UInt8.toNat_inj, UInt8.le_iff_toNat_le, UInt8.lt_iff_toNat_lt, UInt8.toNat_ofNat',
    UInt8.reduceToNat, toNat_continuation, Nat.reducePow, Nat.isValidChar, apply_ite UInt8.toNat]
  split <;> split <;> omega

/-! ## Characters -/

theorem toNat_ofNat (h : v.isValidChar) : (Char.ofNat v).toNat = v := by
  rw [Char.ofNat, dif_pos h]
  rfl

/-- The first byte of a character is followed by the continuation bytes of its number. -/
theorem utf8EncodeChar_eq (c : Char) :
    String.utf8EncodeChar c =
      if c.toNat ≤ 0x7F then [UInt8.ofNat c.toNat]
      else if c.toNat ≤ 0x7FF then UInt8.ofNat (c.toNat / 64 ^ 1 + 0xC0) :: continuations c.toNat 1
      else if c.toNat ≤ 0xFFFF then UInt8.ofNat (c.toNat / 64 ^ 2 + 0xE0) :: continuations c.toNat 2
      else UInt8.ofNat (c.toNat / 64 ^ 3 + 0xF0) :: continuations c.toNat 3 := by
  have hmax : c.toNat < 0x110000 := by
    have hvalid : c.toNat.isValidChar := c.valid
    rcases hvalid with h | h <;> omega
  unfold String.utf8EncodeChar
  rw [show c.val.toNat = c.toNat from rfl]
  generalize c.toNat = v at hmax
  by_cases h1 : v ≤ 0x7F
  · simp [h1]
  · by_cases h2 : v ≤ 0x7FF
    · have hfirst : v / 64 % 32 = v / 64 := by omega
      simp [h1, h2, continuations, continuation, hfirst]
    · by_cases h3 : v ≤ 0xFFFF
      · have hfirst : v / 4096 % 16 = v / 4096 := by omega
        simp [h1, h2, h3, continuations, continuation, hfirst]
      · have hfirst : v / 262144 % 8 = v / 262144 := by omega
        simp [h1, h2, h3, continuations, continuation, hfirst]

/-- A byte that is a character by itself is all of that character. -/
theorem lead_done_iff : lead b = .done c ↔ c.toNat ≤ 0x7F ∧ String.utf8EncodeChar c = [b] := by
  have hdone : lead b = .done c ↔ b < 0x80 ∧ Char.ofNat b.toNat = c := by
    unfold lead
    grind
  rw [hdone, UInt8.lt_iff_toNat_lt, show (0x80 : UInt8).toNat = 0x80 from rfl]
  constructor
  · rintro ⟨hb, rfl⟩
    have hvalid : b.toNat.isValidChar := .inl (by omega)
    rw [utf8EncodeChar_eq, toNat_ofNat hvalid, if_pos (by omega), UInt8.ofNat_toNat]
    exact ⟨by omega, rfl⟩
  · rintro ⟨hc, hencode⟩
    rw [utf8EncodeChar_eq, if_pos hc, List.cons.injEq, ← UInt8.toNat_inj,
      UInt8.toNat_ofNat'] at hencode
    have hb : b.toNat = c.toNat := by omega
    exact ⟨by omega, by rw [hb, Char.ofNat_toNat]⟩

theorem exists_ends_of_lead (hlead : lead b = .more ⟨n, low, high, w⟩)
    (hv : c.toNat / 64 ^ (n + 1) = w ∧ low ≤ continuation c.toNat n ∧
      continuation c.toNat n ≤ high) :
    ∃ p, lead b = .more p ∧ Ends p (continuations c.toNat (n + 1)) c :=
  ⟨_, hlead, (ends_iff (takesContinuations_of_lead hlead)).2
    ⟨c.toNat, hv, rfl, Char.ofNat_toNat c⟩⟩

/-- A first byte and what ends the character that it begins are the bytes of that character. -/
theorem lead_ends_iff :
    (∃ p, lead b = .more p ∧ Ends p rest c) ↔
      0x7F < c.toNat ∧ String.utf8EncodeChar c = b :: rest := by
  constructor
  · rintro ⟨p, hlead, hends⟩
    have htakes := takesContinuations_of_lead hlead
    rcases lead_eq_more_iff.1 hlead with ⟨hb, rfl⟩ | ⟨hb, rfl⟩ | ⟨hb, rfl⟩
    · obtain ⟨v, hv, rfl, rfl⟩ := (ends_iff htakes).1 hends
      obtain ⟨hvalid, h1, h2, hfirst⟩ := two_iff.1 ⟨hb, hv⟩
      rw [utf8EncodeChar_eq, toNat_ofNat hvalid, if_neg (by omega), if_pos h2, hfirst]
      exact ⟨h1, rfl⟩
    · obtain ⟨v, hv, rfl, rfl⟩ := (ends_iff htakes).1 hends
      obtain ⟨hvalid, h2, h3, hfirst⟩ := three_iff.1 ⟨hb, hv⟩
      have h1 : 0x7F < v := by omega
      rw [utf8EncodeChar_eq, toNat_ofNat hvalid, if_neg (by omega), if_neg (by omega), if_pos h3,
        hfirst]
      exact ⟨h1, rfl⟩
    · obtain ⟨v, hv, rfl, rfl⟩ := (ends_iff htakes).1 hends
      obtain ⟨hvalid, h3, hfirst⟩ := four_iff.1 ⟨hb, hv⟩
      have h1 : 0x7F < v := by omega
      rw [utf8EncodeChar_eq, toNat_ofNat hvalid, if_neg (by omega), if_neg (by omega),
        if_neg (by omega), hfirst]
      exact ⟨h1, rfl⟩
  · rintro ⟨h1, hencode⟩
    have hvalid : c.toNat.isValidChar := c.valid
    rw [utf8EncodeChar_eq, if_neg (by omega)] at hencode
    split at hencode
    · next h2 =>
      obtain ⟨hfirst, rfl⟩ := List.cons.inj hencode
      obtain ⟨hb, hv⟩ := two_iff.2 ⟨hvalid, h1, h2, hfirst⟩
      exact exists_ends_of_lead (lead_eq_more_iff.2 (.inl ⟨hb, rfl⟩)) hv
    · next h2 =>
      split at hencode
      · next h3 =>
        obtain ⟨hfirst, rfl⟩ := List.cons.inj hencode
        obtain ⟨hb, hv⟩ := three_iff.2 ⟨hvalid, by omega, h3, hfirst⟩
        exact exists_ends_of_lead (lead_eq_more_iff.2 (.inr (.inl ⟨hb, rfl⟩))) hv
      · next h3 =>
        obtain ⟨hfirst, rfl⟩ := List.cons.inj hencode
        obtain ⟨hb, hv⟩ := four_iff.2 ⟨hvalid, by omega, hfirst⟩
        exact exists_ends_of_lead (lead_eq_more_iff.2 (.inr (.inr ⟨hb, rfl⟩))) hv

/-- The bytes of a character are read as the character. -/
theorem decodeFrom_utf8EncodeChar (c : Char) (rest : List UInt8) :
    decodeFrom none (String.utf8EncodeChar c ++ rest) = some c :: decodeFrom none rest := by
  obtain ⟨b, front, hencode⟩ := List.exists_cons_of_ne_nil (String.utf8EncodeChar_ne_nil (c := c))
  by_cases hc : c.toNat ≤ 0x7F
  · obtain rfl : front = [] := by
      rw [utf8EncodeChar_eq, if_pos hc] at hencode
      exact (List.cons.inj hencode).2.symm
    rw [hencode, List.singleton_append, decodeFrom, lead_done_iff.2 ⟨hc, hencode⟩]
  · obtain ⟨p, hlead, hends⟩ := lead_ends_iff.2 ⟨Nat.lt_of_not_le hc, hencode⟩
    rw [hencode, List.cons_append, decodeFrom, hlead]
    exact hends.decodeFrom rest

/-- A valid text begins with the bytes of a character. -/
theorem exists_char (h : isValid bytes = true) (hne : bytes ≠ []) :
    ∃ c rest, bytes = String.utf8EncodeChar c ++ rest ∧ isValid rest = true := by
  obtain ⟨b, bytes, rfl⟩ := List.exists_cons_of_ne_nil hne
  rw [isValid, decode, decodeFrom] at h
  cases hlead : lead b with
  | done c =>
      rw [hlead] at h
      simp only [List.all_cons, Option.isSome_some, Bool.true_and] at h
      obtain ⟨_, hencode⟩ := lead_done_iff.1 hlead
      exact ⟨c, bytes, by rw [hencode, List.singleton_append], h⟩
  | more p =>
      rw [hlead] at h
      obtain ⟨front, c, rest, rfl, hends, hrest⟩ := exists_ends h
      obtain ⟨_, hencode⟩ := lead_ends_iff.1 ⟨p, hlead, hends⟩
      exact ⟨c, rest, by rw [hencode, List.cons_append], hrest⟩
  | refused => simp [hlead] at h

/-! ## Texts -/

theorem encode_ofList (chars : List Char) :
    encode (String.ofList chars) = chars.flatMap String.utf8EncodeChar := by
  rw [encode, String.toByteArray_ofList, List.utf8Encode, List.toList_data_toByteArray]

theorem encode_inj {text text' : String} : encode text = encode text' ↔ text = text' := by
  rw [encode, encode, Array.toList_inj, ← ByteArray.ext_iff, String.toByteArray_inj]

/-- The bytes of characters are read as these characters. -/
theorem decode_flatMap_utf8EncodeChar (chars : List Char) :
    decode (chars.flatMap String.utf8EncodeChar) = chars.map some := by
  induction chars with
  | nil => rfl
  | cons c chars ih =>
      rw [List.flatMap_cons, decode, decodeFrom_utf8EncodeChar, List.map_cons, ← ih]
      rfl

theorem isValid_flatMap_utf8EncodeChar (chars : List Char) :
    isValid (chars.flatMap String.utf8EncodeChar) = true := by
  simp [isValid, decode_flatMap_utf8EncodeChar]

/-- The bytes of a text are shown as the text. -/
theorem display_encode (text : String) : display (encode text) = text := by
  have hgetD : (fun c : Option Char => c.getD '\uFFFD') ∘ some = id := rfl
  rw [← String.ofList_toList (s := text), encode_ofList, display, decode_flatMap_utf8EncodeChar,
    List.map_map, hgetD, List.map_id]

/-- Valid bytes are those of a text. -/
theorem isValid_iff : isValid bytes = true ↔ ∃ text : String, encode text = bytes := by
  constructor
  · intro h
    suffices hchars : ∃ chars : List Char, chars.flatMap String.utf8EncodeChar = bytes by
      obtain ⟨chars, rfl⟩ := hchars
      exact ⟨.ofList chars, encode_ofList chars⟩
    -- A character has at least one byte, so what follows it is shorter.
    induction hlength : bytes.length using Nat.strongRecOn generalizing bytes with
    | ind length ih =>
      by_cases hne : bytes = []
      · exact ⟨[], hne.symm⟩
      · obtain ⟨c, rest, rfl, hrest⟩ := exists_char h hne
        have hc := List.length_pos_iff.2 (String.utf8EncodeChar_ne_nil (c := c))
        rw [List.length_append] at hlength
        obtain ⟨chars, rfl⟩ := ih rest.length (by omega) hrest rfl
        exact ⟨c :: chars, List.flatMap_cons⟩
  · rintro ⟨text, rfl⟩
    rw [← String.ofList_toList (s := text), encode_ofList]
    exact isValid_flatMap_utf8EncodeChar text.toList

theorem isContinuation_of_isValid (h : isValid (b :: bytes) = true) : isContinuation b = false := by
  have hrefused (hb : isContinuation b = true) : lead b = .refused := by
    unfold isContinuation at hb
    unfold lead
    grind
  apply Bool.eq_false_iff.2
  intro hb
  simp [isValid, decode, decodeFrom, hrefused hb] at h

theorem isValid_take (h : isValid bytes = true) (hn : isBoundary bytes n = true) :
    isValid (bytes.take n) = true := by
  obtain ⟨_, hstart⟩ := Bool.and_eq_true_iff.1 hn
  cases hdrop : bytes.drop n with
  | nil => rwa [← List.take_append_drop n bytes, hdrop, List.append_nil] at h
  | cons b rest =>
      rw [hdrop, Bool.not_eq_true'] at hstart
      rw [← List.take_append_drop n bytes, hdrop, isValid_append_of_start hstart] at h
      exact (Bool.and_eq_true_iff.1 h).1

/-- A boundary is where a text falls into two. -/
theorem isBoundary_encode_iff :
    isBoundary (encode text) n = true ↔
      ∃ front rest : String, text = front ++ rest ∧ (encode front).length = n := by
  constructor
  · intro h
    have hlength : n ≤ (encode text).length := by simpa using (Bool.and_eq_true_iff.1 h).1
    have hvalid : isValid (encode text) = true := isValid_iff.2 ⟨text, rfl⟩
    obtain ⟨front, hfront⟩ := isValid_iff.1 (isValid_take hvalid h)
    obtain ⟨rest, hrest⟩ := isValid_iff.1 (isValid_drop hvalid h)
    refine ⟨front, rest, encode_inj.1 ?_, by rw [hfront, List.length_take_of_le hlength]⟩
    rw [encode_append, hfront, hrest, List.take_append_drop]
  · rintro ⟨front, rest, rfl, rfl⟩
    have hvalid : isValid (encode rest) = true := isValid_iff.2 ⟨rest, rfl⟩
    rw [isBoundary, encode_append, List.drop_left, List.length_append]
    cases hrest : encode rest with
    | nil => simp
    | cons b bytes =>
        rw [hrest] at hvalid
        simp [isContinuation_of_isValid hvalid]

end Hardlinks.Utf8
