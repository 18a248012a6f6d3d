-- SUMMARY: UTF-8 in parts: a text can be cut wherever a character begins, and checked part by part.
import Hardlinks.Proofs.Text.Lines
import Hardlinks.Text.Utf8

/-!
# UTF-8 in parts

Inside a character only continuation bytes are taken. So any other byte ends whatever the bytes in
front of it have begun, and the text can be cut there (`isValid_append_of_start`). The bytes that
separate lines, fields and names are characters of their own, so a text is valid exactly if all that
lies between them is (`isValid_append_cons`).
-/

namespace Hardlinks.Utf8

variable {p q : Pending} {state : Option Pending} {b : UInt8} {bytes text : List UInt8} {n : Nat}

/-- Inside a character nothing but a continuation byte is taken. -/
def TakesContinuations : Option Pending → Prop
  | none => True
  | some p => 0x80 ≤ p.low ∧ p.high < 0xC0

theorem takesContinuations_none : TakesContinuations none :=
  trivial

theorem takesContinuations_of_lead (h : lead b = .more p) : TakesContinuations (some p) := by
  unfold lead at h
  repeat' split at h
  all_goals cases h
  all_goals
    unfold TakesContinuations
    dsimp only
    decide

theorem takesContinuations_of_step (h : p.step b = .more q) : TakesContinuations (some q) := by
  unfold Pending.step at h
  split at h
  · dsimp only at h
    split at h
    · cases h
    · cases h
      unfold TakesContinuations
      dsimp only
      decide
  · cases h

theorem step_of_start (h : TakesContinuations (some p)) (hb : isContinuation b = false) :
    p.step b = .refused := by
  have hout : ¬(p.low ≤ b ∧ b ≤ p.high) := by
    rintro ⟨hlow, hhigh⟩
    have hb' : isContinuation b = true := by
      simp only [isContinuation, Bool.and_eq_true, decide_eq_true_iff]
      exact ⟨UInt8.le_trans h.1 hlow, UInt8.lt_of_le_of_lt hhigh h.2⟩
    simp [hb] at hb'
  simp only [Pending.step, if_neg hout]

/-- From a byte on that begins a character, a text is read afresh. -/
theorem all_decodeFrom_append (h : TakesContinuations state) (hb : isContinuation b = false) :
    (decodeFrom state (bytes ++ b :: text)).all Option.isSome =
      ((decodeFrom state bytes).all Option.isSome &&
        (decodeFrom none (b :: text)).all Option.isSome) := by
  induction bytes generalizing state with
  | nil =>
      cases state with
      | none => simp [decodeFrom]
      | some p => simp [decodeFrom, step_of_start h hb]
  | cons c bytes ih =>
      generalize (decodeFrom none (b :: text)).all Option.isSome = valid at ih ⊢
      cases state with
      | none =>
          rw [List.cons_append, decodeFrom, decodeFrom]
          cases hlead : lead c with
          | done c => simp [ih takesContinuations_none]
          | more p => exact ih (takesContinuations_of_lead hlead)
          | refused => simp
      | some p =>
          rw [List.cons_append, decodeFrom, decodeFrom]
          cases hstep : p.step c with
          | done c => simp [ih takesContinuations_none]
          | more q => exact ih (takesContinuations_of_step hstep)
          | refused => simp

theorem isValid_append_of_start (hb : isContinuation b = false) :
    isValid (bytes ++ b :: text) = (isValid bytes && isValid (b :: text)) :=
  all_decodeFrom_append takesContinuations_none hb

/-- A valid text is still valid when it is cut at a boundary. -/
theorem isValid_drop (h : isValid bytes = true) (hn : isBoundary bytes n = true) :
    isValid (bytes.drop n) = true := by
  obtain ⟨_, hstart⟩ := Bool.and_eq_true_iff.1 hn
  cases hdrop : bytes.drop n with
  | nil => rfl
  | cons b rest =>
      rw [hdrop, Bool.not_eq_true'] at hstart
      rw [← List.take_append_drop n bytes, hdrop, isValid_append_of_start hstart] at h
      exact (Bool.and_eq_true_iff.1 h).2

/-! ## Separators -/

/-- A byte below `0x80` separates what is in front of it from what is behind it. -/
theorem isValid_append_cons (hb : b < 0x80) :
    isValid (bytes ++ b :: text) = (isValid bytes && isValid text) := by
  have hstart : isContinuation b = false := by
    simp [isContinuation, UInt8.not_le.2 hb]
  rw [isValid_append_of_start hstart]
  simp [isValid, decode, decodeFrom, lead, hb]

/-- Of a valid text each part between separators is valid. -/
theorem isValid_of_mem_splitOn {part : List UInt8} (hb : b < 0x80) (h : isValid bytes = true)
    (hpart : part ∈ bytes.splitOn b) : isValid part = true := by
  generalize hparts : bytes.splitOn b = parts at hpart
  have hbytes : bytes = [b].intercalate parts := by rw [← hparts, List.intercalate_splitOn]
  clear hparts
  induction parts generalizing bytes with
  | nil => cases hpart
  | cons first parts ih =>
      cases parts with
      | nil =>
          obtain rfl := List.mem_singleton.1 hpart
          simpa [hbytes] using h
      | cons next parts =>
          have hsplit : bytes = first ++ b :: [b].intercalate (next :: parts) := by
            rw [hbytes, List.intercalate_cons_cons, List.append_assoc, List.singleton_append]
          rw [hsplit, isValid_append_cons hb, Bool.and_eq_true] at h
          rcases List.mem_cons.1 hpart with rfl | hpart
          · exact h.1
          · exact ih h.2 hpart rfl

/-- A text of whole lines is valid if each line is. -/
theorem isValid_flatMap (lines : List (List UInt8)) :
    isValid (lines.flatMap fun line => line ++ [Text.newline]) = lines.all isValid := by
  induction lines with
  | nil => rfl
  | cons line lines ih =>
      rw [List.flatMap_cons, List.append_assoc, List.singleton_append,
        isValid_append_cons (by decide), ih, List.all_cons]

theorem encode_append (front rest : String) :
    encode (front ++ rest) = encode front ++ encode rest := by
  simp [encode]

end Hardlinks.Utf8
