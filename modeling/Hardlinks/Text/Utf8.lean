-- SUMMARY: UTF-8 read one byte at a time: validity, character boundaries and lossy display.

/-!
# UTF-8

A reader that takes one byte at a time and knows, inside a character, which range the next byte
must lie in. A byte outside that range ends the character as invalid and is then read afresh, so
every maximal invalid part of a text is reported once. Validity, the boundaries between characters
and the lossy display of arbitrary bytes all come from this one reader.
-/

namespace Hardlinks.Utf8

/-- Inside a character: how many bytes follow the next one, the range the next one must lie in,
and the bits of the code point read so far. -/
structure Pending where
  owed : Nat
  low : UInt8
  high : UInt8
  bits : Nat
deriving DecidableEq, Repr

/-- What one byte leads to. -/
inductive Step where
  | done (c : Char)
  | more (p : Pending)
  | refused
deriving DecidableEq, Repr

/-- The first byte of a character. The second byte of some characters has a narrower range: it is
what keeps out overlong forms, surrogates and code points past the last one. -/
def lead (b : UInt8) : Step :=
  if b < 0x80 then .done (Char.ofNat b.toNat)
  else if b < 0xC2 then .refused
  else if b < 0xE0 then .more ⟨0, 0x80, 0xBF, b.toNat - 0xC0⟩
  else if b < 0xF0 then
    .more ⟨1, if b = 0xE0 then 0xA0 else 0x80, if b = 0xED then 0x9F else 0xBF, b.toNat - 0xE0⟩
  else if b < 0xF5 then
    .more ⟨2, if b = 0xF0 then 0x90 else 0x80, if b = 0xF4 then 0x8F else 0xBF, b.toNat - 0xF0⟩
  else .refused

/-- A further byte of a character. -/
def Pending.step (p : Pending) (b : UInt8) : Step :=
  if p.low ≤ b ∧ b ≤ p.high then
    let bits := p.bits * 64 + (b.toNat - 0x80)
    match p.owed with
    | 0 => .done (Char.ofNat bits)
    | n + 1 => .more ⟨n, 0x80, 0xBF, bits⟩
  else .refused

/-- The characters of a byte sequence, read from between two characters or from inside one;
`none` stands for one maximal invalid part. -/
def decodeFrom : Option Pending → List UInt8 → List (Option Char)
  | none, [] => []
  | some _, [] => [none]
  | none, b :: rest =>
    match lead b with
    | .done c => some c :: decodeFrom none rest
    | .more p => decodeFrom (some p) rest
    | .refused => none :: decodeFrom none rest
  | some p, b :: rest =>
    match p.step b with
    | .done c => some c :: decodeFrom none rest
    | .more q => decodeFrom (some q) rest
    | .refused =>
      none ::
        match lead b with
        | .done c => some c :: decodeFrom none rest
        | .more q => decodeFrom (some q) rest
        | .refused => none :: decodeFrom none rest

def decode (bytes : List UInt8) : List (Option Char) :=
  decodeFrom none bytes

/-- True when no part of the bytes is invalid. -/
def isValid (bytes : List UInt8) : Bool :=
  (decode bytes).all Option.isSome

/-- The bytes as text, each maximal invalid part shown as U+FFFD. -/
def display (bytes : List UInt8) : String :=
  String.ofList ((decode bytes).map (·.getD '\uFFFD'))

/-- A byte that can only stand inside a character. -/
def isContinuation (b : UInt8) : Bool :=
  0x80 ≤ b && b < 0xC0

/-- True when position `n` of a valid text lies between two characters or at an end. -/
def isBoundary (bytes : List UInt8) (n : Nat) : Bool :=
  n ≤ bytes.length &&
    match bytes.drop n with
    | [] => true
    | b :: _ => !isContinuation b

/-- The UTF-8 bytes of a text. -/
def encode (text : String) : List UInt8 :=
  text.toByteArray.data.toList

end Hardlinks.Utf8
