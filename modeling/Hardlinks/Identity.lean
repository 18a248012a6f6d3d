-- SUMMARY: Identities of files: nodes, modification times, and the tokens that show both.

/-!
# Identities

A node is what the directory entries of one file share: a device and a number on it. Together with
the modification time in milliseconds it identifies a version of a file, and the token of that
identity is a text to compare and to log.
-/

namespace Hardlinks

structure NodeId where
  device : Nat
  number : Nat
deriving DecidableEq, Repr

/-- The decimal text of an integer. -/
def decimal : Int → List Char
  | .ofNat n => Nat.toDigits 10 n
  | .negSucc n => '-' :: Nat.toDigits 10 (n + 1)

/-- The device in hexadecimal and the number in decimal. -/
def NodeId.text (node : NodeId) : List Char :=
  "(dev=".toList ++ Nat.toDigits 16 node.device ++ ",ino=".toList ++
    Nat.toDigits 10 node.number ++ [')']

/-- A point in time: whole seconds since the epoch, rounded down, and the nanoseconds after it. -/
structure Timestamp where
  seconds : Int
  nanos : Nat
deriving DecidableEq, Repr, Inhabited

namespace Timestamp

def nanosSinceEpoch (t : Timestamp) : Int :=
  t.seconds * 1000000000 + t.nanos

/-- The value of the low 64 bits of a number, read as a signed word. -/
def toWord (n : Int) : Int :=
  (BitVec.ofInt 64 n).toInt

/-- The distance from the epoch in whole milliseconds as a signed word; it is negative before the
epoch, and a part of a millisecond is dropped on both sides. The word wraps around, also where the
least one is negated, which is its own negative here; a build that checks for overflow stops at that
one negation. -/
def millis (t : Timestamp) : Int :=
  let distance : Int := Int.ofNat (t.nanosSinceEpoch.natAbs / 1000000)
  if 0 ≤ t.nanosSinceEpoch then toWord distance else toWord (-toWord distance)

end Timestamp

structure FileIdentity where
  node : NodeId
  modifiedMillis : Int
deriving DecidableEq, Repr

/-- The node's text, a hyphen and the modification time. -/
def FileIdentity.token (identity : FileIdentity) : List Char :=
  identity.node.text ++ '-' :: decimal identity.modifiedMillis

end Hardlinks
