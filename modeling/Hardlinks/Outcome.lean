-- SUMMARY: What an operation leaves behind, whether it fails or not.
import Hardlinks.Event
import Hardlinks.FileSystem.Basic

/-!
# Outcomes

An operation is a function of the file system it starts from. It gives its result together with the
file system after it and the events it reported.
-/

namespace Hardlinks

/-- What an operation leaves: its result, the file system after it, and what it reported. A failed
operation leaves a file system too. -/
structure Outcome (α : Type) where
  result : Except Failure α
  files : FileSystem
  events : List Event

end Hardlinks
