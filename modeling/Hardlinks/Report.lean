-- SUMMARY: The counts that a finished operation gives.

/-!
# Reports

A pass over a manifest and the linking of a tree each end with a report of what they did.
-/

namespace Hardlinks

/-- The counts of a pass over a manifest. -/
structure ReplayReport where
  manifestFound : Bool
  linked : Nat
  alreadyLinked : Nat
  skippedLines : Nat
  sourcesDeleted : Nat
  cleanupFailures : Nat
deriving DecidableEq, Repr

/-- The report of a pass that found no manifest. -/
def ReplayReport.empty : ReplayReport :=
  ⟨false, 0, 0, 0, 0, 0⟩

/-- True when no line was skipped and every removal worked. -/
def ReplayReport.isClean (r : ReplayReport) : Bool :=
  r.skippedLines == 0 && r.cleanupFailures == 0

/-- The counts of a tree that was linked into another place. -/
structure TreeReport where
  directories : Nat
  links : Nat
deriving DecidableEq, Repr

end Hardlinks
