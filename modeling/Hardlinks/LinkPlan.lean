-- SUMMARY: Plans of links between absolute paths, and the manifest that a plan stands for.
import Hardlinks.Config.Basic
import Hardlinks.Manifest.Basic
import Hardlinks.Path.Order

/-!
# Link plans

A plan maps destinations to sources, both with the full path of a common root in front. Its manifest
has the paths relative to that root, so a fixed number of bytes is cut off their front. A source
that then lies in the active checkpoint is reduced to its file name, since the active files are laid
out flat; a source of another generation keeps its whole relative path.
-/

namespace Hardlinks

/-- The path without its first `length` bytes. The path must be UTF-8 and the cut must not split a
character. -/
def Path.cut (p : Path) (length : Nat) : Except Failure Path :=
  if !p.isUtf8 then .error (.notUtf8 p)
  else if Utf8.isBoundary p.bytes length then .ok ⟨p.bytes.drop length⟩
  else .error (.cut p length)

/-- A path below `marker` reduced to its file name. Every other path is kept as it is. -/
def Path.flatten (p marker : Path) : Path :=
  if p.startsWith marker then
    match p.fileName? with
    | some name => ⟨name⟩
    | none => p
  else p

/-- Sources by destination. -/
abbrev LinkPlan := PathMap Path

namespace LinkPlan

/-- The entry for one pair of a plan. -/
def entry (cfg : CheckedConfig) (length : Nat) (pair : Path × Path) : Except Failure Entry := do
  let source ← pair.2.cut length
  let destination ← pair.1.cut length
  Entry.make destination (source.flatten (.ofString cfg.activeMarker))

/-- The manifest of a plan: an entry for every pair, or the failure of the first pair that has
none. -/
def manifest (cfg : CheckedConfig) (length : Nat) (plan : LinkPlan) : Except Failure Manifest :=
  plan.pairs.mapM (entry cfg length)

end LinkPlan

end Hardlinks
