-- SUMMARY: What operations report while they run, and the log records that show it.
import Hardlinks.Manifest.Basic
import Hardlinks.Report

/-!
# Events

An operation reports what it does as events. An event holds the values it is about; its record is
how it is logged, with a level, a message and named fields.
-/

namespace Hardlinks

inductive Event where
  | draftWritten (draft : Path) (entries : Nat)
  | draftNotLinked (draft : Path) (cause : IoError)
  | installed (manifest : Path)
  | noManifest (dir : Path)
  | lineSkipped (manifest : Path) (line : MalformedLine)
  | alreadyLinked (destination : Path)
  | sourceNotDeleted (source : Path) (cause : IoError)
  | applied (dir : Path) (report : ReplayReport)
  | treeStarted (source destination : Path)
  | treeLinked (source destination : Path) (report : TreeReport)
deriving DecidableEq, Repr

inductive Level where
  | debug
  | info
  | warn
deriving DecidableEq, Repr

inductive Field where
  | text (value : String)
  | count (value : Nat)
deriving DecidableEq, Repr

structure Record where
  level : Level
  target : String
  message : String
  fields : List (String × Field)
deriving DecidableEq, Repr

namespace Event

def level : Event → Level
  | draftWritten .. | draftNotLinked .. | noManifest .. | alreadyLinked .. | treeStarted .. =>
    .debug
  | installed .. | applied .. | treeLinked .. => .info
  | lineSkipped .. | sourceNotDeleted .. => .warn

/-- The part of the program that the event is logged for. -/
def target : Event → String
  | draftWritten .. | draftNotLinked .. | installed .. => "snaplink::writer"
  | noManifest .. | lineSkipped .. | alreadyLinked .. | sourceNotDeleted .. | applied .. =>
    "snaplink::apply"
  | treeStarted .. | treeLinked .. => "snaplink::mirror"

def message : Event → String
  | draftWritten .. => "Wrote link manifest"
  | draftNotLinked .. => "Link failed, copying manifest into place"
  | installed .. => "Installed link manifest"
  | noManifest .. => "No link manifest, nothing to apply"
  | lineSkipped .. => "Skipping malformed line in hardlink manifest"
  | alreadyLinked .. => "Link already present"
  | sourceNotDeleted .. => "Couldn't delete source file after linking"
  | applied .. => "Applied link manifest"
  | treeStarted .. => "Mirroring directory tree"
  | treeLinked .. => "Mirrored directory tree"

def fields : Event → List (String × Field)
  | draftWritten draft entries => [("path", .text draft.display), ("entries", .count entries)]
  | draftNotLinked draft cause =>
    [("from", .text draft.display), ("error", .text cause.message)]
  | installed manifest => [("path", .text manifest.display)]
  | noManifest dir => [("dir", .text dir.display)]
  | lineSkipped manifest line =>
    [("manifest", .text manifest.display), ("line", .count line.number),
      ("content", .text (Utf8.display line.content)), ("reason", .text line.defect.message)]
  | alreadyLinked destination => [("to", .text destination.display)]
  | sourceNotDeleted source cause =>
    [("path", .text source.display), ("error", .text cause.message)]
  | applied dir report =>
    [("dir", .text dir.display), ("linked", .count report.linked),
      ("already_linked", .count report.alreadyLinked), ("skipped", .count report.skippedLines),
      ("sources_deleted", .count report.sourcesDeleted)]
  | treeStarted source destination =>
    [("from", .text source.display), ("to", .text destination.display)]
  | treeLinked source destination report =>
    [("from", .text source.display), ("to", .text destination.display),
      ("directories", .count report.directories), ("links", .count report.links)]

def record (e : Event) : Record :=
  ⟨e.level, e.target, e.message, e.fields⟩

end Event

end Hardlinks
