-- SUMMARY: The settings of manifests: their names, where drafts are written, and the policies.
import Hardlinks.Failure

/-!
# Configuration

The settings that writing, installing and applying manifests share. A configuration is checked
before it is used: the manifest must have a plain file name, the marker of the active checkpoint
must be a relative path, and the names of drafts must start with something.
-/

namespace Hardlinks

/-- What to do with a destination that already exists. -/
inductive ExistingLinks where
  /-- Accept it if it already is the source's node. -/
  | acceptSame
  | refuse
deriving DecidableEq, Repr

structure Config where
  manifestName : String
  activeMarker : String
  /-- Where drafts are written; the system's directory for temporary files if none is given. -/
  draftDir : Option Path
  draftPrefix : String
  draftSuffix : String
  sync : Bool
  existingLinks : ExistingLinks
deriving DecidableEq, Repr

namespace Config

def default : Config where
  manifestName := "hardLinkFile"
  activeMarker := "db.checkpoints"
  draftDir := none
  draftPrefix := "data"
  draftSuffix := ".txt"
  sync := true
  existingLinks := .acceptSame

/-- The default configuration without waiting for the disk. -/
def unsynced : Config :=
  { default with sync := false }

instance : Inhabited Config :=
  ⟨default⟩

/-- Where the manifest of a directory is. -/
def manifestPath (cfg : Config) (dir : Path) : Path :=
  dir.join (.ofString cfg.manifestName)

/-- Where drafts are written. -/
def draftLocation (cfg : Config) (systemTemp : Path) : Path :=
  cfg.draftDir.getD systemTemp

/-- The first reason to reject the configuration. -/
def defect? (cfg : Config) : Option ConfigDefect :=
  let namesOneFile := match (Path.ofString cfg.manifestName).components with
    | [.name _] => true
    | _ => false
  let marker := Path.ofString cfg.activeMarker
  if !namesOneFile then some (.manifestName cfg.manifestName)
  else if marker.isEmpty || marker.isAbsolute then some (.activeMarker cfg.activeMarker)
  else if cfg.draftPrefix = "" then some .emptyDraftPrefix
  else none

end Config

/-- A configuration that has been checked. -/
structure CheckedConfig extends Config where
  defect?_eq_none : toConfig.defect? = none

/-- Checks a configuration. -/
def Config.check (cfg : Config) : Except Failure CheckedConfig :=
  match h : cfg.defect? with
  | some defect => .error (.invalidConfig defect)
  | none => .ok ⟨cfg, h⟩

def CheckedConfig.default : CheckedConfig :=
  ⟨Config.default, by decide⟩

instance : Inhabited CheckedConfig :=
  ⟨.default⟩

end Hardlinks
