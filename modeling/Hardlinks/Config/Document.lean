-- SUMMARY: Configurations as JSON documents: writing all settings, reading any of them.
import Hardlinks.Config.Basic
import Hardlinks.Json.Reader

/-!
# Configuration documents

A document is an object with a member per setting; missing settings keep their default and members
that name no setting are ignored, but no setting may be given twice. An array gives the settings by
position instead, and may be shorter than the list of settings but not longer.
-/

namespace Hardlinks

inductive Setting where
  | manifestName
  | activeMarker
  | draftDir
  | draftPrefix
  | draftSuffix
  | sync
  | existingLinks
deriving DecidableEq, Repr

namespace Setting

/-- The settings in the order of a document that gives them by position. -/
def all : List Setting :=
  [.manifestName, .activeMarker, .draftDir, .draftPrefix, .draftSuffix, .sync, .existingLinks]

def key : Setting → String
  | manifestName => "manifest_name"
  | activeMarker => "active_checkpoint_marker"
  | draftDir => "temp_dir"
  | draftPrefix => "temp_prefix"
  | draftSuffix => "temp_suffix"
  | sync => "sync"
  | existingLinks => "existing_links"

def ofKey? (key : String) : Option Setting :=
  all.find? fun s => s.key == key

end Setting

def ExistingLinks.key : ExistingLinks → String
  | acceptSame => "accept_same_file"
  | refuse => "fail"

def ExistingLinks.ofKey? (key : String) : Option ExistingLinks :=
  [acceptSame, refuse].find? fun p => p.key == key

namespace Json

def text? : Json → Option String
  | .string content => content
  | _ => none

def bool? : Json → Option Bool
  | .bool b => some b
  | _ => none

/-- A path given by its text, or `null` for none. -/
def path? : Json → Option (Option Path)
  | .null => some none
  | .string content => content.map fun text => some (.ofString text)
  | _ => none

/-- A policy is given by its key, or by an object whose only member has that key and `null`. -/
def existingLinks? : Json → Option ExistingLinks
  | .string (some key) => ExistingLinks.ofKey? key
  | .object [(some key, .null)] => ExistingLinks.ofKey? key
  | _ => none

end Json

namespace Config

/-- The configuration with one setting read from a document. -/
def set? (cfg : Config) (setting : Setting) (value : Json) : Option Config :=
  match setting with
  | .manifestName => value.text?.map fun text => { cfg with manifestName := text }
  | .activeMarker => value.text?.map fun text => { cfg with activeMarker := text }
  | .draftDir => value.path?.map fun dir => { cfg with draftDir := dir }
  | .draftPrefix => value.text?.map fun text => { cfg with draftPrefix := text }
  | .draftSuffix => value.text?.map fun text => { cfg with draftSuffix := text }
  | .sync => value.bool?.map fun b => { cfg with sync := b }
  | .existingLinks => value.existingLinks?.map fun policy => { cfg with existingLinks := policy }

/-- Reads the members of an object; `seen` holds the settings that were already given. -/
def setMembers? (cfg : Config) (seen : List Setting) :
    List (Option String × Json) → Option Config
  | [] => some cfg
  | (none, _) :: _ => none
  | (some key, value) :: rest =>
    match Setting.ofKey? key with
    | none => cfg.setMembers? seen rest
    | some setting =>
      if setting ∈ seen then none
      else
        match cfg.set? setting value with
        | none => none
        | some cfg => cfg.setMembers? (setting :: seen) rest

/-- Reads settings by position. -/
def setItems? (cfg : Config) : List Setting → List Json → Option Config
  | _, [] => some cfg
  | [], _ :: _ => none
  | setting :: settings, value :: rest =>
    match cfg.set? setting value with
    | none => none
    | some cfg => cfg.setItems? settings rest

def ofJson? : Json → Option Config
  | .object members => default.setMembers? [] members
  | .array items => default.setItems? Setting.all items
  | _ => none

/-- The configuration that the text of a document describes. -/
def ofDocument? (document : String) : Option Config :=
  (Json.read? document).bind ofJson?

/-- The text of a path, if it is UTF-8. -/
def pathText? (p : Path) : Option String :=
  if p.isUtf8 then some p.display else none

/-- The document with all settings. There is none if the directory for drafts is not UTF-8. -/
def toJson? (cfg : Config) : Option Json := do
  let dir ← match cfg.draftDir with
    | none => some Json.null
    | some p => (pathText? p).map Json.ofText
  let value : Setting → Json
    | .manifestName => .ofText cfg.manifestName
    | .activeMarker => .ofText cfg.activeMarker
    | .draftDir => dir
    | .draftPrefix => .ofText cfg.draftPrefix
    | .draftSuffix => .ofText cfg.draftSuffix
    | .sync => .bool cfg.sync
    | .existingLinks => .ofText cfg.existingLinks.key
  some (.object (Setting.all.map fun s => (some s.key, value s)))

/-- The text of the document with all settings. -/
def toDocument? (cfg : Config) : Option String :=
  cfg.toJson?.map fun json => String.ofList json.render

end Config

end Hardlinks
