-- SUMMARY: A configuration read from a document that gives all or some of its settings.
import Hardlinks.Config.Document
import Hardlinks.Proofs.Json.Writing
import Hardlinks.Proofs.LinkPlan.Rewriting

/-!
# Configuration documents

What is written for a setting sets it to the same value and leaves the others alone
(`Config.exists_set?`). So the members of an object can be read one after the other, in any order,
and those with other keys do nothing (`Config.exists_setMembers?`). All members together give the
configuration back, and some of them give the default configuration with these settings
(`Config.document_roundtrip`).
-/

namespace Hardlinks

open Json

variable {cfg other : Config} {s : Setting}
  {members : List (Option String × Json)}

namespace Setting

theorem mem_all (s : Setting) : s ∈ all := by
  cases s <;> decide

theorem ofKey?_key (s : Setting) : ofKey? s.key = some s := by
  cases s <;> rfl

theorem ofKey?_eq_some_iff {key : String} : ofKey? key = some s ↔ key = s.key := by
  constructor
  · intro h
    rw [ofKey?] at h
    have hfound : s.key = key := by simpa using List.find?_some h
    exact hfound.symm
  · rintro rfl
    exact ofKey?_key s

theorem key_inj {t : Setting} (h : s.key = t.key) : s = t := by
  have hkey := ofKey?_key s
  rw [h, ofKey?_key] at hkey
  exact (Option.some.inj hkey).symm

end Setting

theorem ExistingLinks.ofKey?_key (policy : ExistingLinks) : ofKey? policy.key = some policy := by
  cases policy <;> rfl

namespace Config

/-- The two configurations have the same value for a setting. -/
def Agrees (cfg other : Config) : Setting → Prop
  | .manifestName => cfg.manifestName = other.manifestName
  | .activeMarker => cfg.activeMarker = other.activeMarker
  | .draftDir => cfg.draftDir = other.draftDir
  | .draftPrefix => cfg.draftPrefix = other.draftPrefix
  | .draftSuffix => cfg.draftSuffix = other.draftSuffix
  | .sync => cfg.sync = other.sync
  | .existingLinks => cfg.existingLinks = other.existingLinks

theorem eq_of_agrees (h : ∀ s, cfg.Agrees other s) : cfg = other := by
  cases cfg
  cases other
  simp only [Config.mk.injEq]
  exact ⟨h .manifestName, h .activeMarker, h .draftDir, h .draftPrefix, h .draftSuffix, h .sync,
    h .existingLinks⟩

theorem Agrees.trans {third : Config} (h : cfg.Agrees other s) (h' : other.Agrees third s) :
    cfg.Agrees third s := by
  cases s <;> exact Eq.trans h h'

/-- What a document gives for a setting of the configuration. -/
def settingJson (cfg : Config) : Setting → Json
  | .manifestName => .ofText cfg.manifestName
  | .activeMarker => .ofText cfg.activeMarker
  | .draftDir => cfg.draftDir.elim .null fun p => .ofText p.display
  | .draftPrefix => .ofText cfg.draftPrefix
  | .draftSuffix => .ofText cfg.draftSuffix
  | .sync => .bool cfg.sync
  | .existingLinks => .ofText cfg.existingLinks.key

/-- The configuration can be written: the directory for drafts is a text, if there is one. -/
def HasDocument (cfg : Config) : Prop :=
  ∀ p ∈ cfg.draftDir, p.isUtf8 = true

theorem toJson?_eq (h : cfg.HasDocument) :
    cfg.toJson? = some (.object (Setting.all.map fun s => (some s.key, cfg.settingJson s))) := by
  unfold toJson?
  cases hdir : cfg.draftDir with
  | none => simp [Setting.all, settingJson, hdir]
  | some p => simp [Setting.all, settingJson, hdir, pathText?, h p hdir]

/-! ## Reading settings -/

/-- What is written for a setting sets it, and leaves the other settings as they are. -/
theorem exists_set? (h : cfg.HasDocument) (other : Config) (s : Setting) :
    ∃ r, other.set? s (cfg.settingJson s) = some r ∧
      ∀ t, r.Agrees (if t = s then cfg else other) t := by
  cases s with
  | draftDir =>
      refine ⟨{ other with draftDir := cfg.draftDir }, ?_, fun t => by cases t <;> rfl⟩
      have hpath : (cfg.settingJson .draftDir).path? = some cfg.draftDir := by
        cases hdir : cfg.draftDir with
        | none => simp [settingJson, hdir, path?]
        | some p =>
            obtain ⟨text, rfl⟩ := Path.isUtf8_iff.1 (h p hdir)
            simp [settingJson, hdir, path?, ofText, Path.display, Path.ofString,
              Utf8.display_encode]
      simp [set?, hpath]
  | existingLinks =>
      refine ⟨{ other with existingLinks := cfg.existingLinks }, ?_, fun t => by cases t <;> rfl⟩
      simp [set?, settingJson, ofText, existingLinks?, ExistingLinks.ofKey?_key]
  | manifestName => exact ⟨_, rfl, fun t => by cases t <;> rfl⟩
  | activeMarker => exact ⟨_, rfl, fun t => by cases t <;> rfl⟩
  | draftPrefix => exact ⟨_, rfl, fun t => by cases t <;> rfl⟩
  | draftSuffix => exact ⟨_, rfl, fun t => by cases t <;> rfl⟩
  | sync => exact ⟨_, rfl, fun t => by cases t <;> rfl⟩

/-- The settings that members of an object are for. -/
def settings (members : List (Option String × Json)) : List Setting :=
  members.filterMap fun m => m.1.bind Setting.ofKey?

theorem settings_cons_of_other {key : String} {value : Json} (h : Setting.ofKey? key = none) :
    settings ((some key, value) :: members) = settings members :=
  List.filterMap_cons_none h

theorem settings_cons_key {value : Json} :
    settings ((some s.key, value) :: members) = s :: settings members :=
  List.filterMap_cons_some (Setting.ofKey?_key s)

/-- The members give settings of the configuration, each once, and may have other keys. -/
structure Gives (cfg : Config) (members : List (Option String × Json)) : Prop where
  text : ∀ m ∈ members, ∃ key : String, m.1 = some key
  value : ∀ {s value}, (some s.key, value) ∈ members → value = cfg.settingJson s
  once : (settings members).Nodup

theorem Gives.tail {member : Option String × Json} (h : cfg.Gives (member :: members)) :
    cfg.Gives members where
  text m hm := h.text m (List.mem_cons_of_mem _ hm)
  value hm := h.value (List.mem_cons_of_mem _ hm)
  once := h.once.sublist ((List.sublist_cons_self member members).filterMap _)

/-- Members that give settings of a configuration replace these settings and no others. -/
theorem exists_setMembers? (h : cfg.HasDocument) (hmembers : cfg.Gives members) (other : Config)
    (seen : List Setting) (hseen : ∀ s ∈ seen, s ∉ settings members) :
    ∃ r, other.setMembers? seen members = some r ∧
      ∀ s, r.Agrees (if s ∈ settings members then cfg else other) s := by
  induction members generalizing other seen with
  | nil => exact ⟨other, rfl, fun s => by cases s <;> rfl⟩
  | cons member members ih =>
      obtain ⟨key, value⟩ := member
      obtain ⟨key, rfl⟩ : ∃ text, key = some text := hmembers.text _ List.mem_cons_self
      cases hkey : Setting.ofKey? key with
      | none =>
          rw [settings_cons_of_other hkey] at hseen ⊢
          simpa [setMembers?, hkey] using ih hmembers.tail other seen hseen
      | some s =>
          obtain rfl := Setting.ofKey?_eq_some_iff.1 hkey
          obtain ⟨hnew, _⟩ := List.nodup_cons.1 (settings_cons_key ▸ hmembers.once)
          rw [settings_cons_key] at hseen ⊢
          -- What was seen is not among the members to come, and with `s` it still is not.
          have hunseen : s ∉ seen := fun hs => hseen s hs List.mem_cons_self
          obtain ⟨next, hnext, hset⟩ := exists_set? h other s
          obtain ⟨r, hr, hagrees⟩ := ih hmembers.tail next (s :: seen)
            (List.forall_mem_cons.2
              ⟨hnew, fun t ht hmem => hseen t ht (List.mem_cons_of_mem s hmem)⟩)
          refine ⟨r, ?_, fun t => ?_⟩
          · rw [hmembers.value List.mem_cons_self]
            simp [setMembers?, hkey, hunseen, hnext, hr]
          · have hr := hagrees t
            by_cases hmem : t ∈ settings members
            · simpa [hmem] using hr
            · rw [if_neg hmem] at hr
              simpa [hmem] using hr.trans (hset t)

/-! ## Documents -/

/-- Some of the fields of an object, each once and in any order, among members with other keys. -/
structure Mixes (fields members : List (Option String × Json)) : Prop where
  mem : ∀ m ∈ members, m ∈ fields ∨ (∃ key : String, m.1 = some key) ∧ m.1 ∉ fields.map Prod.fst
  once : ((members.map Prod.fst).filter (· ∈ fields.map Prod.fst)).Nodup

/-- The members that a document of the configuration has. -/
def fields (cfg : Config) : List (Option String × Json) :=
  Setting.all.map fun s => (some s.key, cfg.settingJson s)

theorem mem_fields_iff {m : Option String × Json} :
    m ∈ cfg.fields ↔ ∃ s : Setting, m = (some s.key, cfg.settingJson s) := by
  simp [fields, Setting.mem_all, eq_comm]

theorem map_fst_fields : cfg.fields.map Prod.fst = Setting.all.map fun s => some s.key := by
  simp [fields]

theorem key_mem_fields_iff {key : Option String} :
    key ∈ cfg.fields.map Prod.fst ↔ ∃ s : Setting, key = some s.key := by
  simp [map_fst_fields, Setting.mem_all, eq_comm]

/-- The settings that members are for can be told from the keys. -/
theorem map_settings (htext : ∀ m ∈ members, ∃ key : String, m.1 = some key) :
    (settings members).map (fun s => some s.key) =
      (members.map Prod.fst).filter (· ∈ cfg.fields.map Prod.fst) := by
  induction members with
  | nil => rfl
  | cons member members ih =>
      obtain ⟨⟨key, hmember⟩, hrest⟩ := List.forall_mem_cons.1 htext
      obtain ⟨_, value⟩ := member
      obtain rfl : _ = some key := hmember
      cases hkey : Setting.ofKey? key with
      | none =>
          have hother : some key ∉ cfg.fields.map Prod.fst := by
            rw [key_mem_fields_iff]
            rintro ⟨s, hs⟩
            rw [Option.some.inj hs, Setting.ofKey?_key] at hkey
            cases hkey
          rw [settings_cons_of_other hkey, List.map_cons,
            List.filter_cons_of_neg (by simpa using hother), ih hrest]
      | some s =>
          obtain rfl := Setting.ofKey?_eq_some_iff.1 hkey
          have hfield : some s.key ∈ cfg.fields.map Prod.fst := key_mem_fields_iff.2 ⟨s, rfl⟩
          rw [settings_cons_key, List.map_cons, List.map_cons,
            List.filter_cons_of_pos (by simpa using hfield), ih hrest]

theorem mem_settings_iff : s ∈ settings members ↔ some s.key ∈ members.map Prod.fst := by
  simp [settings, Option.bind_eq_some_iff, Setting.ofKey?_eq_some_iff]

theorem gives_of_mixes (h : Mixes cfg.fields members) : cfg.Gives members := by
  have htext : ∀ m ∈ members, ∃ key : String, m.1 = some key := by
    intro m hm
    rcases h.mem m hm with hfield | ⟨htext, _⟩
    · obtain ⟨s, rfl⟩ := mem_fields_iff.1 hfield
      exact ⟨s.key, rfl⟩
    · exact htext
  refine ⟨htext, fun {s value} hm => ?_, ?_⟩
  · rcases h.mem _ hm with hfield | ⟨_, hother⟩
    · obtain ⟨t, ht⟩ := mem_fields_iff.1 hfield
      obtain ⟨hkey, rfl⟩ := Prod.mk.inj ht
      rw [Setting.key_inj (Option.some.inj hkey)]
    · exact absurd (key_mem_fields_iff.2 ⟨s, rfl⟩) hother
  · have hnodup := h.once
    rw [← map_settings htext] at hnodup
    exact hnodup.of_map

/-- All the fields together are such members. -/
theorem mixes_fields : Mixes cfg.fields cfg.fields where
  mem m hm := .inl hm
  once := by
    rw [List.filter_eq_self.2 fun _ h => by simpa using h, map_fst_fields]
    decide

/-- A document with fields of a configuration, and members with other keys, describes the default
configuration but for these settings. -/
theorem ofDocument?_of_mixes {document : String} (hcfg : cfg.HasDocument)
    (hmembers : Mixes cfg.fields members) (h : IsDocument (.object members) document) :
    ∃ r, ofDocument? document = some r ∧
      ∀ s, r.Agrees (if some s.key ∈ members.map Prod.fst then cfg else default) s := by
  have hgives := gives_of_mixes hmembers
  obtain ⟨r, hr, hagrees⟩ :=
    exists_setMembers? hcfg hgives default [] (by simp)
  refine ⟨r, by simpa [ofDocument?, read?_of_isDocument h, ofJson?] using hr, fun s => ?_⟩
  simpa only [mem_settings_iff] using hagrees s

theorem spells_settingJson (cfg : Config) (s : Setting) :
    Spells (cfg.settingJson s) (cfg.settingJson s).render := by
  cases s with
  | draftDir =>
      rw [settingJson]
      cases cfg.draftDir with
      | none =>
          simp only [Option.elim_none, render]
          exact .null
      | some p => exact spells_ofText p.display
  | sync => exact spells_bool cfg.sync
  | _ => exact spells_ofText _

/-- A configuration that can be written is described by what is written. -/
theorem exists_toDocument? (h : cfg.HasDocument) :
    ∃ document, cfg.toDocument? = some document ∧ ofDocument? document = some cfg := by
  have hwritten : ∀ m ∈ cfg.fields, WellWritten m := by
    intro m hm
    obtain ⟨s, rfl⟩ := mem_fields_iff.1 hm
    exact ⟨⟨s.key, rfl⟩, cfg.spells_settingJson s⟩
  have hdocument := isDocument_of_spells (spells_object hwritten)
  obtain ⟨r, hr, hagrees⟩ := ofDocument?_of_mixes h mixes_fields hdocument
  refine ⟨_, by rw [toDocument?, toJson?_eq h]; rfl, ?_⟩
  obtain rfl : r = cfg := by
    refine eq_of_agrees fun s => ?_
    simpa only [key_mem_fields_iff.2 ⟨s, rfl⟩, if_true] using hagrees s
  exact hr

/-- Writing a configuration and reading it again gives it back. An object with some of the members
that were written, in any order and among members with other keys, describes the default
configuration with these settings instead of its own, however the text of the object is written. -/
theorem document_roundtrip (cfg : Config) (h : cfg.HasDocument) :
    (∃ document, cfg.toDocument? = some document ∧ ofDocument? document = some cfg) ∧
      ∃ fields, cfg.toJson? = some (.object fields) ∧
        fields.map Prod.fst = Setting.all.map (fun s => some s.key) ∧
        ∀ members document, Mixes fields members → IsDocument (.object members) document →
          ∃ r, ofDocument? document = some r ∧
            ∀ s, r.Agrees (if some s.key ∈ members.map Prod.fst then cfg else default) s :=
  ⟨exists_toDocument? h, cfg.fields, toJson?_eq h, map_fst_fields,
    fun _ _ hmembers hdocument => ofDocument?_of_mixes h hmembers hdocument⟩

/-- A configuration with a directory for drafts, and the other policy. -/
def ofTmp : Config :=
  { default with draftDir := some (.ofString "/d"), existingLinks := .refuse }

/-- One of its fields, behind a member that is none. -/
def oneField : List (Option String × Json) :=
  [(some "x", .array [.number "1", .string none]), (some "temp_dir", .ofText "/d")]

theorem isDocument_oneField :
    IsDocument (.object oneField) "\x7b\"x\": [1,\"\\ud800\"],\"temp_dir\":\"\\u002Fd\"\x7d\n" := by
  have hnumber : Number ['1'] :=
    @Number.mk [] ['1'] [] [] (.inl rfl) ⟨by decide, List.forall_mem_singleton.2 rfl⟩ (by decide)
      .none .none
  have hlone : SpellsString none ['\\', 'u', 'd', '8', '0', '0'] := by
    have hunits : SpellsUnits [.code 0xD800] ['\\', 'u', 'd', '8', '0', '0'] :=
      .number (w := 13) (x := 8) (y := 0) (z := 0) ⟨by decide, by decide⟩ ⟨by decide, by decide⟩
        ⟨by decide, by decide⟩ ⟨by decide, by decide⟩ .nil
    refine ⟨_, hunits, fun s => ?_⟩
    rw [← textOfUnits_eq_some_iff fun n => code_lt_of_spellsUnits hunits]
    simp [textOfUnits, isLowSurrogate, isHighSurrogate]
  have hdir : SpellsString (some "/d") ['\\', 'u', '0', '0', '2', 'F', 'd'] := by
    have hunits : SpellsUnits [.code 0x2F, .char 'd'] ['\\', 'u', '0', '0', '2', 'F', 'd'] :=
      .number (w := 0) (x := 0) (y := 2) (z := 15) ⟨by decide, by decide⟩ ⟨by decide, by decide⟩
        ⟨by decide, by decide⟩ ⟨by decide, by decide⟩
        (.plain (by decide) (by decide) (by decide) .nil)
    exact spellsString_of_denotes hunits (.code (c := '/') (.char .nil))
  have hblank : Blank [' '] := by simp [Blank]
  have hend : Blank ['\n'] := by simp [Blank]
  have hitems : SpellsItems [.number "1", .string none] _ :=
    .cons blank_nil (.number hnumber) blank_nil (.last blank_nil (.string hlone) blank_nil)
  have hmembers : SpellsMembers oneField _ :=
    .cons (spellsKey_renderString "x") hblank (.array hitems) blank_nil
      (.last (spellsKey_renderString "temp_dir") blank_nil (.string hdir) blank_nil)
  exact ⟨[], _, _, by decide, blank_nil, .object hmembers, hend⟩

/-- The document describes the default configuration with another directory for drafts, but not
with the other policy. -/
theorem document_roundtrip_of_oneField :
    ofTmp.HasDocument ∧ Mixes ofTmp.fields oneField ∧
      ∃ r, ofDocument? "\x7b\"x\": [1,\"\\ud800\"],\"temp_dir\":\"\\u002Fd\"\x7d\n" = some r ∧
        r.draftDir = some (.ofString "/d") ∧ r.existingLinks = .acceptSame := by
  have hcfg : ofTmp.HasDocument := by
    intro p hp
    obtain rfl : p = .ofString "/d" := by simpa [ofTmp, eq_comm] using hp
    decide
  have hmembers : Mixes ofTmp.fields oneField := by
    refine ⟨List.forall_mem_cons.2 ⟨.inr ⟨⟨_, rfl⟩, ?_⟩, List.forall_mem_singleton.2 (.inl ?_)⟩, ?_⟩
    · rw [map_fst_fields]
      decide
    · refine mem_fields_iff.2 ⟨.draftDir, ?_⟩
      simp [settingJson, ofTmp, Setting.key, Path.display, Path.ofString, Utf8.display_encode]
    · rw [map_fst_fields]
      decide
  obtain ⟨_, fields, hfields, _, hread⟩ := document_roundtrip ofTmp hcfg
  obtain rfl : ofTmp.fields = fields := Json.object.inj (Option.some.inj
    ((toJson?_eq hcfg).symm.trans hfields))
  obtain ⟨r, hr, hagrees⟩ := hread oneField _ hmembers isDocument_oneField
  exact ⟨hcfg, hmembers, r, hr, hagrees .draftDir, hagrees .existingLinks⟩

end Config

end Hardlinks
