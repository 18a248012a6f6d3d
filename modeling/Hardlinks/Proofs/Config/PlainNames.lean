-- SUMMARY: Which checked configurations name entries of the directories that their files belong in.
import Hardlinks.Draft
import Hardlinks.Proofs.Installation
import Hardlinks.Proofs.LinkPlan.Flattening

/-!
# Plain names

The check of a configuration looks at the components of the manifest's name, so a name with slashes
at its end passes, and of the parts of a draft's name it only asks that the first is something. The
texts are then joined to directories as they are. The manifest is always an entry of its directory,
but it has the name that is written, and the hidden file is an entry beside it, exactly if no slash
is written; likewise for a draft (`CheckedConfig.isChild_iff`).
-/

namespace Hardlinks

namespace Path

variable {p q dir : Path} {n text : Name}

/-- The path is the directory and one name more. -/
def IsChild (p dir : Path) (n : Name) : Prop :=
  p.components = dir.components ++ [.name n]

theorem isChild_join (h : q.components = [.name n]) : (dir.join q).IsChild dir n := by
  obtain ⟨hinside, hnames⟩ := inside_of_components h
  cases hdir : dir.isEmpty with
  | true =>
      obtain rfl : dir = ⟨[]⟩ := congrArg Path.mk (List.isEmpty_iff.1 hdir)
      have hjoin : (Path.mk []).join q = q := by
        rw [join, hinside.isAbsolute]
        rfl
      rw [IsChild, hjoin, h]
      rfl
  | false => rw [IsChild, components_join hdir hinside, hnames, List.map_singleton]

theorem IsChild.names_eq (h : (dir.join q).IsChild dir n) (hq : q.isAbsolute = false) :
    q.names = [n] := by
  have hnames := congrArg (List.filterMap Component.name?) h
  rw [List.filterMap_append, filterMap_components, filterMap_components, names_join hq] at hnames
  exact List.append_cancel_left hnames

/-- A text joined to a directory names an entry of that name exactly if no slash is in it. -/
theorem isChild_join_iff (htext : component? text = some (.name text)) :
    (dir.join ⟨text⟩).IsChild dir text ↔ slash ∉ text := by
  constructor
  · intro h
    have hmem : .name text ∈ (dir.join ⟨text⟩).components := by
      rw [h]
      exact List.mem_append_right _ (List.mem_singleton_self _)
    exact slash_notMem_of_mem_parts (component?_of_mem_components hmem).1
  · intro hslash
    exact isChild_join (components_of_name htext hslash)

/-- What is one name by its components is not one of the special parts, however it is written. -/
theorem component?_of_components (h : (Path.mk text).components = [.name n]) :
    component? text = some (.name text) := by
  have hempty : (Path.mk []).components = [] := by decide
  have hdot : (Path.mk [dot]).components = [.here] := by decide
  have hup : (Path.mk [dot, dot]).components = [.up] := by decide
  unfold component?
  rw [if_neg, if_neg]
  · rintro rfl
    simp [hup] at h
  · rintro (rfl | rfl)
    · simp [hempty] at h
    · simp [hdot] at h

/-- A path whose first part and whose last one are names falls into two of them at least. -/
theorem two_le_length_names {first last : Name} {init : List Name}
    (hparts : p.parts = first :: (init ++ [last])) (hfirst : component? first = some (.name first))
    (hlast : component? last = some (.name last)) : 2 ≤ p.names.length := by
  obtain ⟨_, hfirst⟩ := segment?_of_component? hfirst
  obtain ⟨_, hlast⟩ := segment?_of_component? hlast
  rw [names, segments, hparts, List.filterMap_cons_some hfirst, List.filterMap_append,
    List.filterMap_cons_some hlast]
  simp [Segment.name?]

end Path

open Hardlinks.Path

variable {cfg : CheckedConfig} {dir : Path} {n : Name}

/-- A further dot in front of a name does not make it one of the special parts. -/
theorem component?_dot_cons (h : component? n = some (.name n)) :
    component? (dot :: n) = some (.name (dot :: n)) := by
  obtain ⟨hempty, _⟩ := segment?_of_component? h
  have hdot : n ≠ [dot] := by
    rintro rfl
    simp [component?] at h
  simp [component?, hempty, hdot]

/-- With a slash in the manifest's name, the name of the hidden file falls into two at least. -/
theorem two_le_names_stagingName (hslash : slash ∈ Utf8.encode cfg.manifestName) :
    2 ≤ (Path.ofString ("." ++ cfg.manifestName ++ ".tmp")).names.length := by
  obtain ⟨n, hcomponents⟩ := cfg.components_manifestName
  obtain ⟨_, hn, blank, hparts, _⟩ := parts_of_components hcomponents
  have hfirst : slash ∉ n :=
    slash_notMem_of_mem_parts (p := .ofString cfg.manifestName) (by simp [hparts])
  obtain ⟨back, hback⟩ : n ++ [slash] <+: Utf8.encode cfg.manifestName := by
    refine ((head?_parts_iff hfirst).1 (by rw [hparts]; rfl)).resolve_left fun hbytes => ?_
    exact hfirst (hbytes ▸ hslash)
  have hsuffix : slash ∉ Utf8.encode ".tmp" := by decide
  obtain ⟨init, last, hlast⟩ := splitOn_append_of_notMem_right back hsuffix
  -- What is in front of the first slash is a name, and what is behind the last one is, too.
  have hsplit : (Path.ofString ("." ++ cfg.manifestName ++ ".tmp")).parts =
      (dot :: n) :: (init ++ [last ++ Utf8.encode ".tmp"]) := by
    have hdotted : slash ∉ dot :: n := List.not_mem_cons_of_ne_of_not_mem (by decide) hfirst
    have hbytes : Utf8.encode ("." ++ cfg.manifestName ++ ".tmp") =
        (dot :: n) ++ slash :: (back ++ Utf8.encode ".tmp") := by
      rw [encode_stagingName, ← hback]
      simp
    rw [Path.parts, Path.ofString, hbytes, List.splitOn_append_cons_self,
      List.splitOn_eq_singleton hdotted, hlast]
    rfl
  exact two_le_length_names hsplit (component?_dot_cons hn)
    (component?_of_mem (b := 116) (List.mem_append_right _ (by decide)) (by decide))

theorem isChild_stagingPath_iff :
    (∃ n, (Installation.stagingPath cfg dir).IsChild dir n) ↔
      slash ∉ Utf8.encode cfg.manifestName := by
  have hrelative : (Path.ofString ("." ++ cfg.manifestName ++ ".tmp")).isAbsolute = false := by
    rw [Path.ofString, encode_stagingName]
    rfl
  constructor
  · rintro ⟨n, hchild⟩ hslash
    have htwo := two_le_names_stagingName hslash
    rw [hchild.names_eq hrelative] at htwo
    simp at htwo
  · intro hslash
    have hmem : 116 ∈ Utf8.encode ("." ++ cfg.manifestName ++ ".tmp") := by
      rw [encode_stagingName]
      exact List.mem_cons_of_mem _ (List.mem_append_right _ (by decide))
    refine ⟨_, (isChild_join_iff (component?_of_mem hmem (by decide))).2 ?_⟩
    rw [encode_stagingName, List.mem_cons, List.mem_append, not_or, not_or]
    exact ⟨by decide, hslash, by decide⟩

/-- The manifest is an entry of its directory, though of the name that is written only if that has
no slash. The same tells whether the hidden file is an entry beside it, and for a draft, whose tag
has no slash of its own, whether it is one of the directory for drafts. -/
theorem CheckedConfig.isChild_iff (cfg : CheckedConfig) (dir systemTemp : Path)
    (tag : List UInt8) (htag : tag ≠ []) (hslash : slash ∉ tag) (hdot : dot ∉ tag) :
    let manifest := Utf8.encode cfg.manifestName
    let front := Utf8.encode cfg.draftPrefix
    let back := Utf8.encode cfg.draftSuffix
    let location := cfg.draftLocation systemTemp
    (∃ n, (cfg.manifestPath dir).IsChild dir n) ∧
      ((cfg.manifestPath dir).IsChild dir manifest ↔ slash ∉ manifest) ∧
      ((∃ n, (Installation.stagingPath cfg dir).IsChild dir n) ↔ slash ∉ manifest) ∧
      ((Draft.path cfg location tag).IsChild location (front ++ tag ++ back) ↔
        slash ∉ front ∧ slash ∉ back) := by
  intro manifest front back location
  obtain ⟨n, hcomponents⟩ := cfg.components_manifestName
  obtain ⟨b, rest, hb⟩ := List.exists_cons_of_ne_nil htag
  have hdraft : component? (front ++ tag ++ back) = some (.name (front ++ tag ++ back)) :=
    component?_of_mem (b := b) (by simp [hb]) fun heq => hdot (by simp [hb, heq])
  refine ⟨⟨n, isChild_join hcomponents⟩, isChild_join_iff (component?_of_components hcomponents),
    isChild_stagingPath_iff, (isChild_join_iff hdraft).trans ?_⟩
  simp [hslash]

/-- A configuration whose manifest has a slash at the end of its name. -/
def slashAtEnd : CheckedConfig :=
  ⟨{ Config.default with manifestName := "a/", draftPrefix := "sub/data" }, by decide⟩

/-- The check lets the name pass, but neither the manifest nor its hidden file nor a draft is an
entry with the name that is written for it. -/
theorem isChild_of_slashAtEnd :
    let dir := Path.ofString "t"
    let tag := Utf8.encode "x"
    slashAtEnd.manifestPath dir = .ofString "t/a/" ∧
      ¬ (slashAtEnd.manifestPath dir).IsChild dir (Utf8.encode "a/") ∧
      (¬ ∃ n, (Installation.stagingPath slashAtEnd dir).IsChild dir n) ∧
      ¬ (Draft.path slashAtEnd (slashAtEnd.draftLocation dir) tag).IsChild
        (slashAtEnd.draftLocation dir) (Utf8.encode "sub/data" ++ tag ++ Utf8.encode ".txt") := by
  intro dir tag
  obtain ⟨_, hmanifest, hhidden, hdraft⟩ :=
    slashAtEnd.isChild_iff dir dir tag (by decide) (by decide) (by decide)
  refine ⟨by decide, fun h => ?_, fun h => ?_, fun h => ?_⟩
  · exact absurd (hmanifest.1 h) (by decide)
  · exact absurd (hhidden.1 h) (by decide)
  · exact absurd (hdraft.1 h).1 (by decide)

end Hardlinks
