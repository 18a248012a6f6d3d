-- SUMMARY: The segments of joined paths and of parent directories.
import Hardlinks.FileSystem.Resolve
import Hardlinks.Proofs.Text.Lines

/-!
# Segments of paths

A relative path that is joined to another one adds its segments at the end (`segments_join`), and
the parent directory of a path has the first of the path's segments (`segments_of_parent?`). Both
hold for every spelling: repeated slashes are no segments, and a `.` is one that stays where it is.
-/

namespace Hardlinks.Path

variable {p q : Path} {part : Name} {parts : List Name}

theorem slash_notMem_of_mem_parts (h : part ∈ p.parts) : slash ∉ part :=
  Text.notMem_of_mem_splitOn h

theorem parts_ofParts (hslash : ∀ part ∈ parts, slash ∉ part) (hne : parts ≠ []) :
    (ofParts parts).parts = parts :=
  List.splitOn_intercalate slash hslash hne

theorem ofParts_parts (p : Path) : ofParts p.parts = p := by
  simp [ofParts, Path.parts]

/-- A path is absolute if it has an empty part in front of others. -/
theorem isAbsolute_iff : p.isAbsolute = true ↔ ∃ rest, rest ≠ [] ∧ p.parts = [] :: rest := by
  obtain ⟨bytes⟩ := p
  cases bytes with
  | nil => simp [isAbsolute, Path.parts]
  | cons b bytes =>
      have hne := List.splitOn_ne_nil slash bytes
      simp only [isAbsolute, Path.parts, List.splitOn_cons_eq_if_modifyHead]
      by_cases hb : b = slash
      · simp [hb]
      · obtain ⟨head, tail, hsplit⟩ := List.exists_cons_of_ne_nil hne
        simp [hb, hsplit]

/-- Bytes without a slash become the end of the last part. -/
theorem splitOn_append_of_notMem_right (front : List UInt8) {back : List UInt8} (h : slash ∉ back) :
    ∃ init last, (front ++ back).splitOn slash = init ++ [last ++ back] := by
  induction front with
  | nil => exact ⟨[], [], by simp [List.splitOn_eq_singleton h]⟩
  | cons b front ih =>
      obtain ⟨init, last, hsplit⟩ := ih
      rw [List.cons_append, List.splitOn_cons_eq_if_modifyHead, hsplit]
      split
      · exact ⟨[] :: init, last, rfl⟩
      · cases init with
        | nil => exact ⟨[], b :: last, by simp⟩
        | cons first init => exact ⟨(b :: first) :: init, last, by simp⟩

/-- The first part is the text up to the first slash. -/
theorem head?_parts_iff (hslash : slash ∉ part) :
    p.parts.head? = some part ↔ p.bytes = part ∨ part ++ [slash] <+: p.bytes := by
  constructor
  · intro hhead
    obtain ⟨rest, hparts⟩ := List.head?_eq_some_iff.1 hhead
    have hbytes : p.bytes = [slash].intercalate (part :: rest) := by
      rw [← hparts, Path.parts, List.intercalate_splitOn]
    cases rest with
    | nil => exact .inl (by simpa using hbytes)
    | cons next rest =>
        refine .inr ⟨[slash].intercalate (next :: rest), ?_⟩
        rw [hbytes, List.intercalate_cons_cons]
  · rintro (hbytes | ⟨rest, hbytes⟩)
    · rw [Path.parts, hbytes, List.splitOn_eq_singleton hslash]
      rfl
    · rw [Path.parts, ← hbytes, List.append_assoc, List.singleton_append,
        List.splitOn_append_cons_self, List.splitOn_eq_singleton hslash]
      rfl

/-! ## Joined paths -/

theorem isAbsolute_eq_false_of_isEmpty (h : p.isEmpty = true) : p.isAbsolute = false := by
  obtain ⟨bytes⟩ := p
  simp_all [isEmpty, isAbsolute]

/-- A joined path has one slash between the two, which may be there already. -/
theorem join_cases (hq : q.isAbsolute = false) :
    (p.bytes = [] ∧ p.join q = q) ∨
      (∃ init, p.bytes = init ++ [slash] ∧ p.join q = ⟨init ++ slash :: q.bytes⟩) ∨
      (p.bytes ≠ [] ∧ p.join q = ⟨p.bytes ++ slash :: q.bytes⟩) := by
  obtain ⟨bytes⟩ := p
  rcases List.eq_nil_or_concat bytes with rfl | ⟨init, last, rfl⟩
  · simp [join, hq, isEmpty]
  · by_cases hlast : last = slash
    · subst hlast
      exact .inr (.inl ⟨init, by simp, by simp [join, hq]⟩)
    · exact .inr (.inr ⟨by simp, by simp [join, hq, isEmpty, hlast]⟩)

theorem isAbsolute_join (hq : q.isAbsolute = false) : (p.join q).isAbsolute = p.isAbsolute := by
  rcases join_cases (p := p) hq with ⟨hp, hjoin⟩ | ⟨init, hp, hjoin⟩ | ⟨hp, hjoin⟩
  · rw [hjoin, hq, isAbsolute_eq_false_of_isEmpty (by simp [isEmpty, hp])]
  · rw [hjoin]
    simp [isAbsolute, hp, List.head?_append]
  · obtain ⟨b, bytes, hb⟩ := List.exists_cons_of_ne_nil hp
    rw [hjoin]
    simp [isAbsolute, hb]

theorem mem_bytes_join {b : UInt8} (hq : q.isAbsolute = false) (hb : b ≠ slash) :
    b ∈ (p.join q).bytes ↔ b ∈ p.bytes ∨ b ∈ q.bytes := by
  rw [join, hq, if_neg (by simp)]
  split
  · simp
  · simp [hb]

theorem segments_join (hq : q.isAbsolute = false) :
    (p.join q).segments = p.segments ++ q.segments := by
  rcases join_cases (p := p) hq with ⟨hp, hjoin⟩ | ⟨init, hp, hjoin⟩ | ⟨hp, hjoin⟩
  · rw [hjoin]
    simp [segments, Path.parts, hp, segment?]
  · rw [hjoin]
    simp [segments, Path.parts, hp, List.splitOn_append_cons_self, segment?]
  · rw [hjoin]
    simp [segments, Path.parts, List.splitOn_append_cons_self]

theorem endsInSlash_join (hq : q.isAbsolute = false) (hne : q.isEmpty = false) :
    (p.join q).endsInSlash = q.endsInSlash := by
  rcases List.eq_nil_or_concat q.bytes with hnil | ⟨body, last, hlast⟩
  · simp [isEmpty, hnil] at hne
  · rcases join_cases (p := p) hq with ⟨_, hjoin⟩ | ⟨init, _, hjoin⟩ | ⟨_, hjoin⟩
    · rw [hjoin]
    · have hbytes : (p.join q).bytes = (init ++ slash :: body) ++ [last] := by simp [hjoin, hlast]
      rw [endsInSlash, hbytes, List.getLast?_concat]
      simp [endsInSlash, hlast]
    · have hbytes : (p.join q).bytes = (p.bytes ++ slash :: body) ++ [last] := by
        simp [hjoin, hlast]
      rw [endsInSlash, hbytes, List.getLast?_concat]
      simp [endsInSlash, hlast]

/-! ## Single names -/

theorem component?_eq_some_name {n : Name} (h : component? part = some (.name n)) : part = n := by
  unfold component? at h
  split at h
  · cases h
  · split at h <;> cases h
    rfl

theorem eq_of_segment? {n : Name} (h : segment? part = some (.name n)) : part = n := by
  unfold segment? at h
  split at h
  · cases h
  · split at h
    · cases h
    · split at h <;> cases h
      rfl

theorem segment?_of_component? {n : Name} (h : component? n = some (.name n)) :
    n ≠ [] ∧ segment? n = some (.name n) := by
  unfold component? at h
  unfold segment?
  split at h
  · cases h
  · next hblank =>
    obtain ⟨hempty, hdot⟩ := not_or.1 hblank
    split at h
    · cases h
    · next hup => exact ⟨hempty, by rw [if_neg hempty, if_neg hdot, if_neg hup]⟩

/-- A part that holds a byte other than a dot is a name. -/
theorem component?_of_mem {b : UInt8} (hmem : b ∈ part) (hb : b ≠ dot) :
    component? part = some (.name part) := by
  unfold component?
  rw [if_neg, if_neg]
  · rintro rfl
    simp [hb] at hmem
  · rintro (rfl | rfl)
    · simp at hmem
    · simp [hb] at hmem

theorem blank_of_component? (h : component? part = none) : part = [] ∨ part = [dot] := by
  unfold component? at h
  split at h
  · assumption
  · split at h <;> cases h

theorem component?_of_mem_components {n : Name} (h : .name n ∈ p.components) :
    n ∈ p.parts ∧ component? n = some (.name n) := by
  rcases List.mem_append.1 h with hanchor | hname
  · unfold anchor at hanchor
    split at hanchor
    · simp at hanchor
    · split at hanchor <;> simp at hanchor
  · obtain ⟨part, hpart, hcomponent⟩ := List.mem_filterMap.1 hname
    obtain rfl := component?_eq_some_name hcomponent
    exact ⟨hpart, hcomponent⟩

/-- A path whose first part is a name is relative, and the name is the first of its components. -/
theorem components_of_parts {n : Name} (hn : component? n = some (.name n))
    (hparts : p.parts = n :: parts) :
    p.isAbsolute = false ∧ p.components = .name n :: parts.filterMap component? := by
  have habsolute : p.isAbsolute = false := by
    apply Bool.eq_false_iff.2
    intro habsolute
    obtain ⟨_, _, hroot⟩ := isAbsolute_iff.1 habsolute
    exact (segment?_of_component? hn).1 (List.cons.inj (hparts.symm.trans hroot)).1
  have hdot : n ≠ [dot] := by
    rintro rfl
    simp [component?] at hn
  exact ⟨habsolute, by simp [components, anchor, habsolute, hparts, hdot, hn]⟩

theorem components_of_name {n : Name} (hn : component? n = some (.name n)) (hslash : slash ∉ n) :
    (Path.mk n).components = [.name n] :=
  (components_of_parts hn (List.splitOn_eq_singleton hslash)).2

/-- The first component of a path is a name exactly if the first of its parts is that name. -/
theorem head?_components_iff {n : Name} (hn : component? n = some (.name n)) :
    p.components.head? = some (.name n) ↔ p.parts.head? = some n := by
  obtain ⟨first, rest, hparts⟩ := List.exists_cons_of_ne_nil (List.splitOn_ne_nil slash p.bytes)
  have hparts : p.parts = first :: rest := hparts
  constructor
  · intro hhead
    unfold components anchor at hhead
    split at hhead
    · simp at hhead
    · next habsolute =>
      split at hhead
      · simp at hhead
      · next hdot =>
        rw [List.nil_append, hparts] at hhead
        cases hfirst : component? first with
        | none =>
            -- The first part is empty, so the path is absolute or has no component at all.
            rcases blank_of_component? hfirst with rfl | rfl
            · cases rest with
              | nil => simp [hfirst] at hhead
              | cons next rest =>
                  exact absurd (isAbsolute_iff.2 ⟨_, List.cons_ne_nil next rest, hparts⟩) habsolute
            · simp [hparts] at hdot
        | some c =>
            rw [List.filterMap_cons_some hfirst, List.head?_cons] at hhead
            obtain rfl := Option.some.inj hhead
            rw [hparts, component?_eq_some_name hfirst, List.head?_cons]
  · intro hhead
    obtain ⟨rest, hparts⟩ := List.head?_eq_some_iff.1 hhead
    rw [(components_of_parts hn hparts).2, List.head?_cons]

/-- A path that is one name by its components has the name in front, and nothing that counts behind
it. -/
theorem parts_of_components {n : Name} (h : p.components = [.name n]) :
    p.isAbsolute = false ∧ component? n = some (.name n) ∧
      ∃ blank, p.parts = n :: blank ∧ ∀ part ∈ blank, part = [] ∨ part = [dot] := by
  obtain ⟨_, hn⟩ := component?_of_mem_components (h ▸ List.mem_singleton_self _)
  have hhead : p.components.head? = some (.name n) := by rw [h, List.head?_cons]
  obtain ⟨blank, hparts⟩ := List.head?_eq_some_iff.1 ((head?_components_iff hn).1 hhead)
  obtain ⟨habsolute, hcomponents⟩ := components_of_parts hn hparts
  obtain ⟨_, hblank⟩ := List.cons.inj (hcomponents.symm.trans h)
  refine ⟨habsolute, hn, blank, hparts, fun part hpart => blank_of_component? ?_⟩
  exact List.filterMap_eq_nil_iff.1 hblank part hpart

/-- A path that ends in an empty part ends in a slash. -/
theorem endsInSlash_of_parts {init : List Name} (hinit : init ≠ []) (h : p.parts = init ++ [[]]) :
    p.endsInSlash = true := by
  have hbytes : p.bytes = [slash].intercalate init ++ [slash] := by
    rw [← ofParts_parts p, h, ofParts]
    obtain ⟨first, rest, rfl⟩ := List.exists_cons_of_ne_nil hinit
    clear h
    induction rest generalizing first with
    | nil => simp [List.intercalate]
    | cons next rest ih =>
        have htail := ih next (by simp)
        simp only [List.intercalate, List.cons_append, List.intersperse_cons_cons,
          List.flatten_cons] at htail ⊢
        rw [htail]
        simp
  simp [endsInSlash, hbytes]

/-! ## Parent directories -/

/-- What is trimmed off stands for no component, and what stays ends in one. -/
theorem trimParts_spec (parts : List Name) :
    (∃ blank, parts = trimParts parts ++ blank ∧ ∀ part ∈ blank, part = [] ∨ part = [dot]) ∧
      ∀ last, (trimParts parts).getLast? = some last → last ≠ [] ∧ last ≠ [dot] := by
  unfold trimParts
  constructor
  · refine ⟨(parts.reverse.takeWhile fun part => part == [] || part == [dot]).reverse, ?_, ?_⟩
    · rw [← List.reverse_append, List.takeWhile_append_dropWhile, List.reverse_reverse]
    · intro part hpart
      simpa using List.all_eq_true.1 List.all_takeWhile part (List.mem_reverse.1 hpart)
  · intro last hlast
    rw [List.getLast?_reverse] at hlast
    have hnot := List.head?_dropWhile_not (fun part => part == [] || part == [dot]) parts.reverse
    rw [hlast] at hnot
    simpa using hnot

theorem segment?_isSome (h : part ≠ []) :
    ∃ segment, segment? part = some segment ∧ (part ≠ [dot] → segment ≠ .here) := by
  unfold segment?
  rw [if_neg h]
  split
  · next hdot => exact ⟨_, rfl, fun hne => absurd hdot hne⟩
  · split <;> exact ⟨_, rfl, fun _ => by simp⟩

/-- The two forms of a parent directory: the root, or the parts in front of the last component. -/
theorem parent_form {first : Name} {above : List Name}
    (h : (match first, above with
      | [], [] => some ⟨[slash]⟩
      | first, above => some (ofParts (first :: above))) = some q) :
    (first = [] ∧ above = [] ∧ q = ⟨[slash]⟩) ∨
      (first = [] → above ≠ []) ∧ q = ofParts (first :: above) := by
  cases first <;> cases above <;> simp_all

/-- The parent directory has the parts in front of the last one that names something. -/
theorem parts_of_parent? (h : p.parent? = some q) (hne : q.isEmpty = false) :
    ∃ first body before last after, p.parts = first :: (body ++ (before ++ last :: after)) ∧
      (∀ part ∈ before ++ after, part = [] ∨ part = [dot]) ∧ (last ≠ [] ∧ last ≠ [dot]) ∧
      (∀ part, body.getLast? = some part → part ≠ [] ∧ part ≠ [dot]) ∧
      ((first = [] ∧ body = [] ∧ q = ⟨[slash]⟩) ∨
        (first = [] → body ≠ []) ∧ q = ofParts (first :: body)) := by
  unfold parent? at h
  split at h
  · cases h
  · next first rest hparts =>
    obtain ⟨⟨blank, hblank, hafter⟩, hlast⟩ := trimParts_spec rest
    split at h
    · split at h
      · cases h
      · cases h
        simp [isEmpty] at hne
    · next hbody =>
      rcases List.eq_nil_or_concat (trimParts rest) with hnil | ⟨body, last, hconcat⟩
      · exact absurd hnil hbody
      · obtain ⟨⟨blank', hblank', hbefore⟩, hend⟩ := trimParts_spec body
        have hsplit : rest = trimParts body ++ (blank' ++ last :: blank) := by
          rw [← List.append_assoc, ← hblank', hblank, hconcat]
          simp
        rw [hconcat, List.concat_eq_append, List.dropLast_concat] at h
        exact ⟨first, trimParts body, blank', last, blank, by rw [hparts, hsplit],
          fun part hpart => (List.mem_append.1 hpart).elim (hbefore part) (hafter part),
          hlast last (by simp [hconcat]), hend, parent_form h⟩

/-- A path made of the first parts of another has the segments of these parts. -/
theorem segments_of_front {first : Name} {body back : List Name}
    (hparts : p.parts = first :: (body ++ back)) (hback : back ≠ [])
    (hroot : first = [] → body ≠ []) :
    (ofParts (first :: body)).isAbsolute = p.isAbsolute ∧
      (ofParts (first :: body)).segments = (first :: body).filterMap segment? := by
  have hfront : (ofParts (first :: body)).parts = first :: body := by
    refine parts_ofParts ?_ (List.cons_ne_nil first body)
    intro part hpart
    refine slash_notMem_of_mem_parts (p := p) ?_
    rw [hparts, ← List.cons_append]
    exact List.mem_append_left back hpart
  refine ⟨?_, by rw [segments, hfront]⟩
  rw [Bool.eq_iff_iff, isAbsolute_iff, isAbsolute_iff, hfront, hparts]
  constructor
  · rintro ⟨_, _, heq⟩
    exact ⟨body ++ back, by simp [hback], by rw [(List.cons.inj heq).1]⟩
  · rintro ⟨_, _, heq⟩
    obtain ⟨hfirst, _⟩ := List.cons.inj heq
    exact ⟨body, hroot hfirst, by rw [hfirst]⟩

/-- A parent directory that is given has the segments of its parts, and the root of its path. -/
theorem segments_of_parts {first last : Name} {body before after : List Name}
    (hparts : p.parts = first :: (body ++ (before ++ last :: after)))
    (hform : (first = [] ∧ body = [] ∧ q = ⟨[slash]⟩) ∨
      (first = [] → body ≠ []) ∧ q = ofParts (first :: body)) :
    q.isAbsolute = p.isAbsolute ∧ q.segments = (first :: body).filterMap segment? := by
  have hback : before ++ last :: after ≠ [] :=
    List.append_ne_nil_of_right_ne_nil before (List.cons_ne_nil last after)
  rcases hform with ⟨rfl, rfl, rfl⟩ | ⟨hroot, rfl⟩
  · have hp : p.isAbsolute = true := isAbsolute_iff.2 ⟨before ++ last :: after, hback, hparts⟩
    rw [hp]
    exact ⟨rfl, rfl⟩
  · exact segments_of_front hparts hback hroot

/-- The parent directory is reached on the way to a path, before a segment that leads on. -/
theorem segments_of_parent? (h : p.parent? = some q) (hne : q.isEmpty = false) :
    q.isAbsolute = p.isAbsolute ∧
      ∃ rest, (∃ segment ∈ rest, segment ≠ .here) ∧ p.segments = q.segments ++ rest := by
  obtain ⟨first, body, before, last, after, hparts, _, ⟨hname, hdot⟩, _, hform⟩ :=
    parts_of_parent? h hne
  obtain ⟨habsolute, hq⟩ := segments_of_parts hparts hform
  obtain ⟨segment, hsegment, hother⟩ := segment?_isSome hname
  have hmem : segment ∈ (before ++ last :: after).filterMap segment? :=
    List.mem_filterMap.2 ⟨last, by simp, hsegment⟩
  refine ⟨habsolute, _, ⟨segment, hmem, hother hdot⟩, ?_⟩
  rw [hq, segments, hparts, ← List.filterMap_append, List.cons_append]

/-- The directories that a path lies in, nearest first, as far as it names them. -/
def enclosing (p : Path) : List Path :=
  match p.parent? with
  | none => []
  | some dir => if dir.isEmpty then [] else dir.ancestors

theorem ancestorsUpTo_of_isEmpty (h : p.isEmpty = true) (fuel : Nat) :
    ancestorsUpTo fuel p = [p] := by
  have hparent : p.parent? = none := by
    obtain ⟨_ | ⟨b, bytes⟩⟩ := p
    · rfl
    · simp [isEmpty] at h
  cases fuel with
  | zero => rfl
  | succ fuel => rw [ancestorsUpTo, hparent]

/-- A path and its ancestors are reached one after the other. -/
theorem segments_of_mem_ancestorsUpTo {fuel : Nat} (h : q ∈ ancestorsUpTo fuel p)
    (hne : q.isEmpty = false) :
    q.isAbsolute = p.isAbsolute ∧ ∃ rest, p.segments = q.segments ++ rest := by
  induction fuel generalizing p with
  | zero =>
      obtain rfl := List.mem_singleton.1 h
      exact ⟨rfl, [], by simp⟩
  | succ fuel ih =>
      rw [ancestorsUpTo] at h
      split at h
      · obtain rfl := List.mem_singleton.1 h
        exact ⟨rfl, [], by simp⟩
      · next above hparent =>
        rcases List.mem_cons.1 h with rfl | h
        · exact ⟨rfl, [], by simp⟩
        · have habove : above.isEmpty = false := by
            cases hempty : above.isEmpty with
            | false => rfl
            | true =>
                rw [ancestorsUpTo_of_isEmpty hempty] at h
                obtain rfl := List.mem_singleton.1 h
                simp [hempty] at hne
          obtain ⟨habsolute, rest, hrest⟩ := ih h
          obtain ⟨habsolute', rest', _, hrest'⟩ := segments_of_parent? hparent habove
          refine ⟨habsolute.trans habsolute', rest ++ rest', ?_⟩
          rw [hrest', hrest, List.append_assoc]

/-- What a path lies in is reached on the way to it, before a segment that leads on. -/
theorem segments_of_mem_enclosing (h : q ∈ p.enclosing) (hne : q.isEmpty = false) :
    q.isAbsolute = p.isAbsolute ∧
      ∃ rest, (∃ segment ∈ rest, segment ≠ .here) ∧ p.segments = q.segments ++ rest := by
  unfold enclosing at h
  split at h
  · cases h
  · next above hparent =>
    split at h
    · cases h
    · next hempty =>
      obtain ⟨habsolute, rest, hrest⟩ := segments_of_mem_ancestorsUpTo h hne
      obtain ⟨habsolute', rest', ⟨segment, hmem, hother⟩, hrest'⟩ :=
        segments_of_parent? hparent (by simpa using hempty)
      refine ⟨habsolute.trans habsolute', rest ++ rest', ⟨segment, ?_, hother⟩, ?_⟩
      · exact List.mem_append_right rest hmem
      · rw [hrest', hrest, List.append_assoc]

end Hardlinks.Path
