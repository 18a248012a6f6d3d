-- SUMMARY: Which manifests read back as they were written, and which entries of a text can be written back.
import Hardlinks.Manifest.Basic
import Hardlinks.Proofs.Text.Lines

/-!
# Manifests read back

A line reads as an entry only if it is the line of that entry (`Entry.ofLine_eq_ok_iff`), and a
manifest whose fields hold no newline falls into the lines of its entries, each without a carriage
return at its end (`Manifest.lines_text`). From the two follows which manifests read back as they
were written (`Manifest.read_text_iff`).

Three conditions on an entry are told apart, each stronger than the one before. `Legible` is what
reading a text guarantees, `Stable` is what reading back needs, `Writable` is what making an entry
demands. The last two differ from the first by the carriage returns that they exclude, at the end
of the source or anywhere, so a text can hold entries that cannot be written back
(`Manifest.read_text_entries_iff`).
-/

namespace Hardlinks

variable {e : Entry} {destination source : Path}

/-! ## Entries -/

namespace Entry

/-- An entry that may be written. -/
def Writable (e : Entry) : Prop :=
  isEncodable e.destination = true ∧ isEncodable e.source = true ∧
    defect? e.destination e.source = none

/-- An entry that some line of a text reads as. -/
structure Legible (e : Entry) : Prop where
  destination_tab : Text.tab ∉ e.destination.bytes
  destination_newline : Text.newline ∉ e.destination.bytes
  source_tab : Text.tab ∉ e.source.bytes
  source_newline : Text.newline ∉ e.source.bytes
  destination_contained : e.destination.isContained = true
  source_contained : e.source.isContained = true
  distinct : e.destination ≠ e.source

/-- An entry that a written manifest gives back. -/
structure Stable (e : Entry) : Prop extends Legible e where
  source_end : e.source.bytes.getLast? ≠ some Text.carriageReturn

theorem make_eq_ok_iff :
    make destination source = .ok e ↔ e = ⟨destination, source⟩ ∧ e.Writable := by
  unfold make Writable
  constructor
  · intro h
    split at h
    · cases h
    · next hdestination =>
      split at h
      · cases h
      · next hsource =>
        split at h
        · cases h
        · next hdefect =>
          cases h
          exact ⟨rfl, by simpa using hdestination, by simpa using hsource, hdefect⟩
  · rintro ⟨rfl, hdestination, hsource, hdefect⟩
    simp_all

theorem isEncodable_iff {field : Path} :
    isEncodable field = true ↔
      Text.tab ∉ field.bytes ∧ Text.newline ∉ field.bytes ∧ Text.carriageReturn ∉ field.bytes := by
  simp only [isEncodable, List.all_eq_true, Bool.and_eq_true, bne_iff_ne]
  constructor
  · intro h
    exact ⟨fun hb => (h _ hb).1.1 rfl, fun hb => (h _ hb).1.2 rfl, fun hb => (h _ hb).2 rfl⟩
  · rintro ⟨htab, hnewline, hreturn⟩ b hb
    refine ⟨⟨?_, ?_⟩, ?_⟩ <;> rintro rfl <;> contradiction

/-- A contained path is not empty, so the rule on empty fields adds nothing to the others. -/
theorem defect?_eq_none_iff :
    defect? destination source = none ↔
      destination.isContained = true ∧ source.isContained = true ∧ destination ≠ source := by
  have hempty {p : Path} (h : p.isContained = true) : p.isEmpty = false := by
    simp only [Path.isContained, Bool.and_eq_true, Bool.not_eq_true'] at h
    exact h.1
  unfold defect?
  constructor
  · intro h
    split at h
    · cases h
    · split at h
      · cases h
      · next hcontained =>
        split at h
        · cases h
        · next hdistinct => simp_all
  · intro h
    simp [hempty h.1, hempty h.2.1, h.1, h.2.1, h.2.2]

/-- What the rules for writing exclude beyond what a line can say is a carriage return. -/
theorem writable_iff :
    e.Writable ↔ e.Legible ∧ Text.carriageReturn ∉ e.destination.bytes ∧
      Text.carriageReturn ∉ e.source.bytes := by
  constructor
  · intro h
    obtain ⟨htab, hnewline, hreturn⟩ := isEncodable_iff.1 h.1
    obtain ⟨htab', hnewline', hreturn'⟩ := isEncodable_iff.1 h.2.1
    obtain ⟨hcontained, hcontained', hdistinct⟩ := defect?_eq_none_iff.1 h.2.2
    exact ⟨⟨htab, hnewline, htab', hnewline', hcontained, hcontained', hdistinct⟩, hreturn, hreturn'⟩
  · intro ⟨h, hreturn, hreturn'⟩
    exact ⟨isEncodable_iff.2 ⟨h.destination_tab, h.destination_newline, hreturn⟩,
      isEncodable_iff.2 ⟨h.source_tab, h.source_newline, hreturn'⟩,
      defect?_eq_none_iff.2 ⟨h.destination_contained, h.source_contained, h.distinct⟩⟩

theorem Writable.stable (h : e.Writable) : e.Stable := by
  obtain ⟨hlegible, _, hreturn⟩ := writable_iff.1 h
  exact ⟨hlegible, fun hlast => hreturn (List.mem_of_getLast? hlast)⟩

/-! ### The line of an entry -/

/-- A line of two fields: its only tab stands between them. -/
structure Splits (line : List UInt8) (destination source : Path) : Prop where
  line_eq : line = destination.bytes ++ Text.tab :: source.bytes
  destination_tab : Text.tab ∉ destination.bytes
  source_tab : Text.tab ∉ source.bytes

theorem splitOn_eq_iff {line : List UInt8} :
    line.splitOn Text.tab = [destination.bytes, source.bytes] ↔
      Splits line destination source := by
  constructor
  · intro hfields
    have htab : ∀ field ∈ [destination.bytes, source.bytes], Text.tab ∉ field := by
      rw [← hfields]
      exact fun field hfield => Text.notMem_of_mem_splitOn hfield
    have hline : [Text.tab].intercalate [destination.bytes, source.bytes] = line := by
      rw [← hfields]
      exact List.intercalate_splitOn Text.tab
    exact ⟨by simpa [List.intercalate] using hline.symm, htab _ (by simp), htab _ (by simp)⟩
  · rintro ⟨rfl, hdestination, hsource⟩
    rw [List.splitOn_append_cons_self, List.splitOn_eq_singleton hdestination,
      List.splitOn_eq_singleton hsource]
    rfl

/-- What reads as an entry is the line of that entry. -/
theorem ofLine_eq_ok_iff {line : List UInt8} :
    ofLine line = .ok e ↔
      line = e.line ∧ Text.tab ∉ e.destination.bytes ∧ Text.tab ∉ e.source.bytes ∧
        defect? e.destination e.source = none := by
  constructor
  · intro h
    unfold ofLine at h
    split at h
    · next d s hfields =>
      split at h
      · cases h
      · next hdefect =>
        cases h
        obtain ⟨hline, htab, htab'⟩ : Splits line ⟨d⟩ ⟨s⟩ := splitOn_eq_iff.1 hfields
        exact ⟨hline, htab, htab', hdefect⟩
    · cases h
  · rintro ⟨hline, hdestination, hsource, hdefect⟩
    have hfields := splitOn_eq_iff.2 ⟨hline, hdestination, hsource⟩
    simp only [ofLine, hfields]
    rw [hdefect]

theorem newline_notMem_line_iff :
    Text.newline ∉ e.line ↔
      Text.newline ∉ e.destination.bytes ∧ Text.newline ∉ e.source.bytes := by
  simp [line, show Text.newline ≠ Text.tab by decide]

/-- A line ends as its source does, since a tab is no carriage return. -/
theorem getLast?_line_eq_return_iff :
    e.line.getLast? = some Text.carriageReturn ↔
      e.source.bytes.getLast? = some Text.carriageReturn := by
  rw [line, List.getLast?_append, List.getLast?_cons]
  cases e.source.bytes.getLast? with
  | none => simp [show Text.tab ≠ Text.carriageReturn by decide]
  | some b => simp

theorem Legible.newline_notMem_line (h : e.Legible) : Text.newline ∉ e.line :=
  newline_notMem_line_iff.2 ⟨h.destination_newline, h.source_newline⟩

theorem Legible.ofLine_line (h : e.Legible) : ofLine e.line = .ok e :=
  ofLine_eq_ok_iff.2 ⟨rfl, h.destination_tab, h.source_tab,
    defect?_eq_none_iff.2 ⟨h.destination_contained, h.source_contained, h.distinct⟩⟩

theorem legible_of_ofLine {line : List UInt8} (hnewline : Text.newline ∉ line)
    (h : ofLine line = .ok e) : e.Legible := by
  obtain ⟨rfl, htab, htab', hdefect⟩ := ofLine_eq_ok_iff.1 h
  obtain ⟨hnewline, hnewline'⟩ := newline_notMem_line_iff.1 hnewline
  obtain ⟨hcontained, hcontained', hdistinct⟩ := defect?_eq_none_iff.1 hdefect
  exact ⟨htab, hnewline, htab', hnewline', hcontained, hcontained', hdistinct⟩

/-- Without a carriage return at its end, the line of an entry reads as the entry only if there was
none to take away. -/
theorem Legible.ofLine_dropReturn_iff (h : e.Legible) :
    ofLine (Text.dropReturn e.line) = .ok e ↔
      e.source.bytes.getLast? ≠ some Text.carriageReturn := by
  have hend : Text.dropReturn e.line = e.line ↔
      e.source.bytes.getLast? ≠ some Text.carriageReturn :=
    Text.dropReturn_eq_self_iff.trans (not_congr getLast?_line_eq_return_iff)
  rw [← hend]
  constructor
  · exact fun hread => (ofLine_eq_ok_iff.1 hread).1
  · intro heq
    rw [heq]
    exact h.ofLine_line

end Entry

/-! ## Manifests -/

namespace Manifest

variable {m : Manifest} {text : List UInt8} {number : Nat} {lines : List (List UInt8)}

theorem lines_text (h : ∀ e ∈ m, Text.newline ∉ e.line) :
    Text.lines m.text = m.map fun e => Text.dropReturn e.line := by
  have hwritten : ∀ line ∈ m.map Entry.line, Text.newline ∉ line := List.forall_mem_map.2 h
  have htext : m.text = (m.map Entry.line).flatMap fun line => line ++ [Text.newline] := by
    rw [Manifest.text, List.flatMap_map]
  rw [htext, Text.lines_flatMap hwritten, List.map_map]
  rfl

theorem mem_entries_readLines_iff :
    e ∈ (readLines number lines).entries ↔ ∃ line ∈ lines, Entry.ofLine line = .ok e := by
  induction lines generalizing number with
  | nil => simp [readLines]
  | cons line lines ih =>
      cases hline : Entry.ofLine line with
      | error defect => simp [readLines, hline, ih]
      | ok entry => simp [readLines, hline, ih, eq_comm]

/-- Lines read as entries alone exactly if each of them does. -/
theorem entries_readLines (number : Nat) (lines : List (List UInt8)) :
    (readLines number lines).entries =
      lines.filterMap fun line => (Entry.ofLine line).toOption := by
  induction lines generalizing number with
  | nil => rfl
  | cons line lines ih =>
      cases hline : Entry.ofLine line <;> simp [readLines, hline, ih, Except.toOption]

/-- Every line is an entry or malformed. -/
theorem length_readLines (number : Nat) (lines : List (List UInt8)) :
    (readLines number lines).entries.length + (readLines number lines).malformed.length =
      lines.length := by
  induction lines generalizing number with
  | nil => rfl
  | cons line lines ih =>
      have hrest := ih (number + 1)
      cases hline : Entry.ofLine line <;> simp [readLines, hline] <;> omega

theorem readLines_eq_iff :
    readLines number lines = ⟨m, []⟩ ↔ lines.map Entry.ofLine = m.map .ok := by
  induction lines generalizing number m with
  | nil => cases m <;> simp [readLines]
  | cons line lines ih =>
      cases hline : Entry.ofLine line with
      | error defect => cases m <;> simp [readLines, hline]
      | ok entry =>
          cases m with
          | nil => simp [readLines, hline]
          | cons e m =>
              have hrest : readLines (number + 1) lines = ⟨m, []⟩ ↔
                  lines.map Entry.ofLine = m.map .ok := ih
              rw [Reading.mk.injEq] at hrest
              simp only [readLines, hline, Reading.mk.injEq, List.cons.injEq, List.map_cons,
                Except.ok.injEq, and_assoc, hrest]

/-- What a text reads as is legible, whatever the text. -/
theorem legible_of_mem_read (h : e ∈ (read text).entries) : e.Legible := by
  obtain ⟨line, hmem, hline⟩ := mem_entries_readLines_iff.1 h
  exact Entry.legible_of_ofLine (Text.newline_notMem_of_mem_lines hmem) hline

/-- Legible entries read back unless a source ends in a carriage return, which then counts as part
of the line's end. -/
theorem read_text_iff_of_legible (h : ∀ e ∈ m, e.Legible) :
    read m.text = ⟨m, []⟩ ↔ ∀ e ∈ m, e.source.bytes.getLast? ≠ some Text.carriageReturn := by
  rw [read, readLines_eq_iff, lines_text fun e he => (h e he).newline_notMem_line, List.map_map,
    List.map_inj_left]
  exact forall₂_congr fun e he => (h e he).ofLine_dropReturn_iff

/-- A manifest of entries that may be written reads back as it was written. -/
theorem read_text {m : Manifest} (h : ∀ e ∈ m, e.Writable) : read m.text = ⟨m, []⟩ :=
  (read_text_iff_of_legible fun e he => (h e he).stable.toLegible).2 fun e he =>
    (h e he).stable.source_end

/-- A manifest reads back as it was written exactly if every entry is stable, as is every entry
that was made by the rules. -/
theorem read_text_iff (m : Manifest) :
    (read m.text = ⟨m, []⟩ ↔ ∀ e ∈ m, e.Stable) ∧
      ((∀ e ∈ m, ∃ destination source, Entry.make destination source = .ok e) →
        read m.text = ⟨m, []⟩) := by
  constructor
  · constructor
    · intro h
      have hlegible : ∀ e ∈ m, e.Legible := by
        intro e he
        have hread : e ∈ (read m.text).entries := by rw [h]; exact he
        exact legible_of_mem_read hread
      exact fun e he => ⟨hlegible e he, (read_text_iff_of_legible hlegible).1 h e he⟩
    · intro h
      exact (read_text_iff_of_legible fun e he => (h e he).toLegible).2 fun e he =>
        (h e he).source_end
  · intro h
    apply read_text
    intro e he
    obtain ⟨destination, source, hmake⟩ := h e he
    exact (Entry.make_eq_ok_iff.1 hmake).2

/-- An entry that was made, and one that reading back needs no more of but that cannot be made: it
has a carriage return inside a field. -/
theorem read_text_of_stable :
    let made : Manifest := [⟨.ofString "b", .ofString "a"⟩]
    let pushed : Manifest := [⟨.ofString "c\rc", .ofString "a"⟩]
    ((∀ e ∈ made, ∃ destination source, Entry.make destination source = .ok e) ∧
        read made.text = ⟨made, []⟩) ∧
      ((∀ e ∈ pushed, e.Stable) ∧ read pushed.text = ⟨pushed, []⟩) := by
  have hmade : ∀ e ∈ ([⟨.ofString "b", .ofString "a"⟩] : Manifest),
      ∃ destination source, Entry.make destination source = .ok e :=
    List.forall_mem_singleton.2 ⟨.ofString "b", .ofString "a", rfl⟩
  have hpushed : ∀ e ∈ ([⟨.ofString "c\rc", .ofString "a"⟩] : Manifest), e.Stable :=
    List.forall_mem_singleton.2
      ⟨⟨by decide, by decide, by decide, by decide, by decide, by decide, by decide⟩, by decide⟩
  exact ⟨⟨hmade, (read_text_iff _).2 hmade⟩, hpushed, (read_text_iff _).1.2 hpushed⟩

/-! ## Texts read and written back -/

/-- The entries of a text read back exactly if the text has left no source with a carriage return
at its end, and the rules for writing accept an entry exactly if no field holds one. -/
theorem read_text_entries_iff (written : List UInt8) :
    let m : Manifest := (read written).entries
    (read m.text = ⟨m, []⟩ ↔ ∀ e ∈ m, e.source.bytes.getLast? ≠ some Text.carriageReturn) ∧
      ∀ e ∈ m, (Entry.make e.destination e.source = .ok e ↔
        Text.carriageReturn ∉ e.destination.bytes ∧ Text.carriageReturn ∉ e.source.bytes) := by
  have hlegible : ∀ e ∈ (read written).entries, e.Legible := fun e he => legible_of_mem_read he
  constructor
  · exact read_text_iff_of_legible hlegible
  · intro e he
    rw [Entry.make_eq_ok_iff, Entry.writable_iff]
    exact ⟨fun h => h.2.2, fun h => ⟨rfl, hlegible e he, h⟩⟩

/-- A text of whole lines, one of them ended by a carriage return and a newline. -/
theorem read_text_entries_of_wholeLines :
    let m : Manifest := (read (Utf8.encode "b\ta\r\nc\ta\n")).entries
    m = [⟨.ofString "b", .ofString "a"⟩, ⟨.ofString "c", .ofString "a"⟩] ∧
      read m.text = ⟨m, []⟩ ∧ ∀ e ∈ m, Entry.make e.destination e.source = .ok e := by
  obtain ⟨hread, hmake⟩ := read_text_entries_iff (Utf8.encode "b\ta\r\nc\ta\n")
  refine ⟨rfl, hread.2 ?_, fun e he => (hmake e he).2 ?_⟩
  · decide
  · revert e
    decide

/-- A last line without a newline keeps its carriage return, as part of the source. The written line
has a newline, so there the carriage return is part of its end; and the rules for writing refuse
the entry. -/
theorem unended_line_loses_return :
    let m : Manifest := (read (Utf8.encode "b\ta\r")).entries
    m = [⟨.ofString "b", .ofString "a\r"⟩] ∧
      read m.text = ⟨[⟨.ofString "b", .ofString "a"⟩], []⟩ ∧
      ¬ read m.text = ⟨m, []⟩ ∧
      ¬ ∀ e ∈ m, Entry.make e.destination e.source = .ok e := by
  refine ⟨rfl, rfl, ?_, ?_⟩
  · intro hread
    cases hread
  · intro hmake
    cases hmake _ List.mem_cons_self

end Manifest

end Hardlinks
