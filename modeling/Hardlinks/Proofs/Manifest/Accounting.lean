-- SUMMARY: Every line of a text is told by what reading finds in it, and whole lines are read on their own.
import Hardlinks.Proofs.Manifest.RoundTrip

/-!
# Accounting for lines

What reading finds in a text tells each of its lines once, as an entry or as a malformed line, and
has the lines in their order (`Accounts`). So the text can be had again, line by line
(`accounts_read`). A line is read for itself: in a text whose first part has ended its last line,
each part is read as if it were alone, and only the numbers of the malformed lines go on
(`read_append`).
-/

namespace Hardlinks.Manifest

variable {number : Nat} {line : List UInt8} {lines : List (List UInt8)} {r : Reading} {e : Entry}
  {defect : Defect}

/-! ## Lines and readings -/

/-- The lines that are told as entries: those with the number of no malformed line. The first line
has the given number. -/
def others (number : Nat) (lines : List (List UInt8)) (malformed : List MalformedLine) :
    List (List UInt8) :=
  ((lines.zipIdx number).filter fun l => malformed.all fun bad => bad.number != l.2).map Prod.fst

/-- The lines of the entries, with the malformed lines put in at their numbers. -/
def rebuilt (number : Nat) (malformed : List MalformedLine) (lines : List (List UInt8)) :
    List (List UInt8) :=
  malformed.foldl (fun lines bad => lines.insertIdx (bad.number - number) bad.content) lines

/-- The reading tells the lines, of which the first has the given number, and nothing else. -/
structure Accounts (number : Nat) (lines : List (List UInt8)) (r : Reading) : Prop where
  increasing : r.malformed.Pairwise fun bad bad' => bad.number < bad'.number
  within : ∀ bad ∈ r.malformed, number ≤ bad.number ∧ bad.number < number + lines.length
  content : ∀ bad ∈ r.malformed, lines[bad.number - number]? = some bad.content
  rejected : ∀ bad ∈ r.malformed, Entry.ofLine bad.content = .error bad.defect
  accepted : (others number lines r.malformed).map Entry.ofLine = r.entries.map .ok
  rendered : others number lines r.malformed = r.entries.map Entry.line
  rebuilt : rebuilt number r.malformed (r.entries.map Entry.line) = lines
  length : r.entries.length + r.malformed.length = lines.length

/-! ## One more line -/

/-- The number of a line that comes first is that of no malformed line after it. -/
theorem Accounts.number_ne (h : Accounts (number + 1) lines r) :
    ∀ bad ∈ r.malformed, bad.number ≠ number := by
  intro bad hbad heq
  have hle := (h.within bad hbad).1
  omega

/-- A malformed line after the first one stands one place further down. -/
theorem Accounts.content_cons (h : Accounts (number + 1) lines r) {bad : MalformedLine}
    (hbad : bad ∈ r.malformed) : (line :: lines)[bad.number - number]? = some bad.content := by
  have hle := (h.within bad hbad).1
  rw [show bad.number - number = (bad.number - (number + 1)) + 1 by omega, List.getElem?_cons_succ]
  exact h.content bad hbad

theorem others_cons_of_ne {malformed : List MalformedLine}
    (h : ∀ bad ∈ malformed, bad.number ≠ number) :
    others number (line :: lines) malformed = line :: others (number + 1) lines malformed := by
  rw [others, List.zipIdx_cons, List.filter_cons_of_pos, List.map_cons, others]
  simpa using h

/-- A malformed line in front is told by itself. -/
theorem others_cons_self (malformed : List MalformedLine) :
    others number (line :: lines) (⟨number, line, defect⟩ :: malformed) =
      others (number + 1) lines malformed := by
  rw [others, List.zipIdx_cons, List.filter_cons_of_neg (by simp), others]
  congr 1
  refine List.filter_congr fun l hl => ?_
  have hle := (List.mem_zipIdx hl).1
  rw [List.all_cons, Bool.and_eq_right_iff_imp]
  intro _
  exact bne_iff_ne.2 (Nat.ne_of_lt hle)

/-- Lines that are put in after the first one leave it in its place. -/
theorem rebuilt_cons {malformed : List MalformedLine}
    (h : ∀ bad ∈ malformed, number + 1 ≤ bad.number) :
    rebuilt number malformed (line :: lines) = line :: rebuilt (number + 1) malformed lines := by
  induction malformed generalizing lines with
  | nil => rfl
  | cons bad malformed ih =>
      have hle := h bad List.mem_cons_self
      have hsub : bad.number - number = (bad.number - (number + 1)) + 1 := by omega
      simp only [rebuilt, List.foldl_cons] at ih ⊢
      rw [hsub, List.insertIdx_succ_cons]
      exact ih fun bad' hbad' => h bad' (List.mem_cons_of_mem bad hbad')

theorem Accounts.entry (h : Accounts (number + 1) lines r) (hline : Entry.ofLine line = .ok e) :
    Accounts number (line :: lines) { r with entries := e :: r.entries } where
  increasing := h.increasing
  within bad hbad := by
    have hwithin := h.within bad hbad
    rw [List.length_cons]
    omega
  content bad hbad := h.content_cons hbad
  rejected := h.rejected
  accepted := by
    rw [others_cons_of_ne h.number_ne, List.map_cons, hline, h.accepted, List.map_cons]
  rendered := by
    rw [others_cons_of_ne h.number_ne, h.rendered, (Entry.ofLine_eq_ok_iff.1 hline).1,
      List.map_cons]
  rebuilt := by
    rw [List.map_cons, rebuilt_cons fun bad hbad => (h.within bad hbad).1, h.rebuilt,
      (Entry.ofLine_eq_ok_iff.1 hline).1]
  length := by
    have hlength := h.length
    simp only [List.length_cons]
    omega

theorem Accounts.malformed (h : Accounts (number + 1) lines r)
    (hline : Entry.ofLine line = .error defect) :
    Accounts number (line :: lines)
      { r with malformed := ⟨number, line, defect⟩ :: r.malformed } where
  increasing := by
    refine List.pairwise_cons.2 ⟨fun bad hbad => ?_, h.increasing⟩
    exact (h.within bad hbad).1
  within := by
    rw [List.length_cons, List.forall_mem_cons]
    refine ⟨⟨Nat.le_refl number, Nat.lt_add_of_pos_right (Nat.succ_pos _)⟩, fun bad hbad => ?_⟩
    have hwithin := h.within bad hbad
    omega
  content := by
    refine List.forall_mem_cons.2 ⟨?_, fun bad hbad => h.content_cons hbad⟩
    rw [Nat.sub_self, List.getElem?_cons_zero]
  rejected := List.forall_mem_cons.2 ⟨hline, h.rejected⟩
  accepted := by
    dsimp only
    rw [others_cons_self, h.accepted]
  rendered := by
    dsimp only
    rw [others_cons_self, h.rendered]
  rebuilt := by
    have hrest : Manifest.rebuilt number (⟨number, line, defect⟩ :: r.malformed)
        (r.entries.map Entry.line) =
        Manifest.rebuilt number r.malformed (line :: r.entries.map Entry.line) := by
      simp [Manifest.rebuilt]
    rw [hrest, rebuilt_cons fun bad hbad => (h.within bad hbad).1, h.rebuilt]
  length := by
    have hlength := h.length
    simp only [List.length_cons]
    omega

/-! ## All lines -/

theorem accounts_readLines (number : Nat) (lines : List (List UInt8)) :
    Accounts number lines (readLines number lines) := by
  induction lines generalizing number with
  | nil =>
      constructor
      all_goals simp [readLines, others, rebuilt]
  | cons line lines ih =>
      rw [readLines]
      cases hline : Entry.ofLine line with
      | ok e => exact (ih (number + 1)).entry hline
      | error defect => exact (ih (number + 1)).malformed hline

/-- Every line of a text is told as an entry or as a malformed line, in its place. -/
theorem accounts_read (text : List UInt8) : Accounts 1 (Text.lines text) (read text) :=
  accounts_readLines 1 (Text.lines text)

/-- The carriage return of a line end, an empty line, and a last line that was not ended. -/
example : read (Utf8.encode "b\ta\r\n\nc\ta\r") =
    ⟨[⟨.ofString "b", .ofString "a"⟩, ⟨.ofString "c", .ofString "a\r"⟩], [⟨2, [], .fieldCount⟩]⟩ := by
  rfl

/-! ## Texts after one another -/

/-- The same reading of lines that come later. -/
def Reading.later (r : Reading) (k : Nat) : Reading :=
  { r with malformed := r.malformed.map fun bad => { bad with number := bad.number + k } }

/-- One reading after the other. -/
def Reading.append (r r' : Reading) : Reading :=
  ⟨r.entries ++ r'.entries, r.malformed ++ r'.malformed⟩

theorem readLines_later (number k : Nat) (lines : List (List UInt8)) :
    readLines (number + k) lines = (readLines number lines).later k := by
  induction lines generalizing number with
  | nil => rfl
  | cons line lines ih =>
      have hrest : readLines (number + k + 1) lines = (readLines (number + 1) lines).later k := by
        rw [← ih, Nat.add_right_comm]
      rw [readLines, readLines, hrest]
      cases Entry.ofLine line <;> rfl

theorem readLines_append (number : Nat) (lines more : List (List UInt8)) :
    readLines number (lines ++ more) =
      (readLines number lines).append (readLines (number + lines.length) more) := by
  induction lines generalizing number with
  | nil => rfl
  | cons line lines ih =>
      have hnext : number + (line :: lines).length = number + 1 + lines.length := by
        rw [List.length_cons]
        omega
      rw [List.cons_append, readLines, readLines, ih, hnext]
      cases Entry.ofLine line <;> rfl

/-- A text after whole lines is read as it is read alone, but for the numbers of its lines. -/
theorem read_append {front : List UInt8} (h : front = [] ∨ front.getLast? = some Text.newline)
    (text : List UInt8) :
    (read (front ++ text)).entries = (read front).entries ++ (read text).entries ∧
      (read (front ++ text)).malformed = (read front).malformed ++
        (read text).malformed.map fun bad =>
          { bad with number := bad.number + (Text.lines front).length } := by
  have hread : read (front ++ text) =
      (read front).append ((read text).later (Text.lines front).length) := by
    rw [read, Text.lines_append h, readLines_append, readLines_later]
    rfl
  rw [hread]
  exact ⟨rfl, rfl⟩

/-- Two bad lines, each in a text of its own. -/
theorem read_append_bad_lines :
    let front := Utf8.encode "bad\r\nb\ta\n"
    let text := Utf8.encode "\nc\ta"
    (front = [] ∨ front.getLast? = some Text.newline) ∧
      (read (front ++ text)).entries =
        [⟨.ofString "b", .ofString "a"⟩] ++ [⟨.ofString "c", .ofString "a"⟩] ∧
      (read (front ++ text)).malformed =
        [⟨1, Utf8.encode "bad", .fieldCount⟩] ++ [⟨1 + 2, [], .fieldCount⟩] := by
  have hended : Utf8.encode "bad\r\nb\ta\n" = [] ∨
      (Utf8.encode "bad\r\nb\ta\n").getLast? = some Text.newline := .inr (by decide)
  exact ⟨hended, read_append hended (Utf8.encode "\nc\ta")⟩

end Hardlinks.Manifest
