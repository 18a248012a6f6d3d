-- SUMMARY: The lines of a text: none holds a newline, and a whole line at the front is split off.
import Hardlinks.Text.Lines

/-!
# Lines of a text

No line holds a newline (`newline_notMem_of_mem_lines`), and a text written line by line falls into
these lines again, each without a carriage return at its end (`lines_flatMap`). Where a line has
ended, a text can be cut: the lines of both parts are the lines of the whole (`lines_append`).
-/

namespace Hardlinks.Text

variable {line text : List UInt8} {b : UInt8}

theorem notMem_of_mem_splitOn {part bytes : List UInt8} (h : part ∈ bytes.splitOn b) :
    b ∉ part := by
  induction bytes generalizing part with
  | nil => simp_all
  | cons c bytes ih =>
      rw [List.splitOn_cons_eq_if_modifyHead] at h
      split at h
      · cases List.mem_cons.1 h with
        | inl heq => simp [heq]
        | inr hrest => exact ih hrest
      · next hc =>
        obtain ⟨head, tail, hsplit⟩ := List.exists_cons_of_ne_nil (List.splitOn_ne_nil b bytes)
        rw [hsplit, List.modifyHead_cons] at h
        cases List.mem_cons.1 h with
        | inl heq =>
            have hhead : b ∉ head := ih (by simp [hsplit])
            have hne : b ≠ c := fun heq => hc (by simp [heq])
            simp [heq, hhead, hne]
        | inr hrest => exact ih (by simp [hsplit, hrest])

/-! ## Carriage returns -/

theorem dropReturn_eq_self_iff : dropReturn line = line ↔ line.getLast? ≠ some carriageReturn := by
  unfold dropReturn
  split
  · next hlast =>
    have hne : line ≠ [] := by rintro rfl; cases hlast
    have hlength : line.dropLast.length ≠ line.length := by
      have := List.length_pos_iff.2 hne
      rw [List.length_dropLast]
      omega
    exact ⟨fun h => absurd (congrArg List.length h) hlength, fun h => absurd hlast h⟩
  · next hlast => exact ⟨fun _ => hlast, fun _ => rfl⟩

theorem notMem_dropReturn (h : b ∉ line) : b ∉ dropReturn line := by
  unfold dropReturn
  split
  · exact fun hb => h (List.dropLast_subset line hb)
  · exact h

/-! ## Lines -/

theorem newline_notMem_of_mem_linesOfParts {parts : List (List UInt8)}
    (h : ∀ part ∈ parts, newline ∉ part) (hline : line ∈ linesOfParts parts) : newline ∉ line := by
  induction parts using linesOfParts.induct with
  | case1 => simp [linesOfParts] at hline
  | case2 => simp [linesOfParts] at hline
  | case3 last hne =>
      rw [linesOfParts, if_neg hne, List.mem_singleton] at hline
      exact hline ▸ h last (by simp)
  | case4 part next parts ih =>
      rw [linesOfParts, List.mem_cons] at hline
      cases hline with
      | inl heq => exact heq ▸ notMem_dropReturn (h part (by simp))
      | inr hrest => exact ih (fun part' hpart => h part' (List.mem_cons_of_mem _ hpart)) hrest

theorem newline_notMem_of_mem_lines (h : line ∈ lines text) : newline ∉ line :=
  newline_notMem_of_mem_linesOfParts (fun _ hpart => notMem_of_mem_splitOn hpart) h

/-- A text that starts with a whole line. -/
theorem lines_append_newline (h : newline ∉ line) :
    lines (line ++ newline :: text) = dropReturn line :: lines text := by
  unfold lines
  rw [List.splitOn_append_cons_self_of_not_mem h]
  obtain ⟨part, parts, hparts⟩ := List.exists_cons_of_ne_nil (List.splitOn_ne_nil newline text)
  rw [hparts, linesOfParts]

/-- Parts that more parts come after were all ended by a newline. -/
theorem linesOfParts_append {parts more : List (List UInt8)} (h : more ≠ []) :
    linesOfParts (parts ++ more) = parts.map dropReturn ++ linesOfParts more := by
  induction parts with
  | nil => rfl
  | cons part parts ih =>
      obtain ⟨next, rest, hnext⟩ :=
        List.exists_cons_of_ne_nil (List.append_ne_nil_of_right_ne_nil parts h)
      rw [List.cons_append, hnext, linesOfParts, ← hnext, ih, List.map_cons, List.cons_append]

/-- What comes after the end of a line has no part in the lines before it. -/
theorem lines_append {front : List UInt8} (h : front = [] ∨ front.getLast? = some newline) :
    lines (front ++ text) = lines front ++ lines text := by
  rcases h with rfl | hlast
  · rfl
  · obtain ⟨init, rfl⟩ := List.getLast?_eq_some_iff.1 hlast
    have hnil : ([] : List UInt8).splitOn newline = [[]] := rfl
    rw [lines, lines, lines, List.append_assoc, List.singleton_append,
      List.splitOn_append_cons_self, List.splitOn_append_cons_self, hnil,
      linesOfParts_append (List.splitOn_ne_nil _ _), linesOfParts_append (List.cons_ne_nil _ _)]
    simp [linesOfParts]

theorem lines_flatMap {written : List (List UInt8)} (h : ∀ line ∈ written, newline ∉ line) :
    lines (written.flatMap fun line => line ++ [newline]) = written.map dropReturn := by
  induction written with
  | nil => rfl
  | cons line written ih =>
      have hline : newline ∉ line := h line List.mem_cons_self
      have hwritten := ih fun line' hmem => h line' (List.mem_cons_of_mem _ hmem)
      rw [List.flatMap_cons, List.append_assoc, List.singleton_append, lines_append_newline hline,
        hwritten, List.map_cons]

end Hardlinks.Text
