-- SUMMARY: Strings and objects are written as the grammar of JSON allows.
import Hardlinks.Proofs.Json.Reading

/-!
# Writing JSON

Every character of a string is written as one unit that stands for it (`spellsUnits_escapeChar`).
So what is written for an object spells that object, if the same holds of its members' values
(`spells_object`).
-/

namespace Hardlinks.Json

variable {c : Char} {text : List Char} {units : List Unit16} {s : String}
  {members : List (Option String × Json)}

/-! ## Strings -/

/-- Units that denote a text spell it, since they denote no other. -/
theorem spellsString_of_denotes (hunits : SpellsUnits units text) (h : Denotes units s.toList) :
    SpellsString (some s) text := by
  refine ⟨units, hunits, fun s' => ?_⟩
  have hcode := fun n => code_lt_of_spellsUnits hunits (n := n)
  rw [← textOfUnits_eq_some_iff hcode, (textOfUnits_eq_some_iff hcode).2 h, Option.some.injEq,
    Option.some.injEq, String.toList_inj]

theorem hexQuad_eq {n : Nat} (h : n < 0x20) :
    hexQuad n = ['0', '0', Nat.digitChar (n / 16), Nat.digitChar (n % 16)] := by
  revert n
  decide

theorem hexDigit_digitChar {v : Nat} (h : v < 16) : HexDigit (Nat.digitChar v) v :=
  ⟨h, .inl rfl⟩

/-- A character is written as itself, by its letter or by its number. -/
theorem spellsUnits_escapeChar (c : Char) (h : SpellsUnits units text) :
    SpellsUnits (.char c :: units) (escapeChar c ++ text) ∨
      SpellsUnits (.code c.toNat :: units) (escapeChar c ++ text) := by
  unfold escapeChar
  split
  case h_8 =>
    next hquote hbackslash _ _ _ _ _ =>
    split
    · next hcontrol =>
      right
      rw [hexQuad_eq hcontrol]
      have hzero : HexDigit '0' 0 := hexDigit_digitChar (by decide)
      have hnumber := SpellsUnits.number hzero hzero
        (hexDigit_digitChar (v := c.toNat / 16) (by omega))
        (hexDigit_digitChar (v := c.toNat % 16) (by omega)) h
      have hvalue : ((0 * 16 + 0) * 16 + c.toNat / 16) * 16 + c.toNat % 16 = c.toNat := by omega
      rwa [hvalue] at hnumber
    · next hcontrol => exact .inl (.plain hquote hbackslash (Nat.not_lt.1 hcontrol) h)
  all_goals exact .inl (.letter (by decide) h)

theorem exists_units (chars : List Char) :
    ∃ units, SpellsUnits units (chars.flatMap escapeChar) ∧ Denotes units chars := by
  induction chars with
  | nil => exact ⟨[], .nil, .nil⟩
  | cons c chars ih =>
      obtain ⟨units, hunits, hdenotes⟩ := ih
      rw [List.flatMap_cons]
      rcases spellsUnits_escapeChar c hunits with h | h
      · exact ⟨_, h, .char hdenotes⟩
      · exact ⟨_, h, .code hdenotes⟩

theorem spellsString_escape (s : String) : SpellsString (some s) (s.toList.flatMap escapeChar) := by
  obtain ⟨units, hunits, hdenotes⟩ := exists_units s.toList
  exact spellsString_of_denotes hunits hdenotes

/-! ## Values -/

theorem spells_ofText (s : String) : Spells (.ofText s) (ofText s).render := by
  rw [ofText, render, renderString]
  exact .string (spellsString_escape s)

theorem spells_bool (b : Bool) : Spells (.bool b) (Json.bool b).render := by
  cases b <;> simp only [render]
  · exact .isFalse
  · exact .isTrue

theorem blank_nil : Blank [] := by
  simp [Blank]

theorem spellsKey_renderString (s : String) :
    SpellsKey (some s) (renderString s.toList ++ [':']) := by
  simpa [renderString] using SpellsKey.mk blank_nil (spellsString_escape s) blank_nil

/-- A member with a key that is a text, and with a value that is written as the grammar allows. -/
def WellWritten (member : Option String × Json) : Prop :=
  (∃ key : String, member.1 = some key) ∧ Spells member.2 member.2.render

theorem spellsMembers_renderMembers (hmembers : ∀ m ∈ members, WellWritten m)
    (hne : members ≠ []) : SpellsMembers members (renderMembers members) := by
  induction members with
  | nil => exact absurd rfl hne
  | cons member members ih =>
      obtain ⟨⟨⟨key, hname⟩, hvalue⟩, hrest⟩ := List.forall_mem_cons.1 hmembers
      obtain ⟨_, value⟩ := member
      obtain rfl : _ = some key := hname
      have hkey := spellsKey_renderString key
      cases members with
      | nil => simpa [renderMembers] using SpellsMembers.last hkey blank_nil hvalue blank_nil
      | cons next members =>
          have hmembers := ih hrest (List.cons_ne_nil next members)
          simpa [renderMembers] using
            SpellsMembers.cons hkey blank_nil hvalue blank_nil hmembers

/-- An object is written as the grammar allows if its members are. -/
theorem spells_object (hmembers : ∀ m ∈ members, WellWritten m) :
    Spells (.object members) (Json.object members).render := by
  rw [render]
  by_cases hne : members = []
  · subst hne
    exact .emptyObject blank_nil
  · exact .object (spellsMembers_renderMembers hmembers hne)

theorem isDocument_of_spells {value : Json} (h : Spells value text) :
    IsDocument value (String.ofList text) :=
  ⟨[], text, [], by simp, blank_nil, h, blank_nil⟩

end Hardlinks.Json
