-- SUMMARY: Whatever the grammar of JSON allows is read, and as the value that it spells.
import Hardlinks.Proofs.Json.Grammar
import Hardlinks.Proofs.Text.Unicode

/-!
# Reading what the grammar allows

Every text that the grammar allows is read as the value that it spells (`read?_of_isDocument`).
The reader goes down with a bound on its calls, so the induction is on that bound (`Reads`), and
each call that it allows is paid for by characters of the text.
-/

namespace Hardlinks.Json

variable {c : Char} {text rest blank digits whole fraction exponent : List Char}
  {units : List Unit16} {value : Json} {items : List Json} {members : List (Option String × Json)}

/-! ## Blanks -/

theorem isBlank_iff : isBlank c = true ↔ c = ' ' ∨ c = '\n' ∨ c = '\t' ∨ c = '\r' := by
  simp [isBlank, or_assoc]

/-- The front of a text is no blank, so nothing is skipped there. -/
def NoBlank (text : List Char) : Prop :=
  ∀ c ∈ text.head?, isBlank c = false

theorem skipBlanks_of_noBlank (h : NoBlank text) : skipBlanks text = text := by
  cases text with
  | nil => rfl
  | cons c text => simp [skipBlanks, h c rfl]

theorem skipBlanks_append (hblank : Blank blank) (h : NoBlank text) :
    skipBlanks (blank ++ text) = text := by
  rw [skipBlanks, List.dropWhile_append_of_pos fun c hc => isBlank_iff.2 (hblank c hc)]
  exact skipBlanks_of_noBlank h

theorem skipBlanks_of_blank (h : Blank blank) : skipBlanks blank = [] := by
  have hskip : skipBlanks (blank ++ []) = [] := skipBlanks_append h (by simp [NoBlank])
  rwa [List.append_nil] at hskip

/-! ## Numbers -/

def NoDigit (text : List Char) : Prop :=
  ∀ c ∈ text.head?, c.isDigit = false

/-- What stands behind a number does not go on with it. -/
def Closes (text : List Char) : Prop :=
  ∀ c ∈ text.head?, c.isDigit = false ∧ c ≠ '.' ∧ c ≠ 'e' ∧ c ≠ 'E'

theorem Closes.noDigit (h : Closes text) : NoDigit text :=
  fun c hc => (h c hc).1

theorem closes_of_blank (hblank : Blank blank) (h : Closes text) : Closes (blank ++ text) := by
  cases blank with
  | nil => exact h
  | cons c blank =>
      intro d hd
      obtain rfl : c = d := by simpa using hd
      rcases hblank c List.mem_cons_self with rfl | rfl | rfl | rfl <;> decide

theorem readDigits_append (hdigits : Digits digits) (hrest : NoDigit rest) :
    readDigits (digits ++ rest) = some (digits, rest) := by
  obtain ⟨hne, hall⟩ := hdigits
  have hstop : rest.takeWhile Char.isDigit = [] ∧ rest.dropWhile Char.isDigit = rest := by
    cases rest with
    | nil => exact ⟨rfl, rfl⟩
    | cons c rest => simp [hrest c rfl]
  obtain ⟨c, back, rfl⟩ := List.exists_cons_of_ne_nil hne
  rw [readDigits, List.takeWhile_append_of_pos hall, List.dropWhile_append_of_pos hall, hstop.1,
    hstop.2, List.append_nil]

theorem readWhole_append (hwhole : Digits whole) (hzero : whole.head? = some '0' → whole = ['0'])
    (hrest : NoDigit rest) : readWhole (whole ++ rest) = some (whole, rest) := by
  simp only [readWhole, readDigits_append hwhole hrest, bind, Option.bind]
  split
  · simp at hzero
  · rfl

theorem readFraction_append (hfraction : Fraction fraction) (hrest : NoDigit rest)
    (hdot : rest.head? ≠ some '.') : readFraction (fraction ++ rest) = some (fraction, rest) := by
  cases hfraction with
  | none =>
      cases rest with
      | nil => rfl
      | cons c rest =>
          have hc : c ≠ '.' := by simpa using hdot
          simp [readFraction, hc]
  | some hdigits => simp [readFraction, readDigits_append hdigits hrest]

theorem readExponent_append (hexponent : Exponent exponent) (hrest : Closes rest) :
    readExponent (exponent ++ rest) = some (exponent, rest) := by
  cases hexponent with
  | none =>
      cases rest with
      | nil => rfl
      | cons c rest =>
          obtain ⟨_, _, hlower, hupper⟩ := hrest c rfl
          simp [readExponent, hlower, hupper]
  | some he hsign hdigits =>
      have hread := readDigits_append hdigits hrest.noDigit
      rcases hsign with rfl | rfl | rfl
      · obtain ⟨d, back, rfl⟩ := List.exists_cons_of_ne_nil hdigits.1
        have hd : d.isDigit = true := hdigits.2 d List.mem_cons_self
        have hsign : ¬ (d = '+' ∨ d = '-') := by
          rintro (rfl | rfl) <;> exact absurd hd (by decide)
        rw [List.cons_append] at hread
        simp [readExponent, he, hsign, hread]
      · simp [readExponent, he, hread]
      · simp [readExponent, he, hread]

/-- No digit goes on with a fraction, and no point does either. -/
theorem noDigit_exponent (hexponent : Exponent exponent) (hrest : Closes rest) :
    NoDigit (exponent ++ rest) ∧ (exponent ++ rest).head? ≠ some '.' := by
  cases hexponent with
  | none => exact ⟨hrest.noDigit, fun hdot => (hrest '.' hdot).2.1 rfl⟩
  | some he => rcases he with rfl | rfl <;> simp [NoDigit]

theorem noDigit_fraction (hfraction : Fraction fraction) (hrest : NoDigit rest) :
    NoDigit (fraction ++ rest) := by
  cases hfraction with
  | none => exact hrest
  | some => simp [NoDigit]

theorem readNumber_append (h : Number text) (hrest : Closes rest) :
    readNumber (text ++ rest) = some (.number (String.ofList text), rest) := by
  obtain @⟨sign, whole, fraction, exponent, hsign, hwhole, hzero, hfraction, hexponent⟩ := h
  obtain ⟨hbehind, hdot⟩ := noDigit_exponent hexponent hrest
  have hreadWhole := readWhole_append hwhole hzero (noDigit_fraction hfraction hbehind)
  have hreadFraction := readFraction_append hfraction hbehind hdot
  have hreadExponent := readExponent_append hexponent hrest
  rcases hsign with rfl | rfl
  · obtain ⟨d, back, rfl⟩ := List.exists_cons_of_ne_nil hwhole.1
    have hd : d ≠ '-' := by
      rintro rfl
      exact absurd (hwhole.2 _ List.mem_cons_self) (by decide)
    rw [List.cons_append] at hreadWhole
    simp [readNumber, hd, hreadWhole, hreadFraction, hreadExponent, String.append_assoc]
  · simp [readNumber, hreadWhole, hreadFraction, hreadExponent]

/-! ## Strings -/

theorem hexValue?_digitChar {v : Nat} (h : v < 16) :
    hexValue? (Nat.digitChar v) = some v ∧ hexValue? (Nat.digitChar v).toUpper = some v := by
  revert v
  decide

theorem HexDigit.hexValue? {v : Nat} (h : HexDigit c v) : Json.hexValue? c = some v := by
  obtain ⟨hv, rfl | rfl⟩ := h
  · exact (hexValue?_digitChar hv).1
  · exact (hexValue?_digitChar hv).2

theorem shortEscape?_of_mem {letter : Char} (h : (letter, c) ∈ letters) :
    letter ≠ 'u' ∧ shortEscape? letter = some c := by
  have hall : ∀ pair ∈ letters, pair.1 ≠ 'u' ∧ shortEscape? pair.1 = some pair.2 := by decide
  exact hall _ h

theorem readUnits_append (h : SpellsUnits units text) (rest : List Char) :
    readUnits (text ++ '"' :: rest) = some (units, rest) := by
  induction h with
  | nil => simp [readUnits]
  | @plain units text c hquote hbackslash hcontrol _ ih =>
      have hallowed : ¬ (c = '\\' ∨ c.toNat < 0x20) :=
        not_or.2 ⟨hbackslash, Nat.not_lt.2 hcontrol⟩
      rw [List.cons_append, readUnits, ih, if_neg hallowed, Option.map_some]
      · exact hquote
      · exact fun _ _ _ _ _ hc => absurd hc hbackslash
      · exact fun _ _ hc => absurd hc hbackslash
  | letter hletter _ ih =>
      obtain ⟨hu, hescape⟩ := shortEscape?_of_mem hletter
      rw [List.cons_append, List.cons_append, readUnits, hescape, ih]
      · rfl
      · exact fun _ _ _ _ _ hletter => absurd hletter hu
  | number ha hb hc hd _ ih =>
      simp [readUnits, quadValue?, ha.hexValue?, hb.hexValue?, hc.hexValue?, hd.hexValue?, ih]

/-- Four digits count no more than the characters of the first plane. -/
theorem code_lt_of_spellsUnits (h : SpellsUnits units text) {n : Nat} (hn : .code n ∈ units) :
    n < 0x10000 := by
  induction h with
  | nil => cases hn
  | plain _ _ _ _ ih => exact ih (by simpa using hn)
  | letter _ _ ih => exact ih (by simpa using hn)
  | number ha hb hc hd _ ih =>
      rcases List.mem_cons.1 hn with heq | hn
      · obtain rfl := Unit16.code.inj heq
        have hw := ha.1
        have hx := hb.1
        have hy := hc.1
        have hz := hd.1
        omega
      · exact ih hn

theorem isLowSurrogate_iff {n : Nat} : isLowSurrogate n = true ↔ 0xDC00 ≤ n ∧ n < 0xE000 := by
  simp [isLowSurrogate]

theorem isHighSurrogate_iff {n : Nat} : isHighSurrogate n = true ↔ 0xD800 ≤ n ∧ n < 0xDC00 := by
  simp [isHighSurrogate]

/-- No character has the number of a surrogate. -/
theorem toNat_lt_or_le (c : Char) : c.toNat < 0xD800 ∨ 0xE000 ≤ c.toNat := by
  have hvalid : c.toNat.isValidChar := c.valid
  rcases hvalid with h | h <;> omega

/-- The number of a surrogate is that of a high one, and goes with a low one. -/
theorem Denotes.surrogate {n : Nat} (h : Denotes (.code n :: units) text)
    (hn : 0xD800 ≤ n ∧ n < 0xE000) :
    n < 0xDC00 ∧ ∃ low back c chars, units = .code low :: back ∧ (0xDC00 ≤ low ∧ low < 0xE000) ∧
      text = c :: chars ∧ c.toNat = 0x10000 + (n - 0xD800) * 0x400 + (low - 0xDC00) ∧
      Denotes back chars := by
  cases h with
  | @code _ _ c _ =>
      have hc := toNat_lt_or_le c
      omega
  | pair hhigh hlow hc h => exact ⟨hhigh.2, _, _, _, _, rfl, hlow, rfl, hc, h⟩

/-- Units stand for a text exactly if the surrogates among them are paired. -/
theorem textOfUnits_eq_some_iff (hcode : ∀ n, .code n ∈ units → n < 0x10000) :
    textOfUnits units = some text ↔ Denotes units text := by
  fun_induction textOfUnits units generalizing text with
  | case1 =>
      constructor
      · rintro ⟨rfl⟩
        exact .nil
      · rintro ⟨⟩
        rfl
  | case2 c rest ih =>
      have hrest : ∀ text, textOfUnits rest = some text ↔ Denotes rest text :=
        fun text => ih fun n hn => hcode n (List.mem_cons_of_mem _ hn)
      simp only [Option.map_eq_some_iff, hrest]
      constructor
      · rintro ⟨chars, h, rfl⟩
        exact .char h
      · rintro (_ | h)
        exact ⟨_, ‹_›, rfl⟩
  | case3 n rest hlow =>
      rw [isLowSurrogate_iff] at hlow
      simp only [reduceCtorEq, false_iff]
      intro h
      obtain ⟨hhigh, _⟩ := h.surrogate (by omega)
      omega
  | case4 n _ hhigh m rest hlow ih =>
      rw [isHighSurrogate_iff] at hhigh
      rw [isLowSurrogate_iff] at hlow
      have hrest : ∀ text, textOfUnits rest = some text ↔ Denotes rest text :=
        fun text => ih fun n hn => hcode n (List.mem_cons_of_mem _ (List.mem_cons_of_mem _ hn))
      have hchar : (Char.ofNat (0x10000 + (n - 0xD800) * 0x400 + (m - 0xDC00))).toNat =
          0x10000 + (n - 0xD800) * 0x400 + (m - 0xDC00) :=
        Utf8.toNat_ofNat (.inr ⟨by omega, by omega⟩)
      simp only [Option.map_eq_some_iff, hrest]
      constructor
      · rintro ⟨chars, h, rfl⟩
        exact .pair hhigh hlow hchar h
      · intro h
        obtain ⟨_, low, back, c, chars, heq, _, rfl, hc, h⟩ := h.surrogate (by omega)
        obtain ⟨⟨rfl⟩, rfl⟩ := List.cons.inj heq
        exact ⟨chars, h, by rw [← hc, Char.ofNat_toNat]⟩
  | case5 n _ hhigh m rest hlow =>
      rw [isHighSurrogate_iff] at hhigh
      rw [isLowSurrogate_iff] at hlow
      simp only [reduceCtorEq, false_iff]
      intro h
      obtain ⟨_, low, back, _, _, heq, hlow', _⟩ := h.surrogate (by omega)
      obtain ⟨⟨rfl⟩, rfl⟩ := List.cons.inj heq
      exact hlow hlow'
  | case6 n rest _ hhigh hrest =>
      rw [isHighSurrogate_iff] at hhigh
      simp only [reduceCtorEq, false_iff]
      intro h
      obtain ⟨_, low, back, _, _, heq, _⟩ := h.surrogate (by omega)
      exact hrest low back heq
  | case7 n rest hlow hhigh ih =>
      rw [isLowSurrogate_iff] at hlow
      rw [isHighSurrogate_iff] at hhigh
      have hn := hcode n List.mem_cons_self
      have hrest : ∀ text, textOfUnits rest = some text ↔ Denotes rest text :=
        fun text => ih fun n hn => hcode n (List.mem_cons_of_mem _ hn)
      have hchar : (Char.ofNat n).toNat = n := Utf8.toNat_ofNat (by unfold Nat.isValidChar; omega)
      simp only [Option.map_eq_some_iff, hrest]
      constructor
      · rintro ⟨chars, h, rfl⟩
        have hcode := Denotes.code (c := Char.ofNat n) h
        rwa [hchar] at hcode
      · intro h
        cases h with
        | code h => exact ⟨_, h, by rw [Char.ofNat_toNat]⟩
        | pair hhigh' => exact absurd hhigh' hhigh

theorem readString_append {content : Option String} (h : SpellsString content text)
    (rest : List Char) : readString (text ++ '"' :: rest) = some (content, rest) := by
  obtain ⟨units, hunits, hcontent⟩ := h
  have htext : (textOfUnits units).map String.ofList = content := by
    refine Option.ext fun s => ?_
    rw [hcontent, ← textOfUnits_eq_some_iff fun n => code_lt_of_spellsUnits hunits,
      Option.map_eq_some_iff]
    constructor
    · rintro ⟨chars, hchars, rfl⟩
      rwa [String.toList_ofList]
    · intro h
      exact ⟨_, h, String.ofList_toList⟩
  simp [readString, readUnits_append hunits, htext]

/-! ## Values -/

theorem Number.exists_cons (h : Number text) :
    ∃ c back, text = c :: back ∧ (c = '-' ∨ c.isDigit = true) := by
  obtain @⟨sign, whole, fraction, exponent, hsign, hwhole, _, _, _⟩ := h
  obtain ⟨d, back, rfl⟩ := List.exists_cons_of_ne_nil hwhole.1
  rcases hsign with rfl | rfl
  · exact ⟨d, _, rfl, .inr (hwhole.2 d List.mem_cons_self)⟩
  · exact ⟨'-', _, rfl, .inl rfl⟩

/-- A value does not begin with a blank, nor with the end of an array. -/
theorem Spells.exists_cons (h : Spells value text) :
    ∃ c back, text = c :: back ∧ isBlank c = false ∧ c ≠ ']' := by
  cases h with
  | number h =>
      obtain ⟨c, back, rfl, hc⟩ := h.exists_cons
      refine ⟨c, back, rfl, ?_, ?_⟩
      · apply Bool.eq_false_iff.2
        intro hblank
        rcases isBlank_iff.1 hblank with rfl | rfl | rfl | rfl <;> exact absurd hc (by decide)
      · rintro rfl
        exact absurd hc (by decide)
  | _ => exact ⟨_, _, rfl, by decide, by decide⟩

theorem Spells.noBlank (h : Spells value text) (rest : List Char) : NoBlank (text ++ rest) := by
  obtain ⟨c, back, rfl, hc, _⟩ := h.exists_cons
  intro d hd
  obtain rfl : c = d := by simpa using hd
  exact hc

/-- What is read with `n` calls left: every text of a value, of items and of members that is short
enough for as many calls. -/
structure Reads (n : Nat) : Prop where
  value : ∀ {value before text rest}, Blank before → Spells value text → Closes rest →
    2 * text.length ≤ n → readValue n (before ++ (text ++ rest)) = some (value, rest)
  items : ∀ {items text} rest, SpellsItems items text → 2 * text.length + 1 ≤ n →
    readItems n (text ++ ']' :: rest) = some (items, rest)
  members : ∀ {members text} rest, SpellsMembers members text → 2 * text.length + 1 ≤ n →
    readMembers n (text ++ '\x7d' :: rest) = some (members, rest)

theorem SpellsItems.exists_item (h : SpellsItems items text) :
    ∃ item before name back, Blank before ∧ Spells item name ∧
      text = before ++ (name ++ back) := by
  cases h with
  | last hbefore h _ => exact ⟨_, _, _, _, hbefore, h, rfl⟩
  | cons hbefore h _ _ => exact ⟨_, _, _, _, hbefore, h, rfl⟩

/-- Items do not begin with the end of the array. -/
theorem SpellsItems.skipBlanks (h : SpellsItems items text) (rest : List Char) :
    ∃ c back, Json.skipBlanks (text ++ rest) = c :: back ∧ c ≠ ']' := by
  obtain ⟨item, before, name, back, hbefore, hitem, rfl⟩ := h.exists_item
  obtain ⟨c, front, hc, _, hend⟩ := hitem.exists_cons
  rw [List.append_assoc, List.append_assoc, skipBlanks_append hbefore (hitem.noBlank _), hc]
  exact ⟨c, _, rfl, hend⟩

theorem noBlank_cons (h : isBlank c = false) (text : List Char) : NoBlank (c :: text) := by
  simpa [NoBlank] using h

theorem SpellsKey.skipBlanks {key : Option String} (h : SpellsKey key text) (rest : List Char) :
    ∃ name after, SpellsString key name ∧ Blank after ∧
      Json.skipBlanks (text ++ rest) = '"' :: (name ++ '"' :: (after ++ ':' :: rest)) := by
  obtain @⟨before, name, after, hbefore, hname, hafter⟩ := h
  refine ⟨name, after, hname, hafter, ?_⟩
  simpa using skipBlanks_append hbefore
    (noBlank_cons (by decide) (name ++ '"' :: (after ++ ':' :: rest)))

theorem SpellsMembers.exists_key (h : SpellsMembers members text) :
    ∃ key name back, SpellsKey key name ∧ text = name ++ back := by
  cases h with
  | last hkey => exact ⟨_, _, _, hkey, rfl⟩
  | cons hkey => exact ⟨_, _, _, hkey, rfl⟩

theorem Reads.readValue_succ {n : Nat} (hn : Reads n) {before : List Char} (hbefore : Blank before)
    (h : Spells value text) (hrest : Closes rest) (hlength : 2 * text.length ≤ n + 1) :
    readValue (n + 1) (before ++ (text ++ rest)) = some (value, rest) := by
  rw [readValue, skipBlanks_append hbefore (h.noBlank rest)]
  cases h with
  | null => simp [readWord]
  | isTrue => simp [readWord]
  | isFalse => simp [readWord]
  | number h =>
      obtain ⟨c, back, rfl, hc⟩ := h.exists_cons
      split
      case h_7 => exact readNumber_append h hrest
      all_goals
        next heq =>
        obtain ⟨rfl, _⟩ := List.cons.inj heq
        exact absurd hc (by decide)
  | string h => simp [readString_append h]
  | emptyArray h =>
      have hskip := skipBlanks_append h (noBlank_cons (c := ']') (by decide) rest)
      simp [hskip]
  | @array items text h =>
      have hlength : 2 * text.length + 1 ≤ n := by
        simp at hlength
        omega
      have hitems := hn.items rest h hlength
      obtain ⟨c, back, hskip, hc⟩ := h.skipBlanks (']' :: rest)
      simp [hskip, hc, hitems]
  | emptyObject h =>
      have hskip := skipBlanks_append h (noBlank_cons (c := '\x7d') (by decide) rest)
      simp [hskip]
  | @object members text h =>
      have hlength : 2 * text.length + 1 ≤ n := by
        simp at hlength
        omega
      have hmembers := hn.members rest h hlength
      obtain ⟨key, name, back, hkey, rfl⟩ := h.exists_key
      rw [List.append_assoc] at hmembers
      obtain ⟨_, _, _, _, hskip⟩ := hkey.skipBlanks (back ++ '\x7d' :: rest)
      simp [hskip, hmembers]

/-- Behind a value, blanks and what ends the value are no part of a number. -/
theorem closes_append (hblank : Blank blank) (hc : c = ',' ∨ c = ']' ∨ c = '\x7d')
    (rest : List Char) : Closes (blank ++ c :: rest) := by
  refine closes_of_blank hblank ?_
  rcases hc with rfl | rfl | rfl <;> simp [Closes]

theorem Reads.readItems_succ {n : Nat} (hn : Reads n) (rest : List Char)
    (h : SpellsItems items text) (hlength : 2 * text.length + 1 ≤ n + 1) :
    readItems (n + 1) (text ++ ']' :: rest) = some (items, rest) := by
  cases h with
  | @last item before text after hbefore h hafter =>
      simp only [List.length_append] at hlength
      have hvalue := hn.value hbefore h (closes_append hafter (.inr (.inl rfl)) rest) (by omega)
      have hskip := skipBlanks_append hafter (noBlank_cons (c := ']') (by decide) rest)
      simp [readItems, hvalue, hskip]
  | @cons item items before text after back hbefore h hafter hitems =>
      simp only [List.length_append, List.length_cons] at hlength
      have hvalue := hn.value hbefore h (closes_append hafter (.inl rfl) (back ++ ']' :: rest))
        (by omega)
      have hskip := skipBlanks_append hafter
        (noBlank_cons (c := ',') (by decide) (back ++ ']' :: rest))
      have hback := hn.items rest hitems (by omega)
      simp [readItems, hvalue, hskip, hback]

/-- A member is read up to what ends it, and then the members behind it, if there are any. -/
theorem Reads.readMember {n : Nat} (hn : Reads n) {key : Option String}
    {name before after : List Char} (hkey : SpellsKey key name) (hbefore : Blank before)
    (h : Spells value text) (hafter : Blank after) (hlength : 2 * text.length ≤ n)
    (hc : c = ',' ∨ c = '\x7d') (rest : List Char) :
    readMembers (n + 1) (name ++ (before ++ (text ++ (after ++ c :: rest)))) =
      if c = ',' then
        (readMembers n rest).map fun (members, rest) => ((key, value) :: members, rest)
      else some ([(key, value)], rest) := by
  have hvalue := hn.value hbefore h
    (closes_append hafter (hc.imp_right .inr) rest) hlength
  obtain ⟨_, middle, hname, hmiddle, hfront⟩ :=
    hkey.skipBlanks (before ++ (text ++ (after ++ c :: rest)))
  have hcolon := skipBlanks_append hmiddle
    (noBlank_cons (c := ':') (by decide) (before ++ (text ++ (after ++ c :: rest))))
  have hend := skipBlanks_append hafter
    (noBlank_cons (c := c) (by rcases hc with rfl | rfl <;> decide) rest)
  simp only [readMembers, hfront, readString_append hname, Option.bind_eq_bind, Option.bind_some,
    hcolon, hvalue, hend]
  rcases hc with rfl | rfl <;> rfl

theorem Reads.readMembers_succ {n : Nat} (hn : Reads n) (rest : List Char)
    (h : SpellsMembers members text) (hlength : 2 * text.length + 1 ≤ n + 1) :
    readMembers (n + 1) (text ++ '\x7d' :: rest) = some (members, rest) := by
  cases h with
  | last hkey hbefore h hafter =>
      simp only [List.length_append] at hlength
      simpa using hn.readMember hkey hbefore h hafter (by omega) (.inr rfl) rest
  | @cons key value members name before text after back hkey hbefore h hafter hmembers =>
      simp only [List.length_append, List.length_cons] at hlength
      have hread := hn.readMember hkey hbefore h hafter (by omega) (.inl rfl)
        (back ++ '\x7d' :: rest)
      have hback := hn.members rest hmembers (by omega)
      simpa [hback] using hread

theorem reads (n : Nat) : Reads n := by
  induction n with
  | zero =>
      refine ⟨fun _ h _ hlength => ?_, fun _ _ hlength => ?_, fun _ _ hlength => ?_⟩
      · obtain ⟨c, back, rfl, _⟩ := h.exists_cons
        simp at hlength
      · omega
      · omega
  | succ n ih => exact ⟨ih.readValue_succ, ih.readItems_succ, ih.readMembers_succ⟩

/-- A document is read as the value that it holds. -/
theorem read?_of_isDocument {document : String} (h : IsDocument value document) :
    read? document = some value := by
  obtain ⟨before, text, after, hdocument, hbefore, hvalue, hafter⟩ := h
  have hcloses : Closes (after ++ []) := closes_of_blank hafter (by simp [Closes])
  rw [List.append_nil] at hcloses
  have hread := (reads (2 * document.toList.length + 2)).value hbefore hvalue hcloses
    (by simp only [hdocument, List.length_append]; omega)
  simp only [read?]
  rw [hdocument] at hread ⊢
  simp only [hread, skipBlanks_of_blank hafter, if_true]

end Hardlinks.Json
