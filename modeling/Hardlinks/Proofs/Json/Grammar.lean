-- SUMMARY: The grammar of JSON texts, as relations between a value and the texts that spell it.
import Hardlinks.Json.Reader

/-!
# The grammar of JSON

A value has many texts: blanks may stand around its parts, and a character of a string may be
written as itself, by a letter or by its number, and by two numbers if it lies past the first plane.
`Json.Spells` tells which texts are those of a value, and mentions no function of the reader.
-/

namespace Hardlinks.Json

/-- Blanks, of which any number may stand between the parts of a value. -/
def Blank (text : List Char) : Prop :=
  ∀ c ∈ text, c = ' ' ∨ c = '\n' ∨ c = '\t' ∨ c = '\r'

/-! ## Numbers -/

def Digits (text : List Char) : Prop :=
  text ≠ [] ∧ ∀ c ∈ text, c.isDigit = true

inductive Fraction : List Char → Prop where
  | none : Fraction []
  | some {digits : List Char} (h : Digits digits) : Fraction ('.' :: digits)

inductive Exponent : List Char → Prop where
  | none : Exponent []
  | some {e : Char} {sign digits : List Char} (he : e = 'e' ∨ e = 'E')
      (hsign : sign = [] ∨ sign = ['+'] ∨ sign = ['-']) (h : Digits digits) :
      Exponent (e :: (sign ++ digits))

/-- A number has a whole part without needless zeros, and may have the others. -/
inductive Number : List Char → Prop where
  | mk {sign whole fraction exponent : List Char} (hsign : sign = [] ∨ sign = ['-'])
      (hwhole : Digits whole) (hzero : whole.head? = some '0' → whole = ['0'])
      (hfraction : Fraction fraction) (hexponent : Exponent exponent) :
      Number (sign ++ (whole ++ (fraction ++ exponent)))

/-! ## Strings -/

/-- A hexadecimal digit, in either case, and what it counts. -/
def HexDigit (c : Char) (value : Nat) : Prop :=
  value < 16 ∧ (c = Nat.digitChar value ∨ c = (Nat.digitChar value).toUpper)

/-- The letters that stand for a character behind a backslash. -/
def letters : List (Char × Char) :=
  [('"', '"'), ('\\', '\\'), ('/', '/'), ('b', '\x08'), ('f', '\x0c'), ('n', '\n'), ('r', '\r'),
    ('t', '\t')]

/-- What stands between the quotes of a string, and the units that it is made of. -/
inductive SpellsUnits : List Unit16 → List Char → Prop where
  | nil : SpellsUnits [] []
  | plain {units : List Unit16} {text : List Char} {c : Char} (hquote : c ≠ '"')
      (hbackslash : c ≠ '\\') (hcontrol : 0x20 ≤ c.toNat) (h : SpellsUnits units text) :
      SpellsUnits (.char c :: units) (c :: text)
  | letter {units : List Unit16} {text : List Char} {letter c : Char}
      (hletter : (letter, c) ∈ letters) (h : SpellsUnits units text) :
      SpellsUnits (.char c :: units) ('\\' :: letter :: text)
  | number {units : List Unit16} {text : List Char} {a b c d : Char} {w x y z : Nat}
      (ha : HexDigit a w) (hb : HexDigit b x) (hc : HexDigit c y) (hd : HexDigit d z)
      (h : SpellsUnits units text) :
      SpellsUnits (.code (((w * 16 + x) * 16 + y) * 16 + z) :: units)
        ('\\' :: 'u' :: a :: b :: c :: d :: text)

/-- The text that units stand for: a character past the first plane is given by two numbers, and
every other one by itself or by its number. -/
inductive Denotes : List Unit16 → List Char → Prop where
  | nil : Denotes [] []
  | char {units : List Unit16} {text : List Char} {c : Char} (h : Denotes units text) :
      Denotes (.char c :: units) (c :: text)
  | code {units : List Unit16} {text : List Char} {c : Char} (h : Denotes units text) :
      Denotes (.code c.toNat :: units) (c :: text)
  | pair {units : List Unit16} {text : List Char} {c : Char} {high low : Nat}
      (hhigh : 0xD800 ≤ high ∧ high < 0xDC00) (hlow : 0xDC00 ≤ low ∧ low < 0xE000)
      (hc : c.toNat = 0x10000 + (high - 0xD800) * 0x400 + (low - 0xDC00))
      (h : Denotes units text) : Denotes (.code high :: .code low :: units) (c :: text)

/-- What stands between the quotes of a string with the given content, which is `none` where the
units stand for no text. -/
def SpellsString (content : Option String) (text : List Char) : Prop :=
  ∃ units, SpellsUnits units text ∧ ∀ s, content = some s ↔ Denotes units s.toList

/-- What stands in front of the value of a member. -/
inductive SpellsKey (key : Option String) : List Char → Prop where
  | mk {before name after : List Char} (hbefore : Blank before) (h : SpellsString key name)
      (hafter : Blank after) : SpellsKey key (before ++ '"' :: (name ++ '"' :: (after ++ [':'])))

/-! ## Values -/

mutual

/-- A text of a value, without blanks around it. -/
inductive Spells : Json → List Char → Prop where
  | null : Spells .null ['n', 'u', 'l', 'l']
  | isTrue : Spells (.bool true) ['t', 'r', 'u', 'e']
  | isFalse : Spells (.bool false) ['f', 'a', 'l', 's', 'e']
  | number {text : List Char} (h : Number text) : Spells (.number (String.ofList text)) text
  | string {content : Option String} {text : List Char} (h : SpellsString content text) :
      Spells (.string content) ('"' :: (text ++ ['"']))
  | emptyArray {blank : List Char} (h : Blank blank) : Spells (.array []) ('[' :: (blank ++ [']']))
  | array {items : List Json} {text : List Char} (h : SpellsItems items text) :
      Spells (.array items) ('[' :: (text ++ [']']))
  | emptyObject {blank : List Char} (h : Blank blank) :
      Spells (.object []) ('\x7b' :: (blank ++ ['\x7d']))
  | object {members : List (Option String × Json)} {text : List Char}
      (h : SpellsMembers members text) : Spells (.object members) ('\x7b' :: (text ++ ['\x7d']))

/-- A text of the items of an array, with commas between them. -/
inductive SpellsItems : List Json → List Char → Prop where
  | last {item : Json} {before text after : List Char} (hbefore : Blank before)
      (h : Spells item text) (hafter : Blank after) : SpellsItems [item] (before ++ (text ++ after))
  | cons {item : Json} {items : List Json} {before text after rest : List Char}
      (hbefore : Blank before) (h : Spells item text) (hafter : Blank after)
      (hrest : SpellsItems items rest) :
      SpellsItems (item :: items) (before ++ (text ++ (after ++ ',' :: rest)))

/-- A text of the members of an object, with commas between them. -/
inductive SpellsMembers : List (Option String × Json) → List Char → Prop where
  | last {key : Option String} {value : Json} {name before text after : List Char}
      (hkey : SpellsKey key name) (hbefore : Blank before) (h : Spells value text)
      (hafter : Blank after) : SpellsMembers [(key, value)] (name ++ (before ++ (text ++ after)))
  | cons {key : Option String} {value : Json} {members : List (Option String × Json)}
      {name before text after rest : List Char} (hkey : SpellsKey key name)
      (hbefore : Blank before) (h : Spells value text) (hafter : Blank after)
      (hrest : SpellsMembers members rest) :
      SpellsMembers ((key, value) :: members)
        (name ++ (before ++ (text ++ (after ++ ',' :: rest))))

end

/-- A text that holds one value, and nothing else but blanks. -/
def IsDocument (value : Json) (document : String) : Prop :=
  ∃ before text after, document.toList = before ++ (text ++ after) ∧ Blank before ∧
    Spells value text ∧ Blank after

end Hardlinks.Json
