-- SUMMARY: JSON values and their text.

/-!
# JSON values

The values that a configuration is read from and written to. Numbers keep the text they were
written with: no setting is a number, so none is ever computed with. A string whose surrogate
escapes do not pair up is JSON but stands for no text; its content is `none`.
-/

namespace Hardlinks

inductive Json where
  | null
  | bool (b : Bool)
  | number (literal : String)
  | string (content : Option String)
  | array (items : List Json)
  | object (members : List (Option String × Json))
deriving Repr, Inhabited

namespace Json

def ofText (text : String) : Json :=
  .string (some text)

/-- Four hexadecimal digits, for a code below 65536. -/
def hexQuad (code : Nat) : List Char :=
  let digits := Nat.toDigits 16 code
  List.replicate (4 - digits.length) '0' ++ digits

/-- A character inside a string: the quote, the backslash and the control characters of ASCII are
escaped, and all else stands for itself. -/
def escapeChar (c : Char) : List Char :=
  match c with
  | '"' => ['\\', '"']
  | '\\' => ['\\', '\\']
  | '\x08' => ['\\', 'b']
  | '\x0c' => ['\\', 'f']
  | '\n' => ['\\', 'n']
  | '\r' => ['\\', 'r']
  | '\t' => ['\\', 't']
  | c => if c.toNat < 0x20 then '\\' :: 'u' :: hexQuad c.toNat else [c]

def renderString (text : List Char) : List Char :=
  '"' :: (text.flatMap escapeChar ++ ['"'])

mutual

/-- The text of a value, without blanks. A string that stands for no text is written empty. -/
def render : Json → List Char
  | .null => "null".toList
  | .bool true => "true".toList
  | .bool false => "false".toList
  | .number literal => literal.toList
  | .string content => renderString (content.getD "").toList
  | .array items => '[' :: (renderItems items ++ [']'])
  | .object members => '\x7b' :: (renderMembers members ++ ['\x7d'])

def renderItems : List Json → List Char
  | [] => []
  | [item] => render item
  | item :: next :: items => render item ++ ',' :: renderItems (next :: items)

def renderMembers : List (Option String × Json) → List Char
  | [] => []
  | [(key, value)] => renderString (key.getD "").toList ++ ':' :: render value
  | (key, value) :: next :: members =>
    renderString (key.getD "").toList ++ ':' :: render value ++
      ',' :: renderMembers (next :: members)

end

end Json

end Hardlinks
