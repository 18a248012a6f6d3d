-- SUMMARY: Text in double quotes, with what would not show written as an escape.
import Hardlinks.Text.Printable

/-!
# Quoted text

The form in which error messages name a text: between double quotes, with the quote and the
backslash escaped, four characters by their short escapes, and every other character that would
not show as itself by its code point.
-/

namespace Hardlinks.Text

/-- A character inside quoted text. -/
def quoteChar (c : Char) : List Char :=
  match c with
  | '\x00' => ['\\', '0']
  | '\t' => ['\\', 't']
  | '\n' => ['\\', 'n']
  | '\r' => ['\\', 'r']
  | '"' => ['\\', '"']
  | '\\' => ['\\', '\\']
  | c =>
    if isPrintable c then [c]
    else ['\\', 'u', '\x7b'] ++ Nat.toDigits 16 c.toNat ++ ['\x7d']

def quoted (text : String) : String :=
  String.ofList ('"' :: (text.toList.flatMap quoteChar ++ ['"']))

end Hardlinks.Text
