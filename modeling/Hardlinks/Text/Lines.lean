-- SUMMARY: The lines of a text given as bytes.

/-!
# Lines

A line ends at a newline; one carriage return directly before that newline belongs to the end of
the line and not to the line. What follows the last newline is a line only if it is not empty, and
then keeps a carriage return.
-/

namespace Hardlinks.Text

abbrev newline : UInt8 := 10
abbrev carriageReturn : UInt8 := 13
abbrev tab : UInt8 := 9

/-- The line without the carriage return of its line end, if it has one. -/
def dropReturn (line : List UInt8) : List UInt8 :=
  if line.getLast? = some carriageReturn then line.dropLast else line

/-- The lines that a split at the newlines stands for: every part but the last was ended by a
newline. -/
def linesOfParts : List (List UInt8) → List (List UInt8)
  | [] => []
  | [last] => if last = [] then [] else [last]
  | part :: next :: parts => dropReturn part :: linesOfParts (next :: parts)

def lines (text : List UInt8) : List (List UInt8) :=
  linesOfParts (text.splitOn newline)

end Hardlinks.Text
