import Reckoner.Text.Blank
import Reckoner.Text.Lines

/-! A picture of a place in a text: the row, numbered, and under it carets that
mark the stretch in question. -/
namespace Reckoner.Excerpt

/-- The row that holds an offset, counted from `row`, its text, and the column in
it. An offset beyond the text is in the last row. -/
def locate (row : Nat) : List (List Char) → Nat → Nat × List Char × Nat
  | [], offset => (row, [], offset)
  | [line], offset => (row, line, offset)
  | line :: rest, offset =>
    if offset < line.length then (row, line, offset)
    else locate (row + 1) rest (offset - line.length)

/-- What stands before a row: its number in six columns, and a bar. -/
def margin (row : Nat) : List Char :=
  let digits := Nat.toDigits 10 row
  List.replicate (6 - digits.length) ' ' ++ digits ++ [' ', '|']

/-- Blanks as wide as a text. Tabs stay, so that what follows lines up. -/
def indent (cs : List Char) : List Char := cs.map fun c => if c = '\t' then c else ' '

/-- The picture of the stretch from `start` to `stop`. At least one caret is
shown, and none beyond the end of the row. -/
def render (text : String) (start stop : Nat) : String :=
  let (row, line, column) := locate 1 (Text.rows text.toList) start
  let width := max stop (start + 1) - start
  let carets := max 1 (min width (line.length - column))
  String.ofList <|
    margin row ++ Text.stripEnd line ++ '\n' ::
      (indent (margin row ++ line.take column) ++ List.replicate carets '^' ++ " here".toList)

end Reckoner.Excerpt
