/-! White space as Unicode has it, and what is cut off the ends of a text. The
blanks of the language itself are fewer, and are a matter of its lexicon. -/
namespace Reckoner.Text

/-- White space: the separators of Unicode, and the control characters that part
lines, fields and records. -/
def isBlank (c : Char) : Bool :=
  let n := c.toNat
  (9 ≤ n && n ≤ 13) || (28 ≤ n && n ≤ 32) || n == 0x85 || n == 0xA0 || n == 0x1680 ||
    (0x2000 ≤ n && n ≤ 0x200A) || n == 0x2028 || n == 0x2029 || n == 0x202F || n == 0x205F ||
    n == 0x3000

/-- A text without the white space at its end. -/
def stripEnd (cs : List Char) : List Char := (cs.reverse.dropWhile isBlank).reverse

/-- A text without the white space at its ends. -/
def strip (cs : List Char) : List Char := stripEnd (cs.dropWhile isBlank)

end Reckoner.Text
