import Reckoner.Text.Hidden

/-! Texts in quotes, as they stand in messages. Quotation marks are single unless
the text has a single one in it and no double one. Characters that would not
show, the backslash, and the mark in use are escaped. -/
namespace Reckoner.Text

/-- A number in base sixteen, filled up with zeros to a width. -/
def hex (width n : Nat) : List Char :=
  let digits := Nat.toDigits 16 n
  List.replicate (width - digits.length) '0' ++ digits

/-- The single and the double quotation mark. -/
def singleQuote : Char := Char.ofNat 39

def doubleQuote : Char := Char.ofNat 34

def backslash : Char := Char.ofNat 92

/-- A character inside quotation marks. -/
def escape (mark c : Char) : List Char :=
  if c = mark ∨ c = backslash then [backslash, c]
  else if c = '\n' then [backslash, 'n']
  else if c = '\r' then [backslash, 'r']
  else if c = '\t' then [backslash, 't']
  else if isHidden c then
    if c.toNat ≤ 0xFF then backslash :: 'x' :: hex 2 c.toNat
    else if c.toNat ≤ 0xFFFF then backslash :: 'u' :: hex 4 c.toNat
    else backslash :: 'U' :: hex 8 c.toNat
  else [c]

/-- The quotation mark for a text. -/
def markFor (cs : List Char) : Char :=
  if singleQuote ∈ cs ∧ doubleQuote ∉ cs then doubleQuote else singleQuote

def quoted (text : String) : String :=
  let mark := markFor text.toList
  String.ofList (mark :: (text.toList.flatMap (escape mark) ++ [mark]))

end Reckoner.Text
