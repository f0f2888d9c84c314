import Reckoner.Number.Decimal

/-! Literals: the value of a number as it is written in a program. -/
namespace Reckoner.Literal

/-- The value of a hexadecimal digit. Other characters count as zero. -/
def digitValue (c : Char) : Nat :=
  if '0' ≤ c ∧ c ≤ '9' then c.toNat - '0'.toNat
  else if 'a' ≤ c ∧ c ≤ 'f' then c.toNat - 'a'.toNat + 10
  else if 'A' ≤ c ∧ c ≤ 'F' then c.toNat - 'A'.toNat + 10
  else 0

/-- The largest whole number that can be written in base sixteen or two. -/
def largest : Nat := 0xFFFFFFFF

/-- The value of digits in base sixteen or two: there must be one, and the
value must not be too large. -/
def radixValue? (radix : Nat) (digits : List Char) : Option Float :=
  let value := Decimal.ofDigits radix (digits.map digitValue)
  if digits.isEmpty || largest < value then none
  else some ((⟨value, 0⟩ : Decimal).toFloat false)

/-- The number that digits with at most one point spell. -/
def decimal (text : List Char) : Decimal :=
  let whole := text.takeWhile (· != '.')
  let fraction := (text.dropWhile (· != '.')).drop 1
  ⟨Decimal.ofDigits 10 ((whole ++ fraction).map digitValue), -fraction.length⟩

/-- The value of a literal. It is rounded to a double first and then to a
single, so a decimal may be rounded twice. -/
def value? (text : String) : Option Float :=
  Number.toSingle <$> match text.toList with
    | '0' :: 'x' :: digits | '0' :: 'X' :: digits => radixValue? 16 digits
    | '0' :: 'b' :: digits | '0' :: 'B' :: digits => radixValue? 2 digits
    | digits => some ((decimal digits).toFloat false)

end Reckoner.Literal
