import Reckoner.Number.Single

/-! Decimals and their relation to doubles. Reading a decimal gives the nearest
double, and writing a double with a number of significant digits gives the
nearest such decimal. Both are exact computations on natural numbers. -/
namespace Reckoner

attribute [local instance] naturalPower

/-- The number `significand * 10 ^ exponent`. It has no sign. -/
structure Decimal where
  significand : Nat
  exponent : Int
  deriving DecidableEq, Repr

namespace Decimal

/-- How many decimal digits a number is written with. -/
def digitCount (n : Nat) : Nat := (Nat.toDigits 10 n).length

/-- The number that a list of digits spells. -/
def ofDigits (radix : Nat) (digits : List Nat) : Nat :=
  digits.foldl (fun value digit => value * radix + digit) 0

/-- The double nearest to a decimal, or an infinity if it is too large. -/
def toFloat (d : Decimal) (negative : Bool) : Float :=
  if 0 ≤ d.exponent then
    Number.ofUnits negative (d.significand * 10 ^ d.exponent.toNat * 2 ^ Format.double.scale) 1
  else
    Number.ofUnits negative (d.significand * 2 ^ Format.double.scale) (10 ^ (-d.exponent).toNat)

/-- The exponent of the first significant digit of the positive rational number
`num / den`. -/
def leadingExponent (num den : Nat) : Int :=
  if den ≤ num then (digitCount (num / den) : Int) - 1
  else -(digitCount ((den - 1) / num) : Int)

/-- The positive rational number `num / den` divided by `10 ^ exponent`, as a
numerator and a denominator. -/
def scaleDown (num den : Nat) (exponent : Int) : Nat × Nat :=
  if 0 ≤ exponent then (num, den * 10 ^ exponent.toNat) else (num * 10 ^ (-exponent).toNat, den)

/-- The decimal of `digits` significant digits that is nearest to a positive
rational number, a tie going to the even last digit. -/
def nearest (digits num den : Nat) : Decimal :=
  let exponent := leadingExponent num den + 1 - digits
  let scaled := scaleDown num den exponent
  ⟨roundDiv scaled.1 scaled.2, exponent⟩

/-- The two decimals of `digits` significant digits around a positive rational
number, the nearer one first. -/
def neighbours (digits num den : Nat) : List Decimal :=
  let exponent := leadingExponent num den + 1 - digits
  let scaled := scaleDown num den exponent
  let below := scaled.1 / scaled.2
  let near := roundDiv scaled.1 scaled.2
  [⟨near, exponent⟩, ⟨if near = below then below + 1 else below, exponent⟩]

/-- Drops the zeros at the end of a significand. -/
def trim (d : Decimal) : Decimal :=
  go (digitCount d.significand) d.significand d.exponent
where
  go : Nat → Nat → Int → Decimal
    | 0, n, e => ⟨n, e⟩
    | fuel + 1, n, e => if n % 10 = 0 ∧ n ≠ 0 then go fuel (n / 10) (e + 1) else ⟨n, e⟩

end Decimal

end Reckoner
