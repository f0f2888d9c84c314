import Reckoner.Number.Decimal

/-! Numbers as text. `display` is how results are shown: the fewest digits that
read back as the same single. `plain` is how numbers stand in messages: the
fewest digits that read back as the same double. -/
namespace Reckoner

attribute [local instance] naturalPower

/-- How a decimal is laid out. Numbers whose first digit has an exponent from -4
up to, but not including, `positionalBelow` are written with their digits in
place, and all others with an exponent. -/
structure Layout where
  positionalBelow : Int
  /-- Whether a whole number written in place ends in `.0`. -/
  wholeMark : Bool

namespace Layout

def zeros (n : Nat) : List Char := List.replicate n '0'

/-- Digits with a point after the first `whole` of them. -/
def withPoint (digits : List Char) (whole : Nat) : List Char :=
  digits.take whole ++ '.' :: digits.drop whole

def exponentText (e : Int) : List Char :=
  let digits := Nat.toDigits 10 e.natAbs
  (if e < 0 then '-' else '+') :: (zeros (2 - digits.length) ++ digits)

/-- The text of a positive decimal. -/
def render (layout : Layout) (d : Decimal) : String :=
  let d := d.trim
  let digits := Nat.toDigits 10 d.significand
  let e := d.exponent + digits.length - 1
  String.ofList <|
    if -4 ≤ e ∧ e < layout.positionalBelow then
      if 0 ≤ d.exponent then
        digits ++ zeros d.exponent.toNat ++ (if layout.wholeMark then ['.', '0'] else [])
      else if 0 ≤ e then withPoint digits (e.toNat + 1)
      else '0' :: '.' :: (zeros (-e - 1).toNat ++ digits)
    else
      (if digits.length = 1 then digits else withPoint digits 1) ++ 'e' :: exponentText e

end Layout

namespace Number

/-- The layout of numbers in messages. -/
def plainLayout : Layout := ⟨16, true⟩

/-- The layout of a result shown with `digits` significant digits. -/
def displayLayout (digits : Nat) : Layout := ⟨digits, false⟩

/-- The shortest decimal that reads back as this positive finite double, and of
those the nearest. Seventeen digits are always enough. -/
def shortest (x : Float) : Decimal :=
  let fits (d : Decimal) : Bool := code (d.toFloat false) == code x
  let shortestOf (n : Nat) : Option Decimal :=
    (Decimal.neighbours (n + 1) (units x) (2 ^ Format.double.scale)).find? fits
  ((List.range 17).findSome? shortestOf).getD ⟨0, 0⟩

def signText (x : Float) : String := if isNegative x then "-" else ""

/-- The text of a number in messages. -/
def plain (x : Float) : String :=
  if isNaN x then "nan"
  else if !isFinite x then signText x ++ "inf"
  else if units x = 0 then signText x ++ "0.0"
  else signText x ++ plainLayout.render (shortest x)

/-- The decimal of `digits` significant digits nearest to a finite number. -/
def rounded (digits : Nat) (x : Float) : Decimal :=
  Decimal.nearest digits (units x) (2 ^ Format.double.scale)

/-- Whether a number of significant digits is enough to read the number back. -/
def readsBack (x : Float) (digits : Nat) : Bool :=
  toSingle ((rounded digits x).toFloat (isNegative x)) == x

/-- The text of a result. A whole number below ten to the sixteenth is written
out, and the sign of a zero is not shown. Any other number gets the fewest
digits, up to nine, that read back as the same single. A number that is not a
single may need the text it has in messages. -/
def display (x : Float) : String :=
  if isWhole x && wholePart x < 10 ^ (16 : Nat) then
    (if isNegative x && wholePart x != 0 then "-" else "") ++ (wholePart x).repr
  else if !isFinite x then plain x
  else match ((List.range 9).map (· + 1)).find? (readsBack x) with
    | some digits => signText x ++ (displayLayout digits).render (rounded digits x)
    | none => plain x

end Number

end Reckoner
