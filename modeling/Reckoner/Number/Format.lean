/-! Binary floating-point formats, seen through the codes of their magnitudes.
A code is the exponent field and the fraction field read as one natural number.
Codes below the code of infinity are the finite magnitudes in increasing order,
and each of them is a whole number of units, where one unit is the smallest
positive magnitude of the format. Rounding to nearest is therefore a statement
about natural numbers. Signs are not part of a code. -/
namespace Reckoner

/-- Powers of natural numbers are the core ones, whatever else is imported. -/
abbrev naturalPower : Pow Nat Nat := instPowNat

attribute [local instance] naturalPower

/-- The quotient rounded to the nearest natural number; a tie goes to the even
neighbour. A zero divisor gives zero or one and is never asked for. -/
def roundDiv (num den : Nat) : Nat :=
  if 2 * (num % den) < den ∨ (2 * (num % den) = den ∧ num / den % 2 = 0) then num / den
  else num / den + 1

/-- A binary interchange format. `precision` counts the significant bits, the
hidden one included, and `exponentBits` is the width of the exponent field. -/
structure Format where
  precision : Nat
  exponentBits : Nat
  deriving DecidableEq, Repr

namespace Format

def single : Format := ⟨24, 8⟩

def double : Format := ⟨53, 11⟩

/-- How many magnitudes share one exponent. -/
def binade (f : Format) : Nat := 2 ^ (f.precision - 1)

/-- The code of infinity. Larger codes are not numbers. -/
def infinity (f : Format) : Nat := (2 ^ f.exponentBits - 1) * f.binade

/-- One unit of the format is `2 ^ -scale`. -/
def scale (f : Format) : Nat := 2 ^ (f.exponentBits - 1) + f.precision - 3

/-- The magnitude of a finite code, in units. Codes of the lowest binade have
no hidden bit and stand for themselves. -/
def units (f : Format) (code : Nat) : Nat :=
  if code < f.binade then code
  else (f.binade + code % f.binade) * 2 ^ (code / f.binade - 1)

/-- The code nearest to the rational number `num / den` of units, a tie going to
the even code. What lies beyond the largest finite magnitude by half a step or
more becomes infinite. -/
def nearest (f : Format) (num den : Nat) : Nat :=
  let shift := (num / den).log2 + 1 - f.precision
  min (roundDiv num (den * 2 ^ shift) + shift * f.binade) f.infinity

end Format

end Reckoner
