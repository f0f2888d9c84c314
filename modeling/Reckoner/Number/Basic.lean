import Reckoner.Number.Format

/-! The numbers of the language are doubles. This module reads a double through
its sign and the code of its magnitude, and makes doubles out of these. -/
namespace Reckoner.Number

attribute [local instance] naturalPower

/-- The sign bit. It is set also for the negative zero. -/
def isNegative (x : Float) : Bool := 2 ^ (63 : Nat) ≤ x.toBits.toNat

/-- The code of the magnitude of a double. -/
def code (x : Float) : Nat := x.toBits.toNat % 2 ^ (63 : Nat)

/-- The double with this sign and this code. -/
def ofCode (negative : Bool) (code : Nat) : Float :=
  Float.ofBits (UInt64.ofNat (if negative then 2 ^ (63 : Nat) + code else code))

def isFinite (x : Float) : Bool := code x < Format.double.infinity

def isNaN (x : Float) : Bool := Format.double.infinity < code x

/-- The infinity with this sign. -/
def infinity (negative : Bool) : Float := ofCode negative Format.double.infinity

/-- The magnitude of a finite double, in units of the smallest double. -/
def units (x : Float) : Nat := Format.double.units (code x)

/-- The double nearest to a rational number of units, with the given sign. -/
def ofUnits (negative : Bool) (num den : Nat) : Float :=
  ofCode negative (Format.double.nearest num den)

/-- Whether the number is a whole one. Infinities are not. -/
def isWhole (x : Float) : Bool := isFinite x && units x % 2 ^ Format.double.scale == 0

/-- The whole part of a finite magnitude. -/
def wholePart (x : Float) : Nat := units x / 2 ^ Format.double.scale

end Reckoner.Number
