import Reckoner.Number.Basic

/-! Singles among the doubles. Every number that is stored, and the result of
every operator and built-in function, is rounded to the nearest single. -/
namespace Reckoner.Number

attribute [local instance] naturalPower

/-- How many of the smallest doubles make up the smallest single. -/
def singleUnit : Nat := 2 ^ (Format.double.scale - Format.single.scale)

/-- The code, as a single, of the single nearest to a finite double. -/
def singleCode (x : Float) : Nat := Format.single.nearest (units x) singleUnit

/-- Rounds to the nearest single, ties to even. The sign is kept, what is too
large becomes infinite, and what is not finite stays as it is. -/
def toSingle (x : Float) : Float :=
  if isFinite x then
    if singleCode x < Format.single.infinity then
      ofUnits (isNegative x) (Format.single.units (singleCode x) * singleUnit) 1
    else infinity (isNegative x)
  else x

end Reckoner.Number
