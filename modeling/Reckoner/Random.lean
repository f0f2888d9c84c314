/-! A stream of random numbers that depends on a seed alone, so that a run on it
can be repeated. -/
namespace Reckoner.Random

/-- Spreads the bits of a counter over the whole word. -/
def scramble (z : UInt64) : UInt64 :=
  let z := (z ^^^ (z >>> 30)) * 0xBF58476D1CE4E5B9
  let z := (z ^^^ (z >>> 27)) * 0x94D049BB133111EB
  z ^^^ (z >>> 31)

/-- The numbers of a seed, from zero up to but not including one. -/
def stream (seed : UInt64) (n : Nat) : Float :=
  let z := scramble (seed + (UInt64.ofNat (n + 1)) * 0x9E3779B97F4A7C15)
  (z >>> 11).toFloat / 9007199254740992.0

end Reckoner.Random
