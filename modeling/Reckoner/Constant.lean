import Reckoner.Number.Single

/-! The constants that every program knows. They live apart from all tables and
no program can declare, assign or shadow them. -/
namespace Reckoner.Constant

/-- The names and values, in the order of the names. -/
def all : List (String × Float) :=
  [("E", Number.toSingle 2.718281828459045),
   ("INFINITY", Number.infinity false),
   ("PHI", Number.toSingle 1.618033988749895),
   ("PI", Number.toSingle 3.141592653589793),
   ("SQRT2", Number.toSingle 1.4142135623730951),
   ("TAU", Number.toSingle 6.283185307179586)]

def value? (name : String) : Option Float := all.lookup name

def contains (name : String) : Bool := (value? name).isSome

end Reckoner.Constant
