import Reckoner.Constant
import Reckoner.Error
import Reckoner.Statement
import Std.Data.ExtTreeMap

/-! Tables of names. A table is a value: the scope of a block or of a call is a
copy, and nothing that happens to the copy reaches the table it was taken from
except through `merge`. -/
namespace Reckoner

/-- A variable. One that is constant keeps its value. -/
structure Variable where
  value : Float
  constant : Bool

/-- The names a statement can see: variables, functions and procedures, which do
not get in one another's way, and the number of calls under way. -/
structure Table where
  vars : Std.ExtTreeMap String Variable
  functions : Std.ExtTreeMap String Subroutine
  procedures : Std.ExtTreeMap String Subroutine
  callDepth : Nat

namespace Table

def empty : Table := ⟨∅, ∅, ∅, 0⟩

def get? (t : Table) (name : String) : Option Float := t.vars[name]?.map (·.value)

def contains (t : Table) (name : String) : Bool := t.vars.contains name

def isConstant (t : Table) (name : String) : Bool :=
  (t.vars[name]?.map (·.constant)).getD false

/-- The names of the constants, in order. -/
def constants (t : Table) : List String :=
  t.vars.toList.filterMap fun (name, v) => if v.constant then some name else none

/-- The variables and their values, in the order of the names. -/
def items (t : Table) : List (String × Float) :=
  t.vars.toList.map fun (name, v) => (name, v.value)

/-- Stores a number under a name, as a single. A constant accepts only a number
equal to its own, and the constants that every program knows accept none. -/
def assign (t : Table) (name : String) (value : Float) : Except Failure Table :=
  let value := Number.toSingle value
  if Constant.contains name then .error (.symbol (.immutableConstant name))
  else match t.vars[name]? with
    | some old =>
      if old.constant && old.value != value then .error (.symbol (.immutableConstant name))
      else .ok { t with vars := t.vars.insert name { old with value := value } }
    | none => .ok { t with vars := t.vars.insert name ⟨value, false⟩ }

/-- Stores a number under a new name for good. -/
def declareConstant (t : Table) (name : String) (value : Float) : Except Failure Table :=
  if Constant.contains name then .error (.symbol (.immutableConstant name))
  else if t.contains name then .error (.symbol (.redefinition name))
  else .ok { t with vars := t.vars.insert name ⟨Number.toSingle value, true⟩ }

/-- Declares a subroutine. Functions and procedures are told apart, but neither
can be declared twice. -/
def declare (t : Table) (kind : Subroutine.Kind) (s : Subroutine) : Except Failure Table :=
  match kind with
  | .function =>
    if t.functions.contains s.name then .error (.flow (.alreadyDefined s.name kind.label))
    else .ok { t with functions := t.functions.insert s.name s }
  | .procedure =>
    if t.procedures.contains s.name then .error (.flow (.alreadyDefined s.name kind.label))
    else .ok { t with procedures := t.procedures.insert s.name s }

/-- The scope of a call: a copy that counts one call more. -/
def enterCall (t : Table) : Table := { t with callDepth := t.callDepth + 1 }

/-- Assigns numbers to names in turn. -/
def assignAll (t : Table) : List (String × Float) → Except Failure Table
  | [] => .ok t
  | (name, value) :: rest => do
    let t ← t.assign name value
    t.assignAll rest

/-- Copies one value of a scope back. The table keeps its own value if the scope
declared the name for itself, if the name is unknown or constant, or if the two
values are equal; so a change of the sign of a zero is lost. -/
def restore (t : Table) (shadows : List String) (name : String) (value : Float) :
    Except Failure Table :=
  match t.vars[name]? with
  | none => .ok t
  | some old =>
    if name ∈ shadows ∨ old.value == value ∨ old.constant then .ok t
    else t.assign name value

/-- Copies values back one after another. What was copied before a failure
remains. -/
def restoreAll (t : Table) (shadows : List String) :
    List (String × Float) → Except Failure Unit × Table
  | [] => (.ok (), t)
  | (name, value) :: rest =>
    match t.restore shadows name value with
    | .ok t => t.restoreAll shadows rest
    | .error e => (.error e, t)

/-- Copies the changes of a scope back, except to the names in `shadows`. Names
that only the scope has stay behind, and so do its subroutines. -/
def merge (t scope : Table) (shadows : List String) : Except Failure Unit × Table :=
  t.restoreAll shadows scope.items

/-- Makes a constant an ordinary variable again. -/
def unfreeze (t : Table) (name : String) : Table :=
  match t.vars[name]? with
  | some v => { t with vars := t.vars.insert name { v with constant := false } }
  | none => t

/-- Forgets every name. The number of calls under way stays. -/
def clear (t : Table) : Table := { empty with callDepth := t.callDepth }

/-- The size of a table, for inspection. -/
def inspect (t : Table) : String :=
  "<SymbolTable " ++ toString t.vars.size ++ " values, depth " ++ toString t.callDepth ++ ">"

end Table

end Reckoner
