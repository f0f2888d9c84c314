import Reckoner.Proofs.Coupling
import Reckoner.Proofs.Merging
import Reckoner.Proofs.Singles

/-! Vocabularies. A vocabulary says which names may be used. Two tables that a
vocabulary cannot tell apart stay so under every operation that uses its names
only, and what the tables have under other names stays as it is. -/
namespace Reckoner

/-- Names of variables and names of subroutines. -/
structure Vocabulary where
  names : String → Bool
  callees : String → Bool

namespace Expr

mutual

/-- Whether an expression uses the names of a vocabulary only. -/
def within (V : Vocabulary) : Expr → Bool
  | number .. => true
  | name x => V.names x
  | unary _ e => e.within V
  | binary _ left right => left.within V && right.within V
  | call callee args => V.callees callee && withinAll V args

def withinAll (V : Vocabulary) : List Expr → Bool
  | [] => true
  | e :: rest => e.within V && withinAll V rest

end

end Expr

namespace Statement

mutual

/-- Whether a statement uses and declares the names of a vocabulary only. -/
def within (V : Vocabulary) : Statement → Bool
  | expression e => e.within V
  | block body => withinAll V body
  | ifThen test yes => test.within V && yes.within V
  | ifElse test yes no => test.within V && (yes.within V && no.within V)
  | whileLoop test body => test.within V && body.within V
  | breakLoop | continueLoop => true
  | returnValue value | endRun value => value.all (·.within V)
  | letVar name init => V.names name && init.all (·.within V)
  | constVar name init => V.names name && init.within V
  | define _ name params body => V.callees name && (params.all V.names && withinAll V body)
  | call name args => V.callees name && Expr.withinAll V args

def withinAll (V : Vocabulary) : List Statement → Bool
  | [] => true
  | s :: rest => s.within V && withinAll V rest

end

end Statement

def Subroutine.within (V : Vocabulary) (s : Subroutine) : Bool :=
  s.params.all V.names && Statement.withinAll V s.body

/-- All names there are. -/
def Vocabulary.everything : Vocabulary := ⟨fun _ => true, fun _ => true⟩

/-- Nothing is asked of names by the vocabulary of all of them. -/
theorem Vocabulary.all_everything (params : List String) : params.all everything.names = true :=
  List.all_eq_true.mpr fun _ _ => rfl

namespace Expr

mutual

/-- Every expression keeps to the vocabulary of all names. -/
theorem within_everything (e : Expr) : e.within .everything = true := by
  match e with
  | number .. => rfl
  | name _ => rfl
  | unary _ e => exact within_everything e
  | binary _ left right => rw [within, within_everything left, within_everything right]; rfl
  | call _ args => exact withinAll_everything args

theorem withinAll_everything (es : List Expr) : withinAll .everything es = true := by
  match es with
  | [] => rfl
  | e :: rest => rw [withinAll, within_everything e, withinAll_everything rest]; rfl

end

end Expr

namespace Statement

theorem optional_everything (e : Option Expr) : e.all (·.within .everything) = true := by
  cases e with
  | none => rfl
  | some e => exact e.within_everything

mutual

/-- Every statement does, so that what holds for vocabularies holds without one. -/
theorem within_everything (s : Statement) : s.within .everything = true := by
  match s with
  | expression e => exact e.within_everything
  | block body => exact withinAll_everything body
  | ifThen test yes => rw [within, test.within_everything, within_everything yes]; rfl
  | ifElse test yes no =>
      rw [within, test.within_everything, within_everything yes, within_everything no]
      rfl
  | whileLoop test body => rw [within, test.within_everything, within_everything body]; rfl
  | breakLoop => rfl
  | continueLoop => rfl
  | returnValue e => exact optional_everything e
  | endRun e => exact optional_everything e
  | letVar _ init => exact optional_everything init
  | constVar _ init => exact init.within_everything
  | define _ _ params body =>
      rw [within, withinAll_everything body, Vocabulary.all_everything]
      rfl
  | call _ args => exact Expr.withinAll_everything args

theorem withinAll_everything (body : List Statement) : withinAll .everything body = true := by
  match body with
  | [] => rfl
  | s :: rest => rw [withinAll, within_everything s, withinAll_everything rest]; rfl

end

end Statement

/-- Every subroutine keeps to the vocabulary of all names. -/
theorem Subroutine.within_everything (s : Subroutine) : s.within .everything = true := by
  rw [within, Statement.withinAll_everything, Vocabulary.all_everything]
  rfl

/-- A variable is not changed by the value that it has already. -/
theorem Variable.restored_self (v : Variable) (shadowed : Prop) [Decidable shadowed] :
    v.restored shadowed (some v.value) = v := by
  simp only [Variable.restored]
  split
  · rfl
  · next h =>
      have hNumber : ¬ (v.value == v.value) = true := fun hEqual => h (.inr (.inl hEqual))
      have hNaN : v.value = Float.nan := by
        by_contra hOther
        exact hNumber (Float.beq_self_iff.mpr hOther)
      have hSingle : Number.toSingle v.value = v.value := by rw [hNaN, Number.toSingle_nan]
      rw [hSingle]

namespace Table

/-- The constant that a table has under a name. -/
def constant? (t : Table) (name : String) : Option Variable :=
  t.vars[name]?.filter (·.constant)

/-- An assignment asks for no more than the constant under the name. Where it
succeeds, it leaves the same variable. -/
theorem assign_agree {t t' : Table} {x : String} (h : t'.constant? x = t.constant? x) (a : Float) :
    Agree (fun u u' => Constant.contains x = false ∧ ∃ v,
        u = { t with vars := t.vars.insert x v } ∧ u' = { t' with vars := t'.vars.insert x v })
      (t.assign x a) (t'.assign x a) := by
  have hAssign (t : Table) : t.assign x a =
      if Constant.contains x then .error (.symbol (.immutableConstant x))
      else if (t.constant? x).any (·.value != Number.toSingle a) then
        .error (.symbol (.immutableConstant x))
      else .ok { t with
        vars := t.vars.insert x ⟨Number.toSingle a, (t.constant? x).isSome⟩ } := by
    unfold assign constant?
    rcases t.vars[x]? with _ | ⟨value, constant⟩
    · rfl
    · cases constant with
      | false => rfl
      | true => rfl
  rw [hAssign, hAssign, h]
  cases hGlobal : Constant.contains x with
  | true => exact .error _
  | false =>
      cases (t.constant? x).any (·.value != Number.toSingle a) with
      | true => exact .error _
      | false => exact .ok ⟨rfl, _, rfl, rfl⟩

end Table

/-- What a relation between tables has to keep for a vocabulary not to tell them
apart. -/
structure Vocabulary.Congruence (V : Vocabulary) (R : Table → Table → Prop) : Prop
    extends Table.Congruence R where
  vars : ∀ {t t'}, R t t' → ∀ {x}, V.names x = true → t'.vars[x]? = t.vars[x]?
  insert : ∀ {t t'}, R t t' → ∀ {x}, V.names x = true → Constant.contains x = false → ∀ v,
    R { t with vars := t.vars.insert x v } { t' with vars := t'.vars.insert x v }
  called : ∀ {t t'}, R t t' → (t'.callDepth = 0 ↔ t.callDepth = 0)

namespace Vocabulary.Congruence

variable {V : Vocabulary} {R : Table → Table → Prop} {t t' : Table}

/-- Under the names of the vocabulary the tables give the same values. -/
theorem get? (hV : V.Congruence R) (h : R t t') {x : String} (hx : V.names x = true) :
    t'.get? x = t.get? x := by
  rw [Table.get?, Table.get?, hV.vars h hx]

/-- Of the names of the vocabulary, related tables have the same ones. -/
theorem contains (hV : V.Congruence R) (h : R t t') {x : String} (hx : V.names x = true) :
    t'.contains x = t.contains x := by
  rw [Table.contains_eq_isSome, Table.contains_eq_isSome, hV.vars h hx]

/-- An assignment to such a name is refused on both sides or on neither, and
leaves related tables. -/
theorem assign (hV : V.Congruence R) (h : R t t') {x : String} (hx : V.names x = true) (a : Float) :
    Agree R (t.assign x a) (t'.assign x a) := by
  have hConstant : t'.constant? x = t.constant? x := by
    rw [Table.constant?, Table.constant?, hV.vars h hx]
  refine (Table.assign_agree hConstant a).mono ?_
  rintro u u' ⟨hGlobal, v, rfl, rfl⟩
  exact hV.insert h hx hGlobal v

/-- Step and run: related tables stay so after each assignment. -/
theorem assignAll (hV : V.Congruence R) (h : R t t') {values : List (String × Float)}
    (hValues : ∀ entry ∈ values, V.names entry.1 = true) :
    Agree R (t.assignAll values) (t'.assignAll values) := by
  induction values generalizing t t' with
  | nil => exact .ok h
  | cons entry rest ih =>
      refine (hV.assign h (hValues entry List.mem_cons_self) entry.2).bind fun u u' hu => ?_
      exact ih hu fun other hOther => hValues other (List.mem_cons_of_mem _ hOther)

end Vocabulary.Congruence

namespace Table

/-- Two tables that a vocabulary cannot tell apart. The subroutines that it can
call use its names only. Under all other names the tables have what is `kept`. -/
structure Alike (V : Vocabulary) (kept kept' : String → Option Variable) (t t' : Table) : Prop where
  sound : t.Sound
  sound' : t'.Sound
  vars : ∀ name, V.names name = true → t'.vars[name]? = t.vars[name]?
  functions : ∀ name, V.callees name = true → t'.functions[name]? = t.functions[name]?
  procedures : ∀ name, V.callees name = true → t'.procedures[name]? = t.procedures[name]?
  functionsWithin : ∀ name s, V.callees name = true → t.functions[name]? = some s →
    s.within V = true
  proceduresWithin : ∀ name s, V.callees name = true → t.procedures[name]? = some s →
    s.within V = true
  called : t'.callDepth = 0 ↔ t.callDepth = 0
  keeps : ∀ name, V.names name = false → t.vars[name]? = kept name
  keeps' : ∀ name, V.names name = false → t'.vars[name]? = kept' name

namespace Alike

variable {V : Vocabulary} {kept kept' : String → Option Variable} {t t' : Table}

/-- A variable under a name of the vocabulary is seen by it on both sides, and
what is kept under other names is not touched. -/
theorem insert (h : Alike V kept kept' t t') {x : String} (hx : V.names x = true)
    (hGlobal : Constant.contains x = false) (v : Variable) :
    Alike V kept kept' { t with vars := t.vars.insert x v }
      { t' with vars := t'.vars.insert x v } where
  sound := h.sound.insert hGlobal v
  sound' := h.sound'.insert hGlobal v
  vars name hName := by
    simp only [Std.ExtTreeMap.getElem?_insert, h.vars name hName]
  functions := h.functions
  procedures := h.procedures
  functionsWithin := h.functionsWithin
  proceduresWithin := h.proceduresWithin
  called := h.called
  keeps name hName := by
    have hOther : x ≠ name := fun hSame => by simp [← hSame, hx] at hName
    simp [Std.ExtTreeMap.getElem?_insert, hOther, h.keeps name hName]
  keeps' name hName := by
    have hOther : x ≠ name := fun hSame => by simp [← hSame, hx] at hName
    simp [Std.ExtTreeMap.getElem?_insert, hOther, h.keeps' name hName]

/-- By the description of merged tables name by name: names of the vocabulary
are restored alike, and others keep what they have. -/
theorem merge (h : Alike V kept kept' t t') {scope scope' : Table}
    (hScope : Alike V kept kept' scope scope') (shadows : List String) :
    Alike V kept kept' (t.merge scope shadows).2 (t'.merge scope' shadows).2 := by
  have hKeeps {t scope : Table} {kept : String → Option Variable} (hSound : t.Sound) {name : String}
      (hOuter : t.vars[name]? = kept name) (hInner : scope.vars[name]? = kept name) :
      (t.merge scope shadows).2.vars[name]? = kept name := by
    rw [merge_vars hSound, Table.get?, hInner, hOuter]
    cases kept name with
    | none => rfl
    | some v => simp only [Option.map_some, v.restored_self]
  have hFrame := merge_frame t scope shadows
  have hFrame' := merge_frame t' scope' shadows
  exact {
    sound := hFrame.sound h.sound
    sound' := hFrame'.sound h.sound'
    vars := fun name hName => by
      rw [merge_vars h.sound, merge_vars h.sound', h.vars name hName, Table.get?, Table.get?,
        hScope.vars name hName]
    functions := by simpa only [hFrame.functions, hFrame'.functions] using h.functions
    procedures := by simpa only [hFrame.procedures, hFrame'.procedures] using h.procedures
    functionsWithin := by simpa only [hFrame.functions] using h.functionsWithin
    proceduresWithin := by simpa only [hFrame.procedures] using h.proceduresWithin
    called := by simpa only [hFrame.callDepth, hFrame'.callDepth] using h.called
    keeps := fun name hName => hKeeps h.sound (h.keeps name hName) (hScope.keeps name hName)
    keeps' := fun name hName => hKeeps h.sound' (h.keeps' name hName) (hScope.keeps' name hName) }

variable (V kept kept') in
/-- All that vocabularies ask for, so that the results about related tables
apply. -/
theorem congruence : V.Congruence (Alike V kept kept') where
  sound h := h.sound
  sound' h := h.sound'
  merge shadows h hScope := h.merge hScope shadows
  vars h _ hName := h.vars _ hName
  insert h _ hName hGlobal v := h.insert hName hGlobal v
  called h := h.called

/-- A constant can be declared on both sides or on neither. -/
theorem declareConstant (h : Alike V kept kept' t t') {x : String} (hx : V.names x = true)
    (a : Float) : Agree (Alike V kept kept') (t.declareConstant x a) (t'.declareConstant x a) := by
  unfold Table.declareConstant
  rw [(congruence V kept kept').contains h hx]
  cases hGlobal : Constant.contains x with
  | true => exact .error _
  | false =>
      cases t.contains x with
      | true => exact .error _
      | false => exact .ok (h.insert hx hGlobal _)

/-- The new subroutine has to use names of the vocabulary, as it can be called
from now on. -/
theorem declare (h : Alike V kept kept' t t') (kind : Subroutine.Kind) {s : Subroutine}
    (hName : V.callees s.name = true) (hs : s.within V = true) :
    Agree (Alike V kept kept') (t.declare kind s) (t'.declare kind s) := by
  have hInsert {known known' : Std.ExtTreeMap String Subroutine}
      (hKnown : ∀ name, V.callees name = true → known'[name]? = known[name]?) (name : String)
      (hCallee : V.callees name = true) :
      (known'.insert s.name s)[name]? = (known.insert s.name s)[name]? := by
    simp only [Std.ExtTreeMap.getElem?_insert, hKnown name hCallee]
  have hWithin {known : Std.ExtTreeMap String Subroutine}
      (hKnown : ∀ name (s' : Subroutine), V.callees name = true → known[name]? = some s' →
        s'.within V = true)
      (name : String) (s' : Subroutine) (hCallee : V.callees name = true)
      (hs' : (known.insert s.name s)[name]? = some s') : s'.within V = true :=
    insert_entries (P := fun name s' => V.callees name = true → s'.within V = true)
      (fun name s' hs' hCallee => hKnown name s' hCallee hs') (fun _ => hs) name s' hs' hCallee
  cases kind with
  | function =>
      simp only [Table.declare, Std.ExtTreeMap.contains_eq_isSome_getElem?,
        h.functions s.name hName]
      cases t.functions[s.name]?.isSome with
      | true => exact .error _
      | false =>
          exact .ok { h with
            functions := hInsert h.functions
            functionsWithin := hWithin h.functionsWithin }
  | procedure =>
      simp only [Table.declare, Std.ExtTreeMap.contains_eq_isSome_getElem?,
        h.procedures s.name hName]
      cases t.procedures[s.name]?.isSome with
      | true => exact .error _
      | false =>
          exact .ok { h with
            procedures := hInsert h.procedures
            proceduresWithin := hWithin h.proceduresWithin }

/-- Both sides are then inside a call. -/
theorem enterCall (h : Alike V kept kept' t t') :
    Alike V kept kept' t.enterCall t'.enterCall :=
  { h with called := by simp [Table.enterCall] }

/-- A table is like itself. -/
theorem everything (hSound : t.Sound) : Alike .everything kept kept' t t where
  sound := hSound
  sound' := hSound
  vars _ _ := rfl
  functions _ _ := rfl
  procedures _ _ := rfl
  functionsWithin _ s _ _ := s.within_everything
  proceduresWithin _ s _ _ := s.within_everything
  called := Iff.rfl
  keeps _ hName := absurd hName (by simp [Vocabulary.everything])
  keeps' _ hName := absurd hName (by simp [Vocabulary.everything])

/-- And a table that is like another in everything is the same. -/
theorem eq (h : Alike .everything kept kept' t t') (hDepth : t'.callDepth = t.callDepth) :
    t' = t :=
  eq_of_parts (Std.ExtTreeMap.ext_getElem? fun name => h.vars name rfl)
    (Std.ExtTreeMap.ext_getElem? fun name => h.functions name rfl)
    (Std.ExtTreeMap.ext_getElem? fun name => h.procedures name rfl) hDepth

end Alike

end Table

end Reckoner
