import Reckoner.Proofs.RoundTrip
import Mathlib.Logic.Relation
import Mathlib.Tactic.Common

/-! The least power that a context admits. Where a context admits less, an
expression ends at an earlier token of the same reading. What was read by then is
the first operand of what would have been read, or the first operand of that, and
so on. -/
namespace Reckoner

open Reading

/-- What a context admits, a context that admits more admits, too. -/
theorem Binding.admits_of_le {b : Binding} {least more : Rat} (hLe : least ≤ more)
    (h : b.admits more = true) : b.admits least = true := by
  unfold admits at h ⊢
  split
  · next hLeft =>
      rw [if_pos hLeft, decide_eq_true_eq] at h
      exact decide_eq_true (Rat.le_trans hLe h)
  · next hLeft =>
      rw [if_neg hLeft, decide_eq_true_eq] at h
      exact decide_eq_true (Std.lt_of_le_of_lt hLe h)

/-- The power of an operator is too low for a context: below the least one, or
equal to it unless the operator associates to the left. -/
def Binding.TooLow (b : Binding) (least : Rat) : Prop :=
  if b.leftAssociative then b.left < least else b.left ≤ least

theorem Binding.tooLow_iff {b : Binding} {least : Rat} :
    b.TooLow least ↔ b.admits least = false := by
  unfold TooLow admits
  split
  · rw [decide_eq_false_iff_not, Rat.not_le]
  · rw [decide_eq_false_iff_not, Rat.not_lt]

/-- A token that can go on with an expression binds in this way: it is an
operator between two operands, or an assignment that also computes, which binds
like a plain one. -/
inductive Token.Binds (t : Token) : Binding → Prop where
  | between {op : Operator} {b : Binding} (spells : t.Spells op)
      (binds : op.infixBinding? = some b) : t.Binds b
  | augmented {op : Operator} {b : Binding} (kind : t.kind = .augmented)
      (computes : Operator.ofAugmented? t.text = some op)
      (binds : Operator.assign.infixBinding? = some b) : t.Binds b

theorem Token.Spells.joint?_eq {t : Token} {op : Operator} {b : Binding} (h : t.Spells op)
    (hBinds : op.infixBinding? = some b) : joint? t = some ⟨b, .binary op⟩ := by
  rw [joint?, h.kind]
  simp only [h.text, hBinds, Option.bind_eq_bind, Option.bind_some]

theorem Reading.joint?_augmented {t : Token} {op : Operator} (hKind : t.kind = .augmented)
    (hText : Operator.ofAugmented? t.text = some op) :
    joint? t = some ⟨⟨2 / 10, 0, false⟩,
      fun left right => .binary .assign left (.binary op left right)⟩ := by
  rw [joint?, hKind]
  simp only [hText, Operator.infixBinding?, Option.bind_eq_bind, Option.bind_some]

/-- The reader gives a token the power with which it binds, on the left side. -/
theorem Token.Binds.exists_joint {t : Token} {b : Binding} (h : t.Binds b) :
    ∃ joint, joint? t = some joint ∧ joint.binding.left = b.left ∧
      joint.binding.leftAssociative = b.leftAssociative := by
  cases h with
  | between spells binds => exact ⟨_, spells.joint?_eq binds, rfl, rfl⟩
  | augmented kind computes binds =>
      cases binds
      exact ⟨_, joint?_augmented kind computes, rfl, rfl⟩

namespace Expr

/-- The first operand of an operation. -/
def firstOperand? : Expr → Option Expr
  | unary _ e => some e
  | binary _ left _ => some left
  | _ => none

/-- The second expression is reached from the first by going to the first operand
any number of times. -/
def Reaches : Expr → Expr → Prop :=
  Relation.ReflTransGen fun whole part => whole.firstOperand? = some part

end Expr

namespace Reading

/-- Whatever joins two expressions has the left one as its first operand. An
assignment that computes has it there a second time, further inside. -/
theorem firstOperand?_combine {t : Token} {joint : Joint} (h : joint? t = some joint)
    (left right : Expr) : (joint.combine left right).firstOperand? = some left := by
  rcases joint?_cases h with ⟨op, b, -, -, -, rfl⟩ | ⟨op, -, -, rfl⟩
  · rfl
  · rfl

theorem first_append (ts us : List Token) (next : Token) :
    first (ts ++ us) next = first ts (first us next) := by
  rw [first, List.append_assoc, peek_append]
  rfl

/-- However far an expression goes on, it has what it began with at its left end. -/
theorem Extends.reaches {least : Rat} {left e : Expr} {ts : List Token} {next : Token}
    (h : Extends least left ts e next) : e.Reaches left := by
  match h with
  | .stop _ => exact .refl
  | .join joins _ _ goesOn => exact goesOn.reaches.tail (firstOperand?_combine joins _ _)

/-- An expression stops only before what is not admitted. -/
theorem Extends.stops {least : Rat} {left e : Expr} {ts : List Token} {next : Token}
    (h : Extends least left ts e next) {joint : Joint} (hJoint : joint? next = some joint) :
    joint.binding.admits least = false := by
  match h with
  | .stop ends => exact ends joint hJoint
  | .join _ _ _ goesOn => exact goesOn.stops hJoint

/-- In a context that admits less, the first joint that is not admitted ends the
expression. Up to there the joints are admitted by both contexts. -/
theorem Extends.curtail {least more : Rat} {left e : Expr} {ts : List Token} {next : Token}
    (h : Extends least left ts e next) (hLe : least ≤ more) :
    ∃ former latter e', ts = former ++ latter ∧
      Extends more left former e' (first latter next) ∧ e.Reaches e' := by
  match h with
  | .stop ends =>
      refine ⟨[], [], left, rfl, .stop fun joint hJoint => ?_, .refl⟩
      exact Bool.eq_false_iff.mpr fun hAdmits =>
        Bool.eq_false_iff.mp (ends joint hJoint) (Binding.admits_of_le hLe hAdmits)
  | @Extends.join _ _ right _ t _ joint ts us joins admitted operand goesOn =>
      cases hAdmits : joint.binding.admits more with
      | false =>
          have hReaches := goesOn.reaches.tail (firstOperand?_combine joins left right)
          refine ⟨[], t :: (ts ++ us), left, rfl, .stop fun other hOther => ?_, hReaches⟩
          cases joins.symm.trans hOther
          exact hAdmits
      | true =>
          obtain ⟨former, latter, e', rfl, hFormer, hReaches⟩ := goesOn.curtail hLe
          rw [first_append] at operand
          refine ⟨t :: (ts ++ former), latter, e', ?_, .join joins hAdmits operand hFormer,
            hReaches⟩
          rw [List.cons_append, List.append_assoc]

/-- The operand that an expression begins with is the same in both contexts. -/
theorem IsExpression.curtail {least more : Rat} {e : Expr} {ts : List Token} {next : Token}
    (h : IsExpression least ts e next) (hLe : least ≤ more) :
    ∃ former latter e', ts = former ++ latter ∧
      IsExpression more former e' (first latter next) ∧ e.Reaches e' := by
  match h with
  | @IsExpression.mk _ ts us left _ _ begins goesOn =>
      obtain ⟨former, latter, e', rfl, hFormer, hReaches⟩ := goesOn.curtail hLe
      rw [first_append] at begins
      exact ⟨ts ++ former, latter, e', by rw [List.append_assoc], .mk begins hFormer, hReaches⟩

theorem IsExpression.stops {least : Rat} {e : Expr} {ts : List Token} {next : Token}
    (h : IsExpression least ts e next) {b : Binding} (hNext : next.Binds b) : b.TooLow least := by
  obtain ⟨joint, hJoint, hLeft, hAssociative⟩ := hNext.exists_joint
  match h with
  | .mk _ goesOn =>
      have hStops : joint.binding.TooLow least := Binding.tooLow_iff.mpr (goesOn.stops hJoint)
      unfold Binding.TooLow at hStops ⊢
      rwa [← hLeft, ← hAssociative]

end Reading

/-- The reader for the front of a text and the one for its middle tell only an
empty text apart. -/
theorem Expr.readFirst_ok_iff {least : Rat} {ts : List Token} {r : Expr × List Token} :
    Expr.readFirst least ts = .ok r ↔ Expr.read least ts = .ok r := by
  refine ⟨fun h => ?_, readFirst_of_read⟩
  unfold readFirst at h
  split at h
  · cases h
  · exact h

/-- An expression that can be read in some context can be read in any context
that admits less. It takes no more tokens there, and it is reached from the
expression in the wider context by going to the first operand any number of
times. In every context an expression ends only before a token that cannot go on
with it, or whose power is too low. All this holds at the front of a text, too:
the same is read there. -/
theorem read_of_higher_power (ts : List Token) :
    (∀ least more e rest, least ≤ more → Expr.read least ts = .ok (e, rest) →
      ∃ e' used between, ts = used ++ (between ++ rest) ∧
        Expr.read more ts = .ok (e', between ++ rest) ∧ e.Reaches e') ∧
    (∀ least e rest, Expr.read least ts = .ok (e, rest) →
      ∀ binding, (peek rest).Binds binding → binding.TooLow least) ∧
    ∀ least r, Expr.readFirst least ts = .ok r ↔ Expr.read least ts = .ok r := by
  refine ⟨?_, ?_, fun least r => Expr.readFirst_ok_iff⟩
  · intro least more e rest hLe hRead
    obtain ⟨used, rfl, hUsed⟩ := Expr.read_ok_iff.mp hRead
    obtain ⟨former, latter, e', rfl, hFormer, hReaches⟩ := hUsed.curtail hLe
    rw [← peek_append] at hFormer
    have hTokens : former ++ latter ++ rest = former ++ (latter ++ rest) := List.append_assoc ..
    exact ⟨e', former, latter, hTokens, Expr.read_ok_iff.mpr ⟨former, hTokens, hFormer⟩, hReaches⟩
  · intro least e rest hRead binding hBinds
    obtain ⟨used, -, hUsed⟩ := Expr.read_ok_iff.mp hRead
    exact hUsed.stops hBinds

/-- A power, and an assignment that computes from it. -/
def lowered : List Token :=
  [⟨.name, "a", 0, 1⟩, ⟨.operator, "^", 2, 3⟩, ⟨.name, "b", 4, 5⟩, ⟨.augmented, "-=", 6, 8⟩,
    ⟨.name, "c", 9, 10⟩, .finish 10]

/-- Where assignments are not admitted, the reading ends before this one, after
its first operand. -/
theorem read_of_higher_power_lowered :
    let power : Expr := .binary .pow (.name "a") (.name "b")
    let whole : Expr := .binary .assign power (.binary .sub power (.name "c"))
    Expr.read 0 lowered = .ok (whole, [.finish 10]) ∧
    (∃ e' used between, lowered = used ++ (between ++ [.finish 10]) ∧
      Expr.read 1 lowered = .ok (e', between ++ [.finish 10]) ∧ whole.Reaches e') ∧
    Expr.read 1 lowered = .ok (power, lowered.drop 3) ∧
    (peek (lowered.drop 3)).Binds ⟨2 / 10, 1 / 10, false⟩ ∧
    Binding.TooLow ⟨2 / 10, 1 / 10, false⟩ 1 := by
  intro power whole
  have hWhole : Expr.read 0 lowered = .ok (whole, [.finish 10]) := by with_unfolding_all rfl
  have hPower : Expr.read 1 lowered = .ok (power, lowered.drop 3) := by with_unfolding_all rfl
  have hBinds : (peek (lowered.drop 3)).Binds ⟨2 / 10, 1 / 10, false⟩ :=
    @Token.Binds.augmented _ .sub _ rfl (by decide +kernel) rfl
  obtain ⟨hShorter, hStops, -⟩ := read_of_higher_power lowered
  exact ⟨hWhole, hShorter 0 1 _ _ (by decide +kernel) hWhole, hPower, hBinds,
    hStops 1 _ _ hPower _ hBinds⟩

end Reckoner
