import Reckoner.Proofs.EntryPoints
import Reckoner.Proofs.Joining
import Reckoner.Proofs.LeastPower
import Reckoner.Proofs.Spacing

/-! Assignments that also compute. Each is short for a plain assignment of an
operation to the name on its left. The right side is read in the same way in both
places, because after it comes a token at which every expression stops: the end,
or the parenthesis that closes it. -/
namespace Reckoner

open Reading Lexicon

namespace Reading

/-- A name, something that goes on with it, and an operand to the end. -/
theorem IsExpression.joined {least : Rat} {t sign next : Token} {joint : Joint} {ts : List Token}
    {e : Expr} (hName : t.kind = .name) (hJoint : joint? sign = some joint)
    (hAdmits : joint.binding.admits least = true)
    (hOperand : IsExpression joint.binding.right ts e next) (hNext : next.Parts) :
    IsExpression least (t :: sign :: ts) (joint.combine (.name t.text) e) next := by
  have hEnds : Extends least (joint.combine (.name t.text) e) []
      (joint.combine (.name t.text) e) next :=
    .stop fun other hOther => absurd (hNext.joint.symm.trans hOther) (by simp)
  have hGoesOn : Extends least (.name t.text) (sign :: (ts ++ [])) (joint.combine (.name t.text) e)
      next := .join hJoint hAdmits hOperand hEnds
  rw [List.append_nil] at hGoesOn
  have hBegins : IsOperand [t] (.name t.text) (first (sign :: ts) next) :=
    .name hName (isOperator_of_joint? hJoint)
  exact .mk hBegins hGoesOn

end Reading

namespace Operator

end Operator

section Tokens

variable (name : String) {sign : String} {op : Operator} {e : Expr} {ts : List Token}
  {next : Token}

end Tokens

section Texts

variable {name sign text : String} {op : Operator}

end Texts

end Reckoner
