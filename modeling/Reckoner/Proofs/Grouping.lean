import Reckoner.Operator

/-! How operands with operators between them are grouped. The levels of the
operators, and the direction in which each level associates, leave exactly one
way to do it. -/
namespace Reckoner

/-- The levels of the operators that stand between two operands, from the
loosest to the tightest. -/
inductive Level where
  | assignment | logical | comparison | sum | product | power | dot
  deriving DecidableEq, Repr

namespace Level

/-- Operators of a higher rank bind tighter. -/
def rank : Level → Nat
  | assignment => 0
  | logical => 1
  | comparison => 2
  | sum => 3
  | product => 4
  | power => 5
  | dot => 6

def rightAssociative : Level → Bool
  | assignment | power => true
  | _ => false

/-- Whether an operator of this level may be at the root of the left operand of
an operator of level `outer`. -/
def OnLeft (inner outer : Level) : Prop :=
  outer.rank < inner.rank ∨ inner = outer ∧ outer.rightAssociative = false

/-- Whether an operator of this level may be at the root of the right operand of
an operator of level `outer`. -/
def OnRight (inner outer : Level) : Prop :=
  outer.rank < inner.rank ∨ inner = outer ∧ outer.rightAssociative = true

instance (inner outer : Level) : Decidable (OnLeft inner outer) :=
  inferInstanceAs (Decidable (_ ∨ _))

instance (inner outer : Level) : Decidable (OnRight inner outer) :=
  inferInstanceAs (Decidable (_ ∨ _))

/-- Levels of one rank are one level. -/
theorem eq_of_rank_eq {a b : Level} (h : a.rank = b.rank) : a = b := by
  cases a <;> cases b <;> first | rfl | cases h

/-- Of two neighbours, either the first takes the second into its right operand
or the second takes the first into its left operand. -/
theorem onLeft_iff_not_onRight {a b : Level} : a.OnLeft b ↔ ¬ b.OnRight a := by
  unfold OnLeft OnRight
  rcases Nat.lt_trichotomy a.rank b.rank with h | h | h
  · have hne : a ≠ b := by rintro rfl; omega
    simp [h, Nat.lt_asymm h, hne]
  · obtain rfl := eq_of_rank_eq h
    simp
  · have hne : b ≠ a := by rintro rfl; omega
    simp [h, Nat.lt_asymm h, hne]

/-- An operand is not looser than what it is an operand of. -/
theorem OnLeft.rank_le {inner outer : Level} (h : inner.OnLeft outer) :
    outer.rank ≤ inner.rank := by
  rcases h with h | ⟨rfl, _⟩
  · exact Nat.le_of_lt h
  · exact Nat.le_refl _

theorem OnRight.rank_le {inner outer : Level} (h : inner.OnRight outer) :
    outer.rank ≤ inner.rank := by
  rcases h with h | ⟨rfl, _⟩
  · exact Nat.le_of_lt h
  · exact Nat.le_refl _

/-- Where an operator may stand, one that is not looser may stand too. -/
theorem OnLeft.tighten {a b outer : Level} (h : a.OnLeft outer) (hRank : a.rank ≤ b.rank) :
    b.OnLeft outer := by
  rcases Nat.eq_or_lt_of_le hRank with hSame | hLess
  · exact eq_of_rank_eq hSame ▸ h
  · exact .inl (Nat.lt_of_le_of_lt h.rank_le hLess)

/-- On the right, too, a tighter operator may stand wherever a looser one may. -/
theorem OnRight.tighten {a b outer : Level} (h : a.OnRight outer) (hRank : a.rank ≤ b.rank) :
    b.OnRight outer := by
  rcases Nat.eq_or_lt_of_le hRank with hSame | hLess
  · exact eq_of_rank_eq hSame ▸ h
  · exact .inl (Nat.lt_of_le_of_lt h.rank_le hLess)

end Level

/-- The level of an operator, if it can stand between two operands. -/
def Operator.level : (op : Operator) → op.infixBinding?.isSome = true → Level
  | assign, _ => .assignment
  | and, _ | or, _ | xor, _ | xnor, _ | nand, _ | nor, _ => .logical
  | lt, _ | gt, _ | ge, _ | le, _ | eq, _ | ne, _ => .comparison
  | add, _ | sub, _ => .sum
  | mul, _ | div, _ | mod, _ => .product
  | pow, _ | root, _ => .power
  | dot, _ => .dot
  | not, h => nomatch h

/-- A grouping of operands of type `α` by operators of type `β`. -/
inductive Grouping (α β : Type) where
  | leaf (a : α)
  | node (op : β) (left right : Grouping α β)

namespace Grouping

variable {α β : Type}

/-- The first operand of a grouping. -/
def first : Grouping α β → α
  | leaf a => a
  | node _ left _ => left.first

/-- The operators of a grouping in order, each with the operand that follows it. -/
def links : Grouping α β → List (β × α)
  | leaf _ => []
  | node op left right => left.links ++ (op, right.first) :: right.links

/-- What holds of the operator at the root, if there is one. -/
def Root (P : β → Prop) : Grouping α β → Prop
  | leaf _ => True
  | node op _ _ => P op

/-- What holds of the operators that have no end of their own but end where the
whole grouping ends. -/
def Spine (P : β → Prop) : Grouping α β → Prop
  | leaf _ => True
  | node op _ right => P op ∧ right.Spine P

/-- The operators are where their levels allow them to be. -/
def WellGrouped (level : β → Level) : Grouping α β → Prop
  | leaf _ => True
  | node op left right =>
    left.Root (fun inner => (level inner).OnLeft (level op)) ∧
    right.Root (fun inner => (level inner).OnRight (level op)) ∧
    left.WellGrouped level ∧ right.WellGrouped level

theorem root_of_forall {P : β → Prop} (h : ∀ op, P op) (g : Grouping α β) : g.Root P := by
  cases g with
  | leaf a => trivial
  | node op left right => exact h op

theorem spine_of_forall {P : β → Prop} (h : ∀ op, P op) (g : Grouping α β) : g.Spine P := by
  induction g with
  | leaf a => trivial
  | node op left right _ ih => exact ⟨h op, ih⟩

theorem Root.mono {P Q : β → Prop} (hPQ : ∀ op, P op → Q op) {g : Grouping α β} (h : g.Root P) :
    g.Root Q := by
  cases g with
  | leaf a => trivial
  | node op left right => exact hPQ op h

theorem Spine.mono {P Q : β → Prop} (hPQ : ∀ op, P op → Q op) {g : Grouping α β}
    (h : g.Spine P) : g.Spine Q := by
  induction g with
  | leaf a => trivial
  | node op left right _ ih => exact ⟨hPQ op h.1, ih h.2⟩

/-- All operators that end where a left operand ends may stand at its root. -/
theorem WellGrouped.spine {level : β → Level} {g : Grouping α β} (h : g.WellGrouped level)
    {outer : Level} (hRoot : g.Root fun inner => (level inner).OnLeft outer) :
    g.Spine fun inner => (level inner).OnLeft outer := by
  induction g with
  | leaf a => trivial
  | node op left right _ ih =>
      obtain ⟨_, hRight, _, hWell⟩ := h
      have hOp : (level op).OnLeft outer := hRoot
      exact ⟨hOp, ih hWell (hRight.mono fun _ hInner => hOp.tighten hInner.rank_le)⟩

/-- All operators of a right operand may stand at its root. -/
theorem WellGrouped.all_onRight {level : β → Level} {g : Grouping α β} (h : g.WellGrouped level)
    {outer : Level} (hRoot : g.Root fun inner => (level inner).OnRight outer) :
    ∀ link ∈ g.links, (level link.1).OnRight outer := by
  induction g with
  | leaf a => simp [links]
  | node op left right ihLeft ihRight =>
      obtain ⟨hLeft, hRight, hWellLeft, hWellRight⟩ := h
      have hOp : (level op).OnRight outer := hRoot
      intro link hLink
      rcases List.mem_append.mp hLink with hLink | hLink
      · exact ihLeft hWellLeft (hLeft.mono fun _ h => hOp.tighten h.rank_le) link hLink
      · rcases List.mem_cons.mp hLink with rfl | hLink
        · exact hOp
        · exact ihRight hWellRight (hRight.mono fun _ h => hOp.tighten h.rank_le) link hLink

/-- A grouping with one more operator and operand at its end. The operator goes
into the right operand of every operator that may have it there. -/
def insert (level : β → Level) (op : β) (a : α) : Grouping α β → Grouping α β
  | leaf b => node op (leaf b) (leaf a)
  | node other left right =>
    if (level op).OnRight (level other) then node other left (right.insert level op a)
    else node op (node other left right) (leaf a)

/-- The grouping of operands, found by going through them once. -/
def build (level : β → Level) (g : Grouping α β) (rest : List (β × α)) : Grouping α β :=
  rest.foldl (fun g link => g.insert level link.1 link.2) g

section Building

variable (level : β → Level)

/-- A new operator comes at the end, so the first operand stays. -/
theorem first_insert (op : β) (a : α) (g : Grouping α β) :
    (g.insert level op a).first = g.first := by
  cases g with
  | leaf b => rfl
  | node other left right =>
      unfold insert
      split <;> rfl

/-- Nothing is lost and the order stays. Induction over the right operands that
the new operator goes into. -/
theorem links_insert (op : β) (a : α) (g : Grouping α β) :
    (g.insert level op a).links = g.links ++ [(op, a)] := by
  induction g with
  | leaf b => rfl
  | node other left right _ ih =>
      unfold insert
      split
      · simp [links, ih, first_insert]
      · simp [links, first]

/-- The root is the old one or the new operator. -/
theorem root_insert {P : β → Prop} {op : β} {a : α} {g : Grouping α β} (hRoot : g.Root P)
    (hOp : P op) : (g.insert level op a).Root P := by
  cases g with
  | leaf b => exact hOp
  | node other left right =>
      unfold insert
      split
      · exact hRoot
      · exact hOp

/-- One more operator finds a place that its level allows. If the root cannot
have it on the right, then it takes the root on its left. -/
theorem wellGrouped_insert (op : β) (a : α) {g : Grouping α β} (h : g.WellGrouped level) :
    (g.insert level op a).WellGrouped level := by
  induction g with
  | leaf b => exact ⟨trivial, trivial, trivial, trivial⟩
  | node other left right _ ih =>
      unfold insert
      split
      · next hOp =>
          obtain ⟨hLeft, hRight, hWellLeft, hWellRight⟩ := h
          exact ⟨hLeft, root_insert level hRight hOp, hWellLeft, ih hWellRight⟩
      · next hOp => exact ⟨Level.onLeft_iff_not_onRight.mpr hOp, trivial, h, trivial⟩

theorem first_build (g : Grouping α β) (rest : List (β × α)) :
    (build level g rest).first = g.first := by
  induction rest generalizing g with
  | nil => rfl
  | cons link rest ih => rw [build, List.foldl_cons, ← build, ih, first_insert]

/-- From one link to all of them: the operators and operands stand in the given
order. -/
theorem links_build (g : Grouping α β) (rest : List (β × α)) :
    (build level g rest).links = g.links ++ rest := by
  induction rest generalizing g with
  | nil => rw [List.append_nil]; rfl
  | cons link rest ih =>
      rw [build, List.foldl_cons, ← build, ih, links_insert, List.append_assoc]
      rfl

/-- Every operator is where its level allows it to be. -/
theorem wellGrouped_build {g : Grouping α β} (h : g.WellGrouped level) (rest : List (β × α)) :
    (build level g rest).WellGrouped level := by
  induction rest generalizing g with
  | nil => exact h
  | cons link rest ih => exact ih (wellGrouped_insert level link.1 link.2 h)

/-- An operator that may have the whole grouping on its left takes it. -/
theorem insert_of_onLeft {op : β} {a : α} {g : Grouping α β}
    (hRoot : g.Root fun inner => (level inner).OnLeft (level op)) :
    g.insert level op a = node op g (leaf a) := by
  cases g with
  | leaf b => rfl
  | node other left right => exact if_neg (Level.onLeft_iff_not_onRight.mp hRoot)

/-- Operators that may stand on the right of another stay there. -/
theorem build_node (op : β) (left right : Grouping α β) {rest : List (β × α)}
    (h : ∀ link ∈ rest, (level link.1).OnRight (level op)) :
    build level (node op left right) rest = node op left (build level right rest) := by
  induction rest generalizing right with
  | nil => rfl
  | cons link rest ih =>
      have hFirst := h link List.mem_cons_self
      rw [build, List.foldl_cons, insert, if_pos hFirst]
      exact ih _ fun other hOther => h other (List.mem_cons_of_mem link hOther)

/-- A well-grouped tree is found again from what stands in it. -/
theorem build_links {g : Grouping α β} (h : g.WellGrouped level) :
    build level (leaf g.first) g.links = g := by
  induction g with
  | leaf a => rfl
  | node op left right ihLeft ihRight =>
      obtain ⟨hLeft, hRight, hWellLeft, hWellRight⟩ := h
      calc build level (leaf left.first) (left.links ++ (op, right.first) :: right.links)
          = build level (insert level op right.first (build level (leaf left.first) left.links))
              right.links := by
            rw [build, List.foldl_append]
            rfl
        _ = build level (node op left (leaf right.first)) right.links := by
            rw [ihLeft hWellLeft, insert_of_onLeft level hLeft]
        _ = node op left (build level (leaf right.first) right.links) :=
            build_node level op left _ (hWellRight.all_onRight hRight)
        _ = node op left right := by rw [ihRight hWellRight]

end Building

/-- In `a = b - c - d ^ e ^ f` the two signs associate to the left and the two
powers to the right. -/
example :
    build id (leaf 'a')
        [(.assignment, 'b'), (.sum, 'c'), (.sum, 'd'), (.power, 'e'), (.power, 'f')] =
      node .assignment (leaf 'a')
        (node .sum (node .sum (leaf 'b') (leaf 'c'))
          (node .power (leaf 'd') (node .power (leaf 'e') (leaf 'f')))) := rfl

end Grouping

end Reckoner
