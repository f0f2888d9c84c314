/-! Patterns over characters. A pattern says which texts belong to a lexical
rule; `Matches` states this and `longest?` finds the longest beginning of a text
that belongs. The search steps through the derivatives of the pattern, kept
small by the simplifying constructors `seq` and `alt`. -/
namespace Reckoner

inductive Pattern where
  | never
  | empty
  | char (accepts : Char → Bool)
  | concat (first second : Pattern)
  | either (first second : Pattern)
  | many (body : Pattern)

namespace Pattern

/-- The texts that belong to a pattern. -/
inductive Matches : Pattern → List Char → Prop where
  | empty : Matches .empty []
  | char {accepts : Char → Bool} {c : Char} (h : accepts c = true) : Matches (.char accepts) [c]
  | concat {p q : Pattern} {s t : List Char} (hp : Matches p s) (hq : Matches q t) :
      Matches (.concat p q) (s ++ t)
  | left {p q : Pattern} {s : List Char} (h : Matches p s) : Matches (.either p q) s
  | right {p q : Pattern} {s : List Char} (h : Matches q s) : Matches (.either p q) s
  | done {p : Pattern} : Matches (.many p) []
  | more {p : Pattern} {s t : List Char} (hs : Matches p s) (ht : Matches (.many p) t) :
      Matches (.many p) (s ++ t)

/-- Whether the empty text belongs. -/
def nullable : Pattern → Bool
  | never => false
  | empty => true
  | char _ => false
  | concat p q => p.nullable && q.nullable
  | either p q => p.nullable || q.nullable
  | many _ => true

/-- `concat`, less what cannot match and what matches nothing. -/
def seq : Pattern → Pattern → Pattern
  | never, _ => never
  | empty, q => q
  | p, q => concat p q

/-- `either`, less what cannot match. -/
def alt : Pattern → Pattern → Pattern
  | never, q => q
  | p, never => p
  | p, q => either p q

/-- What may follow `c` in the texts that belong and begin with `c`. -/
def derivative (c : Char) : Pattern → Pattern
  | never => never
  | empty => never
  | char accepts => if accepts c then empty else never
  | concat p q =>
    if p.nullable then alt (seq (derivative c p) q) (derivative c q) else seq (derivative c p) q
  | either p q => alt (derivative c p) (derivative c q)
  | many p => seq (derivative c p) (many p)

/-- Whether no text at all can belong, as far as the outermost shape tells. -/
def isNever : Pattern → Bool
  | never => true
  | _ => false

/-- The length of the longest beginning of a text that belongs, if one does. -/
def longest? (p : Pattern) : List Char → Option Nat
  | [] => if p.nullable then some 0 else none
  | c :: rest =>
    let here := if p.nullable then some 0 else none
    if p.isNever then none
    else ((derivative c p).longest? rest).map (· + 1) <|> here

/-- The text itself and nothing else. -/
def word : List Char → Pattern
  | [] => empty
  | [c] => char (· == c)
  | c :: rest => concat (char (· == c)) (word rest)

/-- One character out of a list. -/
def oneOf (cs : List Char) : Pattern := char cs.contains

def anyOf : List Pattern → Pattern
  | [] => never
  | [p] => p
  | p :: rest => either p (anyOf rest)

/-- One or more times. -/
def repeated (p : Pattern) : Pattern := concat p (many p)

def optional (p : Pattern) : Pattern := either p empty

end Pattern

end Reckoner
