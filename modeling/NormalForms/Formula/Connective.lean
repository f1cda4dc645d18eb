import NormalForms.Formula.Basic

/-! Connectives as things of their own: names for the ways to assemble a formula from arguments. -/

namespace NormalForms

inductive Connective
  | not
  | nary (j : Junction)
  | implies
  | iff
  | card (c : Cardinality)
deriving DecidableEq, Repr

namespace Connective

/-- The number of arguments, for a connective that demands one. -/
def arity? : Connective → Option Nat
  | not => some 1
  | implies | iff => some 2
  | nary _ | card _ => none

/-- The word for the connective, with its bounds between brackets. -/
def render : Connective → String
  | not => "not"
  | nary .conj => "and"
  | nary .disj => "or"
  | implies => "implies"
  | iff => "iff"
  | card c => c.render

end Connective
end NormalForms
