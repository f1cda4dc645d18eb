import NormalForms.Definition

/-! What a transformation to a clausal normal form reports of its course. -/

namespace NormalForms

inductive Level
  | trace
  | debug
deriving DecidableEq, Repr

inductive Event
  /-- The transformation begins. -/
  | begun (form : Junction)
  /-- The formula is in the normal form, and is returned, or wrapped in missing connectives. -/
  | fastPath (reshaped : Bool)
  /-- The formula has this simplified negation normal form. -/
  | simplified (n : Nnf)
  /-- The part at this place exceeded the limit. -/
  | fallback (place limit : Nat)
  /-- A variable was defined as a formula, with a number of clauses. -/
  | substituted (x : Var) (n : Nnf) (clauses : Nat)
  /-- The clauses of all parts were merged. -/
  | merged (clauses literals auxiliary : Nat)
deriving DecidableEq

namespace Event

def level : Event → Level
  | begun _ | substituted .. => .trace
  | fastPath _ | simplified _ | fallback .. | merged .. => .debug

end Event

def Definition.event (d : Definition) : Event := .substituted d.name d.formula d.clauses.length

end NormalForms
