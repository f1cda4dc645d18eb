/-! Cardinality constraints: bounds on the number of true arguments. -/

namespace NormalForms

inductive Cardinality
  | atLeast (bound : Nat)
  | atMost (bound : Nat)
  | between (lower upper : Nat)
  | choose (bound : Nat)
deriving DecidableEq, Ord, Repr

namespace Cardinality

/-- Whether the constraint admits `n` true arguments. -/
def holds : Cardinality → Nat → Bool
  | atLeast k, n => k ≤ n
  | atMost k, n => n ≤ k
  | between lower upper, n => lower ≤ n && n ≤ upper
  | choose k, n => n == k

/-- The word for the constraint, without its bounds. -/
def word : Cardinality → String
  | atLeast _ => "atleast"
  | atMost _ => "atmost"
  | between .. => "between"
  | choose _ => "choose"

/-- The word for the constraint, with its bounds between brackets. -/
def render (c : Cardinality) : String :=
  match c with
  | atLeast k | atMost k | choose k => c.word ++ "[" ++ toString k ++ "]"
  | between lower upper => c.word ++ "[" ++ toString lower ++ ", " ++ toString upper ++ "]"

end Cardinality
end NormalForms
