import NormalForms.Formula.Basic

/-!
The variables of a formula: those with a free occurrence, in the order of the first one.
`variables` walks the whole formula with the variables bound so far; `topVariables` composes the
answer from the variables of the immediate subformulas. -/

namespace NormalForms
namespace Formula

mutual

/-- The free occurrences of variables other than the `bound` ones, from left to right. -/
def freeOccurrences (bound : List Var) : Formula → List Var
  | const _ => []
  | var x => if bound.contains x then [] else [x]
  | lit l => if bound.contains l.var then [] else [l.var]
  | not f => freeOccurrences bound f
  | nary _ args => freeOccurrencesList bound args
  | implies p c => freeOccurrences bound p ++ freeOccurrences bound c
  | iff l r => freeOccurrences bound l ++ freeOccurrences bound r
  | card _ args => freeOccurrencesList bound args
  | quant _ xs f => freeOccurrences (bound ++ xs) f

def freeOccurrencesList (bound : List Var) : List Formula → List Var
  | [] => []
  | f :: fs => freeOccurrences bound f ++ freeOccurrencesList bound fs

end

/-- The variables with a free occurrence, in the order of the first one. -/
def «variables» (f : Formula) : List Var := (freeOccurrences [] f).eraseDups

/-- The variables of all formulas of a list, in the order of the first occurrence. -/
def variablesOf (fs : List Formula) : List Var := (fs.flatMap «variables»).eraseDups

/-- The variables of the top node, from those of its immediate subformulas. Constants and variables
    have no parts to compose an answer from. -/
def topVariables : Formula → Option (List Var)
  | const _ | var _ => none
  | lit l => some [l.var]
  | not f => some f.variables
  | nary _ args => some (variablesOf args)
  | implies p c => some (variablesOf [p, c])
  | iff l r => some (variablesOf [l, r])
  | card _ args => some (variablesOf args)
  | quant _ xs f => some (f.variables.filter fun x => !xs.contains x)

@[simp]
theorem freeOccurrencesList_eq (bound : List Var) (fs : List Formula) :
    freeOccurrencesList bound fs = fs.flatMap (freeOccurrences bound) := by
  induction fs with
  | nil => rfl
  | cons f fs ih => simp [freeOccurrencesList, ih]

end Formula
end NormalForms
