import NormalForms.Formula.Defect
import NormalForms.Formula.Variables

/-!
Truth values. Conjunctions and disjunctions are evaluated from left to right and stop at the first
argument that decides them; an implication with a false premise does not look at its consequence. A
quantified formula has no truth value, and where evaluation reaches one, it fails. -/

namespace NormalForms
namespace Formula

mutual

def eval (v : Assignment) : Formula → Except Defect Bool
  | const b => .ok b
  | var x => .ok (v x)
  | lit l => .ok (l.eval v)
  | not f => do return !(← f.eval v)
  | nary j args => evalJunction v j args
  | implies p c => do if ← p.eval v then c.eval v else return true
  | iff l r => do
    let left ← l.eval v
    let right ← r.eval v
    return left == right
  | card c args => do return c.holds (← countTrue v args)
  | quant q xs f => .error (.notPropositional (quant q xs f))

def evalJunction (v : Assignment) (j : Junction) : List Formula → Except Defect Bool
  | [] => .ok j.unit
  | f :: fs => do if (← f.eval v) = j.unit then evalJunction v j fs else return !j.unit

def countTrue (v : Assignment) : List Formula → Except Defect Nat
  | [] => .ok 0
  | f :: fs => do
    let value ← f.eval v
    let count ← countTrue v fs
    return (if value then count + 1 else count)

end

/-- The assignment of row `i` of a truth table over `xs`: a variable is true if the bit at its place
    is set, and variables outside the table are false. -/
def tableRow (xs : List Var) (i : Nat) : Assignment := fun x => (xs.idxOf? x).any i.testBit

/-- The truth values of the formula in all rows of the table over its variables. -/
def truthTable (f : Formula) : List (Except Defect Bool) :=
  let xs := f.variables
  (List.range (Nat.pow 2 xs.length)).map fun i => f.eval (tableRow xs i)

end Formula
end NormalForms
