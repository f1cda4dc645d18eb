import NormalForms.Clause.Basic
import NormalForms.Nnf.Basic

/-!
Definitions of auxiliary variables. A definition says with clauses that a variable is equivalent to a
conjunction or disjunction of literals, in both directions. -/

namespace NormalForms

/-- An auxiliary variable that stands for a formula, with the clauses that define it. The size of the
    formula is kept beside it, so that formulas of another size are told apart at once. -/
structure Definition where
  name : Var
  formula : Nnf
  size : Nat
  clauses : List Clause
  size_eq : size = formula.size

namespace Definition

/-- The clauses of `x ↔ (a₁ ∧ … ∧ aₙ)`, for a conjunction: `x` implies each argument, and all
    arguments together imply `x`. -/
def conjunctionClauses (x : Var) (args : List Literal) : List Clause :=
  args.map (fun a => .ofList [.neg x, a]) ++ [.ofList (.pos x :: args.map Literal.complement)]

/-- The clauses of `x ↔ (a₁ ∨ … ∨ aₙ)`, for a disjunction: each argument implies `x`, and `x` implies
    one of them. -/
def disjunctionClauses (x : Var) (args : List Literal) : List Clause :=
  args.map (fun a => .ofList [.pos x, a.complement]) ++ [.ofList (.neg x :: args)]

/-- The clauses that define `x` as the `j` of the arguments. Those that are always true say nothing
    and are left out. -/
def clausesFor (j : Junction) (x : Var) (args : List Literal) : List Clause :=
  (match j with
    | .conj => conjunctionClauses x args
    | .disj => disjunctionClauses x args).filter fun c => !c.isTautology

end Definition
end NormalForms
