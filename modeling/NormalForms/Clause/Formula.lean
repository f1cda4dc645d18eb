import NormalForms.Clause.Set
import NormalForms.Formula.Basic

/-!
Clauses and clause sets as formulas. A clause set in a `j` normal form is written as the `j` of its
clauses, each the dual junction of its literals. Reading accepts bare literals in place of clauses,
and a single clause in place of the whole. -/

namespace NormalForms

namespace Clause

def toFormula (i : Junction) (c : Clause) : Formula := .nary i (c.literals.map .lit)

/-- Reads a literal, or an `i` of literals. -/
def ofFormula? (i : Junction) (f : Formula) : Option Clause :=
  match f.args? i with
  | some args => (args.mapM Formula.asLiteral?).map ofList
  | none => f.asLiteral?.map single

end Clause

namespace ClauseSet

def toFormula (j : Junction) (S : ClauseSet) : Formula := .nary j (S.clauses.map (Clause.toFormula j.dual))

/-- Reads the clauses of a formula in a `j` normal form. -/
def ofFormula? (j : Junction) (f : Formula) : Option ClauseSet :=
  match f.args? j with
  | some args => (args.mapM (Clause.ofFormula? j.dual)).map ofList
  | none => (Clause.ofFormula? j.dual f).map single

end ClauseSet
end NormalForms
