import NormalForms.Clause.Basic
import NormalForms.Formula.Basic

/-!
Recognising formulas that are in a normal form already. A clausal normal form is recognised from at
most three levels of the tree: the outer connective, the connective of the clauses, and the
literals. -/

namespace NormalForms

/-- The normal forms: negation normal form, and the clausal ones by their outer connective. -/
inductive Form
  | negation
  | clausal (j : Junction)
deriving DecidableEq, Repr

/-- How a formula stands to a normal form. It can be in the normal form with a single clause or bare
    literals in the place of the two levels, or have both levels in full. -/
structure Classification where
  normalForm : Bool
  clausal : Bool
deriving DecidableEq, Repr

namespace Formula

def isLiteral (f : Formula) : Bool := f.asLiteral?.isSome

def isClause (i : Junction) (f : Formula) : Bool := (f.args? i).any fun args => args.all isLiteral

mutual

def isNnf : Formula → Bool
  | const _ | var _ | lit _ => true
  | nary _ args => isNnfList args
  | not _ | implies .. | iff .. | card .. | quant .. => false

def isNnfList : List Formula → Bool
  | [] => true
  | f :: fs => f.isNnf && isNnfList fs

end

def classifyClausal (j : Junction) (f : Formula) : Classification :=
  if f.isLiteral || f.isClause j.dual then ⟨true, false⟩
  else
    match f.args? j with
    | some args =>
      if args.all fun c => c.isLiteral || c.isClause j.dual then ⟨true, args.all (isClause j.dual)⟩
      else ⟨false, false⟩
    | none => ⟨false, false⟩

def classify : Form → Formula → Classification
  | .negation, f => ⟨f.isNnf, f.isNnf⟩
  | .clausal j, f => f.classifyClausal j

/-- Whether the formula is in the normal form, with both levels in full if `strict`. -/
def isNormalForm (form : Form) (strict : Bool) (f : Formula) : Bool :=
  if strict then (f.classify form).clausal else (f.classify form).normalForm

/-- Whether a clause under `i` neither repeats a literal nor contains complementary ones. What is no
    such clause passes. -/
def isProperClause (i : Junction) (f : Formula) : Bool :=
  match f.args? i with
  | some args =>
    let c := Clause.ofList (args.filterMap asLiteral?)
    c.size == args.length && !c.isTautology
  | none => true

/-- Whether no clause of a formula in the `j` normal form repeats a literal or contains complementary
    ones. -/
def hasProperClauses (j : Junction) (f : Formula) : Bool :=
  match f.args? j with
  | some args => args.all (isProperClause j.dual)
  | none => f.isProperClause j.dual

/-- Puts the missing connectives around a formula in the `j` normal form. Nodes that are there
    already stay as they are. -/
def reshape (j : Junction) (f : Formula) : Formula :=
  let wrap (c : Formula) := if c.isLiteral then nary j.dual [c] else c
  match f.args? j with
  | some args => nary j (args.map wrap)
  | none => nary j [wrap f]

@[simp]
theorem isNnfList_eq (fs : List Formula) : isNnfList fs = fs.all isNnf := by
  induction fs with
  | nil => rfl
  | cons f fs ih => simp [isNnfList, ih]

end Formula
end NormalForms
