import NormalForms.Formula.Basis
import NormalForms.Nnf.Simplify

/-!
The negation normal form of a formula. A well-formed formula is written in the basis of negation,
conjunction and disjunction; negations are pushed to the variables by De Morgan's laws; and the
result is simplified. -/

namespace NormalForms

/-- The junction that stands for `j` under an odd number of negations, if `negated`. -/
def Junction.under (j : Junction) (negated : Bool) : Junction := if negated then j.dual else j

namespace Nnf

/-- The traversal that pushes negations inwards. A node is a formula and whether the number of
    negations above it is odd. -/
def pushTraversal : Traversal Unit Failure (Formula × Bool) Junction Nnf where
  enter node _ :=
    match node with
    | (.const b, negated) => .done (const (b != negated))
    | (.var x, negated) => .done (lit ⟨negated, x⟩)
    | (.lit l, negated) => .done (lit (if negated then l.complement else l))
    | (.not f, negated) => .forward (f, !negated)
    | (.nary j args, negated) => .descend (j.under negated) (args.map fun f => (f, negated))
    | (f, _) => .fail (.unsupported f)
  leave j args s := (.ok (nary j args), s)

/-- A formula in the basis with its negations pushed to the variables. -/
def ofBasis (f : Formula) : Except Failure Nnf :=
  (pushTraversal.traverse f.size (f, false) ()).1.toExcept (.error (.unsupported f))

mutual

/-- What `ofBasis` computes, by recursion on the formula. -/
def ofBasisRec (negated : Bool) : Formula → Except Failure Nnf
  | .const b => .ok (const (b != negated))
  | .var x => .ok (lit ⟨negated, x⟩)
  | .lit l => .ok (lit (if negated then l.complement else l))
  | .not f => ofBasisRec (!negated) f
  | .nary j args => do return nary (j.under negated) (← ofBasisRecList negated args)
  | .implies p c => .error (.unsupported (.implies p c))
  | .iff l r => .error (.unsupported (.iff l r))
  | .card c args => .error (.unsupported (.card c args))
  | .quant q xs f => .error (.unsupported (.quant q xs f))

def ofBasisRecList (negated : Bool) : List Formula → Except Failure (List Nnf)
  | [] => .ok []
  | f :: fs => do
    let n ← ofBasisRec negated f
    let ns ← ofBasisRecList negated fs
    return n :: ns

end
end Nnf

/-- The simplified negation normal form of a well-formed formula without quantifiers. -/
def Formula.nnf (f : Formula) : Except Failure Nnf := do
  match f.defect? with
  | some d => .error (.malformed d)
  | none =>
    let basis ← f.toBasis
    let n ← Nnf.ofBasis basis
    return n.simplify

def Formula.toNnf (f : Formula) : Except Failure Formula := f.nnf.map Nnf.toFormula

end NormalForms
