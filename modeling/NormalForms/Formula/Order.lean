import NormalForms.Formula.Basic
import NormalForms.StableSort

/-!
The order of formulas. Different kinds of top nodes compare by rank: constants, variables, literals,
negations, conjunctions, disjunctions, implications, equivalences, cardinality constraints and
quantified formulas. Formulas of one kind compare by their parts from left to right, and lists of
formulas as words in a dictionary. -/

namespace NormalForms
namespace Formula

/-- The place of the kind of the top node in the order. -/
def rank : Formula → Nat
  | const _ => 0
  | var _ => 1
  | lit _ => 2
  | not _ => 3
  | nary .. => 4
  | implies .. => 5
  | iff .. => 6
  | card .. => 7
  | quant .. => 8

mutual

/-- Compares two formulas. Truth comes before falsehood. -/
def cmp : Formula → Formula → Ordering
  | const a, const b => compare b a
  | var x, var y => compare x y
  | lit l, lit m => compare l m
  | not f, not g => cmp f g
  | nary i fs, nary j gs => (compare i j).then (cmpList fs gs)
  | implies p c, implies q d => (cmp p q).then (cmp c d)
  | iff l r, iff m s => (cmp l m).then (cmp r s)
  | card c fs, card d gs => (compare c d).then (cmpList fs gs)
  | quant q xs f, quant r ys g => ((compare q r).then (compare xs ys)).then (cmp f g)
  | f, g => compare f.rank g.rank

def cmpList : List Formula → List Formula → Ordering
  | [], [] => .eq
  | [], _ :: _ => .lt
  | _ :: _, [] => .gt
  | f :: fs, g :: gs => (cmp f g).then (cmpList fs gs)

end

instance : Ord Formula := ⟨cmp⟩

def sort (fs : List Formula) : List Formula := stableSort (fun f g => (cmp f g).isLE) fs

end Formula
end NormalForms
