import NormalForms.Choices
import NormalForms.Failure
import NormalForms.Traversal

/-!
The basis of negation, conjunction and disjunction. `toBasis` writes implications, equivalences and
cardinality constraints in the basis, subformulas before the formulas that contain them. Quantified
formulas have no equivalent in it.

At least `k` of `n` arguments are true if every choice of `n - k + 1` of them has a true one. At most
`k` are true if every choice of `k + 1` of them has a false one. -/

namespace NormalForms
namespace Formula

def basisImplies (premise consequence : Formula) : Formula := any [not premise, consequence]

def basisIff (left right : Formula) : Formula :=
  all [basisImplies left right, basisImplies right left]

/-- The size of the choices among `n` arguments that need a true one, for `k` to be true in all. -/
def coverSize (n k : Nat) : Nat := n - k + 1

/-- The size of the choices that need a false one, for at most `k` to be true in all. -/
def excessSize (k : Nat) : Nat := k + 1

/-- That at least `k` of the arguments are true, in the basis. -/
def basisAtLeast (k : Nat) (args : List Formula) : Formula :=
  if k = 0 then const true
  else if args.length < k then const false
  else all ((choices (coverSize args.length k) args).map any)

/-- That at most `k` of the arguments are true, in the basis. -/
def basisAtMost (k : Nat) (args : List Formula) : Formula :=
  if args.length ≤ k then const true
  else all ((choices (excessSize k) args).map fun chosen => any (chosen.map not))

def basisCard : Cardinality → List Formula → Formula
  | .atLeast k, args => basisAtLeast k args
  | .atMost k, args => basisAtMost k args
  | .between lower upper, args => all [basisAtLeast lower args, basisAtMost upper args]
  | .choose k, args => all [basisAtLeast k args, basisAtMost k args]

/-- Puts the top node of a formula over subformulas in the basis, if they are as many as it has. -/
def basisNode? : Formula → List Formula → Option Formula
  | not _, [f] => some (not f)
  | nary j _, args => some (nary j args)
  | implies .., [p, c] => some (basisImplies p c)
  | iff .., [l, r] => some (basisIff l r)
  | card c _, args => some (basisCard c args)
  | _, _ => none

/-- The traversal that writes a formula in the basis. -/
def basisTraversal : Traversal Unit Failure Formula Formula Formula where
  enter f _ :=
    match f with
    | const _ | var _ | lit _ => .done f
    | quant .. => .fail (.unsupported f)
    | _ => .descend f f.children
  leave f args s :=
    match basisNode? f args with
    | some g => (.ok g, s)
    | none => (.error (.unsupported f), s)

/-- An equivalent formula in the basis. -/
def toBasis (f : Formula) : Except Failure Formula :=
  (basisTraversal.traverse f.size f ()).1.toExcept (.error (.unsupported f))

mutual

/-- What `toBasis` computes, by recursion on the formula. -/
def toBasisRec : Formula → Except Failure Formula
  | const b => .ok (const b)
  | var x => .ok (var x)
  | lit l => .ok (lit l)
  | not f => do return not (← f.toBasisRec)
  | nary j args => do return nary j (← toBasisRecList args)
  | implies p c => do
    let premise ← p.toBasisRec
    let consequence ← c.toBasisRec
    return basisImplies premise consequence
  | iff l r => do
    let left ← l.toBasisRec
    let right ← r.toBasisRec
    return basisIff left right
  | card c args => do return basisCard c (← toBasisRecList args)
  | quant q xs f => .error (.unsupported (quant q xs f))

def toBasisRecList : List Formula → Except Failure (List Formula)
  | [] => .ok []
  | f :: fs => do
    let g ← f.toBasisRec
    let gs ← toBasisRecList fs
    return g :: gs

end

end Formula
end NormalForms
