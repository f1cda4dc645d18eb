import NormalForms.Nnf.Basic
import NormalForms.Traversal

/-!
Simplification: nested conjunctions are flattened, and likewise disjunctions; repeated arguments are
dropped, the first occurrence staying; constants are absorbed, so that they remain at most as the
whole formula; and a connective with a single argument left is replaced by it. -/

namespace NormalForms
namespace Nnf

/-- The arguments that a simplified argument of a `j` contributes to it. -/
def spliced (j : Junction) : Nnf → List Nnf
  | const _ => []
  | lit l => [lit l]
  | nary i args => if i = j then args else [nary i args]

/-- The junction of simplified arguments, simplified. -/
def merge (j : Junction) (args : List Nnf) : Nnf :=
  if args.contains (const !j.unit) then const !j.unit
  else
    match (args.flatMap (spliced j)).eraseDups with
    | [] => const j.unit
    | [n] => n
    | ns => nary j ns

def simplifyTraversal : Traversal Unit Empty Nnf Junction Nnf where
  enter n _ :=
    match n with
    | const _ | lit _ => .done n
    | nary j args => .descend j args
  leave j args s := (.ok (merge j args), s)

/-- An equivalent normal form that is flat, without repetitions and without inner constants. -/
def simplify (n : Nnf) : Nnf :=
  match (simplifyTraversal.traverse n.size n ()).1 with
  | .finished (m :: _) => m
  | _ => const true

mutual

/-- What `simplify` computes, by recursion on the normal form. -/
def simplifyRec : Nnf → Nnf
  | const b => const b
  | lit l => lit l
  | nary j args => merge j (simplifyRecList args)

def simplifyRecList : List Nnf → List Nnf
  | [] => []
  | n :: ns => n.simplifyRec :: simplifyRecList ns

end

@[simp]
theorem simplifyRecList_eq (ns : List Nnf) : simplifyRecList ns = ns.map simplifyRec := by
  induction ns with
  | nil => rfl
  | cons n ns ih => simp [simplifyRecList, ih]

end Nnf
end NormalForms
