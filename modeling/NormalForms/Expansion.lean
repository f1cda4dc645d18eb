import NormalForms.Clause.Set
import NormalForms.Nnf.Basic
import NormalForms.Traversal

/-!
The clauses of a negation normal form by the distributive laws, within a limit. For the `j` normal
form, a `j` joins the clauses of its arguments, and the dual junction combines one clause of every
argument in all possible ways. Combinations with complementary literals are passed over, and subsumed
clauses are removed at every node.

Every combination that is new adds its length to a count of literals. The expansion stops as soon as
the count exceeds the limit. -/

namespace NormalForms

/-- Why an expansion stopped before its end. -/
inductive Interrupt
  | limitExceeded
  | cancelled
deriving DecidableEq, Repr

/-- Clauses gathered so far, and the literals counted so far. -/
structure Tally where
  clauses : ClauseSet
  literals : Nat

namespace Tally

def exceeds (limit : Option Nat) (t : Tally) : Bool := limit.any (· < t.literals)

/-- Gathers a combination, and counts its literals if it is new. -/
def emit (t : Tally) (c : Clause) : Tally :=
  match t.clauses.add c with
  | (true, clauses) => ⟨clauses, t.literals + c.size⟩
  | (false, clauses) => ⟨clauses, t.literals⟩

end Tally

namespace ClauseSet

/-- The clauses of all operands, without subsumed ones. -/
def join (operands : List ClauseSet) : ClauseSet :=
  (operands.foldl (fun S T => S.extend T.clauses) empty).removeSubsumed

/-- Adds one clause of every operand to `chosen` in all ways that bring no complementary literals
    together, and gathers the unions. After the limit is exceeded nothing changes any more. -/
def product (limit : Option Nat) : List ClauseSet → Clause → Tally → Tally
  | [], chosen, t => t.emit chosen
  | S :: operands, chosen, t =>
    S.clauses.foldl
      (fun t c =>
        if t.exceeds limit || c.clashes chosen then t else product limit operands (chosen.union c) t)
      t

/-- The combinations of one clause of every operand, without subsumed ones, and the count of literals
    after them. Operands with fewer clauses are chosen from first. -/
def combine (limit : Option Nat) (operands : List ClauseSet) (literals : Nat) :
    Except Interrupt ClauseSet × Nat :=
  let t := product limit (sortOn size operands) .empty ⟨empty, literals⟩
  if t.exceeds limit then (.error .limitExceeded, t.literals) else (.ok t.clauses.removeSubsumed, t.literals)

/-- The clauses of a constant: no clause for the unit of the outer connective, and the empty clause
    for the other constant. -/
def ofConst (form : Junction) (value : Bool) : ClauseSet :=
  if value = form.unit then empty else single .empty

end ClauseSet

/-- Expands negation normal forms. The count of literals belongs to the last expansion. -/
structure Expander where
  form : Junction
  limit : Option Nat := none
  cancelled : Bool := false
  literals : Nat := 0

namespace Expander

/-- Combines the clauses of the arguments of an `i`, beside the count of literals. -/
def node (e : Expander) (i : Junction) (operands : List ClauseSet) (literals : Nat) :
    Except Interrupt ClauseSet × Nat :=
  if i = e.form then (.ok (ClauseSet.join operands), literals) else ClauseSet.combine e.limit operands literals

/-- The traversal that expands a normal form. Its state is the count of literals. -/
def traversal (e : Expander) : Traversal Nat Interrupt Nnf Junction ClauseSet where
  enter n _ :=
    if e.cancelled then .fail .cancelled
    else
      match n with
      | .const b => .done (.ofConst e.form b)
      | .lit l => .done (.single (.single l))
      | .nary i args => .descend i args
  leave := e.node

/-- The clauses of `n`. The count starts from zero. -/
def clauses (e : Expander) (n : Nnf) : Except Interrupt ClauseSet × Expander :=
  match e.traversal.traverse n.size n 0 with
  | (halt, literals) => (halt.toExcept (.ok (.ofConst e.form true)), { e with literals })

/-- Makes every later expansion stop at its start. -/
def cancel (e : Expander) : Expander := { e with cancelled := true }

mutual

/-- What `clauses` computes from a count of literals, by recursion on the normal form. -/
def expandRec (e : Expander) : Nnf → Nat → Except Interrupt ClauseSet × Nat
  | .const b, k => if e.cancelled then (.error .cancelled, k) else (.ok (.ofConst e.form b), k)
  | .lit l, k => if e.cancelled then (.error .cancelled, k) else (.ok (.single (.single l)), k)
  | .nary i args, k =>
    if e.cancelled then (.error .cancelled, k)
    else
      match e.expandRecList args k with
      | (.ok operands, k) => e.node i operands k
      | (.error interrupt, k) => (.error interrupt, k)

def expandRecList (e : Expander) : List Nnf → Nat → Except Interrupt (List ClauseSet) × Nat
  | [], k => (.ok [], k)
  | n :: ns, k =>
    match e.expandRec n k with
    | (.error interrupt, k) => (.error interrupt, k)
    | (.ok S, k) =>
      match e.expandRecList ns k with
      | (.ok operands, k) => (.ok (S :: operands), k)
      | (.error interrupt, k) => (.error interrupt, k)

end
end Expander
end NormalForms
