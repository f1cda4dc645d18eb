/-!
Traversals of trees in post-order with an explicit stack, for trees of any depth. A traversal says
what to do on entering a node, and how to combine the results of the children on leaving it. `run`
works off a stack of tasks beside a stack of results: entering a node with children puts the task of
leaving it below the tasks of entering each child, and leaving a node takes as many results as it
has children and puts one in their place.

Besides success and failure, a run can end because a result is missing on the stack or because its
fuel is spent. Both are ruled out for the traversals of this library: a tree of `n` nodes takes at
most `2 * n` steps. -/

namespace NormalForms

/-- What a traversal does on entering a node: it has the result, goes on to another node in its
    place, visits the children and combines their results later, or fails. -/
inductive Visit (ε ν μ α : Type)
  | done (result : α)
  | forward (node : ν)
  | descend (mark : μ) (children : List ν)
  | fail (error : ε)

/-- A traversal of nodes `ν` with results `α`, errors `ε` and a state `σ`. A mark `μ` remembers
    between entering and leaving a node how to combine the results of its children. -/
structure Traversal (σ ε ν μ α : Type) where
  enter : ν → σ → Visit ε ν μ α
  leave : μ → List α → σ → Except ε α × σ

namespace Traversal

inductive Task (ν μ : Type)
  | enter (node : ν)
  | leave (mark : μ) (arity : Nat)

/-- How a run ends. The results of a finished run are those left on the stack. -/
inductive Halt (ε α : Type)
  | finished (results : List α)
  | failed (error : ε)
  | missing
  | exhausted
deriving DecidableEq

/-- Takes `n` results off the stack. They come in the order in which they were put there, before
    `taken`. -/
def pop {α : Type} : Nat → List α → List α → Option (List α × List α)
  | 0, taken, rest => some (taken, rest)
  | _ + 1, _, [] => none
  | n + 1, taken, a :: rest => pop n (a :: taken) rest

variable {σ ε ν μ α : Type}

/-- Works off the tasks, with fuel for a number of steps. -/
def run (t : Traversal σ ε ν μ α) : Nat → List (Task ν μ) → List α → σ → Halt ε α × σ
  | _, [], results, s => (.finished results, s)
  | 0, _ :: _, _, s => (.exhausted, s)
  | fuel + 1, .enter node :: tasks, results, s =>
    match t.enter node s with
    | .done result => t.run fuel tasks (result :: results) s
    | .forward next => t.run fuel (.enter next :: tasks) results s
    | .descend mark children =>
      t.run fuel (children.map .enter ++ .leave mark children.length :: tasks) results s
    | .fail error => (.failed error, s)
  | fuel + 1, .leave mark arity :: tasks, results, s =>
    match pop arity [] results with
    | none => (.missing, s)
    | some (args, rest) =>
      match t.leave mark args s with
      | (.ok result, s) => t.run fuel tasks (result :: rest) s
      | (.error error, s) => (.failed error, s)

/-- The result of a run that ended with one, its error if it failed, and `other` otherwise. -/
def Halt.toExcept (other : Except ε α) : Halt ε α → Except ε α
  | finished (result :: _) => .ok result
  | failed error => .error error
  | finished [] | missing | exhausted => other

/-- Traverses the tree under `node`, which has `size` nodes. -/
def traverse (t : Traversal σ ε ν μ α) (size : Nat) (node : ν) (s : σ) : Halt ε α × σ :=
  t.run (2 * size) [.enter node] [] s

end Traversal
end NormalForms
