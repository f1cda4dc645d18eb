import NormalForms.Event
import NormalForms.Failure
import NormalForms.Names.Source
import NormalForms.Traversal

/-!
Clauses of a negation normal form with auxiliary variables. Every conjunction and disjunction below
the top gets a variable and a definition of it; the top itself is asserted with the literals that
stand for its arguments. The encoder remembers its definitions, so a formula that occurs again, in
this or a later assertion, is not defined twice.

A constant below the top has no literal that stands for it, and the assertion fails. Definitions made
before the failure stay, and have been reported. -/

namespace NormalForms

/-- An encoder: the source of names, the stem of the names, the definitions in the order in which they
    were made, and what it has reported. -/
structure Encoder (σ : Type) where
  source : σ
  stem : String
  definitions : List Definition := []
  events : List Event := []

namespace Encoder

variable {σ : Type}

def find? (e : Encoder σ) (n : Nnf) : Option Definition :=
  let size := n.size
  e.definitions.find? fun d => d.size == size && d.formula == n

variable [NameSource σ]

/-- Defines a new variable as the `j` of `args`, the literals that stand for the arguments of `n`, reports
    the definition, and gives the literal of the variable. -/
def define (e : Encoder σ) (j : Junction) (n : Nnf) (args : List Literal) : Literal × Encoder σ :=
  let (x, source) := NameSource.fresh e.stem e.source
  let d : Definition := ⟨x, n, n.size, Definition.clausesFor j x args, rfl⟩
  (.pos x, { e with source, definitions := e.definitions ++ [d], events := e.events ++ [d.event] })

/-- The traversal that finds a literal for a normal form, with definitions for its connectives. A connective
    is looked up before its arguments are visited, and again before it is defined. -/
def traversal : Traversal (Encoder σ) Failure Nnf (Junction × Nnf) Literal where
  enter n e :=
    match n with
    | .const _ => .fail (.unsupported n.toFormula)
    | .lit l => .done l
    | .nary j args =>
      match e.find? n with
      | some d => .done (.pos d.name)
      | none => .descend (j, n) args
  leave mark args e :=
    match e.find? mark.2 with
    | some d => (.ok (.pos d.name), e)
    | none =>
      let (l, e) := e.define mark.1 mark.2 args
      (.ok l, e)

/-- A literal that stands for `n`. -/
def encode (e : Encoder σ) (n : Nnf) : Except Failure Literal × Encoder σ :=
  match traversal.traverse n.size n e with
  | (halt, e) => (halt.toExcept (.error (.unsupported n.toFormula)), e)

def encodeAll (e : Encoder σ) : List Nnf → Except Failure (List Literal) × Encoder σ
  | [] => (.ok [], e)
  | n :: ns =>
    match e.encode n with
    | (.error failure, e) => (.error failure, e)
    | (.ok l, e) =>
      match e.encodeAll ns with
      | (.ok ls, e) => (.ok (l :: ls), e)
      | (.error failure, e) => (.error failure, e)

/-- The clauses that assert `n`, apart from the definitions of the variables in them. -/
def assertion (e : Encoder σ) : Nnf → Except Failure (List Clause) × Encoder σ
  | .const true => (.ok [], e)
  | .const false => (.ok [.empty], e)
  | .lit l => (.ok [.single l], e)
  | .nary j args =>
    match e.encodeAll args with
    | (.ok ls, e) =>
      match j with
      | .conj => (.ok (ls.map .single), e)
      | .disj => (.ok [.ofList ls], e)
    | (.error failure, e) => (.error failure, e)

/-- The definitions that `later` has beyond those of `e`. -/
def newDefinitions (e later : Encoder σ) : List Definition := later.definitions.drop e.definitions.length

/-- What `later` has reported beyond what `e` has. -/
def newEvents (e later : Encoder σ) : List Event := later.events.drop e.events.length

/-- Clauses that are satisfiable together with the definitions made before if and only if `n` is: the
    definitions made now, and then the clauses that assert `n`. -/
def assert (e : Encoder σ) (n : Nnf) : Except Failure (List Clause) × Encoder σ :=
  match e.assertion n with
  | (.ok clauses, later) =>
    (.ok ((e.newDefinitions later).flatMap Definition.clauses ++ clauses.filter fun c => !c.isTautology), later)
  | (.error failure, later) => (.error failure, later)

mutual

/-- What `encode` computes, by recursion on the normal form. -/
def encodeRec : Nnf → Encoder σ → Except Failure Literal × Encoder σ
  | .const b, e => (.error (.unsupported (.const b)), e)
  | .lit l, e => (.ok l, e)
  | .nary j args, e =>
    match e.find? (.nary j args) with
    | some d => (.ok (.pos d.name), e)
    | none =>
      match encodeRecList args e with
      | (.ok ls, e) =>
        let (l, e) := e.define j (.nary j args) ls
        (.ok l, e)
      | (.error failure, e) => (.error failure, e)

def encodeRecList : List Nnf → Encoder σ → Except Failure (List Literal) × Encoder σ
  | [], e => (.ok [], e)
  | n :: ns, e =>
    match encodeRec n e with
    | (.error failure, e) => (.error failure, e)
    | (.ok l, e) =>
      match encodeRecList ns e with
      | (.ok ls, e) => (.ok (l :: ls), e)
      | (.error failure, e) => (.error failure, e)

end
end Encoder
end NormalForms
