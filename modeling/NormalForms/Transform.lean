import NormalForms.Classification
import NormalForms.Clause.Formula
import NormalForms.Encoder
import NormalForms.Event
import NormalForms.Expansion
import NormalForms.Formula.Variables
import NormalForms.Names.Numbering
import NormalForms.Nnf.OfFormula
import NormalForms.Options

/-!
Transformations to the clausal normal forms. A formula that is in the normal form, and whose clauses
neither repeat a literal nor contain complementary ones, is returned as it is, or with the missing
connectives around it. Any other formula is brought into simplified negation normal form, and the
parts of its outermost connective are expanded one by one by the distributive laws.

A part that exceeds the limit falls back: for conjunctive normal form it is encoded with auxiliary
variables, and for disjunctive normal form the transformation fails. Clauses of encoded parts come
after the clauses of all expanded parts. -/

namespace NormalForms

/-- What to do with parts that exceed the limit, with a state of type `τ`. -/
structure Fallback (τ : Type) where
  /-- Clauses in place of the expansion. -/
  take : Nnf → τ → Except Failure (List Clause) × τ
  /-- The definitions made so far. -/
  definitions : τ → List Definition
  /-- What has been reported between two states. -/
  reported : τ → τ → List Event
  /-- Whether the run has been called off. -/
  cancelled : τ → Bool

namespace Fallback

/-- Encodes the part with auxiliary variables. -/
def encode {σ : Type} [NameSource σ] : Fallback (Encoder σ) where
  take n e := e.assert n
  definitions e := e.definitions
  reported e later := e.newEvents later
  cancelled e := NameSource.cancelled e.source

/-- Refuses to go on. -/
def refuse (limit : Nat) : Fallback Unit where
  take _ s := (.error (.limitExceeded limit), s)
  definitions _ := []
  reported _ _ := []
  cancelled _ := false

end Fallback

/-- A transformation under way: the clauses of the expanded parts, the clauses of the encoded parts,
    the state of the fallback, and the events so far. -/
structure Progress (τ : Type) where
  expanded : ClauseSet
  encoded : List Clause
  state : τ
  events : List Event

structure Report (τ : Type) where
  result : Except Failure Formula
  state : τ
  events : List Event

section
variable {τ : Type} (form : Junction) (o : Options) (fallback : Fallback τ)

/-- The clauses of the part at a place. -/
def Progress.part (place : Nat) (n : Nnf) (p : Progress τ) : Except Failure Unit × Progress τ :=
  let expander : Expander := { form, limit := o.limit, cancelled := o.stopped (fallback.cancelled p.state) }
  match (expander.clauses n).1 with
  | .ok S => (.ok (), { p with expanded := p.expanded.extend S.clauses })
  | .error .cancelled => (.error .cancelled, p)
  | .error .limitExceeded =>
    let (result, state) := fallback.take n p.state
    let events := p.events ++ .fallback place (o.limit.getD 0) :: fallback.reported p.state state
    match result with
    | .ok clauses => (.ok (), { p with encoded := p.encoded ++ clauses, state, events })
    | .error failure => (.error failure, { p with state, events })

/-- The clauses of the parts from a place on, up to the first failure. -/
def Progress.parts (place : Nat) : List Nnf → Progress τ → Except Failure Unit × Progress τ
  | [], p => (.ok (), p)
  | n :: ns, p =>
    match p.part form o fallback place n with
    | (.ok (), p) => p.parts (place + 1) ns
    | (.error failure, p) => (.error failure, p)

/-- The parts of a normal form that are expanded on their own. -/
def Nnf.parts (form : Junction) (n : Nnf) : List Nnf := (n.args? form).getD [n]

def transform (f : Formula) (state : τ) : Report τ :=
  let events := [Event.begun form]
  let c := f.classifyClausal form
  if c.normalForm && f.hasProperClauses form then
    { result := .ok (if c.clausal then f else f.reshape form), state, events := events ++ [.fastPath !c.clausal] }
  else if o.stopped (fallback.cancelled state) then { result := .error .cancelled, state, events }
  else
    match f.nnf with
    | .error failure => { result := .error failure, state, events }
    | .ok n =>
      let start : Progress τ :=
        { expanded := .empty, encoded := [], state, events := events ++ [.simplified n] }
      match start.parts form o fallback 0 (n.parts form) with
      | (.error failure, p) => { result := .error failure, state := p.state, events := p.events }
      | (.ok (), p) =>
        let S := p.expanded.extend p.encoded
        let auxiliary := (fallback.definitions p.state).length
        { result := .ok (S.toFormula form), state := p.state
          events := p.events ++ [.merged S.size S.literalCount auxiliary] }

end

/-- The conjunctive normal form, equisatisfiable with the formula, with auxiliary variables from the
    source. Without a limit it is equivalent to the formula. -/
def toCnf {σ : Type} [NameSource σ] (o : Options) (f : Formula) (source : σ) : Report σ :=
  let r := transform .conj o Fallback.encode f { source, stem := o.stem }
  { result := r.result, state := r.state.source, events := r.events }

/-- The conjunctive normal form with auxiliary variables other than the variables of the formula. -/
def Formula.cnf (o : Options) (f : Formula) : Report Numbering := toCnf o f (.ofVars f.variables)

/-- The disjunctive normal form, equivalent to the formula. -/
def Formula.dnf (o : Options) (f : Formula) : Report Unit :=
  transform .disj o (.refuse (o.limit.getD 0)) f ()

end NormalForms
