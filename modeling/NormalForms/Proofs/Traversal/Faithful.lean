import NormalForms.Proofs.Encoding.Encode
import NormalForms.Proofs.Expansion.Count
import NormalForms.Proofs.Nnf.OfFormula
import NormalForms.Proofs.Traversal.Balance

/-!
The traversals of this library against the recursions that they stand for. Main statement: from every tree and in every
state each of them ends, with the result, the error and the state of its recursion, and on the way there it never lacks
a result. So what the functions around a traversal would do with an end of any other kind makes no difference. -/

namespace NormalForms

namespace Traversal

variable {σ ε ν μ α : Type}

/-- Whether a traversal of trees that have `size` nodes does what the recursion `spec` does. -/
structure Follows (t : Traversal σ ε ν μ α) (size : ν → Nat) (spec : ν → σ → Except ε α × σ) : Prop where
  /-- Two steps for each node are enough, and the run ends with one result or with an error, as the recursion does. -/
  run_eq : ∀ node s fuel, 2 * size node ≤ fuel →
    t.run fuel [.enter node] [] s = (.of (spec node s).1, (spec node s).2)
  /-- The run goes from step to step to where it ends. -/
  reaches : ∀ node s, ∃ c, t.Reaches node s c ∧ t.Halts c (.of (spec node s).1) (spec node s).2
  /-- Where the run leaves a node, the stack has a result for each child of the node. -/
  supplied : ∀ node s mark arity tasks results s', t.Reaches node s ⟨.leave mark arity :: tasks, results, s'⟩ →
    arity ≤ results.length ∧ ∃ n s children, t.enter n s = .descend mark children ∧ arity = children.length
  /-- Where no task is left, there is one result. -/
  single : ∀ node s results s', t.Reaches node s ⟨[], results, s'⟩ → ∃ a, results = [a]

/-- What entering a node amounts to is what the whole run does. -/
theorem follows_of_computes {t : Traversal σ ε ν μ α} {size : ν → Nat} {spec : ν → σ → Except ε α × σ}
    (h : ∀ node s, t.Computes node s (2 * size node) (spec node s).1 (spec node s).2) : t.Follows size spec where
  run_eq node s _ hfuel := run_eq_of_computes (h node s) hfuel
  reaches node s := by
    have run := run_eq_of_computes (h node s) (Nat.le_refl _)
    refine exists_halts (c := .start node s) _ run ?_
    cases (spec node s).1 <;> exact nofun
  supplied _ _ _ _ _ _ _ hc := hc.supplied
  single _ _ _ _ hc := hc.single

end Traversal

namespace Formula

/-- The basis has a form for every node with subformulas that is not quantified. -/
theorem exists_basisNode? {f : Formula} {children args : List Formula}
    (h : basisTraversal.enter f () = .descend f children) (hlen : args.length = children.length) :
    ∃ g, basisNode? f args = some g := by
  cases f with
  | const b => cases h
  | var x => cases h
  | lit l => cases h
  | not f =>
    cases h
    obtain ⟨g, rfl⟩ := List.length_eq_one_iff.mp hlen
    exact ⟨_, rfl⟩
  | nary j fs => exact ⟨_, rfl⟩
  | implies p c =>
    cases h
    obtain ⟨p', c', rfl⟩ := List.length_eq_two.mp hlen
    exact ⟨_, rfl⟩
  | iff l r =>
    cases h
    obtain ⟨l', r', rfl⟩ := List.length_eq_two.mp hlen
    exact ⟨_, rfl⟩
  | card c fs => exact ⟨_, rfl⟩
  | quant q xs f => cases h

/-- Entering a formula that has subformulas leads to leaving the same formula. -/
theorem eq_of_enter_descend {f g : Formula} {children : List Formula}
    (h : basisTraversal.enter f () = .descend g children) : f = g := by
  cases f <;> cases h <;> rfl

/-- Where the basis of a formula is put together from the results for its subformulas, there is a form for it. -/
theorem exists_basisNode?_of_reaches {f g : Formula} {arity : Nat} {tasks : List (Traversal.Task Formula Formula)}
    {results : List Formula} (h : basisTraversal.Reaches f () ⟨.leave g arity :: tasks, results, ()⟩) :
    ∃ args rest g', Traversal.pop arity [] results = some (args, rest) ∧ basisNode? g args = some g' := by
  obtain ⟨enough, n, ⟨⟩, children, henter, rfl⟩ := h.supplied
  obtain rfl := eq_of_enter_descend henter
  obtain ⟨args, rest, hpop⟩ := Traversal.exists_pop [] enough
  obtain ⟨g', hg⟩ := exists_basisNode? henter (Traversal.length_of_pop hpop).1
  exact ⟨args, rest, g', hpop, hg⟩

end Formula

/-- Writing in the basis, pushing negations, simplifying, expanding and encoding. Each of the traversals follows a
    recursion over the tree, encoding with the encoder threaded from left to right, and the functions that run them
    compute the recursions. The basis has a form for every node that is left. -/
theorem traversals_follow_recursions :
    (Formula.basisTraversal.Follows Formula.size (fun f s => (f.toBasisRec, s)) ∧
      (∀ f g arity tasks results,
        Formula.basisTraversal.Reaches f () ⟨.leave g arity :: tasks, results, ()⟩ →
          ∃ args rest g', Traversal.pop arity [] results = some (args, rest) ∧ g.basisNode? args = some g') ∧
      ∀ f : Formula, f.toBasis = f.toBasisRec) ∧
    (Nnf.pushTraversal.Follows (fun node => node.1.size) (fun node s => (Nnf.ofBasisRec node.2 node.1, s)) ∧
      ∀ f, Nnf.ofBasis f = Nnf.ofBasisRec false f) ∧
    (Nnf.simplifyTraversal.Follows Nnf.size (fun n s => (.ok n.simplifyRec, s)) ∧
      ∀ n : Nnf, n.simplify = n.simplifyRec) ∧
    (∀ e : Expander, e.traversal.Follows Nnf.size e.expandRec ∧
      ∀ n, e.clauses n = ((e.expandRec n 0).1, { e with literals := (e.expandRec n 0).2 })) ∧
    ∀ (σ : Type) [NameSource σ],
      (Encoder.traversal : Traversal (Encoder σ) Failure Nnf (Junction × Nnf) Literal).Follows Nnf.size
        Encoder.encodeRec ∧
      ∀ (e : Encoder σ) (n : Nnf), e.encode n = Encoder.encodeRec n e := by
  refine ⟨⟨?basis, ?forms, Formula.toBasis_eq⟩, ⟨?push, Nnf.ofBasis_eq⟩, ⟨?simplify, Nnf.simplify_eq⟩,
    fun e => ⟨?expand, e.clauses_eq⟩, fun σ _ => ⟨?encode, Encoder.encode_eq⟩⟩
  case basis => exact Traversal.follows_of_computes fun f _ => f.toBasis_computes
  case forms => exact fun _ _ _ _ _ h => Formula.exists_basisNode?_of_reaches h
  case push => exact Traversal.follows_of_computes fun node _ => Nnf.push_computes node.2 node.1
  case simplify => exact Traversal.follows_of_computes fun n _ => n.simplify_computes
  case expand => exact Traversal.follows_of_computes e.expand_computes
  case encode => exact Traversal.follows_of_computes Encoder.encode_computes

end NormalForms
