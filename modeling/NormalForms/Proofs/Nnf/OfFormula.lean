import NormalForms.Nnf.OfFormula
import NormalForms.Proofs.Formula.Basis
import NormalForms.Proofs.Nnf.Simplify

/-!
The negation normal form of a formula. Where it exists, it has the truth value of the formula under every
assignment, its variables are variables of the formula, and no constant lies below its root. -/

namespace NormalForms

theorem Junction.across_under {α : Type u} (j : Junction) (negated : Bool) (xs : List α) (p : α → Bool) :
    (j.under negated).across xs p = (j.across xs (fun x => p x != negated) != negated) := by
  cases negated with
  | false => simp [Junction.under]
  | true => simpa [Junction.under] using across_dual_not j xs fun x => !p x

namespace Nnf

open Traversal (Computes ComputesAll)

/-! ### The traversal -/

theorem push_computesAll {negated : Bool} {fs : List Formula}
    (h : ∀ f ∈ fs, pushTraversal.Computes (f, negated) () (2 * f.size) (ofBasisRec negated f) ()) :
    pushTraversal.ComputesAll (fs.map fun f => (f, negated)) () (2 * Formula.sizeList fs)
      (ofBasisRecList negated fs) () := by
  induction fs with
  | nil => exact .nil
  | cons f fs ih =>
    have tail := ih fun g hg => h g (List.mem_cons_of_mem f hg)
    rw [Formula.sizeList, Nat.mul_add]
    exact .cons_bind (h f List.mem_cons_self) tail

theorem push_computes (negated : Bool) (f : Formula) :
    pushTraversal.Computes (f, negated) () (2 * f.size) (ofBasisRec negated f) () := by
  induction f generalizing negated with
  | const b => exact (Computes.done rfl).mono (by simp [Formula.size])
  | var x => exact (Computes.done rfl).mono (by simp [Formula.size])
  | lit l => exact (Computes.done rfl).mono (by simp [Formula.size])
  | not f ih => exact (Computes.forward rfl (ih !negated)).mono (by rw [Formula.size]; omega)
  | nary j args ih =>
    have children := push_computesAll fun f hf => ih f hf negated
    refine (Computes.descend_bind rfl children fun _ _ => rfl).mono ?_
    rw [Formula.size]
    omega
  | implies p c => exact (Computes.fail rfl).mono (by simp [Formula.size]; omega)
  | iff l r => exact (Computes.fail rfl).mono (by simp [Formula.size]; omega)
  | card c args => exact (Computes.fail rfl).mono (by simp [Formula.size]; omega)
  | quant q xs f => exact (Computes.fail rfl).mono (by simp [Formula.size]; omega)

theorem ofBasis_eq (f : Formula) : ofBasis f = ofBasisRec false f := by
  rw [ofBasis, Traversal.traverse_eq (push_computes false f)]
  exact Traversal.toExcept_of _ _

/-! ### Truth values and variables -/

theorem forall₂_of_ofBasisRecList {R : Formula → Nnf → Prop} {negated : Bool} {fs : List Formula} {ns : List Nnf}
    (ih : ∀ f ∈ fs, ∀ n, ofBasisRec negated f = .ok n → R f n) (h : ofBasisRecList negated fs = .ok ns) :
    List.Forall₂ R fs ns := by
  induction fs generalizing ns with
  | nil =>
    cases h
    exact .nil
  | cons f fs ihs =>
    rw [ofBasisRecList] at h
    obtain ⟨n, hn, h⟩ := Formula.bind_eq_ok h
    obtain ⟨ms, hms, h⟩ := Formula.bind_eq_ok h
    cases h
    exact .cons (ih f List.mem_cons_self n hn) (ihs (fun g hg => ih g (List.mem_cons_of_mem f hg)) hms)

/-- What relates each formula, under an even or an odd number of negations, to what it becomes, if it relates the
    arguments to what they become, relates all formulas in the basis to the result. -/
@[elab_as_elim]
theorem ofBasisRec_induction {motive : Bool → Formula → Nnf → Prop}
    (const : ∀ negated b, motive negated (.const b) (const (b != negated)))
    (var : ∀ negated x, motive negated (.var x) (.lit ⟨negated, x⟩))
    (lit : ∀ negated l, motive negated (.lit l) (lit (if negated then l.complement else l)))
    (not : ∀ negated f n, motive (!negated) f n → motive negated (.not f) n)
    (nary : ∀ negated j fs ns, List.Forall₂ (motive negated) fs ns →
      motive negated (.nary j fs) (nary (j.under negated) ns))
    {negated : Bool} {f : Formula} {n : Nnf} (h : ofBasisRec negated f = .ok n) : motive negated f n := by
  induction f generalizing negated n with
  | const b =>
    cases h
    exact const negated b
  | var x =>
    cases h
    exact var negated x
  | lit l =>
    cases h
    exact lit negated l
  | not f ih => exact not negated f n (ih h)
  | nary j args ih =>
    rw [ofBasisRec] at h
    obtain ⟨ns, hns, h⟩ := Formula.bind_eq_ok h
    cases h
    exact nary negated j args ns (forall₂_of_ofBasisRecList (fun f hf m hm => ih f hf hm) hns)
  | implies p c => cases h
  | iff l r => cases h
  | card c args => cases h
  | quant q xs f => cases h

/-- Pushing negations inwards keeps the truth value, up to the negations above. -/
theorem eval_ofBasisRec {v : Assignment} {negated : Bool} {f : Formula} {n : Nnf}
    (h : ofBasisRec negated f = .ok n) : f.eval v = .ok (n.eval v != negated) := by
  refine ofBasisRec_induction ?const ?var ?lit ?not ?nary h
  case const => exact fun negated b => by simp [Formula.eval, eval]
  case var => exact fun negated x => by simp [Formula.eval, eval, Literal.eval]
  case lit => exact fun negated l => by cases negated <;> simp [Formula.eval, eval]
  case not =>
    intro negated f n ih
    rw [Formula.eval_not ih]
    cases n.eval v <;> cases negated <;> rfl
  case nary =>
    intro negated j fs ns h
    have values : Formula.Values v fs (ns.map fun n => n.eval v != negated) := List.forall₂_map_right_iff.mpr h
    rw [Formula.eval_nary j values, eval_nary, Junction.across_under, Junction.across_map]
    -- The values of the arguments are negated twice.
    cases negated <;> simp

theorem mem_occurrences_ofBasisRec {x : Var} {negated : Bool} {f : Formula} {n : Nnf}
    (h : ofBasisRec negated f = .ok n) (hx : x ∈ n.occurrences) : x ∈ f.occurrences := by
  revert hx
  refine ofBasisRec_induction ?const ?var ?lit ?not ?nary h
  case const => exact fun _ _ => id
  case var => exact fun _ _ => id
  case lit => exact fun negated l hx => by cases negated <;> exact hx
  case not => exact fun _ _ _ ih => ih
  case nary =>
    intro negated j fs ns h hx
    rw [Formula.occurrences_nary, List.mem_flatMap]
    exact Formula.exists_mem_of_forall₂ h (mem_occurrences_nary.mp hx)

end Nnf

/-! ### The normal form of a formula -/

namespace Formula

variable {f : Formula} {n : Nnf}

/-- The normal form is the simplification of what the basis of the formula becomes. -/
theorem nnf_eq_ok (h : f.nnf = .ok n) :
    ∃ g m, f.toBasisRec = .ok g ∧ Nnf.ofBasisRec false g = .ok m ∧ n = m.simplify := by
  unfold nnf at h
  split at h
  · cases h
  · obtain ⟨g, hg, h⟩ := bind_eq_ok h
    obtain ⟨m, hm, h⟩ := bind_eq_ok h
    cases h
    rw [toBasis_eq] at hg
    rw [Nnf.ofBasis_eq] at hm
    exact ⟨g, m, hg, hm, rfl⟩

theorem eval_of_nnf (h : f.nnf = .ok n) (v : Assignment) : f.eval v = .ok (n.eval v) := by
  obtain ⟨g, m, hg, hm, rfl⟩ := nnf_eq_ok h
  obtain ⟨b, hf, hb⟩ := eval_toBasisRec (v := v) hg
  rw [hf, ← hb, Nnf.eval_ofBasisRec hm, Nnf.eval_simplify]
  simp

theorem mem_variables_of_nnf (h : f.nnf = .ok n) {x : Var} (hx : x ∈ n.occurrences) : x ∈ f.variables := by
  obtain ⟨g, m, hg, hm, rfl⟩ := nnf_eq_ok h
  have := Nnf.mem_occurrences_ofBasisRec hm (Nnf.mem_occurrences_simplify hx)
  exact mem_variables.mpr (mem_occurrences_toBasisRec hg this)

theorem innerConstants_of_nnf (h : f.nnf = .ok n) : n.innerConstants = [] := by
  obtain ⟨g, m, -, -, rfl⟩ := nnf_eq_ok h
  exact m.innerConstants_simplify

end Formula
end NormalForms
