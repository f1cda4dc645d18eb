import Mathlib.Data.List.Forall2
import NormalForms.Formula.Eval
import NormalForms.Nnf.Basic
import NormalForms.Proofs.Junction

/-!
Evaluation without failure. If the arguments of a connective have truth values, the connective has the
value that its meaning gives to them. Normal forms, read as formulas, always have a value. -/

namespace NormalForms.Formula

/-- Under `v` the formulas have the truth values `bs`, one after the other. -/
abbrev Values (v : Assignment) : List Formula → List Bool → Prop :=
  List.Forall₂ fun f b => f.eval v = .ok b

variable {v : Assignment} {f g : Formula} {fs : List Formula} {b : Bool} {bs : List Bool}

theorem eval_not (h : f.eval v = .ok b) : (not f).eval v = .ok !b := by
  rw [eval, h]
  rfl

theorem eval_implies {c : Bool} (hf : f.eval v = .ok b) (hg : g.eval v = .ok c) :
    (implies f g).eval v = .ok (!b || c) := by
  rw [eval, hf, hg]
  cases b <;> rfl

theorem eval_iff {c : Bool} (hf : f.eval v = .ok b) (hg : g.eval v = .ok c) :
    (iff f g).eval v = .ok (b == c) := by
  rw [eval, hf, hg]
  rfl

theorem eval_nary (j : Junction) (h : Values v fs bs) : (nary j fs).eval v = .ok (j.across bs id) := by
  rw [eval]
  induction h with
  | nil => rw [evalJunction, Junction.across_nil]
  | @cons f b fs bs hf h ih =>
    rw [evalJunction, hf, Junction.across_cons, id]
    by_cases hb : b = j.unit
    · rw [if_pos hb, ← ih]
      exact if_pos hb
    · rw [if_neg hb]
      exact if_neg hb

theorem countTrue_eq (h : Values v fs bs) : countTrue v fs = .ok (bs.count true) := by
  induction h with
  | nil => rfl
  | @cons f b fs bs hf h ih =>
    rw [countTrue, hf, ih]
    cases b <;> simp [bind, Except.bind, pure, Except.pure]

theorem eval_card (c : Cardinality) (h : Values v fs bs) : (card c fs).eval v = .ok (c.holds (bs.count true)) := by
  rw [eval, countTrue_eq h]
  rfl

/-- Formulas and truth values made from related things are the values of each other. -/
theorem values_map₂ {α β : Type} {R : α → β → Prop} {as : List α} {cs : List β} {p : α → Formula} {q : β → Bool}
    (h : List.Forall₂ R as cs) (hpq : ∀ a c, R a c → (p a).eval v = .ok (q c)) :
    Values v (as.map p) (cs.map q) := by
  rw [Values, List.forall₂_map_left_iff, List.forall₂_map_right_iff]
  exact h.imp hpq

theorem values_map {α : Type} {as : List α} {p : α → Formula} {q : α → Bool}
    (h : ∀ a ∈ as, (p a).eval v = .ok (q a)) : Values v (as.map p) (as.map q) := by
  rw [Values, List.forall₂_map_left_iff, List.forall₂_map_right_iff]
  exact List.forall₂_same.mpr h

end NormalForms.Formula

namespace NormalForms.Nnf

theorem eval_toFormula (v : Assignment) (n : Nnf) : n.toFormula.eval v = .ok (n.eval v) := by
  induction n with
  | const b => rfl
  | lit l => rfl
  | nary j args ih =>
    rw [toFormula, toFormulaList_eq, Formula.eval_nary j (Formula.values_map ih), eval, evalList_eq, Junction.across_map]
    rfl

end NormalForms.Nnf
