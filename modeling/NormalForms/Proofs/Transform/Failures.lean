import NormalForms.Proofs.Formula.Nodes
import NormalForms.Proofs.Transform.Cnf
import NormalForms.Proofs.Transform.Dnf
import NormalForms.Proofs.Transform.Reading

/-!
Failures of the transformations, for runs without a token. A formula that has no negation normal form has no clausal
normal form either, for the same reason, and no name is drawn for it; the fast path is not taken by such a formula.
Main statement: the reason is the first violation among the nodes, and without one the first quantified node;
without either, only a limit can stop a transformation, and only that to disjunctive normal form. -/

namespace NormalForms

variable {f : Formula} {n : Nnf} {o : Options} {failure : Failure}

theorem transform_of_nnf_eq_error {τ : Type} (form : Junction) (fallback : Fallback τ) (s : τ) (ho : o.token = none)
    (h : f.nnf = .error failure) :
    (transform form o fallback f s).result = .error failure ∧ (transform form o fallback f s).state = s := by
  have slow : f.takesFastPath form = false := by
    cases hfast : f.takesFastPath form with
    | false => rfl
    | true =>
      obtain ⟨S, n, -, -, hn, -⟩ := Formula.nnf_of_takesFastPath hfast
      rw [h] at hn
      cases hn
  unfold Formula.takesFastPath at slow
  unfold transform
  simp only [slow, o.stopped_of_token ho, h]
  exact ⟨rfl, rfl⟩

theorem exists_toCnf {σ : Type} [NameSource σ] (source : σ) (ho : o.token = none) (hn : f.nnf = .ok n) :
    ∃ r, (toCnf o f source).result = .ok r := by
  cases hfast : f.takesFastPath .conj with
  | true => exact ⟨_, (toCnf_of_takesFastPath hfast).1⟩
  | false => exact ⟨_, (toCnf_of_not_takesFastPath ho hfast hn).1⟩

namespace Formula

theorem dnf_ok_or_refused (ho : o.token = none) (hn : f.nnf = .ok n) :
    (∃ r, (f.dnf o).result = .ok r) ∨ ∃ L, o.limit = some L ∧ (f.dnf o).result = .error (.limitExceeded L) := by
  cases hfast : f.takesFastPath .disj with
  | true => exact .inl ⟨_, (transform_of_takesFastPath hfast).1⟩
  | false =>
    rw [dnf_of_not_takesFastPath ho hfast hn]
    split
    · exact .inl ⟨_, rfl⟩
    · rename_i exceeded
      obtain ⟨L, hL⟩ := exists_limit_of_overflowing exceeded
      refine .inr ⟨L, hL, ?_⟩
      rw [hL]
      rfl

/-- Whether all transformations of a formula fail for the same reason, without drawing a name. -/
structure FailsWith (o : Options) (f : Formula) (failure : Failure) : Prop where
  nnf : f.nnf = .error failure
  cnf : ∀ (σ : Type) [NameSource σ] (source : σ),
    (toCnf o f source).result = .error failure ∧ (toCnf o f source).state = source
  dnf : (f.dnf o).result = .error failure

theorem failsWith_of_nnf (ho : o.token = none) (h : f.nnf = .error failure) : FailsWith o f failure where
  nnf := h
  cnf σ _ source := by
    obtain ⟨result, state⟩ := transform_of_nnf_eq_error .conj .encode (o.encoder source) ho h
    exact ⟨result, congrArg Encoder.source state⟩
  dnf := (transform_of_nnf_eq_error .disj _ _ ho h).1

/-- All transformations fail at a formula that is not well-formed, with the first violation among its nodes; and at
    a well-formed one with a quantifier, with the first quantified node. Other formulas have a negation and a
    conjunctive normal form, and a disjunctive one unless the limit refuses it. So the conjunctive normal form
    fails only where the negation normal form does, for the same reason, and then no name is drawn. -/
theorem failures_exact (f : Formula) (ho : o.token = none) :
    (∀ d, f.validate = .error d → f.nodes.findSome? violation? = some d ∧ FailsWith o f (.malformed d)) ∧
      (f.validate = .ok () → ∀ q, f.nodes.find? isQuantified = some q → FailsWith o f (.unsupported q)) ∧
      (f.validate = .ok () → f.nodes.find? isQuantified = none →
        (∃ n, f.nnf = .ok n) ∧ (∀ (σ : Type) [NameSource σ] (source : σ), ∃ r, (toCnf o f source).result = .ok r) ∧
          ((∃ r, (f.dnf o).result = .ok r) ∨
            ∃ L, o.limit = some L ∧ (f.dnf o).result = .error (.limitExceeded L))) ∧
      ∀ (σ : Type) [NameSource σ] (source : σ) (failure : Failure), (toCnf o f source).result = .error failure →
        f.nnf = .error failure ∧ (toCnf o f source).state = source := by
  refine ⟨fun d hd => ?_, fun hok q hq => ?_, fun hok hq => ?_, fun σ _ source failure h => ?_⟩
  · have first := validate_eq_error_iff.mp hd
    exact ⟨first, failsWith_of_nnf ho (nnf_of_violation first)⟩
  · have stops := nnf_of_no_violation (validate_eq_ok_iff.mp hok)
    rw [hq] at stops
    exact failsWith_of_nnf ho stops
  · have stops := nnf_of_no_violation (validate_eq_ok_iff.mp hok)
    rw [hq] at stops
    obtain ⟨n, hn⟩ := stops
    exact ⟨⟨n, hn⟩, fun σ _ source => exists_toCnf source ho hn, dnf_ok_or_refused ho hn⟩
  · cases hnnf : f.nnf with
    | ok n =>
      obtain ⟨r, hr⟩ := exists_toCnf source ho hnnf
      rw [hr] at h
      cases h
    | error failure' =>
      obtain ⟨result, state⟩ := (failsWith_of_nnf ho hnnf).cnf σ source
      rw [result] at h
      cases h
      exact ⟨rfl, state⟩

/-- An empty range behind a quantifier is what is reported, and without it the quantifier, which is inside a
    cardinality constraint. -/
theorem failures_exact_of_quantifier :
    let q := quant .universal [⟨"x"⟩] (var ⟨"a"⟩)
    let f := any [card (.atLeast 1) [var ⟨"a"⟩, q], card (.between 2 1) [var ⟨"b"⟩]]
    let g := any [card (.atLeast 1) [var ⟨"a"⟩, q], card (.between 1 2) [var ⟨"b"⟩]]
    FailsWith { limit := some 0 } f (.malformed (.badBounds 2 1)) ∧ FailsWith { limit := some 0 } g (.unsupported q) := by
  intro q f g
  obtain ⟨malformed, -⟩ := failures_exact (o := { limit := some 0 }) f rfl
  obtain ⟨-, unsupported, -⟩ := failures_exact (o := { limit := some 0 }) g rfl
  exact ⟨(malformed (.badBounds 2 1) rfl).2, unsupported rfl q rfl⟩

end Formula
end NormalForms
