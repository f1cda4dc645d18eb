import NormalForms.Proofs.Expansion.Coverage
import NormalForms.Proofs.Transform.Dnf
import NormalForms.Proofs.Transform.Reading

/-!
The ways to a clausal normal form, compared without a limit. A formula is returned at once, or the parts of its
negation normal form are expanded one by one; both ways the clauses cover what the values of the negation normal form
demand. Main statement: without the subsumed ones they are the clauses of the whole negation normal form, expanded
by the distributive laws. -/

namespace NormalForms

variable {form : Junction} {o : Options} {f : Formula} {n : Nnf}

/-- Expanding the parts one by one covers what expanding the whole covers. -/
theorem ClauseSet.covers_extendWithin {c : Clause} (hc : c.isTautology = false) :
    (empty.extendWithin form none (n.parts form)).Covers c ↔ n.value (c.valuation form) ≠ form.unit := by
  rw [← Nnf.value_parts form, Ne, Junction.across_eq_unit_iff, Covers]
  simp only [mem_extendWithin, not_mem_empty, false_or, Classical.not_forall, exists_prop]
  constructor
  · rintro ⟨d, ⟨m, hm, -, hd⟩, hdc⟩
    exact ⟨m, hm, (Nnf.covers_expansion hc).mp ⟨d, hd, hdc⟩⟩
  · rintro ⟨m, hm, hv⟩
    obtain ⟨d, hd, hdc⟩ := (Nnf.covers_expansion hc).mpr hv
    exact ⟨d, ⟨m, hm, rfl, hd⟩, hdc⟩

section
variable {τ : Type}

/-- Without a limit no part falls back. -/
theorem transform_of_limit_none (fallback : Fallback τ) (s : τ) (ho : o.token = none) (hlimit : o.limit = none)
    (hfast : f.takesFastPath form = false) (hn : f.nnf = .ok n) : (transform form o fallback f s).result =
      .ok ((ClauseSet.empty.extendWithin form none (n.parts form)).toFormula form) := by
  have nothing : overflowing form o.limit (n.parts form) = [] :=
    overflowing_eq_nil_iff.mpr fun L hL => by rw [hlimit] at hL; cases hL
  rw [(transform_of_not_takesFastPath fallback s ho hfast hn).1, nothing, hlimit]
  rfl

/-- A transformation without a limit has a result, whose clauses cover what the values of the negation normal form
    demand. -/
theorem exists_covering_clauses (form : Junction) (fallback : Fallback τ) (s : τ) (ho : o.token = none)
    (hlimit : o.limit = none) (hn : f.nnf = .ok n) :
    ∃ r S, (transform form o fallback f s).result = .ok r ∧ ClauseSet.ofFormula? form r = some S ∧
      (∀ c ∈ S, c.isTautology = false) ∧
      ∀ c, c.isTautology = false → (S.Covers c ↔ n.value (c.valuation form) ≠ form.unit) := by
  cases hfast : f.takesFastPath form with
  | true =>
    obtain ⟨S, m, hS, proper, hm, hvalue⟩ := Formula.nnf_of_takesFastPath hfast
    rw [hn] at hm
    cases hm
    refine ⟨f.fastForm form, S, (transform_of_takesFastPath hfast).1, ?_, proper, fun c _ => ?_⟩
    · rw [Formula.ofFormula?_fastForm, hS]
    · rw [ClauseSet.covers_iff, hvalue]
  | false =>
    let parts := ClauseSet.empty.extendWithin form none (n.parts form)
    refine ⟨parts.toFormula form, .ofList parts.clauses, transform_of_limit_none fallback s ho hlimit hfast hn,
      ClauseSet.ofFormula?_toFormula form parts, fun c hc => ?_, fun c hc => ?_⟩
    · rcases ClauseSet.mem_extendWithin.mp (ClauseSet.mem_ofList.mp hc) with hc | ⟨m, -, -, hc⟩
      · exact absurd hc ClauseSet.not_mem_empty
      · exact Nnf.not_isTautology_of_mem_expansion hc
    · rw [← ClauseSet.covers_extendWithin hc]
      exact ClauseSet.covers_congr fun d => ClauseSet.mem_ofList

end

/-- Whether the clauses read from a clausal normal form are, without the subsumed ones, those of a negation normal
    form that is expanded as a whole. -/
def Nnf.DistributesTo (form : Junction) (n : Nnf) (r : Formula) : Prop :=
  ∃ S E, ClauseSet.ofFormula? form r = some S ∧ (Expander.clauses { form } n).1 = .ok E ∧
    S.removeSubsumed.sameClauses E = true

/-- Without a limit there are a conjunctive and a disjunctive normal form, whether the formula is returned at once or
    not, and the clauses of each are, up to subsumed ones, those of the negation normal form expanded as a whole. -/
theorem Formula.clausal_forms_agree_with_distribution (ho : o.token = none) (hlimit : o.limit = none)
    (hn : f.nnf = .ok n) :
    (∀ (σ : Type) [NameSource σ] (source : σ), ∃ r, (toCnf o f source).result = .ok r ∧ n.DistributesTo .conj r) ∧
      ∃ r, (f.dnf o).result = .ok r ∧ n.DistributesTo .disj r := by
  have distributes {τ : Type} (form : Junction) (fallback : Fallback τ) (s : τ) :
      ∃ r, (transform form o fallback f s).result = .ok r ∧ n.DistributesTo form r := by
    obtain ⟨r, S, hr, hS, proper, hcovers⟩ := exists_covering_clauses form fallback s ho hlimit hn
    exact ⟨r, hr, S, n.expansion form, hS, Expander.clauses_fst rfl n, Nnf.sameClauses_expansion proper hcovers⟩
  exact ⟨fun σ _ source => distributes .conj .encode { source, stem := o.stem }, distributes .disj (.refuse _) ()⟩

/-- A formula that is returned at once as a conjunctive normal form, with a clause that another one subsumes, and has
    to be expanded for the disjunctive one. -/
theorem Formula.clausal_forms_agree_with_distribution_of_subsumed :
    let f := all [any [var ⟨"a"⟩, var ⟨"b"⟩], var ⟨"a"⟩]
    let n := Nnf.nary .conj [.nary .disj [.lit (.pos ⟨"a"⟩), .lit (.pos ⟨"b"⟩)], .lit (.pos ⟨"a"⟩)]
    f.nnf = .ok n ∧ f.takesFastPath .conj = true ∧ f.takesFastPath .disj = false ∧
      (∃ r, (f.cnf {}).result = .ok r ∧ n.DistributesTo .conj r) ∧
      ∃ r, (f.dnf {}).result = .ok r ∧ n.DistributesTo .disj r := by
  intro f n
  have hn : f.nnf = .ok n := rfl
  obtain ⟨cnf, dnf⟩ := clausal_forms_agree_with_distribution (o := {}) rfl rfl hn
  exact ⟨hn, by decide, by decide, cnf Numbering _, dnf⟩

end NormalForms
