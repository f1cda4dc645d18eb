import NormalForms.Proofs.Clause.Legible
import NormalForms.Proofs.Transform.Strict

/-!
Clauses read from a formula that is returned at once. They are proper, the missing connectives around the formula make
no difference to them, and the formula has a negation normal form with their truth value. Main statement: a formula
that can be read, and in whose clauses no literal stands twice or beside its complement, is returned at once with the
same clauses in the same order. -/

namespace NormalForms

variable {form : Junction} {f : Formula} {S : ClauseSet}

theorem Formula.ofFormula?_fastForm (form : Junction) (f : Formula) :
    ClauseSet.ofFormula? form (f.fastForm form) = ClauseSet.ofFormula? form f := by
  unfold fastForm
  split
  · rfl
  · exact ClauseSet.ofFormula?_reshape form f

/-- On the fast path the clauses are read from the formula, which is its own negation normal form, if not a
    simplified one. -/
theorem Formula.nnf_of_takesFastPath (h : f.takesFastPath form = true) :
    ∃ S n, ClauseSet.ofFormula? form f = some S ∧ (∀ c ∈ S, c.isTautology = false) ∧ f.nnf = .ok n ∧
      ∀ p, n.value p = form.across S.clauses fun c => form.dual.across c.literals p := by
  obtain ⟨S, hS, proper⟩ := ClauseSet.exists_ofFormula?_of_strict (strict_of_takesFastPath h)
  rw [ofFormula?_fastForm] at hS
  obtain ⟨n, hn, hvalue⟩ := ClauseSet.nnf_of_ofFormula? hS
  refine ⟨S, n.simplify, hS, proper, nnf_of_ofFormula? hn, fun p => ?_⟩
  rw [Nnf.value_simplify, hvalue]

/-- The fast path is taken by the formulas that can be read and are written without equal or complementary literals
    in a clause. -/
theorem Formula.takesFastPath_iff : f.takesFastPath form = true ↔
    f.isLegible form = true ∧ ∀ ls ∈ f.writtenClauses form, ls.Nodup ∧ ∀ l ∈ ls, l.complement ∉ ls := by
  rw [takesFastPath, normalForm_classifyClausal, Bool.and_eq_true]
  exact and_congr_right hasProperClauses_iff_writtenClauses

/-- Whether `r` is `f`, with connectives around it if some are missing, and has the clauses `S`. -/
structure Formula.Completed (form : Junction) (f r : Formula) (S : ClauseSet) : Prop where
  unchanged : (f.classify (.clausal form)).clausal = true → r = f
  clausal : (r.classify (.clausal form)).clausal = true
  clauses : ClauseSet.ofFormula? form r = some S

theorem Formula.completed_fastForm (h : f.takesFastPath form = true) (hS : ClauseSet.ofFormula? form f = some S) :
    f.Completed form (f.fastForm form) S where
  unchanged hclausal := if_pos hclausal
  clausal := congrArg Classification.clausal (strict_iff.mp (strict_of_takesFastPath h)).1
  clauses := (ofFormula?_fastForm form f).trans hS

/-- If clauses can be read from a formula, and no written clause repeats a literal or contains complementary ones, then
    the formula is its own conjunctive normal form, completed by the missing connectives if there are any, with the
    same clauses. It is so with all options, also when the run has been called off, and with all sources of names, none
    of which is asked for a name. Disjunctive normal forms likewise. -/
theorem properly_written_clauses_are_kept (f : Formula) (S : ClauseSet) :
    (ClauseSet.ofFormula? .conj f = some S →
        (∀ ls ∈ f.writtenClauses .conj, ls.Nodup ∧ ∀ l ∈ ls, l.complement ∉ ls) →
        ∃ r, f.Completed .conj r S ∧
          ∀ (σ : Type) [NameSource σ] (source : σ) (o : Options), toCnf o f source =
            { result := .ok r, state := source
              events := [.begun .conj, .fastPath !(f.classify (.clausal .conj)).clausal] }) ∧
      (ClauseSet.ofFormula? .disj f = some S →
        (∀ ls ∈ f.writtenClauses .disj, ls.Nodup ∧ ∀ l ∈ ls, l.complement ∉ ls) →
        ∃ r, f.Completed .disj r S ∧ ∀ o : Options, f.dnf o =
          { result := .ok r, state := (), events := [.begun .disj, .fastPath !(f.classify (.clausal .disj)).clausal] }) := by
  have fast {form : Junction} (hS : ClauseSet.ofFormula? form f = some S)
      (proper : ∀ ls ∈ f.writtenClauses form, ls.Nodup ∧ ∀ l ∈ ls, l.complement ∉ ls) : f.takesFastPath form = true := by
    refine Formula.takesFastPath_iff.mpr ⟨?_, proper⟩
    rw [← ClauseSet.isSome_ofFormula?, hS]
    rfl
  constructor
  · intro hS proper
    refine ⟨f.fastForm .conj, Formula.completed_fastForm (fast hS proper) hS, fun σ _ source o => ?_⟩
    rw [toCnf, transform_eq_of_takesFastPath (fast hS proper)]
    rfl
  · intro hS proper
    exact ⟨f.fastForm .disj, Formula.completed_fastForm (fast hS proper) hS,
      fun o => transform_eq_of_takesFastPath (fast hS proper)⟩

/-- A disjunction is one clause of the conjunctive normal form, and of the disjunctive one as many clauses as it has
    arguments. Neither the limit nor the cancelled token matters. -/
theorem properly_written_clauses_are_kept_of_disjunction :
    let a : Formula := .var ⟨"a"⟩
    let b : Formula := .lit (.neg ⟨"b"⟩)
    let f : Formula := .any [a, b]
    let C := ClauseSet.ofList [.ofList [.pos ⟨"a"⟩, .neg ⟨"b"⟩]]
    let D := ClauseSet.ofList [.ofList [.pos ⟨"a"⟩], .ofList [.neg ⟨"b"⟩]]
    let o : Options := { limit := some 0, token := some ⟨true⟩ }
    ClauseSet.ofFormula? .conj f = some C ∧ f.Completed .conj (.all [f]) C ∧
      (toCnf o f Numbering.empty).result = .ok (.all [f]) ∧
      ClauseSet.ofFormula? .disj f = some D ∧ f.Completed .disj (.any [.all [a], .all [b]]) D ∧
      (f.dnf o).result = .ok (.any [.all [a], .all [b]]) := by
  intro a b f C D o
  obtain ⟨r, completed, run⟩ := (properly_written_clauses_are_kept f C).1 rfl (by decide)
  obtain ⟨s, completed', run'⟩ := (properly_written_clauses_are_kept f D).2 rfl (by decide)
  have cnf : (toCnf o f Numbering.empty).result = .ok (.all [f]) := by decide
  have dnf : (f.dnf o).result = .ok (.any [.all [a], .all [b]]) := by decide
  have hr : r = .all [f] := by
    rw [run] at cnf
    exact Except.ok.inj cnf
  have hs : s = .any [.all [a], .all [b]] := by
    rw [run'] at dnf
    exact Except.ok.inj dnf
  exact ⟨rfl, hr ▸ completed, cnf, rfl, hs ▸ completed', dnf⟩

end NormalForms
