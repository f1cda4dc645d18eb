import NormalForms.Proofs.Clause.Reading
import NormalForms.Proofs.Expansion.Rename
import NormalForms.Proofs.Transform.Dnf
import NormalForms.Proofs.Transform.Fallback

/-!
Negations of formulas, transformed. The negation normal form of a negation is the dual, its parts are the duals of the
parts, and each part counts as many literals for one form as its dual for the other. Main statement: the disjunctive
normal form of a negation is refused exactly if a part of the formula is encoded for the conjunctive normal form, and
has otherwise the same clauses with complementary literals. -/

namespace NormalForms

section
variable {φ : Renaming} {S T : ClauseSet}

theorem Expander.overflows_translate (negated : Bool) (φ : Renaming) (form : Junction) (limit : Option Nat) (n : Nnf) :
    overflows (form.under negated) limit (n.translate negated φ) = overflows form limit n := by
  rw [overflows, overflows, (Nnf.expansion_translate negated φ form n).2]

theorem overflowing_translate (negated : Bool) (φ : Renaming) (form : Junction) (limit : Option Nat) (ns : List Nnf) :
    overflowing (form.under negated) limit (ns.map (Nnf.translate negated φ)) =
      (overflowing form limit ns).map (Nnf.translate negated φ) := by
  rw [overflowing, overflowing, List.filter_map]
  exact congrArg (List.map _) (List.filter_congr fun n _ => Expander.overflows_translate negated φ form limit n)

theorem ClauseSet.Renames.extendWithin (h : S.Renames φ T) (negated : Bool) (form : Junction) (limit : Option Nat)
    (ns : List Nnf) : (S.extendWithin form limit ns).Renames φ
      (T.extendWithin (form.under negated) limit (ns.map (Nnf.translate negated φ))) := by
  induction ns generalizing S T with
  | nil => exact h
  | cons n ns ih =>
    have same := Expander.overflows_translate negated φ form limit n
    rw [List.map_cons]
    cases hn : Expander.overflows form limit n with
    | true =>
      rw [S.extendWithin_cons_of_overflows hn, T.extendWithin_cons_of_overflows (same.trans hn)]
      exact ih h
    | false =>
      rw [S.extendWithin_cons_of_within hn, T.extendWithin_cons_of_within (same.trans hn)]
      refine ih ?_
      rw [(Nnf.expansion_translate negated φ form n).1]
      exact h.extend _

end

section
variable {f : Formula} {n : Nnf} {o : Options} {L : Nat}

/-- A negation is no literal and no junction. -/
theorem Formula.takesFastPath_not (form : Junction) (f : Formula) : (not f).takesFastPath form = false := by
  cases form <;> rfl

/-- Negated, a formula has its parts for the other form, each of them as the dual. -/
theorem Nnf.parts_dual (n : Nnf) : n.dual.parts .disj = (n.parts .conj).map dual := n.parts_translate true .flip .conj

theorem Formula.dnf_not (ho : o.token = none) (hn : f.nnf = .ok n) :
    ((not f).dnf o).result = if o.asserted n = []
      then .ok ((ClauseSet.empty.extendWithin .disj o.limit ((n.parts .conj).map Nnf.dual)).toFormula .disj)
      else .error (.limitExceeded (o.limit.getD 0)) := by
  have hnot : (not f).nnf = .ok n.dual := by
    rw [nnf_not, hn]
    rfl
  have refused : overflowing .disj o.limit ((n.parts .conj).map Nnf.dual) = (o.asserted n).map Nnf.dual :=
    overflowing_translate true .flip .conj o.limit (n.parts .conj)
  rw [dnf_of_not_takesFastPath ho (takesFastPath_not .disj f) hnot, n.parts_dual, refused]
  simp only [List.map_eq_nil_iff]

theorem exists_fallback_iff {σ : Type} [NameSource σ] (source : σ) (ho : o.token = none) (hn : f.nnf = .ok n)
    (hfast : f.takesFastPath .conj = false) :
    (∃ i, Event.fallback i L ∈ (toCnf o f source).events) ↔ o.limit = some L ∧ o.asserted n ≠ [] := by
  simp only [fallback_mem_toCnf ho hn hfast, Expander.literals_clauses, exists_and_left]
  refine and_congr_right fun hL => ?_
  rw [Ne, overflowing_eq_nil_iff]
  simp only [hL, Option.some.injEq, forall_eq', Classical.not_forall, Nat.not_le, exists_prop, List.mem_iff_getElem?]
  constructor
  · rintro ⟨i, p, hp, hlt⟩
    exact ⟨p, ⟨i, hp⟩, hlt⟩
  · rintro ⟨p, ⟨i, hp⟩, hlt⟩
    exact ⟨i, p, hp, hlt⟩

/-- The disjunctive normal form of the negation of a formula that is not returned at once as a conjunctive one: it is
    refused at a limit exactly if a part of the formula falls back at this limit. If none does, both normal forms exist,
    and the clauses of one are, in their order, those of the other with every literal complemented. -/
theorem dnf_of_negation_mirrors_cnf (ho : o.token = none) (hn : f.nnf = .ok n) (hfast : f.takesFastPath .conj = false) :
    ∀ (σ : Type) [NameSource σ] (source : σ),
      (∀ L, (f.not.dnf o).result = .error (.limitExceeded L) ↔ ∃ i, .fallback i L ∈ (toCnf o f source).events) ∧
      ((∀ i L, .fallback i L ∉ (toCnf o f source).events) →
        ∃ r r' S S', (toCnf o f source).result = .ok r ∧ (f.not.dnf o).result = .ok r' ∧
          ClauseSet.ofFormula? .conj r = some S ∧ ClauseSet.ofFormula? .disj r' = some S' ∧
          S'.clauses = S.clauses.map fun c => .ofList (c.literals.map Literal.complement)) := by
  intro σ _ source
  refine ⟨fun L => ?_, fun unreported => ?_⟩
  · rw [exists_fallback_iff source ho hn hfast, Formula.dnf_not ho hn]
    split
    · rename_i nothing
      simp [nothing]
    · rename_i exceeded
      obtain ⟨L', hL'⟩ := exists_limit_of_overflowing exceeded
      simp [hL', exceeded]
  · have nothing : o.asserted n = [] := by
      apply Classical.byContradiction
      intro exceeded
      obtain ⟨L, hL⟩ := exists_limit_of_overflowing exceeded
      obtain ⟨i, hi⟩ := (exists_fallback_iff source ho hn hfast).mpr ⟨hL, exceeded⟩
      exact unreported i L hi
    have expanded : (ClauseSet.empty.extendWithin .conj o.limit (n.parts .conj)).Renames .flip
        (ClauseSet.empty.extendWithin .disj o.limit ((n.parts .conj).map Nnf.dual)) :=
      (ClauseSet.renames_empty .flip).extendWithin true .conj o.limit (n.parts .conj)
    have result := (toCnf_of_not_takesFastPath (m := source) ho hfast hn).1
    rw [Options.clauses, nothing] at result
    refine ⟨_, _, _, _, result, ?_, ClauseSet.ofFormula?_toFormula .conj _, ClauseSet.ofFormula?_toFormula .disj _,
      expanded.ofList⟩
    rw [Formula.dnf_not ho hn, if_pos nothing]

/-- A formula with two parts that count four literals each. At the limit 4 its conjunctive normal form and the
    disjunctive one of the negation mirror each other; at the limit 3 a part falls back, and the other is refused. -/
theorem dnf_of_negation_mirrors_cnf_of_equivalences :
    let x (name : String) : Formula := .var ⟨name⟩
    let pos (name : String) : Nnf := .lit (.pos ⟨name⟩)
    let neg (name : String) : Nnf := .lit (.neg ⟨name⟩)
    let f : Formula := .all [.any [.all [x "a", x "b"], x "c"], .implies (x "c") (.all [x "b", .not (x "a")])]
    let n := Nnf.nary .conj [.nary .disj [.nary .conj [pos "a", pos "b"], pos "c"],
      .nary .disj [neg "c", .nary .conj [pos "b", neg "a"]]]
    f.nnf = .ok n ∧ f.takesFastPath .conj = false ∧
      (f.not.dnf { limit := some 3 }).result = .error (.limitExceeded 3) ∧
      ∃ r r' S S', (f.cnf { limit := some 4 }).result = .ok r ∧ (f.not.dnf { limit := some 4 }).result = .ok r' ∧
        ClauseSet.ofFormula? .conj r = some S ∧ ClauseSet.ofFormula? .disj r' = some S' ∧
        S'.clauses = S.clauses.map fun c => .ofList (c.literals.map Literal.complement) := by
  intro x pos neg f n
  have hn : f.nnf = .ok n := rfl
  have hfast : f.takesFastPath .conj = false := by decide
  have three := dnf_of_negation_mirrors_cnf (o := { limit := some 3 }) rfl hn hfast Numbering (.ofVars f.variables)
  have four := dnf_of_negation_mirrors_cnf (o := { limit := some 4 }) rfl hn hfast Numbering (.ofVars f.variables)
  have events : (toCnf { limit := some 4 } f (Numbering.ofVars f.variables)).events =
      [.begun .conj, .simplified n, .merged 4 8 0] := by decide
  refine ⟨hn, hfast, (three.1 3).mpr ⟨0, by decide⟩, four.2 fun i L hi => ?_⟩
  rw [events] at hi
  simp at hi

end
end NormalForms
