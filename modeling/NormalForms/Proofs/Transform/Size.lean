import NormalForms.Proofs.Clause.Reading
import NormalForms.Proofs.Encoding.Size
import NormalForms.Proofs.Nnf.Simplified
import NormalForms.Proofs.Transform.Cnf

/-!
The size of conjunctive normal forms. A part that is expanded combines its arguments at its root if it is a junction,
so all its clauses are paid for by the literals that were counted for it; single literals are not counted. A part that
is encoded has four literals for each node at most. Main statement: the clauses have no more literals than the number
of parts times the limit, and four for each node of the negation normal form. -/

namespace NormalForms

open Clause (totalSize)
open Encoder (Call)

namespace Nnf

variable {form : Junction} {n m : Nnf}

theorem sizeList_parts_le (form : Junction) (n : Nnf) : sizeList (n.parts form) ≤ n.size := by
  cases hn : n.args? form with
  | none =>
    rw [parts, hn, Option.getD_none]
    exact Nat.le_refl _
  | some args =>
    obtain ⟨rfl, hparts⟩ := parts_of_args? hn
    rw [hparts, size]
    exact Nat.le_succ _

/-- In a simplified normal form no part has the connective that the parts are joined by. -/
theorem args?_of_mem_parts (hn : n.Reduced) (hm : m ∈ n.parts form) : m.args? form = none := by
  cases hargs : n.args? form with
  | none =>
    rw [parts, hargs, Option.getD_none, List.mem_singleton] at hm
    rwa [hm]
  | some args =>
    obtain ⟨rfl, hparts⟩ := parts_of_args? hargs
    rw [hparts] at hm
    cases hms : m.args? form with
    | none => rfl
    | some ms =>
      obtain ⟨rfl, -⟩ := parts_of_args? hms
      exact absurd hm (hn.irredundant.flat ms)

/-- The root of a part combines its arguments, so the clauses that are left in the end were counted there. -/
theorem literalCount_expansion_le (hm : m.args? form = none) :
    (m.expansion form).literalCount ≤ max (m.charge form) 1 := by
  cases m with
  | const b =>
    rw [expansion, ClauseSet.ofConst]
    split <;> exact Nat.zero_le _
  | lit l => exact Nat.le_max_right _ _
  | nary i args =>
    have hi : i ≠ form := by
      rintro rfl
      simp [args?] at hm
    have kept := (ClauseSet.combinations (expansionList form args)).literalCount_removeSubsumed_le
    rw [expansion, charge, if_neg hi, if_neg hi]
    omega

end Nnf

theorem ClauseSet.literalCount_extendWithin_le {form : Junction} {limit : Option Nat} {k : Nat} {ns : List Nnf}
    (S : ClauseSet)
    (h : ∀ n ∈ ns, Expander.overflows form limit n = false → (n.expansion form).literalCount ≤ k) :
    (S.extendWithin form limit ns).literalCount ≤ S.literalCount + ns.length * k := by
  induction ns generalizing S with
  | nil => exact Nat.le_add_right _ _
  | cons n ns ih =>
    have rest (S : ClauseSet) := ih S fun m hm => h m (List.mem_cons_of_mem n hm)
    rw [List.length_cons, Nat.succ_mul]
    cases hn : Expander.overflows form limit n with
    | true =>
      rw [S.extendWithin_cons_of_overflows hn]
      have := rest S
      omega
    | false =>
      rw [S.extendWithin_cons_of_within hn]
      have := rest (S.extend (n.expansion form).clauses)
      have extended := S.literalCount_extend_le (n.expansion form).clauses
      have bounded := h n List.mem_cons_self hn
      rw [literalCount_eq] at bounded
      omega

section
variable {σ : Type} [NameSource σ] {f : Formula} {n : Nnf} {o : Options} {L : Nat}

theorem literalCount_clauses_le (source : σ) (hn : f.nnf = .ok n) (hL : o.limit = some L) :
    (o.clauses source n).literalCount ≤ (n.parts .conj).length * max L 1 + 4 * n.size := by
  let within := ClauseSet.empty.extendWithin .conj o.limit (n.parts .conj)
  let encoded := ((o.encoder source).calls (o.asserted n)).flatMap Call.clauses
  have expansions : within.literalCount ≤ ClauseSet.empty.literalCount + (n.parts .conj).length * max L 1 := by
    refine ClauseSet.literalCount_extendWithin_le _ fun p hp hwithin => ?_
    have counted : p.charge .conj ≤ L := by simpa [Expander.overflows, hL] using hwithin
    have clauses := Nnf.literalCount_expansion_le (Nnf.args?_of_mem_parts (Formula.simplified_of_nnf hn).reduced hp)
    omega
  have encodings : totalSize encoded ≤ 4 * n.size := by
    have asserted : totalSize encoded ≤ 4 * Nnf.sizeList (o.asserted n) :=
      Encoder.totalSize_calls_le (succeeded_of_asserted hn)
    have among : Nnf.sizeList (o.asserted n) ≤ Nnf.sizeList (n.parts .conj) :=
      Nnf.sizeList_le_of_sublist List.filter_sublist
    have parts := n.sizeList_parts_le .conj
    omega
  calc
    (o.clauses source n).literalCount
      ≤ within.literalCount + totalSize encoded := within.literalCount_extend_le encoded
    _ ≤ (n.parts .conj).length * max L 1 + 4 * n.size := by
      have nothing : ClauseSet.empty.literalCount = 0 := rfl
      omega

end

/-- The conjunctive normal form of a formula that is not returned at once, with a limit: there are no more literals in
    its clauses than the limit, or one if the limit is zero, for each part of the negation normal form, and four for
    each node of it. -/
theorem cnf_size_bounded {f : Formula} {n : Nnf} {o : Options} {L : Nat} (ho : o.token = none) (hn : f.nnf = .ok n)
    (hfast : f.takesFastPath .conj = false) (hL : o.limit = some L) :
    ∀ (σ : Type) [NameSource σ] (source : σ), ∃ r S, (toCnf o f source).result = .ok r ∧
      ClauseSet.ofFormula? .conj r = some S ∧ r.occurrences.length = S.literalCount ∧
      S.literalCount ≤ (n.parts .conj).length * max L 1 + 4 * n.size := by
  intro σ _ source
  have same : (ClauseSet.ofList (o.clauses source n).clauses).literalCount = (o.clauses source n).literalCount := by
    rw [ClauseSet.literalCount_eq, ClauseSet.clauses_ofList_clauses, ClauseSet.literalCount_eq]
  refine ⟨_, _, (toCnf_of_not_takesFastPath ho hfast hn).1, ClauseSet.ofFormula?_toFormula .conj _, ?_, ?_⟩
  · rw [ClauseSet.length_occurrences_toFormula, same]
  · rw [same]
    exact literalCount_clauses_le source hn hL

/-- Two parts, of which the second falls back at the limit 4. Expanded, the two together have twelve literals. -/
theorem cnf_size_bounded_of_two_parts :
    let x (name : String) : Formula := .var ⟨name⟩
    let l (name : String) : Nnf := .lit (.pos ⟨name⟩)
    let f : Formula := .all [.any [.all [x "a", x "b"], x "c"], .any [.all [x "b", x "c"], .all [x "a", x "d"]]]
    let n := Nnf.nary .conj [.nary .disj [.nary .conj [l "a", l "b"], l "c"],
      .nary .disj [.nary .conj [l "b", l "c"], .nary .conj [l "a", l "d"]]]
    f.nnf = .ok n ∧ n.size = 13 ∧
      ∃ r, (f.cnf { limit := some 4 }).result = .ok r ∧ r.occurrences.length ≤ 2 * 4 + 4 * 13 := by
  intro x l f n
  have hn : f.nnf = .ok n := rfl
  obtain ⟨r, S, hr, -, occurrences, bounded⟩ :=
    cnf_size_bounded (o := { limit := some 4 }) rfl hn (by decide) rfl Numbering (.ofVars f.variables)
  exact ⟨hn, rfl, r, hr, occurrences ▸ bounded⟩

end NormalForms
