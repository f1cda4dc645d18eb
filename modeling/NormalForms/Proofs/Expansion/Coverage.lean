import NormalForms.Proofs.Clause.Subsumption
import NormalForms.Proofs.Expansion.Proper

/-!
What expansions cover. Give the literals of a clause the value that makes no difference within clauses, and every other
literal the value that decides a clause, also where two literals are complementary: a clause set has the value of the
form's unit there exactly if it does not cover the clause. Main statement: an expansion covers a clause without
complementary literals exactly if the normal form does not have the value of the unit there. So an expansion, in
which no clause subsumes another, is determined by the values of the normal form. -/

namespace NormalForms

variable {form : Junction} {c d : Clause} {S : ClauseSet} {operands : List ClauseSet} {n : Nnf}

/-- Makes the literals of `c` count for nothing in clauses of a `form` normal form, and decides with every other
    literal. -/
def Clause.valuation (form : Junction) (c : Clause) (l : Literal) : Bool := c.contains l != form.unit

theorem Clause.valuation_ne_unit_iff {l : Literal} : c.valuation form l ≠ form.unit ↔ l ∈ c := by
  rw [← contains_iff, valuation]
  cases c.contains l <;> cases form <;> simp [Junction.unit]

namespace ClauseSet

theorem covers_iff : S.Covers c ↔
    (form.across S.clauses fun d => form.dual.across d.literals (c.valuation form)) ≠ form.unit := by
  have subsumes : ∀ d : Clause, d.subsumes c = true ↔ form.dual.across d.literals (c.valuation form) ≠ form.unit := by
    intro d
    rw [Ne, Junction.across_dual_eq_unit_iff, Clause.subsumes_iff]
    simp only [not_exists, not_and]
    exact forall₂_congr fun l _ => Clause.valuation_ne_unit_iff.symm
  rw [Ne, Junction.across_eq_unit_iff, Covers]
  simp only [subsumes, Classical.not_forall, exists_prop]
  rfl

theorem covers_ofConst {b : Bool} : (ofConst form b).Covers c ↔ b ≠ form.unit := by
  unfold ofConst
  split
  · simp_all
  · rename_i hb
    rw [covers_single]
    exact iff_of_true (Clause.subsumes_iff.mpr fun l hl => absurd hl Clause.not_mem_empty) hb

theorem covers_join : (join operands).Covers c ↔ ∃ S ∈ operands, S.Covers c := by
  rw [join, covers_removeSubsumed, Covers]
  simp only [mem_foldl_extend, not_mem_empty, false_or, Covers]
  constructor
  · rintro ⟨d, ⟨S, hS, hd⟩, hdc⟩
    exact ⟨S, hS, d, hd, hdc⟩
  · rintro ⟨S, hS, d, hd, hdc⟩
    exact ⟨d, ⟨S, hS, hd⟩, hdc⟩

/-- Clauses that subsume one without complementary literals do not clash, so their union is not passed over. -/
theorem exists_mem_unions_subsumes_iff {chosen : Clause} (hc : c.isTautology = false) :
    (∃ d ∈ unions operands chosen, d.subsumes c = true) ↔ chosen.subsumes c = true ∧ ∀ S ∈ operands, S.Covers c := by
  induction operands generalizing chosen with
  | nil => simp [unions]
  | cons S operands ih =>
    rw [List.forall_mem_cons]
    constructor
    · rintro ⟨d, hd, hdc⟩
      obtain ⟨e, he, -, hd⟩ := mem_unions_cons.mp hd
      obtain ⟨hunion, hoperands⟩ := ih.mp ⟨d, hd, hdc⟩
      obtain ⟨hchosen, hec⟩ := Clause.union_subsumes_iff.mp hunion
      exact ⟨hchosen, ⟨e, he, hec⟩, hoperands⟩
    · rintro ⟨hchosen, ⟨e, he, hec⟩, hoperands⟩
      have hunion : (chosen.union e).subsumes c = true := Clause.union_subsumes_iff.mpr ⟨hchosen, hec⟩
      obtain ⟨d, hd, hdc⟩ := ih.mpr ⟨hunion, hoperands⟩
      have apart := Clause.not_clashes_of_union (Clause.not_isTautology_of_subsumes hunion hc)
      exact ⟨d, mem_unions_cons.mpr ⟨e, he, apart, hd⟩, hdc⟩

theorem covers_combinations (hc : c.isTautology = false) :
    (combinations operands).Covers c ↔ ∀ S ∈ operands, S.Covers c := by
  have start : Clause.empty.subsumes c = true := Clause.subsumes_iff.mpr fun l hl => absurd hl Clause.not_mem_empty
  rw [Covers]
  simp only [mem_combinations]
  rw [exists_mem_unions_subsumes_iff hc, and_iff_right start]
  simp only [sortOn, mem_stableSort]

end ClauseSet

namespace Nnf

/-- A clause without complementary literals is covered by an expansion exactly if the normal form does not have the
    value of the unit where the literals of the clause count for nothing. -/
theorem covers_expansion (hc : c.isTautology = false) :
    (n.expansion form).Covers c ↔ n.value (c.valuation form) ≠ form.unit := by
  induction n with
  | const b => rw [expansion, ClauseSet.covers_ofConst, value]
  | lit l =>
    rw [expansion, ClauseSet.covers_single, value, Clause.valuation_ne_unit_iff, Clause.subsumes_iff]
    simp
  | nary i args ih =>
    rw [expansion, value_nary, expansionList_eq]
    split
    · rename_i hi
      rw [ClauseSet.covers_join, hi, Ne, Junction.across_eq_unit_iff]
      simp only [List.mem_map, exists_exists_and_eq_and, Classical.not_forall, exists_prop]
      exact exists_congr fun n => and_congr_right fun hn => ih n hn
    · rename_i hi
      rw [ClauseSet.covers_removeSubsumed, ClauseSet.covers_combinations hc, Junction.eq_dual_of_ne hi, Ne,
        Junction.across_dual_eq_unit_iff, List.forall_mem_map]
      simp only [not_exists, not_and]
      exact forall₂_congr ih

theorem irredundant_expansion (form : Junction) (n : Nnf) : (n.expansion form).Irredundant := by
  cases n with
  | const b =>
    rw [expansion, ClauseSet.ofConst]
    split
    · exact ClauseSet.irredundant_empty
    · exact ClauseSet.irredundant_single _
  | lit l => exact ClauseSet.irredundant_single _
  | nary i args =>
    rw [expansion]
    split <;> exact ClauseSet.irredundant_removeSubsumed _

/-- Proper clauses that cover what the values of a normal form demand are, without those subsumed, the clauses of its
    expansion. -/
theorem sameClauses_expansion (hS : ∀ c ∈ S, c.isTautology = false)
    (h : ∀ c, c.isTautology = false → (S.Covers c ↔ n.value (c.valuation form) ≠ form.unit)) :
    S.removeSubsumed.sameClauses (n.expansion form) = true := by
  refine ClauseSet.sameClauses_of_covers (ClauseSet.irredundant_removeSubsumed S) (irredundant_expansion form n) ?_ ?_
  · intro c hc
    have proper := hS c (ClauseSet.mem_of_mem_removeSubsumed hc)
    rw [covers_expansion proper, ← h c proper]
    exact ClauseSet.covers_removeSubsumed.mp (ClauseSet.covers_of_mem hc)
  · intro c hc
    have proper := not_isTautology_of_mem_expansion hc
    rw [ClauseSet.covers_removeSubsumed, h c proper, ← covers_expansion proper]
    exact ClauseSet.covers_of_mem hc

/-- Normal forms with the same values, also where complementary literals have the same one, have the same clauses. -/
theorem sameClauses_of_value_eq {m n : Nnf} (h : ∀ p, m.value p = n.value p) :
    (m.expansion form).sameClauses (n.expansion form) = true := by
  have covers : ∀ {m n : Nnf}, (∀ p, m.value p = n.value p) → ∀ c ∈ m.expansion form, (n.expansion form).Covers c := by
    intro m n h c hc
    have proper := not_isTautology_of_mem_expansion hc
    rw [covers_expansion proper, ← h, ← covers_expansion proper]
    exact ClauseSet.covers_of_mem hc
  exact ClauseSet.sameClauses_of_covers (irredundant_expansion form m) (irredundant_expansion form n) (covers h)
    (covers fun p => (h p).symm)

end Nnf
end NormalForms
