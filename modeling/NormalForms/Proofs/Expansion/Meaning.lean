import NormalForms.Proofs.Expansion.Count

/-!
Truth values of expansions. Where every operand of a combination has a clause without the value of the unit,
these clauses do not clash, so their union is among the combinations and does not have the value either.
Main statement: an expansion has the truth value of the normal form it is made from, with a limit as without
one, and without a limit there always is one. -/

namespace NormalForms

variable {j : Junction} {v : Assignment}

namespace ClauseSet

variable {S : ClauseSet} {operands : List ClauseSet} {chosen c d : Clause} {l : Literal}

theorem mem_variables {x : Var} : x ∈ S.variables ↔ ∃ c ∈ S, ∃ l ∈ c, l.var = x := by
  rw [ClauseSet.variables, List.mem_eraseDups, List.mem_flatMap]
  refine exists_congr fun c => and_congr_right fun _ => ?_
  rw [List.mem_map]
  rfl

/-! ### Joins -/

theorem mem_foldl_extend : c ∈ operands.foldl (fun S T => S.extend T.clauses) S ↔ c ∈ S ∨ ∃ T ∈ operands, c ∈ T := by
  induction operands generalizing S with
  | nil => simp
  | cons T operands ih =>
    rw [List.foldl_cons, ih, mem_extend, ← mem_def, or_assoc]
    simp only [List.mem_cons, or_and_right, exists_or, exists_eq_left]

theorem mem_of_mem_join (h : c ∈ join operands) : ∃ S ∈ operands, c ∈ S := by
  rcases mem_foldl_extend.mp (mem_of_mem_removeSubsumed h) with h | h
  · exact absurd h not_mem_empty
  · exact h

theorem eval_join (j : Junction) (v : Assignment) (operands : List ClauseSet) :
    (join operands).eval j v = j.across operands fun S => S.eval j v := by
  apply Junction.eq_of_unit_iff j
  rw [join, eval_removeSubsumed, Junction.across_eq_unit_iff, eval_eq_unit_iff]
  constructor
  · intro h S hS
    exact eval_eq_unit_iff.mpr fun c hc => h c (mem_foldl_extend.mpr (.inr ⟨S, hS, hc⟩))
  · intro h c hc
    rcases mem_foldl_extend.mp hc with hc | ⟨S, hS, hc⟩
    · exact absurd hc not_mem_empty
    · exact eval_eq_unit_iff.mp (h S hS) c hc

/-! ### Combinations -/

theorem mem_unions_cons : d ∈ unions (S :: operands) chosen ↔
    ∃ c ∈ S, c.clashes chosen = false ∧ d ∈ unions operands (chosen.union c) := by
  rw [unions, List.mem_flatMap]
  refine exists_congr fun c => and_congr_right fun _ => ?_
  cases c.clashes chosen <;> simp

/-- A literal of a union is one of the clauses it is made of. -/
theorem mem_of_mem_unions (hd : d ∈ unions operands chosen) (hl : l ∈ d) : l ∈ chosen ∨ ∃ S ∈ operands, ∃ c ∈ S, l ∈ c := by
  induction operands generalizing chosen with
  | nil =>
    rw [List.mem_singleton.mp hd] at hl
    exact .inl hl
  | cons S operands ih =>
    obtain ⟨c, hc, -, hd⟩ := mem_unions_cons.mp hd
    rcases ih hd with h | ⟨T, hT, e, he, h⟩
    · rcases Clause.mem_union.mp h with h | h
      · exact .inl h
      · exact .inr ⟨S, List.mem_cons_self, c, hc, h⟩
    · exact .inr ⟨T, List.mem_cons_of_mem S hT, e, he, h⟩

theorem eval_of_mem_unions (hd : d ∈ unions operands chosen)
    (h : chosen.eval j.dual v = j.unit ∨ ∃ S ∈ operands, S.eval j v = j.unit) : d.eval j.dual v = j.unit := by
  induction operands generalizing chosen with
  | nil =>
    rw [List.mem_singleton.mp hd]
    rcases h with h | ⟨S, hS, -⟩
    · exact h
    · exact absurd hS List.not_mem_nil
  | cons S operands ih =>
    obtain ⟨c, hc, -, hd⟩ := mem_unions_cons.mp hd
    refine ih hd ?_
    rw [Clause.eval_union_eq_unit_iff]
    rcases h with h | ⟨T, hT, h⟩
    · exact .inl (.inl h)
    · rcases List.mem_cons.mp hT with rfl | hT
      · exact .inl (.inr (eval_eq_unit_iff.mp h c hc))
      · exact .inr ⟨T, hT, h⟩

/-- Clauses without the value of the unit do not clash, so the union of them is not passed over. -/
theorem exists_mem_unions (hchosen : chosen.eval j.dual v ≠ j.unit) (h : ∀ S ∈ operands, S.eval j v ≠ j.unit) :
    ∃ d ∈ unions operands chosen, d.eval j.dual v ≠ j.unit := by
  induction operands generalizing chosen with
  | nil => exact ⟨chosen, List.mem_singleton_self chosen, hchosen⟩
  | cons S operands ih =>
    have hS := h S List.mem_cons_self
    rw [Ne, eval_eq_unit_iff] at hS
    simp only [Classical.not_forall] at hS
    obtain ⟨c, hc, hcv⟩ := hS
    have apart : c.clashes chosen = false := by
      rw [Bool.eq_false_iff]
      intro hclash
      obtain ⟨l, hl, hl'⟩ := Clause.clashes_iff.mp hclash
      refine hchosen (Clause.eval_dual_eq_unit_iff.mpr ⟨l.complement, hl', ?_⟩)
      exact Literal.eval_complement_eq_iff.mpr fun hv => hcv (Clause.eval_dual_eq_unit_iff.mpr ⟨l, hl, hv⟩)
    have hunion : (chosen.union c).eval j.dual v ≠ j.unit := by
      rw [Ne, Clause.eval_union_eq_unit_iff]
      exact fun h => h.elim hchosen hcv
    obtain ⟨d, hd, hdv⟩ := ih hunion fun T hT => h T (List.mem_cons_of_mem S hT)
    exact ⟨d, mem_unions_cons.mpr ⟨c, hc, apart, hd⟩, hdv⟩

theorem mem_combinations : d ∈ combinations operands ↔ d ∈ unions (sortOn size operands) .empty := mem_ofList

theorem mem_of_mem_combinations (hd : d ∈ combinations operands) (hl : l ∈ d) : ∃ S ∈ operands, ∃ c ∈ S, l ∈ c := by
  rcases mem_of_mem_unions (mem_combinations.mp hd) hl with h | ⟨S, hS, h⟩
  · exact absurd h Clause.not_mem_empty
  · exact ⟨S, mem_stableSort.mp hS, h⟩

theorem eval_combinations (j : Junction) (v : Assignment) (operands : List ClauseSet) :
    (combinations operands).eval j v = j.dual.across operands fun S => S.eval j v := by
  apply Junction.eq_of_unit_iff j
  rw [Junction.across_dual_eq_unit_iff, eval_eq_unit_iff]
  constructor
  · intro h
    apply Classical.byContradiction
    intro hnone
    have hempty : Clause.empty.eval j.dual v ≠ j.unit := by
      rw [Ne, Clause.eval_dual_eq_unit_iff]
      rintro ⟨l, hl, -⟩
      exact Clause.not_mem_empty hl
    obtain ⟨d, hd, hdv⟩ : ∃ d ∈ unions (sortOn size operands) .empty, d.eval j.dual v ≠ j.unit :=
      exists_mem_unions hempty fun S hS hSv => hnone ⟨S, mem_stableSort.mp hS, hSv⟩
    exact hdv (h d (mem_combinations.mpr hd))
  · rintro ⟨S, hS, hSv⟩ d hd
    exact eval_of_mem_unions (mem_combinations.mp hd) (.inr ⟨S, mem_stableSort.mpr hS, hSv⟩)

/-! ### Leaves -/

theorem eval_single (j : Junction) (v : Assignment) (c : Clause) : (single c).eval j v = c.eval j.dual v := by
  apply Junction.eq_of_unit_iff j
  rw [eval_eq_unit_iff]
  simp

theorem eval_ofConst (j : Junction) (v : Assignment) (b : Bool) : (ofConst j b).eval j v = b := by
  unfold ofConst
  split
  · rename_i hb
    rw [hb]
    exact Junction.across_nil j _
  · rename_i hb
    rw [eval_single, Junction.ne_unit_iff.mp hb, ← Junction.unit_dual]
    exact Junction.across_nil j.dual _

theorem not_mem_of_mem_ofConst {b : Bool} (h : c ∈ ofConst j b) : l ∉ c := by
  unfold ofConst at h
  split at h
  · exact absurd h not_mem_empty
  · rw [mem_single.mp h]
    exact Clause.not_mem_empty

end ClauseSet

namespace Nnf

/-- An expansion has the truth value of the normal form. -/
theorem eval_expansion (form : Junction) (v : Assignment) (n : Nnf) : (n.expansion form).eval form v = n.eval v := by
  induction n with
  | const b => rw [expansion, ClauseSet.eval_ofConst, eval]
  | lit l => rw [expansion, ClauseSet.eval_single, Clause.eval_single, eval]
  | nary i args ih =>
    rw [expansion, eval_nary, expansionList_eq]
    split
    · rename_i hi
      rw [ClauseSet.eval_join, Junction.across_map, hi]
      exact Junction.across_congr ih
    · rename_i hi
      rw [ClauseSet.eval_removeSubsumed, ClauseSet.eval_combinations, Junction.across_map, Junction.eq_dual_of_ne hi]
      exact Junction.across_congr ih

/-- No variable is new in an expansion. -/
theorem mem_occurrences_of_mem_expansion {form : Junction} {n : Nnf} {c : Clause} {l : Literal}
    (hc : c ∈ n.expansion form) (hl : l ∈ c) : l.var ∈ n.occurrences := by
  induction n generalizing c l with
  | const b => exact absurd hl (ClauseSet.not_mem_of_mem_ofConst hc)
  | lit m =>
    rw [expansion, ClauseSet.mem_single] at hc
    rw [hc, Clause.mem_single] at hl
    rw [hl]
    exact List.mem_singleton_self m.var
  | nary i args ih =>
    have operands : ∃ S ∈ expansionList form args, ∃ c ∈ S, l ∈ c := by
      rw [expansion] at hc
      split at hc
      · obtain ⟨S, hS, hc⟩ := ClauseSet.mem_of_mem_join hc
        exact ⟨S, hS, c, hc, hl⟩
      · exact ClauseSet.mem_of_mem_combinations (ClauseSet.mem_of_mem_removeSubsumed hc) hl
    obtain ⟨S, hS, d, hd, hl⟩ := operands
    rw [expansionList_eq] at hS
    obtain ⟨n, hn, rfl⟩ := List.mem_map.mp hS
    exact mem_occurrences_nary.mpr ⟨n, hn, ih n hn hd hl⟩

end Nnf

namespace Expander

/-- What an expander returns is the expansion, whatever its limit. -/
theorem eq_expansion_of_clauses {e : Expander} {n : Nnf} {S : ClauseSet} (h : (e.clauses n).1 = .ok S) :
    S = n.expansion e.form := by
  cases hc : e.cancelled with
  | true =>
    rw [clauses_of_cancelled hc] at h
    cases h
  | false =>
    rw [clauses_fst hc] at h
    split at h
    · cases h
    · cases h
      rfl

/-- The clauses of a normal form, where the limit does not stop the expansion: read as the clauses of a `form`
    normal form they have the truth value of it under every assignment, and their variables occur in it. Without
    a limit nothing stops the expansion. -/
theorem clauses_preserve_meaning (form : Junction) (limit : Option Nat) (literals : Nat) (n : Nnf) :
    (∀ S, (clauses { form, limit, literals } n).1 = .ok S →
        (∀ v, S.eval form v = n.eval v) ∧ ∀ x ∈ S.variables, x ∈ n.variables) ∧
      ∃ S, (clauses { form, literals } n).1 = .ok S := by
  refine ⟨fun S hS => ?_, n.expansion form, clauses_fst rfl n⟩
  rw [eq_expansion_of_clauses hS]
  refine ⟨fun v => n.eval_expansion form v, fun x hx => ?_⟩
  obtain ⟨c, hc, l, hl, rfl⟩ := ClauseSet.mem_variables.mp hx
  exact Nnf.mem_variables.mpr (Nnf.mem_occurrences_of_mem_expansion hc hl)

/-- A normal form with complementary and repeated arguments, a constant and an empty junction, which counts
    two literals in conjunctive normal form. -/
theorem clauses_preserve_meaning_of_complementary :
    let a := Nnf.lit (.pos ⟨"a"⟩)
    let n := Nnf.nary .disj [.nary .conj [a, .lit (.neg ⟨"b"⟩), a], .nary .conj [.nary .conj [], .lit (.pos ⟨"b"⟩)],
      .const false]
    ∃ S, (clauses { form := .conj, limit := some 2 } n).1 = .ok S ∧ S.size = 1 ∧ ∀ v, S.eval .conj v = n.eval v := by
  intro a n
  obtain ⟨S, hS⟩ : ∃ S, (clauses { form := .conj, limit := some 2 } n).1 = .ok S := ⟨_, rfl⟩
  exact ⟨S, hS, by cases hS; decide, ((clauses_preserve_meaning .conj (some 2) 0 n).1 S hS).1⟩

end Expander
end NormalForms
