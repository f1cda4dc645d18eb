import NormalForms.Proofs.Clause.Basic
import NormalForms.Proofs.Distinct

/-!
Clause sets: membership after each operation, and truth values. Dropping subsumed clauses keeps the truth
value, because each dropped clause contains a clause that stays. -/

namespace NormalForms.ClauseSet

variable {S T : ClauseSet} {c d : Clause} {cs : List Clause}

/-! ### Membership -/

@[simp]
theorem not_mem_empty : c ∉ empty := List.not_mem_nil

@[simp]
theorem mem_insert : c ∈ S.insert d ↔ c = d ∨ c ∈ S := by
  by_cases hd : d ∈ S
  · rw [insert_of_mem hd]
    exact ⟨.inr, fun h => h.elim (fun e => e ▸ hd) id⟩
  · rw [mem_def, clauses_insert_of_not_mem hd, List.mem_append, List.mem_singleton, or_comm]
    rfl

@[simp]
theorem mem_extend : c ∈ S.extend cs ↔ c ∈ S ∨ c ∈ cs := by
  induction cs generalizing S with
  | nil => simp [extend]
  | cons d cs ih =>
    have step : S.extend (d :: cs) = (S.insert d).extend cs := rfl
    rw [step, ih, mem_insert, List.mem_cons]
    constructor
    · rintro ((h | h) | h)
      · exact .inr (.inl h)
      · exact .inl h
      · exact .inr (.inr h)
    · rintro (h | h | h)
      · exact .inl (.inr h)
      · exact .inl (.inl h)
      · exact .inr h

@[simp]
theorem mem_ofList : c ∈ ofList cs ↔ c ∈ cs := by simp [ofList]

@[simp]
theorem mem_single : c ∈ single d ↔ c = d := by simp [single]

theorem extend_ofList (cs ds : List Clause) : (ofList cs).extend ds = ofList (cs ++ ds) := List.foldl_append.symm

theorem clauses_insert (S : ClauseSet) (c : Clause) : (S.insert c).clauses = (S.clauses ++ [c]).eraseDups := by
  by_cases hc : c ∈ S
  · rw [insert_of_mem hc, eraseDups_concat_of_mem hc, eraseDups_of_nodup S.nodup]
  · rw [clauses_insert_of_not_mem hc, eraseDups_concat_of_not_mem hc, eraseDups_of_nodup S.nodup]

theorem clauses_extend (S : ClauseSet) (cs : List Clause) : (S.extend cs).clauses = (S.clauses ++ cs).eraseDups := by
  induction cs generalizing S with
  | nil => rw [List.append_nil, eraseDups_of_nodup S.nodup, extend, List.foldl_nil]
  | cons c cs ih =>
    have step : S.extend (c :: cs) = (S.insert c).extend cs := rfl
    rw [step, ih, clauses_insert, eraseDups_eraseDups_append, List.append_assoc, List.singleton_append]

/-- The clauses of a list, each at its first occurrence. -/
theorem clauses_ofList (cs : List Clause) : (ofList cs).clauses = cs.eraseDups := clauses_extend empty cs

/-- The clauses that are kept are among those that come in, and stay in their order. -/
theorem sublist_foldl_keepUnsubsumed (kept cs : List Clause) : (cs.foldl keepUnsubsumed kept).Sublist (kept ++ cs) := by
  induction cs generalizing kept with
  | nil => rw [List.append_nil]; exact .refl kept
  | cons c cs ih =>
    refine (ih (keepUnsubsumed kept c)).trans ?_
    unfold keepUnsubsumed
    split
    · exact (List.sublist_cons_self c cs).append_left kept
    · rw [List.append_assoc]
      exact .refl _

theorem mem_of_mem_removeSubsumed (h : c ∈ S.removeSubsumed) : c ∈ S :=
  mem_stableSort.mp ((sublist_foldl_keepUnsubsumed [] _).subset h)

/-- Clauses that were kept, or come in, contain a clause that is kept in the end. -/
theorem exists_subsumes_foldl {kept cs : List Clause} (h : c ∈ kept ∨ c ∈ cs) :
    ∃ k ∈ cs.foldl keepUnsubsumed kept, k.subsumes c = true := by
  induction cs generalizing kept c with
  | nil => exact ⟨c, h.elim id (absurd · List.not_mem_nil), c.subsumes_refl⟩
  | cons d cs ih =>
    have stays : ∀ k ∈ kept, ∃ k' ∈ cs.foldl keepUnsubsumed (keepUnsubsumed kept d), k'.subsumes k = true := by
      intro k hk
      refine ih (.inl ?_)
      unfold keepUnsubsumed
      split
      · exact hk
      · exact List.mem_append_left _ hk
    rcases h with h | h
    · exact stays c h
    · rcases List.mem_cons.mp h with rfl | h
      · by_cases hsub : (kept.any fun k => k.subsumes c) = true
        · obtain ⟨k, hk, hkc⟩ := List.any_eq_true.mp hsub
          obtain ⟨k', hk', hkk⟩ := stays k hk
          rw [Clause.subsumes_iff] at hkc hkk
          exact ⟨k', hk', Clause.subsumes_iff.mpr fun l hl => hkc l (hkk l hl)⟩
        · refine ih (.inl ?_)
          rw [keepUnsubsumed, if_neg hsub]
          exact List.mem_append_right _ (List.mem_singleton_self c)
      · exact ih (.inr h)

theorem exists_subsumes_of_mem (h : c ∈ S) : ∃ k ∈ S.removeSubsumed, k.subsumes c = true :=
  exists_subsumes_foldl (.inr (mem_stableSort.mpr h))

/-! ### Truth values -/

section
variable {j : Junction} {v w : Assignment}

theorem eval_eq_unit_iff : S.eval j v = j.unit ↔ ∀ c ∈ S, c.eval j.dual v = j.unit :=
  Junction.across_eq_unit_iff

theorem eval_removeSubsumed (j : Junction) (v : Assignment) (S : ClauseSet) :
    S.removeSubsumed.eval j v = S.eval j v := by
  apply Junction.eq_of_unit_iff j
  rw [eval_eq_unit_iff, eval_eq_unit_iff]
  constructor
  · intro h c hc
    obtain ⟨k, hk, hkc⟩ := exists_subsumes_of_mem hc
    exact Clause.eval_of_subsumes hkc (h k hk)
  · exact fun h c hc => h c (mem_of_mem_removeSubsumed hc)

theorem eval_toFormula (j : Junction) (v : Assignment) (S : ClauseSet) :
    (S.toFormula j).eval v = .ok (S.eval j v) := by
  rw [toFormula, Formula.eval_nary j (Formula.values_map fun c _ => c.eval_toFormula j.dual v), Junction.across_map]
  rfl

theorem mem_variables_toFormula {x : Var} : x ∈ (S.toFormula j).variables ↔ ∃ c ∈ S, ∃ l ∈ c, l.var = x := by
  rw [Formula.variables, List.mem_eraseDups, toFormula, Formula.freeOccurrences, Formula.freeOccurrencesList_eq,
    List.flatMap_map, List.mem_flatMap]
  refine exists_congr fun c => and_congr_right fun _ => ?_
  rw [Clause.freeOccurrences_toFormula]
  simp

end
end NormalForms.ClauseSet
