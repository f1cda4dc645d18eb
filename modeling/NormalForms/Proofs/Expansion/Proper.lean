import NormalForms.Proofs.Expansion.Meaning

/-!
No clause of an expansion contains complementary literals: single literals do not, and combinations that bring
complementary literals together are passed over. -/

namespace NormalForms

/-- The union of clauses without complementary literals has none, if the clauses do not clash. -/
theorem Clause.not_isTautology_union {c d : Clause} (hc : c.isTautology = false) (hd : d.isTautology = false)
    (h : d.clashes c = false) : (c.union d).isTautology = false := by
  rw [isTautology_eq_false_iff] at hc hd ⊢
  rw [← Bool.not_eq_true, clashes_iff] at h
  simp only [not_exists, not_and] at h
  intro l hl hl'
  rcases mem_union.mp hl with hl | hl <;> rcases mem_union.mp hl' with hl' | hl'
  · exact hc l hl hl'
  · exact h l.complement hl' (by rwa [Literal.complement_complement])
  · exact h l hl hl'
  · exact hd l hl hl'

/-- Clauses do not clash if their union has no complementary literals. -/
theorem Clause.not_clashes_of_union {c d : Clause} (h : (c.union d).isTautology = false) : d.clashes c = false := by
  rw [isTautology_eq_false_iff] at h
  rw [Bool.eq_false_iff]
  intro hclash
  obtain ⟨l, hl, hl'⟩ := clashes_iff.mp hclash
  exact h l (mem_union.mpr (.inr hl)) (mem_union.mpr (.inl hl'))

theorem ClauseSet.not_isTautology_of_mem_unions {operands : List ClauseSet} {chosen d : Clause}
    (hchosen : chosen.isTautology = false) (h : ∀ S ∈ operands, ∀ c ∈ S, c.isTautology = false)
    (hd : d ∈ unions operands chosen) : d.isTautology = false := by
  induction operands generalizing chosen with
  | nil => rwa [List.mem_singleton.mp hd]
  | cons S operands ih =>
    obtain ⟨c, hc, hclash, hd⟩ := mem_unions_cons.mp hd
    have hunion := Clause.not_isTautology_union hchosen (h S List.mem_cons_self c hc) hclash
    exact ih hunion (fun T hT => h T (List.mem_cons_of_mem S hT)) hd

theorem Nnf.not_isTautology_of_mem_expansion {form : Junction} {n : Nnf} {c : Clause} (hc : c ∈ n.expansion form) :
    c.isTautology = false := by
  induction n generalizing c with
  | const b =>
    rw [Clause.isTautology_eq_false_iff]
    exact fun l hl => absurd hl (ClauseSet.not_mem_of_mem_ofConst hc)
  | lit l =>
    rw [expansion, ClauseSet.mem_single] at hc
    rw [hc]
    exact Clause.not_isTautology_single l
  | nary i args ih =>
    have operands : ∀ S ∈ expansionList form args, ∀ c ∈ S, c.isTautology = false := by
      intro S hS c hc
      rw [expansionList_eq] at hS
      obtain ⟨n, hn, rfl⟩ := List.mem_map.mp hS
      exact ih n hn hc
    rw [expansion] at hc
    split at hc
    · obtain ⟨S, hS, hc⟩ := ClauseSet.mem_of_mem_join hc
      exact operands S hS c hc
    · have hunions := ClauseSet.mem_combinations.mp (ClauseSet.mem_of_mem_removeSubsumed hc)
      exact ClauseSet.not_isTautology_of_mem_unions rfl (fun S hS => operands S (mem_stableSort.mp hS)) hunions

theorem Nnf.not_isTautology_of_mem_expansionList {form : Junction} {ns : List Nnf} :
    ∀ S ∈ expansionList form ns, ∀ c ∈ S, c.isTautology = false := by
  intro S hS c hc
  rw [expansionList_eq] at hS
  obtain ⟨n, -, rfl⟩ := List.mem_map.mp hS
  exact not_isTautology_of_mem_expansion hc

end NormalForms
