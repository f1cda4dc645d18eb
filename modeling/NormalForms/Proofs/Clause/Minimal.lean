import NormalForms.Proofs.Clause.Subsumption

/-!
What is left when subsumed clauses are dropped. Each clause is compared only with those kept before it, none of which
is larger; all the same it is dropped exactly if the set has a clause that is properly contained in it. Main
statement: the minimal clauses are left, in the order of their sizes and otherwise in their order, with the same
truth value in both normal forms, whatever the order of the set was, and nothing is left to drop. -/

namespace NormalForms

/-- The clauses of a list that contain no other clause of the list. -/
def Clause.minimal (cs : List Clause) : List Clause := cs.filter fun c => cs.all fun d => !d.subsumes c || d == c

theorem Clause.mem_minimal {c : Clause} {cs : List Clause} :
    c ∈ minimal cs ↔ c ∈ cs ∧ ∀ d ∈ cs, d.subsumes c = true → d = c := by
  rw [minimal, List.mem_filter, List.all_eq_true]
  refine and_congr_right fun _ => forall₂_congr fun d _ => ?_
  cases d.subsumes c <;> simp

namespace ClauseSet

variable {S T : ClauseSet} {c : Clause}

theorem mem_removeSubsumed_iff : c ∈ S.removeSubsumed ↔ c ∈ S ∧ ∀ d ∈ S, d.subsumes c = true → d = c := by
  constructor
  · intro hc
    refine ⟨mem_of_mem_removeSubsumed hc, fun d hd hdc => ?_⟩
    -- What subsumes `c` contains a clause that is left, and that can only be `c`.
    obtain ⟨k, hk, hkd⟩ := exists_subsumes_of_mem hd
    have same : k = c := irredundant_removeSubsumed S k hk c hc (Clause.subsumes_trans hkd hdc)
    exact Clause.subsumes_antisymm hdc (same ▸ hkd)
  · rintro ⟨hc, least⟩
    obtain ⟨k, hk, hkc⟩ := exists_subsumes_of_mem hc
    exact least k (mem_of_mem_removeSubsumed hk) hkc ▸ hk

theorem clauses_removeSubsumed (S : ClauseSet) :
    S.removeSubsumed.clauses = sortOn Clause.size (Clause.minimal S.clauses) := by
  have distinct : (sortOn Clause.size S.clauses).Nodup := (stableSort_perm _ S.clauses).nodup_iff.mpr S.nodup
  rw [Clause.minimal, sortOn_filter]
  refine eq_filter_of_sublist S.removeSubsumed_sublist distinct fun c hc => ?_
  have hcS : c ∈ S.clauses := mem_stableSort.mp hc
  have member : c ∈ S.removeSubsumed.clauses ↔ c ∈ Clause.minimal S.clauses :=
    mem_removeSubsumed_iff.trans Clause.mem_minimal.symm
  rw [member, Clause.minimal, List.mem_filter]
  exact and_iff_right hcS

/-- Clauses of one size stay in their order. -/
theorem filter_size_removeSubsumed (S : ClauseSet) (k : Nat) :
    (S.removeSubsumed.clauses.filter fun c => c.size == k) = (Clause.minimal S.clauses).filter fun c => c.size == k := by
  rw [clauses_removeSubsumed, filter_key_sortOn]

theorem sameClauses_removeSubsumed (h : ∀ c, c ∈ S ↔ c ∈ T) : S.removeSubsumed.sameClauses T.removeSubsumed = true := by
  rw [sameClauses_iff]
  intro c
  rw [mem_removeSubsumed_iff, mem_removeSubsumed_iff, h c]
  exact and_congr_right fun _ => forall_congr' fun d => by rw [h d]

theorem minimal_of_irredundant (h : S.Irredundant) : Clause.minimal S.clauses = S.clauses := by
  refine List.filter_eq_self.mpr fun c hc => List.all_eq_true.mpr fun d hd => ?_
  cases hdc : d.subsumes c
  · rfl
  · simpa using h d hd c hc hdc

theorem removeSubsumed_removeSubsumed (S : ClauseSet) : S.removeSubsumed.removeSubsumed = S.removeSubsumed := by
  have clauses : S.removeSubsumed.removeSubsumed.clauses = S.removeSubsumed.clauses := by
    rw [clauses_removeSubsumed, minimal_of_irredundant (irredundant_removeSubsumed S),
      sortOn_eq_self (removeSubsumed_ascending S)]
  -- The index is made anew from the clauses, so it is the same index.
  unfold removeSubsumed at clauses ⊢
  congr

/-- Exactly the clauses are left that contain no other clause of the set. They ascend by their number of literals, and
    those with the same number are in the order in which they were. In both normal forms the truth value is kept, the
    order of the set makes no difference to which clauses are left, and a second time nothing changes. -/
theorem removeSubsumed_leaves_minimal_clauses (S : ClauseSet) :
    (∀ c, c ∈ S.removeSubsumed ↔ c ∈ S ∧ ∀ d ∈ S, (∀ l ∈ d, l ∈ c) → d = c) ∧
      (S.removeSubsumed.clauses.Pairwise fun c d => c.size ≤ d.size) ∧
      (∀ k, (S.removeSubsumed.clauses.filter fun c => c.size == k).Sublist S.clauses) ∧
      (∀ (j : Junction) (v : Assignment), S.removeSubsumed.eval j v = S.eval j v) ∧
      (∀ T : ClauseSet, S.clauses.Perm T.clauses → S.removeSubsumed.sameClauses T.removeSubsumed = true) ∧
      S.removeSubsumed.removeSubsumed = S.removeSubsumed := by
  refine ⟨fun c => ?_, S.removeSubsumed_ascending, fun k => ?_, fun j v => S.eval_removeSubsumed j v, fun T h => ?_,
    S.removeSubsumed_removeSubsumed⟩
  · simp only [mem_removeSubsumed_iff, Clause.subsumes_iff]
  · rw [filter_size_removeSubsumed]
    exact List.filter_sublist.trans List.filter_sublist
  · exact sameClauses_removeSubsumed fun c => h.mem_iff

/-- The order of the set shows among the clauses with one literal only. -/
theorem removeSubsumed_leaves_minimal_clauses_of_reversed :
    let abc := Clause.ofList [.pos ⟨"a"⟩, .pos ⟨"b"⟩, .pos ⟨"c"⟩]
    let ab := Clause.ofList [.pos ⟨"a"⟩, .pos ⟨"b"⟩]
    let c := Clause.ofList [.pos ⟨"c"⟩]
    let d := Clause.ofList [.neg ⟨"a"⟩]
    let S := ofList [abc, ab, c, d]
    let T := ofList [d, c, ab, abc]
    S.clauses.Perm T.clauses ∧ S.removeSubsumed.clauses = [c, d, ab] ∧ T.removeSubsumed.clauses = [d, c, ab] ∧
      S.removeSubsumed.sameClauses T.removeSubsumed = true := by
  intro abc ab c d S T
  have reversed : S.clauses.Perm T.clauses := by decide
  obtain ⟨-, -, -, -, same, -⟩ := removeSubsumed_leaves_minimal_clauses S
  exact ⟨reversed, by decide, by decide, same T reversed⟩

end ClauseSet
end NormalForms
