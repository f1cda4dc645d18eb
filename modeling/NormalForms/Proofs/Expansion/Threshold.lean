import NormalForms.Proofs.Expansion.Plain

/-!
The limit as a threshold. The distinct combinations at a node are the unions of one clause of every argument that
have no complementary literals, in whatever order the arguments are chosen from. So the count of an expansion without
a limit is a sum over the nodes that combine their arguments. Main statement: whatever an expander was asked before,
its clauses are those that there are without a limit as long as this count is within the limit, and otherwise it stops
with a count above the limit. -/

namespace NormalForms

/-! ### Combinations as unions -/

namespace Clause

variable {c d e : Clause} {css ds : List (List Clause)}

theorem union_empty (c : Clause) : c.union .empty = c := ext fun _ => by simp

theorem empty_union (c : Clause) : empty.union c = c := ext fun _ => by simp

theorem union_assoc (c d e : Clause) : (c.union d).union e = c.union (d.union e) :=
  ext fun _ => by simp only [mem_union, or_assoc]

theorem union_left_comm (c d e : Clause) : c.union (d.union e) = d.union (c.union e) :=
  ext fun _ => by simp only [mem_union, or_left_comm]

/-- Only the members of the lists make a difference to the unions of one clause of each. -/
theorem mem_allUnions_congr (h : List.Forall₂ (fun cs ds => ∀ c, c ∈ cs ↔ c ∈ ds) css ds) :
    c ∈ allUnions css ↔ c ∈ allUnions ds := by
  induction h generalizing c with
  | nil => rfl
  | cons hmem _ ih => simp only [mem_allUnions_cons, hmem, ih]

/-- The order of the lists makes no difference to the unions of one clause of each. -/
theorem mem_allUnions_perm (h : css.Perm ds) : c ∈ allUnions css ↔ c ∈ allUnions ds := by
  induction h generalizing c with
  | nil => rfl
  | cons cs _ ih => simp only [mem_allUnions_cons, ih]
  | swap cs cs' css =>
    have exchange : ∀ cs cs' : List Clause, c ∈ allUnions (cs :: cs' :: css) → c ∈ allUnions (cs' :: cs :: css) := by
      intro cs cs' h
      obtain ⟨d, hd, c', hc', rfl⟩ := mem_allUnions_cons.mp h
      obtain ⟨d', hd', e, he, rfl⟩ := mem_allUnions_cons.mp hc'
      exact mem_allUnions_cons.mpr
        ⟨d', hd', d.union e, mem_allUnions_cons.mpr ⟨d, hd, e, he, rfl⟩, union_left_comm d' d e⟩
    exact ⟨exchange cs' cs, exchange cs cs'⟩
  | trans _ _ ih ih' => exact ih.trans ih'

end Clause

namespace ClauseSet

open Clause (allUnions mem_allUnions_cons totalSize)

variable {operands : List ClauseSet} {chosen d : Clause}

/-- Passing over the clauses that clash with those chosen before leaves the unions without complementary literals. -/
theorem mem_unions_iff (h : ∀ S ∈ operands, ∀ c ∈ S, c.isTautology = false) (hchosen : chosen.isTautology = false) :
    d ∈ unions operands chosen ↔ d.isTautology = false ∧ ∃ e ∈ allUnions (operands.map clauses), chosen.union e = d := by
  induction operands generalizing chosen with
  | nil =>
    simp only [unions, allUnions, List.map_nil, List.mem_singleton, exists_eq_left, Clause.union_empty]
    exact ⟨fun hd => ⟨hd ▸ hchosen, hd.symm⟩, fun hd => hd.2.symm⟩
  | cons S operands ih =>
    obtain ⟨hS, hoperands⟩ := List.forall_mem_cons.mp h
    rw [mem_unions_cons, List.map_cons]
    constructor
    · rintro ⟨c, hc, apart, hd⟩
      have hunion := Clause.not_isTautology_union hchosen (hS c hc) apart
      obtain ⟨proper, e, he, rfl⟩ := (ih hoperands hunion).mp hd
      exact ⟨proper, c.union e, mem_allUnions_cons.mpr ⟨c, hc, e, he, rfl⟩, (Clause.union_assoc chosen c e).symm⟩
    · rintro ⟨proper, e', he', rfl⟩
      obtain ⟨c, hc, e, he, rfl⟩ := mem_allUnions_cons.mp he'
      -- What is chosen up to here is part of the union, so nothing in it clashes.
      have assoc := Clause.union_assoc chosen c e
      have hunion : (chosen.union c).isTautology = false := by
        rw [← assoc] at proper
        exact Clause.not_isTautology_of_subsumes (Clause.union_subsumes_iff.mp (Clause.subsumes_refl _)).1 proper
      have apart := Clause.not_clashes_of_union hunion
      exact ⟨c, hc, apart, (ih hoperands hunion).mpr ⟨proper, e, he, assoc⟩⟩

theorem mem_combinations_iff (h : ∀ S ∈ operands, ∀ c ∈ S, c.isTautology = false) :
    d ∈ combinations operands ↔ d.isTautology = false ∧ d ∈ allUnions (operands.map clauses) := by
  have sorted : ((sortOn size operands).map clauses).Perm (operands.map clauses) := (stableSort_perm _ operands).map clauses
  have proper : ∀ S ∈ sortOn size operands, ∀ c ∈ S, c.isTautology = false := fun S hS => h S (mem_stableSort.mp hS)
  rw [mem_combinations, mem_unions_iff proper rfl]
  simp only [Clause.empty_union, exists_eq_right, Clause.mem_allUnions_perm sorted]

theorem literalCount_combinations (h : ∀ S ∈ operands, ∀ c ∈ S, c.isTautology = false) :
    (combinations operands).literalCount =
      totalSize ((allUnions (operands.map clauses)).filter fun c => !c.isTautology).eraseDups := by
  rw [literalCount_eq]
  refine Clause.totalSize_perm ((List.perm_ext_iff_of_nodup (combinations operands).nodup (nodup_eraseDups _)).mpr ?_)
  intro c
  rw [← mem_def, mem_combinations_iff h, List.mem_eraseDups, List.mem_filter, and_comm, Bool.not_eq_true']

end ClauseSet

/-! ### The count of an expansion -/

namespace Nnf

/-- The distinct unions, without complementary literals, of one clause of the expansion of every argument. -/
def combined (form : Junction) (args : List Nnf) : List Clause :=
  ((Clause.allUnions (args.map (distributed form))).filter fun c => !c.isTautology).eraseDups

theorem literalCount_combinations (form : Junction) (args : List Nnf) :
    (ClauseSet.combinations (expansionList form args)).literalCount = Clause.totalSize (combined form args) := by
  rw [ClauseSet.literalCount_combinations not_isTautology_of_mem_expansionList, combined, expansionList_eq, List.map_map]
  simp only [funext (distributed_eq form)]
  rfl

/-- The literals that are counted at each node which combines its arguments. -/
def charges (form : Junction) (n : Nnf) : List Nat :=
  (n.junctions.filterMap (args? form.dual)).map fun args => Clause.totalSize (combined form args)

theorem args?_dual_nary (form i : Junction) (args : List Nnf) :
    (nary i args).args? form.dual = if i = form then none else some args := by
  cases i <;> cases form <;> rfl

theorem charges_nary (form i : Junction) (args : List Nnf) : (nary i args).charges form =
    (if i = form then [] else [Clause.totalSize (combined form args)]) ++ args.flatMap (charges form) := by
  have arguments : args.flatMap (charges form) = (args.flatMap fun n => n.junctions.filterMap (args? form.dual)).map
      fun args => Clause.totalSize (combined form args) := by
    rw [List.map_flatMap]
    rfl
  rw [charges, junctions, junctionsList_eq, List.filterMap_cons, List.filterMap_flatMap, args?_dual_nary, arguments]
  by_cases hi : i = form <;> simp only [hi, if_true, if_false, List.map_cons, List.nil_append, List.singleton_append]

theorem charge_eq (form : Junction) (n : Nnf) : n.charge form = (n.charges form).sum := by
  induction n with
  | const b => rfl
  | lit l => rfl
  | nary i args ih =>
    have arguments : chargeList form args = (args.flatMap (charges form)).sum := by
      rw [chargeList_eq, List.flatMap, List.sum_flatten, List.map_map]
      exact congrArg List.sum (List.map_congr_left ih)
    rw [charge, charges_nary, List.sum_append, arguments, literalCount_combinations, Nat.add_comm]
    split <;> rfl

end Nnf

/-! ### Expanders in use -/

namespace Expander

/-- The expander after it was asked for the clauses of each normal form in turn. -/
def after (e : Expander) (history : List Nnf) : Expander := history.foldl (fun e n => (e.clauses n).2) e

/-- What was asked before leaves nothing behind but a count. -/
theorem exists_after_eq (e : Expander) (history : List Nnf) : ∃ literals, e.after history = { e with literals } := by
  induction history generalizing e with
  | nil => exact ⟨e.literals, rfl⟩
  | cons n history ih =>
    obtain ⟨literals, h⟩ := ih (e.clauses n).2
    rw [clauses_eq] at h
    refine ⟨literals, ?_⟩
    rw [after, List.foldl_cons, clauses_eq]
    exact h

/-- An expander with a limit, whatever it was asked before and whether or not it stopped there. Without a limit there
    are clauses, and the count is the number of literals in the distinct unions without complementary literals of one
    clause of every argument, summed over the nodes that combine their arguments. If this count is within the limit,
    there are the same clauses in the same order with the same count, and otherwise the expander stops with a count
    above the limit. -/
theorem limit_is_threshold (form : Junction) (L : Nat) (history : List Nnf) (n : Nnf) :
    let e := after { form, limit := some L } history
    let unlimited := clauses { form } n
    ∃ S, unlimited.1 = .ok S ∧
      (if unlimited.2.literals ≤ L then (e.clauses n).1 = .ok S ∧ (e.clauses n).2.literals = unlimited.2.literals
        else (e.clauses n).1 = .error .limitExceeded ∧ L < (e.clauses n).2.literals) ∧
      unlimited.2.literals = (n.charges form).sum := by
  intro e unlimited
  have count : unlimited.2.literals = n.charge form := literals_clauses form n
  obtain ⟨literals, he⟩ : ∃ literals, e = { form, limit := some L, literals } := exists_after_eq _ history
  refine ⟨n.expansion form, clauses_fst rfl n, ?_, count.trans (n.charge_eq form)⟩
  rw [count, he]
  split
  · rename_i hle
    rw [clauses_of_within rfl fun L' hL' => Option.some.inj hL' ▸ hle]
    exact ⟨rfl, rfl⟩
  · rename_i hlt
    have exceeds : L < n.charge form := Nat.not_le.mp hlt
    obtain ⟨m, hm, hlt⟩ := clauses_of_not_within (e := { form, limit := some L, literals }) rfl rfl exceeds
    rw [hm]
    exact ⟨rfl, hlt⟩

end Expander
end NormalForms
