import NormalForms.Formula.Eval
import NormalForms.Nnf.Basic
import NormalForms.Proofs.Junction

/-!
Negation normal forms: the constants and the junctions inside them, their truth value, also where complementary
literals have values of their own, and what it depends on. -/

namespace NormalForms.Nnf

/-! ### Constants -/

mutual

/-- The constants in a normal form, from left to right. -/
def constants : Nnf → List Bool
  | const b => [b]
  | lit _ => []
  | nary _ args => constantsList args

/-- The constants in all normal forms of a list. -/
def constantsList : List Nnf → List Bool
  | [] => []
  | n :: ns => n.constants ++ constantsList ns

end

/-- The constants strictly below the root, from left to right. -/
def innerConstants : Nnf → List Bool
  | const _ | lit _ => []
  | nary _ args => constantsList args

@[simp]
theorem constantsList_eq (ns : List Nnf) : constantsList ns = ns.flatMap constants := by
  induction ns with
  | nil => rfl
  | cons n ns ih => simp [constantsList, ih]

/-- Without constants below the root, the arguments hold no constants at all. -/
theorem constants_of_mem {j : Junction} {args : List Nnf} (h : (nary j args).innerConstants = []) {n : Nnf}
    (hn : n ∈ args) : n.constants = [] := by
  rw [innerConstants, constantsList_eq, List.flatMap_eq_nil_iff] at h
  exact h n hn

theorem innerConstants_of_constants {n : Nnf} (h : n.constants = []) : n.innerConstants = [] := by
  cases n with
  | const b => rfl
  | lit l => rfl
  | nary j args => exact h

/-! ### Size -/

theorem sizeList_append (ms ns : List Nnf) : sizeList (ms ++ ns) = sizeList ms + sizeList ns := by
  induction ms with
  | nil => rw [List.nil_append, sizeList, Nat.zero_add]
  | cons m ms ih => rw [List.cons_append, sizeList, sizeList, ih, Nat.add_assoc]

theorem sizeList_le_of_sublist {ms ns : List Nnf} (h : ms.Sublist ns) : sizeList ms ≤ sizeList ns := by
  induction h with
  | slnil => exact Nat.le_refl _
  | cons n _ ih => exact Nat.le_trans ih (Nat.le_add_left _ n.size)
  | cons_cons n _ ih => exact Nat.add_le_add_left ih n.size

/-- An argument is smaller than the junction of it. -/
theorem size_lt_of_mem {j : Junction} {args : List Nnf} {n : Nnf} (hn : n ∈ args) : n.size < (nary j args).size := by
  have alone := sizeList_le_of_sublist (List.singleton_sublist.mpr hn)
  rw [sizeList, sizeList, Nat.add_zero] at alone
  exact Nat.lt_succ_of_le alone

/-! ### Junctions -/

mutual

/-- The conjunctions and disjunctions in a normal form, itself included, each before those below it. -/
def junctions : Nnf → List Nnf
  | const _ | lit _ => []
  | nary j args => nary j args :: junctionsList args

/-- The conjunctions and disjunctions in all normal forms of a list. -/
def junctionsList : List Nnf → List Nnf
  | [] => []
  | n :: ns => n.junctions ++ junctionsList ns

end

/-- The conjunctions and disjunctions strictly below the root. -/
def innerJunctions : Nnf → List Nnf
  | const _ | lit _ => []
  | nary _ args => junctionsList args

@[simp]
theorem junctionsList_eq (ns : List Nnf) : junctionsList ns = ns.flatMap junctions := by
  induction ns with
  | nil => rfl
  | cons n ns ih => simp [junctionsList, ih]

theorem mem_junctionsList {ns : List Nnf} {m : Nnf} : m ∈ junctionsList ns ↔ ∃ n ∈ ns, m ∈ n.junctions := by
  rw [junctionsList_eq, List.mem_flatMap]

theorem mem_junctions_nary {j : Junction} {args : List Nnf} {m : Nnf} :
    m ∈ (nary j args).junctions ↔ m = nary j args ∨ ∃ n ∈ args, m ∈ n.junctions := by
  rw [junctions, List.mem_cons, mem_junctionsList]

theorem junctions_subset_of_mem {ns : List Nnf} {n : Nnf} (hn : n ∈ ns) : n.junctions ⊆ junctionsList ns :=
  fun _ hm => mem_junctionsList.mpr ⟨n, hn, hm⟩

theorem nary_mem_junctions (j : Junction) (args : List Nnf) : nary j args ∈ (nary j args).junctions :=
  mem_junctions_nary.mpr (.inl rfl)

theorem size_le_of_mem_junctions {n m : Nnf} (h : m ∈ n.junctions) : m.size ≤ n.size := by
  induction n with
  | const b => exact absurd h List.not_mem_nil
  | lit l => exact absurd h List.not_mem_nil
  | nary j args ih =>
    rcases mem_junctions_nary.mp h with rfl | ⟨n, hn, hm⟩
    · exact Nat.le_refl _
    · exact Nat.le_trans (ih n hn hm) (Nat.le_of_lt (size_lt_of_mem hn))

/-- A junction is not below itself. -/
theorem nary_not_mem_junctionsList (j : Junction) (args : List Nnf) : nary j args ∉ junctionsList args := by
  intro h
  obtain ⟨n, hn, hm⟩ := mem_junctionsList.mp h
  exact absurd (size_le_of_mem_junctions hm) (Nat.not_le.mpr (size_lt_of_mem hn))

/-! ### Completed junctions -/

mutual

/-- The conjunctions and disjunctions in a normal form, itself included, each behind those below it: the order in which
    a walk from left to right completes them. -/
def postorder : Nnf → List Nnf
  | const _ | lit _ => []
  | nary j args => postorderList args ++ [nary j args]

/-- The conjunctions and disjunctions in all normal forms of a list, in the order in which they are completed. -/
def postorderList : List Nnf → List Nnf
  | [] => []
  | n :: ns => n.postorder ++ postorderList ns

end

/-- The conjunctions and disjunctions strictly below the root, in the order in which they are completed. -/
def innerPostorder : Nnf → List Nnf
  | const _ | lit _ => []
  | nary _ args => postorderList args

theorem mem_postorderList {ns : List Nnf} {m : Nnf} (h : ∀ n ∈ ns, (m ∈ n.postorder ↔ m ∈ n.junctions)) :
    m ∈ postorderList ns ↔ m ∈ junctionsList ns := by
  induction ns with
  | nil => exact Iff.rfl
  | cons n ns ih =>
    rw [postorderList, junctionsList, List.mem_append, List.mem_append, h n List.mem_cons_self,
      ih fun k hk => h k (List.mem_cons_of_mem n hk)]

theorem mem_postorder {n m : Nnf} : m ∈ n.postorder ↔ m ∈ n.junctions := by
  induction n with
  | const b => exact Iff.rfl
  | lit l => exact Iff.rfl
  | nary j args ih =>
    rw [postorder, junctions, List.mem_append, List.mem_singleton, List.mem_cons, mem_postorderList ih]
    exact or_comm

theorem mem_innerPostorder {n m : Nnf} : m ∈ n.innerPostorder ↔ m ∈ n.innerJunctions := by
  cases n with
  | const b => exact Iff.rfl
  | lit l => exact Iff.rfl
  | nary j args => exact mem_postorderList fun n _ => mem_postorder

/-! ### Truth values -/

mutual

/-- The truth value where each literal has a value of its own. Complementary literals may have the same one. -/
def value (p : Literal → Bool) : Nnf → Bool
  | const b => b
  | lit l => p l
  | nary j args => valueList p j args

/-- The truth value of the `j` of a list. -/
def valueList (p : Literal → Bool) (j : Junction) : List Nnf → Bool
  | [] => j.unit
  | n :: ns => if n.value p = j.unit then valueList p j ns else !j.unit

end

theorem value_nary (p : Literal → Bool) (j : Junction) (args : List Nnf) :
    (nary j args).value p = j.across args fun n => n.value p := by
  rw [value]
  induction args with
  | nil => rw [valueList, Junction.across_nil]
  | cons n ns ih => rw [valueList, Junction.across_cons, ih]

theorem eval_nary (v : Assignment) (j : Junction) (args : List Nnf) :
    (nary j args).eval v = j.across args fun n => n.eval v := by rw [eval, evalList_eq]

/-- Under an assignment each literal has its value there. -/
theorem eval_eq_value (v : Assignment) (n : Nnf) : n.eval v = n.value fun l => l.eval v := by
  induction n with
  | const b => rfl
  | lit l => rfl
  | nary j args ih =>
    rw [eval_nary, value_nary]
    exact Junction.across_congr ih

theorem occurrences_nary (j : Junction) (args : List Nnf) :
    (nary j args).occurrences = args.flatMap occurrences := by rw [occurrences, occurrencesList_eq]

theorem mem_variables {n : Nnf} {x : Var} : x ∈ n.variables ↔ x ∈ n.occurrences := List.mem_eraseDups

theorem mem_occurrences_nary {j : Junction} {args : List Nnf} {x : Var} :
    x ∈ (nary j args).occurrences ↔ ∃ n ∈ args, x ∈ n.occurrences := by
  rw [occurrences_nary, List.mem_flatMap]

/-- The variables in a junction inside a normal form are variables in it. -/
theorem mem_occurrences_of_mem_junctions {n m : Nnf} {x : Var} (hm : m ∈ n.junctions) (hx : x ∈ m.occurrences) :
    x ∈ n.occurrences := by
  induction n with
  | const b => exact absurd hm List.not_mem_nil
  | lit l => exact absurd hm List.not_mem_nil
  | nary j args ih =>
    rcases mem_junctions_nary.mp hm with rfl | ⟨n, hn, hm⟩
    · exact hx
    · exact mem_occurrences_nary.mpr ⟨n, hn, ih n hn hm⟩

theorem mem_occurrences_of_mem_innerJunctions {n m : Nnf} {x : Var} (hm : m ∈ n.innerJunctions)
    (hx : x ∈ m.occurrences) : x ∈ n.occurrences := by
  cases n with
  | const b => exact absurd hm List.not_mem_nil
  | lit l => exact absurd hm List.not_mem_nil
  | nary j args => exact mem_occurrences_of_mem_junctions (List.mem_cons_of_mem _ hm) hx

/-- The truth value depends on the variables that occur. -/
theorem eval_congr {v w : Assignment} (n : Nnf) (h : ∀ x ∈ n.occurrences, v x = w x) : n.eval v = n.eval w := by
  induction n with
  | const b => rfl
  | lit l => simp [eval, Literal.eval, h l.var (by simp [occurrences])]
  | nary j args ih =>
    rw [eval_nary, eval_nary]
    exact Junction.across_congr fun n hn => ih n hn fun x hx => h x (mem_occurrences_nary.mpr ⟨n, hn, hx⟩)

end NormalForms.Nnf
