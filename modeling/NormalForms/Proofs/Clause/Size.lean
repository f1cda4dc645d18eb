import Mathlib.Algebra.GroupWithZero.Nat
import Mathlib.Algebra.Order.BigOperators.Group.List
import Mathlib.Algebra.Order.Group.Nat
import NormalForms.Proofs.Clause.Set
import NormalForms.Proofs.Formula.Basis

/-!
Numbers of literals. A clause has no more literals than the list it is made from, and a clause set no more than
the clauses that come into it. -/

namespace NormalForms

variable {c : Clause} {cs ds : List Clause} {S : ClauseSet}

namespace Clause

/-- The literals of all clauses in a list, those of a repeated clause counted each time. -/
def totalSize (cs : List Clause) : Nat := (cs.map size).sum

@[simp]
theorem totalSize_nil : totalSize [] = 0 := rfl

@[simp]
theorem totalSize_cons (c : Clause) (cs : List Clause) : totalSize (c :: cs) = c.size + totalSize cs := by
  rw [totalSize, List.map_cons, List.sum_cons]
  rfl

@[simp]
theorem totalSize_append (cs ds : List Clause) : totalSize (cs ++ ds) = totalSize cs + totalSize ds := by
  rw [totalSize, List.map_append, List.sum_append]
  rfl

theorem totalSize_le_of_sublist (h : cs.Sublist ds) : totalSize cs ≤ totalSize ds :=
  (h.map size).sum_le_sum fun _ _ => Nat.zero_le _

theorem totalSize_filter_le (p : Clause → Bool) (cs : List Clause) : totalSize (cs.filter p) ≤ totalSize cs :=
  totalSize_le_of_sublist List.filter_sublist

theorem totalSize_perm (h : cs.Perm ds) : totalSize cs = totalSize ds := (h.map size).sum_eq

/-- Clauses with at most `k` literals each. -/
theorem totalSize_le_mul {k : Nat} (h : ∀ c ∈ cs, c.size ≤ k) : totalSize cs ≤ k * cs.length := by
  rw [Nat.mul_comm]
  simpa [totalSize] using List.sum_le_card_nsmul (cs.map size) k (List.forall_mem_map.mpr h)

theorem size_ofList_le (ls : List Literal) : (ofList ls).size ≤ ls.length := by
  have among : (ofList ls).literals.Subperm ls := (ofList ls).nodup_literals.subperm fun _ hl => mem_ofList.mp hl
  exact among.length_le

theorem size_single (l : Literal) : (single l).size = 1 := rfl

end Clause

namespace ClauseSet

open Clause (totalSize)

theorem literalCount_eq (S : ClauseSet) : S.literalCount = totalSize S.clauses := by
  rw [literalCount, totalSize, ← List.foldl_map, List.sum_eq_foldl]

/-- Sets with the same clauses have as many literals, whatever the order of the clauses. -/
theorem literalCount_congr {T : ClauseSet} (h : ∀ c, c ∈ S ↔ c ∈ T) : S.literalCount = T.literalCount := by
  rw [literalCount_eq, literalCount_eq]
  exact Clause.totalSize_perm ((List.perm_ext_iff_of_nodup S.nodup T.nodup).mpr h)

theorem literalCount_insert (S : ClauseSet) (c : Clause) :
    (S.insert c).literalCount = S.literalCount + if S.contains c then 0 else c.size := by
  by_cases h : c ∈ S
  · simp [insert_of_mem h, h]
  · simp [literalCount, clauses_insert_of_not_mem h, h]

theorem literalCount_extend_le (S : ClauseSet) (cs : List Clause) :
    (S.extend cs).literalCount ≤ S.literalCount + totalSize cs := by
  induction cs generalizing S with
  | nil => exact Nat.le_refl _
  | cons c cs ih =>
    have rest : (S.extend (c :: cs)).literalCount ≤ (S.insert c).literalCount + totalSize cs := ih (S.insert c)
    rw [literalCount_insert] at rest
    rw [Clause.totalSize_cons]
    split at rest <;> omega

theorem literalCount_removeSubsumed_le (S : ClauseSet) : S.removeSubsumed.literalCount ≤ S.literalCount := by
  rw [literalCount_eq, literalCount_eq, ← Clause.totalSize_perm (stableSort_perm _ S.clauses)]
  exact Clause.totalSize_le_of_sublist (sublist_foldl_keepUnsubsumed [] _)

/-- The literals of a clause set are the occurrences of variables in the formula of it. -/
theorem length_occurrences_toFormula (j : Junction) (S : ClauseSet) :
    (S.toFormula j).occurrences.length = S.literalCount := by
  have clause : ∀ c : Clause, (c.toFormula j.dual).occurrences.length = c.size := by
    intro c
    rw [Clause.toFormula, Formula.occurrences_nary, List.flatMap_map]
    simp [Formula.occurrences, Formula.freeOccurrences, Clause.size]
  rw [toFormula, Formula.occurrences_nary, List.flatMap_map, List.length_flatMap, literalCount_eq, totalSize]
  simp only [clause]

end ClauseSet
end NormalForms
