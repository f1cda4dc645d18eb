import Mathlib.Data.List.Perm.Subperm
import NormalForms.Clause.Formula
import NormalForms.Formula.Variables
import NormalForms.Proofs.Formula.Eval

/-!
Truth values of clauses. In the `j` normal form a clause stands for the dual junction of its literals, so
it has the value of the unit of `j` if one of its literals has. A clause with complementary literals
always has it, and so has a clause that contains a clause which has it. -/

namespace NormalForms

theorem Literal.eval_eq_of_var {v w : Assignment} {l : Literal} (h : v l.var = w l.var) : l.eval v = l.eval w := by
  rw [Literal.eval, Literal.eval, h]

theorem Literal.complement_ne (l : Literal) : l.complement ≠ l := by
  intro h
  have := congrArg negated h
  cases hn : l.negated <;> simp [complement, hn] at this

/-- Of complementary literals exactly one has a given value. -/
theorem Literal.eval_complement_eq_iff {v : Assignment} {l : Literal} {b : Bool} :
    l.complement.eval v = b ↔ l.eval v ≠ b := by
  rw [eval_complement]
  cases l.eval v <;> cases b <;> simp

namespace Clause

variable {j : Junction} {v w : Assignment} {c d : Clause} {ls : List Literal}

theorem eval_dual_eq_unit_iff : c.eval j.dual v = j.unit ↔ ∃ l ∈ c, l.eval v = j.unit :=
  Junction.across_dual_eq_unit_iff

theorem eval_ofList (j : Junction) (v : Assignment) (ls : List Literal) :
    (ofList ls).eval j v = j.across ls fun l => l.eval v :=
  Junction.across_congr_mem fun _ => mem_ofList

theorem eval_single (j : Junction) (v : Assignment) (l : Literal) : (single l).eval j v = l.eval v := by
  have : (single l).eval j v = j.across [l] fun l => l.eval v :=
    Junction.across_congr_mem fun m => by rw [← mem_def, mem_single, List.mem_singleton]
  rw [this, Junction.across_singleton]

theorem eval_union_eq_unit_iff :
    (c.union d).eval j.dual v = j.unit ↔ c.eval j.dual v = j.unit ∨ d.eval j.dual v = j.unit := by
  simp only [eval_dual_eq_unit_iff, mem_union, or_and_right, exists_or]

theorem eval_congr (h : ∀ l ∈ c, v l.var = w l.var) : c.eval j v = c.eval j w :=
  Junction.across_congr fun l hl => Literal.eval_eq_of_var (h l hl)

theorem mem_variables {x : Var} : x ∈ c.variables ↔ ∃ l ∈ c, l.var = x := by
  rw [Clause.variables, List.mem_eraseDups, List.mem_map]
  rfl

theorem isTautology_iff : c.isTautology = true ↔ ∃ l ∈ c, l.complement ∈ c := by
  simp only [isTautology, List.any_eq_true, Bool.and_eq_true, contains_iff]
  constructor
  · rintro ⟨l, hl, -, hc⟩
    exact ⟨l, hl, hc⟩
  · rintro ⟨l, hl, hc⟩
    cases hn : l.negated
    · exact ⟨l, hl, by simp [hn], hc⟩
    · exact ⟨l.complement, hc, by simp [Literal.complement, hn], by rwa [Literal.complement_complement]⟩

theorem isTautology_eq_false_iff : c.isTautology = false ↔ ∀ l ∈ c, l.complement ∉ c := by
  rw [← Bool.not_eq_true, isTautology_iff]
  simp only [not_exists, not_and]

theorem nodup_literals (c : Clause) : c.literals.Nodup :=
  c.ascending.imp fun h heq => by simp [heq] at h

theorem not_isTautology_single (l : Literal) : (single l).isTautology = false := by
  rw [isTautology_eq_false_iff]
  intro m hm
  rw [mem_single] at hm ⊢
  rw [hm]
  exact l.complement_ne

/-- No literal of a list is lost in its clause exactly if none repeats. -/
theorem size_ofList_eq_iff : (ofList ls).size = ls.length ↔ ls.Nodup := by
  have nodup := (ofList ls).nodup_literals
  have mem : ∀ l, l ∈ (ofList ls).literals ↔ l ∈ ls := fun l => mem_ofList
  constructor
  · intro h
    have among : (ofList ls).literals.Subperm ls := nodup.subperm fun l hl => (mem l).mp hl
    exact (among.perm_of_length_le (Nat.le_of_eq h.symm)).nodup_iff.mp nodup
  · intro h
    exact ((List.perm_ext_iff_of_nodup nodup h).mpr mem).length_eq

theorem eval_of_isTautology (h : c.isTautology = true) : c.eval j.dual v = j.unit := by
  obtain ⟨l, hl, hc⟩ := isTautology_iff.mp h
  rw [eval_dual_eq_unit_iff]
  by_cases hv : l.eval v = j.unit
  · exact ⟨l, hl, hv⟩
  · exact ⟨l.complement, hc, Literal.eval_complement_eq_iff.mpr hv⟩

theorem eval_of_subsumes (h : c.subsumes d = true) (hc : c.eval j.dual v = j.unit) : d.eval j.dual v = j.unit := by
  rw [eval_dual_eq_unit_iff] at hc ⊢
  obtain ⟨l, hl, hv⟩ := hc
  exact ⟨l, subsumes_iff.mp h l hl, hv⟩

theorem clashes_iff : c.clashes d = true ↔ ∃ l ∈ c, l.complement ∈ d := by
  simp only [clashes, List.any_eq_true, contains_iff]
  rfl

theorem eval_toFormula (i : Junction) (v : Assignment) (c : Clause) : (c.toFormula i).eval v = .ok (c.eval i v) := by
  rw [toFormula, Formula.eval_nary i (Formula.values_map (q := fun l => l.eval v) fun _ _ => rfl), Junction.across_map]
  rfl

theorem freeOccurrences_toFormula (bound : List Var) (i : Junction) (c : Clause) {x : Var} :
    x ∈ (c.toFormula i).freeOccurrences bound ↔ x ∉ bound ∧ ∃ l ∈ c, l.var = x := by
  rw [toFormula, Formula.freeOccurrences, Formula.freeOccurrencesList_eq, List.flatMap_map, List.mem_flatMap]
  constructor
  · rintro ⟨l, hl, hx⟩
    rw [Formula.freeOccurrences] at hx
    split at hx
    · simp at hx
    · rename_i hb
      obtain rfl := List.mem_singleton.mp hx
      exact ⟨by simpa using hb, l, hl, rfl⟩
  · rintro ⟨hb, l, hl, rfl⟩
    exact ⟨l, hl, by simp [Formula.freeOccurrences, hb]⟩

end Clause
end NormalForms
