import NormalForms.Classification
import NormalForms.Formula.Eval
import NormalForms.Proofs.Formula.Basis

/-!
The missing connectives around a formula. A junction of one formula has its value and its variables, so
putting it around a literal or around the whole changes neither. -/

namespace NormalForms.Formula

variable {i j : Junction} {v : Assignment} {f : Formula} {fs : List Formula} {p : Formula → Formula} {x : Var}

theorem eval_singleton (i : Junction) (v : Assignment) (f : Formula) : (nary i [f]).eval v = f.eval v := by
  rw [eval, evalJunction]
  cases hf : f.eval v with
  | error d => rfl
  | ok b =>
    by_cases hb : b = i.unit
    · rw [hb]
      exact if_pos rfl
    · rw [Junction.ne_unit_iff.mp hb]
      exact if_neg (by cases i.unit <;> simp)

theorem eval_nary_map (h : ∀ f ∈ fs, (p f).eval v = f.eval v) : (nary j (fs.map p)).eval v = (nary j fs).eval v := by
  rw [eval, eval]
  induction fs with
  | nil => rfl
  | cons f fs ih =>
    rw [List.map_cons, evalJunction, evalJunction, h f List.mem_cons_self,
      ih fun g hg => h g (List.mem_cons_of_mem f hg)]

theorem occurrences_singleton (i : Junction) (f : Formula) : (nary i [f]).occurrences = f.occurrences := by
  rw [occurrences_nary, List.flatMap_singleton]

/-- A junction of a list is the formula whose arguments they are. -/
theorem eq_of_args? (h : f.args? j = some fs) : f = nary j fs := by
  cases f with
  | nary i args =>
    rw [args?] at h
    split at h
    · rename_i hi
      cases h
      rw [hi]
    · cases h
  | _ => cases h

theorem eval_reshape (j : Junction) (v : Assignment) (f : Formula) : (f.reshape j).eval v = f.eval v := by
  have wrap : ∀ c : Formula, (if c.isLiteral then nary j.dual [c] else c).eval v = c.eval v := by
    intro c
    split
    · exact eval_singleton j.dual v c
    · rfl
  unfold reshape
  split
  · rename_i args hargs
    rw [eq_of_args? hargs]
    exact eval_nary_map fun c _ => wrap c
  · rw [eval_singleton]
    exact wrap f

theorem mem_variables_reshape : x ∈ (f.reshape j).variables ↔ x ∈ f.variables := by
  have wrap : ∀ c : Formula, (if c.isLiteral then nary j.dual [c] else c).occurrences = c.occurrences := by
    intro c
    split
    · exact occurrences_singleton j.dual c
    · rfl
  rw [mem_variables, mem_variables, reshape]
  split
  · rename_i args hargs
    rw [eq_of_args? hargs, occurrences_nary, occurrences_nary, List.flatMap_map]
    simp only [wrap]
  · rw [occurrences_singleton, wrap]

end NormalForms.Formula
