import NormalForms.Junction

/-!
Truth values of junctions. A value is described by whether it is the unit of a junction: the `j` of
values is its unit if all of them are, and the dual of `j` if one of them is. Stated so, one lemma
serves conjunctive and disjunctive normal forms alike. -/

namespace NormalForms.Junction

variable {α : Type u} {β : Type w} {j : Junction} {xs ys : List α} {p q : α → Bool}

theorem eq_of_unit_iff {a b : Bool} (j : Junction) (h : a = j.unit ↔ b = j.unit) : a = b := by
  cases j <;> cases a <;> cases b <;> simp_all [unit]

theorem ne_unit_iff {a : Bool} : a ≠ j.unit ↔ a = !j.unit := by cases j <;> cases a <;> simp [unit]

theorem eq_dual_of_ne {i : Junction} (h : i ≠ j) : i = j.dual := by cases i <;> cases j <;> simp_all [dual]

theorem across_eq_unit_iff : j.across xs p = j.unit ↔ ∀ x ∈ xs, p x = j.unit := by
  cases j <;> simp [across, unit]

theorem across_dual_eq_unit_iff : j.dual.across xs p = j.unit ↔ ∃ x ∈ xs, p x = j.unit := by
  cases j <;> simp [across, unit, dual]

theorem across_congr (h : ∀ x ∈ xs, p x = q x) : j.across xs p = j.across xs q := by
  apply eq_of_unit_iff j
  rw [across_eq_unit_iff, across_eq_unit_iff]
  exact forall₂_congr fun x hx => by rw [h x hx]

theorem across_congr_mem (h : ∀ x, x ∈ xs ↔ x ∈ ys) : j.across xs p = j.across ys p := by
  apply eq_of_unit_iff j
  rw [across_eq_unit_iff, across_eq_unit_iff]
  exact forall_congr' fun x => by rw [h]

theorem across_map (f : β → α) (zs : List β) : j.across (zs.map f) p = j.across zs fun z => p (f z) := by
  apply eq_of_unit_iff j
  simp only [across_eq_unit_iff, List.mem_map, forall_exists_index, and_imp, forall_apply_eq_imp_iff₂]

theorem across_eq_of_map_eq {p : α → Bool} {q : β → Bool} {zs : List β} (h : xs.map p = zs.map q) :
    j.across xs p = j.across zs q := by
  have left : j.across (xs.map p) id = j.across xs p := across_map p xs
  have right : j.across (zs.map q) id = j.across zs q := across_map q zs
  rw [← left, h, right]

theorem across_flatMap (f : β → List α) (zs : List β) : j.across (zs.flatMap f) p = j.across zs fun z => j.across (f z) p := by
  apply eq_of_unit_iff j
  simp only [across_eq_unit_iff, List.mem_flatMap, forall_exists_index, and_imp]
  exact ⟨fun h z hz x hx => h x z hz hx, fun h x z hz hx => h z hz x hx⟩

theorem across_singleton (x : α) : j.across [x] p = p x := by cases j <;> simp [across]

theorem across_dual_not (j : Junction) (xs : List α) (p : α → Bool) : (j.dual.across xs fun x => !p x) = !j.across xs p := by
  cases j <;> simp [across, dual, List.not_all_eq_any_not, List.not_any_eq_all_not]

end NormalForms.Junction
