import Mathlib.Data.List.Induction
import Mathlib.Data.List.Perm.Subperm

/-! The distinct members of a list, in the order of their first occurrences. -/

namespace NormalForms

variable {α : Type} [BEq α] [LawfulBEq α] {as bs : List α}

theorem nodup_eraseDups (as : List α) : as.eraseDups.Nodup := by
  match as with
  | [] => exact .nil
  | a :: as =>
    have shorter : (as.filter fun b => !b == a).length < as.length + 1 :=
      Nat.lt_succ_of_le (List.length_filter_le _ as)
    rw [List.eraseDups_cons, List.nodup_cons, List.mem_eraseDups]
    exact ⟨by simp, nodup_eraseDups (as.filter fun b => !b == a)⟩
termination_by as.length

theorem eraseDups_of_nodup {as : List α} (h : as.Nodup) : as.eraseDups = as := by
  induction as with
  | nil => rfl
  | cons a as ih =>
    obtain ⟨ha, has⟩ := List.nodup_cons.mp h
    have others : (as.filter fun b => !b == a) = as := by
      refine List.filter_eq_self.mpr fun b hb => ?_
      have apart : b ≠ a := fun hba => ha (hba ▸ hb)
      simpa using apart
    rw [List.eraseDups_cons, others, ih has]

theorem eraseDups_concat_of_mem {a : α} (h : a ∈ as) : (as ++ [a]).eraseDups = as.eraseDups := by
  rw [List.eraseDups_append, show [a].removeAll as = [] by simp [List.removeAll, h], List.eraseDups_nil, List.append_nil]

theorem eraseDups_concat_of_not_mem {a : α} (h : a ∉ as) : (as ++ [a]).eraseDups = as.eraseDups ++ [a] := by
  rw [List.eraseDups_append, show [a].removeAll as = [a] by simp [List.removeAll, h]]
  rfl

theorem eraseDups_sublist (as : List α) : as.eraseDups.Sublist as := by
  induction as using List.reverseRecOn with
  | nil => exact .slnil
  | append_singleton as a ih =>
    by_cases ha : a ∈ as
    · rw [eraseDups_concat_of_mem ha]
      exact ih.trans (List.sublist_append_left as [a])
    · rw [eraseDups_concat_of_not_mem ha]
      exact ih.append_right [a]

theorem eraseDups_append_of_subset (h : bs ⊆ as) : (as ++ bs).eraseDups = as.eraseDups := by
  have nothing : bs.removeAll as = [] := List.filter_eq_nil_iff.mpr fun b hb => by simp [h hb]
  rw [List.eraseDups_append, nothing, List.eraseDups_nil, List.append_nil]

/-- What is appended after repetitions are dropped is compared with the same members. -/
theorem eraseDups_eraseDups_append (as bs : List α) : (as.eraseDups ++ bs).eraseDups = (as ++ bs).eraseDups := by
  have compared : bs.removeAll as.eraseDups = bs.removeAll as := by simp [List.removeAll]
  rw [List.eraseDups_append, List.eraseDups_append, eraseDups_of_nodup (nodup_eraseDups as), compared]

theorem eraseDups_filter (p : α → Bool) (as : List α) : (as.filter p).eraseDups = as.eraseDups.filter p := by
  induction as using List.reverseRecOn with
  | nil => rfl
  | append_singleton as a ih =>
    rw [List.filter_append, List.filter_singleton]
    cases hp : p a with
    | false =>
      rw [Bool.cond_false, List.append_nil, ih]
      by_cases ha : a ∈ as
      · rw [eraseDups_concat_of_mem ha]
      · rw [eraseDups_concat_of_not_mem ha, List.filter_append, List.filter_singleton, hp, Bool.cond_false, List.append_nil]
    | true =>
      rw [Bool.cond_true]
      by_cases ha : a ∈ as
      · rw [eraseDups_concat_of_mem ha, eraseDups_concat_of_mem (List.mem_filter.mpr ⟨ha, hp⟩), ih]
      · have absent : a ∉ as.filter p := fun h => ha (List.mem_filter.mp h).1
        rw [eraseDups_concat_of_not_mem ha, eraseDups_concat_of_not_mem absent, ih, List.filter_append,
          List.filter_singleton, hp, Bool.cond_true]

theorem eraseDups_append_congr {cs : List α} (h : bs.eraseDups = cs.eraseDups) :
    (as ++ bs).eraseDups = (as ++ cs).eraseDups := by
  rw [List.eraseDups_append, List.eraseDups_append, List.removeAll, List.removeAll, eraseDups_filter, eraseDups_filter, h]

/-- Repetitions can be dropped from each of several lists before they are joined. -/
theorem eraseDups_flatMap_eraseDups {β : Type} (g : β → List α) (xs : List β) :
    (xs.flatMap fun x => (g x).eraseDups).eraseDups = (xs.flatMap g).eraseDups := by
  induction xs with
  | nil => rfl
  | cons x xs ih => rw [List.flatMap_cons, List.flatMap_cons, eraseDups_eraseDups_append, eraseDups_append_congr ih]

/-- Each of the distinct members occurs before the first occurrence of all that come after it. -/
theorem pairwise_eraseDups (as : List α) :
    as.eraseDups.Pairwise fun a b => ∃ before after, as = before ++ a :: after ∧ b ∉ before := by
  induction as using List.reverseRecOn with
  | nil => exact .nil
  | append_singleton as a ih =>
    have extended : as.eraseDups.Pairwise fun x y => ∃ before after, as ++ [a] = before ++ x :: after ∧ y ∉ before := by
      refine ih.imp ?_
      rintro x y ⟨before, after, rfl, hy⟩
      exact ⟨before, after ++ [a], by simp, hy⟩
    by_cases ha : a ∈ as
    · rwa [eraseDups_concat_of_mem ha]
    · rw [eraseDups_concat_of_not_mem ha, List.pairwise_append]
      refine ⟨extended, List.pairwise_singleton _ a, fun x hx y hy => ?_⟩
      rw [List.mem_singleton.mp hy]
      obtain ⟨before, after, rfl⟩ := List.append_of_mem (List.mem_eraseDups.mp hx)
      exact ⟨before, after ++ [a], by simp, fun h => ha (List.mem_append_left _ h)⟩

/-- Repetitions stay where they are under a map that keeps distinct elements distinct. -/
theorem eraseDups_map {β : Type} [BEq β] [LawfulBEq β] {f : α → β} (hf : Function.Injective f) (as : List α) :
    (as.map f).eraseDups = as.eraseDups.map f := by
  induction as using List.reverseRecOn with
  | nil => rfl
  | append_singleton as a ih =>
    rw [List.map_append, List.map_singleton]
    by_cases ha : a ∈ as
    · rw [eraseDups_concat_of_mem ha, eraseDups_concat_of_mem (List.mem_map_of_mem ha), ih]
    · have absent : f a ∉ as.map f := by rwa [List.mem_map_of_injective hf]
      rw [eraseDups_concat_of_not_mem ha, eraseDups_concat_of_not_mem absent, ih, List.map_append, List.map_singleton]

/-- A sublist of distinct elements is told apart from the others by any property that only its members have. -/
theorem eq_filter_of_sublist {α : Type} {as bs : List α} {p : α → Bool} (h : as.Sublist bs) (hbs : bs.Nodup)
    (hp : ∀ b ∈ bs, b ∈ as ↔ p b = true) : as = bs.filter p := by
  have kept : as.filter p = as := List.filter_eq_self.mpr fun a ha => (hp a (h.subset ha)).mp ha
  have among : as.Sublist (bs.filter p) := by
    rw [← kept]
    exact h.filter p
  have distinct : (bs.filter p).Nodup := List.Pairwise.filter p hbs
  refine among.eq_of_length_le (distinct.length_le_of_subset fun b hb => ?_)
  obtain ⟨hb, hpb⟩ := List.mem_filter.mp hb
  exact (hp b hb).mpr hpb

theorem length_eraseDups_le (h : as ⊆ bs) : as.eraseDups.length ≤ bs.eraseDups.length :=
  (nodup_eraseDups as).length_le_of_subset fun _ ha => List.mem_eraseDups.mpr (h (List.mem_eraseDups.mp ha))

end NormalForms
