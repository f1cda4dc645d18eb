import Mathlib.Data.List.Forall2
import Mathlib.Data.List.Perm.Subperm
import Mathlib.Data.List.Sort
import NormalForms.Choices

/-!
Choices of elements of a list: which places they take and in which order they come, whether one of them avoids
the elements without a property, and which elements choices among related lists relate. -/

namespace NormalForms

variable {α : Type u} {β : Type w}

/-! ### Places -/

theorem choices_map (f : α → β) (n : Nat) (as : List α) : choices n (as.map f) = (choices n as).map (List.map f) := by
  induction as generalizing n with
  | nil => cases n <;> rfl
  | cons a as ih =>
    cases n with
    | zero => rfl
    | succ n => simp [choices, ih, Function.comp_def]

theorem mem_choices_iff {n : Nat} {as cs : List α} : cs ∈ choices n as ↔ cs.length = n ∧ cs.Sublist as := by
  induction as generalizing n cs with
  | nil =>
    rw [List.sublist_nil]
    cases n <;> cases cs <;> simp [choices]
  | cons a as ih =>
    cases n with
    | zero => simp +contextual [choices, List.length_eq_zero_iff]
    | succ n =>
      rw [choices, List.mem_append, List.mem_map, ih, List.sublist_cons_iff, and_or_left, or_comm]
      refine or_congr_right ⟨?_, ?_⟩
      · rintro ⟨ds, hds, rfl⟩
        obtain ⟨hlen, hsub⟩ := ih.mp hds
        exact ⟨congrArg Nat.succ hlen, ds, rfl, hsub⟩
      · rintro ⟨hlen, ds, rfl, hsub⟩
        exact ⟨ds, ih.mpr ⟨Nat.succ_inj.mp hlen, hsub⟩, rfl⟩

theorem mem_of_mem_choices {n : Nat} {as cs : List α} {a : α} (hc : cs ∈ choices n as) (ha : a ∈ cs) : a ∈ as :=
  (mem_choices_iff.mp hc).2.subset ha

/-- Among ascending numbers the choices ascend, as words in a dictionary. -/
theorem choices_ascending {n : Nat} {as : List Nat} (h : as.Pairwise (· < ·)) : (choices n as).Pairwise (· < ·) := by
  induction as generalizing n with
  | nil => cases n <;> simp [choices]
  | cons a as ih =>
    cases n with
    | zero => simp [choices]
    | succ n =>
      obtain ⟨ha, has⟩ := List.pairwise_cons.mp h
      rw [choices, List.pairwise_append, List.pairwise_map]
      refine ⟨(ih has).imp fun hlt => List.cons_lt_cons_iff.mpr (.inr ⟨rfl, hlt⟩), ih has, fun cs hcs ds hds => ?_⟩
      obtain ⟨es, -, rfl⟩ := List.mem_map.mp hcs
      -- A choice without the first number begins with a larger one.
      obtain ⟨hlen, hsub⟩ := mem_choices_iff.mp hds
      cases ds with
      | nil => cases hlen
      | cons d ds => exact List.cons_lt_cons_iff.mpr (.inl (ha d (hsub.subset List.mem_cons_self)))

/-- The choices among the places of a list take every ascending list of `n` places once, in the order of a
    dictionary, and the choices among its elements are the elements at these places. -/
theorem choices_at_places (n : Nat) (as : List α) :
    let places := choices n (List.range as.length)
    places.Pairwise (· < ·) ∧
      (∀ ps, ps ∈ places ↔ ps.length = n ∧ ps.Pairwise (· < ·) ∧ ∀ p ∈ ps, p < as.length) ∧
      (choices n as).map (List.map some) = places.map (List.map (as[·]?)) := by
  have ascending : (List.range as.length).Pairwise (· < ·) := List.pairwise_lt_range
  refine ⟨choices_ascending ascending, fun ps => ?_, ?_⟩
  · rw [mem_choices_iff]
    refine and_congr_right fun _ => ⟨fun h => ⟨ascending.sublist h, fun p hp => List.mem_range.mp (h.subset hp)⟩, ?_⟩
    rintro ⟨hps, hlt⟩
    have distinct : ps.Nodup := hps.imp Nat.ne_of_lt
    have among : ps ⊆ List.range as.length := fun p hp => List.mem_range.mpr (hlt p hp)
    exact List.sublist_of_subperm_of_pairwise (distinct.subperm among) hps ascending
  · rw [← choices_map, ← choices_map]
    congr 1
    exact List.ext_getElem (by simp) (by simp)

/-! ### Properties of the elements chosen -/

/-- A choice of `n` elements with the property exists if and only if at least `n` elements have it. -/
theorem exists_choice_iff (p : α → Bool) (n : Nat) (as : List α) :
    (∃ cs ∈ choices n as, ∀ a ∈ cs, p a = true) ↔ n ≤ as.countP p := by
  induction as generalizing n with
  | nil => cases n <;> simp [choices]
  | cons a as ih =>
    cases n with
    | zero => simp [choices]
    | succ n =>
      have first : (∃ cs ∈ (choices n as).map (a :: ·), ∀ b ∈ cs, p b = true) ↔ p a = true ∧ n ≤ as.countP p := by
        rw [← ih]
        constructor
        · rintro ⟨cs, hcs, hall⟩
          obtain ⟨ds, hds, rfl⟩ := List.mem_map.mp hcs
          exact ⟨hall a List.mem_cons_self, ds, hds, fun b hb => hall b (List.mem_cons_of_mem a hb)⟩
        · rintro ⟨ha, ds, hds, hall⟩
          exact ⟨a :: ds, List.mem_map_of_mem hds, List.forall_mem_cons.mpr ⟨ha, hall⟩⟩
      have split : (∃ cs ∈ choices (n + 1) (a :: as), ∀ b ∈ cs, p b = true) ↔
          (p a = true ∧ n ≤ as.countP p) ∨ n + 1 ≤ as.countP p := by
        rw [← first, ← ih]
        simp only [choices, List.mem_append, or_and_right, exists_or]
      rw [split, List.countP_cons]
      cases p a
      · simp
      · simp
        omega

/-- Choices at the same places of related lists are related. -/
theorem forall₂_choices {R : α → β → Prop} {as : List α} {bs : List β} (h : List.Forall₂ R as bs) (n : Nat) :
    List.Forall₂ (List.Forall₂ R) (choices n as) (choices n bs) := by
  induction h generalizing n with
  | nil => cases n <;> simp [choices]
  | @cons a b as bs hab h ih =>
    cases n with
    | zero => exact .cons .nil .nil
    | succ n =>
      have heads : List.Forall₂ (List.Forall₂ R) ((choices n as).map (a :: ·)) ((choices n bs).map (b :: ·)) :=
        List.rel_map (fun _ _ hcd => .cons hab hcd) (ih n)
      exact List.rel_append heads (ih (n + 1))

end NormalForms
