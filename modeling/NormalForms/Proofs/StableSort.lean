import Mathlib.Data.List.Forall2
import Mathlib.Data.List.Sort
import NormalForms.StableSort

/-!
Sorting by insertion. The sorted list ascends in its key, elements of one key stay in their order, and lists whose
elements are related, one by one and with the same keys, stay related when they are sorted. -/

namespace NormalForms

variable {α : Type u} {β : Type w} {R : α → β → Prop} {key : α → Nat} {key' : β → Nat}

theorem insertSorted_eq (le : α → α → Bool) (a : α) (bs : List α) :
    insertSorted le a bs = bs.orderedInsert (fun a b => le a b = true) a := by
  induction bs with
  | nil => rfl
  | cons b bs ih => rw [insertSorted, List.orderedInsert, ih]

theorem stableSort_eq (le : α → α → Bool) (as : List α) :
    stableSort le as = as.insertionSort fun a b => le a b = true := by
  induction as with
  | nil => rfl
  | cons a as ih => rw [stableSort, insertSorted_eq, ih, List.insertionSort_cons]

theorem sortOn_ascending (key : α → Nat) (as : List α) : (sortOn key as).Pairwise fun a b => key a ≤ key b := by
  have total : Std.Total fun a b : α => decide (key a ≤ key b) = true := ⟨fun a b => by simpa using Nat.le_total _ _⟩
  have trans : IsTrans α fun a b => decide (key a ≤ key b) = true := ⟨fun a b c => by simpa using Nat.le_trans⟩
  rw [sortOn, stableSort_eq]
  simpa using List.pairwise_insertionSort (fun a b => decide (key a ≤ key b) = true) as

theorem forall₂_insertSorted {a : α} {b : β} {as : List α} {bs : List β} (hkey : ∀ a b, R a b → key a = key' b)
    (hab : R a b) (h : List.Forall₂ R as bs) :
    List.Forall₂ R (insertSorted (fun a b => key a ≤ key b) a as) (insertSorted (fun a b => key' a ≤ key' b) b bs) := by
  induction h with
  | nil => exact .cons hab .nil
  | @cons a' b' as bs hab' h ih =>
    rw [insertSorted, insertSorted, hkey a b hab, hkey a' b' hab']
    split
    · exact .cons hab (.cons hab' h)
    · exact .cons hab' ih

theorem forall₂_sortOn {as : List α} {bs : List β} (hkey : ∀ a b, R a b → key a = key' b) (h : List.Forall₂ R as bs) :
    List.Forall₂ R (sortOn key as) (sortOn key' bs) := by
  induction h with
  | nil => exact .nil
  | cons hab h ih => exact forall₂_insertSorted hkey hab ih

theorem sortOn_map (f : α → β) (hkey : ∀ a, key a = key' (f a)) (as : List α) :
    sortOn key' (as.map f) = (sortOn key as).map f := by
  have images : List.Forall₂ (fun a b => f a = b) as (as.map f) := by
    rw [← List.forall₂_map_left_iff, List.forall₂_eq_eq_eq]
  have sorted : List.Forall₂ (fun a b => f a = b) (sortOn key as) (sortOn key' (as.map f)) :=
    forall₂_sortOn (fun a b h => by rw [hkey, h]) images
  rw [← List.forall₂_map_left_iff, List.forall₂_eq_eq_eq] at sorted
  exact sorted.symm

theorem sortOn_eq_self {as : List α} (h : as.Pairwise fun a b => key a ≤ key b) : sortOn key as = as := by
  rw [sortOn, stableSort_eq]
  exact List.Pairwise.insertionSort_eq (by simpa using h)

theorem insertSorted_of_forall {le : α → α → Bool} {a : α} {bs : List α} (h : ∀ b ∈ bs, le a b = true) :
    insertSorted le a bs = a :: bs := by
  cases bs with
  | nil => rfl
  | cons b bs => exact if_pos (h b List.mem_cons_self)

/-- An element that comes in is left out with the others, or takes its place among those that are not. -/
theorem filter_insertSorted (p : α → Bool) (a : α) {bs : List α} (h : bs.Pairwise fun a b => key a ≤ key b) :
    (insertSorted (fun a b => key a ≤ key b) a bs).filter p =
      if p a then insertSorted (fun a b => key a ≤ key b) a (bs.filter p) else bs.filter p := by
  induction bs with
  | nil => rw [insertSorted, List.filter_singleton, List.filter_nil, insertSorted]; cases p a <;> rfl
  | cons b bs ih =>
    obtain ⟨hb, hbs⟩ := List.pairwise_cons.mp h
    rw [insertSorted]
    split
    · rename_i hab
      have first : ∀ c ∈ (b :: bs).filter p, decide (key a ≤ key c) = true := by
        intro c hc
        rcases List.mem_cons.mp (List.mem_of_mem_filter hc) with rfl | hc
        · exact hab
        · exact decide_eq_true (Nat.le_trans (of_decide_eq_true hab) (hb c hc))
      rw [insertSorted_of_forall first, List.filter_cons]
    · rename_i hab
      rw [List.filter_cons, List.filter_cons, ih hbs]
      cases hpa : p a <;> cases hpb : p b <;> simp [insertSorted, hab]

/-- It makes no difference whether elements are left out before or after sorting. -/
theorem sortOn_filter (key : α → Nat) (p : α → Bool) (as : List α) : sortOn key (as.filter p) = (sortOn key as).filter p := by
  induction as with
  | nil => rfl
  | cons a as ih =>
    have step : sortOn key (a :: as) = insertSorted (fun a b => key a ≤ key b) a (sortOn key as) := rfl
    rw [step, filter_insertSorted p a (sortOn_ascending key as), ← ih, List.filter_cons]
    split <;> rfl

/-- Elements with one key stay in their order. -/
theorem filter_key_sortOn (key : α → Nat) (k : Nat) (as : List α) :
    (sortOn key as).filter (fun a => key a == k) = as.filter fun a => key a == k := by
  rw [← sortOn_filter]
  refine sortOn_eq_self (List.pairwise_filter.mpr (List.pairwise_of_forall fun a b => ?_))
  intro ha hb
  rw [beq_iff_eq] at ha hb
  omega

end NormalForms
