/-!
Sorting by insertion. Elements that `le` does not tell apart keep their order. The recursion is on
the list alone, so a sorted list is computed wherever a term is evaluated. -/

namespace NormalForms

/-- Puts `a` before the first element that it may precede. -/
def insertSorted {α : Type u} (le : α → α → Bool) (a : α) : List α → List α
  | [] => [a]
  | b :: bs => if le a b then a :: b :: bs else b :: insertSorted le a bs

/-- The list in ascending order; elements that tie stay in their order. -/
def stableSort {α : Type u} (le : α → α → Bool) : List α → List α
  | [] => []
  | a :: as => insertSorted le a (stableSort le as)

/-- The list in ascending order of `key`; elements of one key stay in their order. -/
def sortOn {α : Type u} (key : α → Nat) (as : List α) : List α :=
  stableSort (fun a b => key a ≤ key b) as

theorem insertSorted_perm {α : Type u} (le : α → α → Bool) (a : α) (bs : List α) :
    (insertSorted le a bs).Perm (a :: bs) := by
  induction bs with
  | nil => exact .refl _
  | cons b bs ih =>
    simp only [insertSorted]
    split
    · exact .refl _
    · exact (ih.cons b).trans (.swap a b bs)

theorem stableSort_perm {α : Type u} (le : α → α → Bool) (as : List α) : (stableSort le as).Perm as := by
  induction as with
  | nil => exact .refl _
  | cons a as ih => exact (insertSorted_perm le a _).trans (ih.cons a)

@[simp]
theorem mem_stableSort {α : Type u} {le : α → α → Bool} {a : α} {as : List α} : a ∈ stableSort le as ↔ a ∈ as :=
  (stableSort_perm le as).mem_iff

end NormalForms
