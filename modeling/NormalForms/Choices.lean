/-! Choices of a number of elements of a list. -/

namespace NormalForms

/-- The lists of `n` elements at different places of a list, each in the order of the places; the
    lists come in lexicographic order of their places. -/
def choices {α : Type u} : Nat → List α → List (List α)
  | 0, _ => [[]]
  | _ + 1, [] => []
  | n + 1, a :: as => (choices n as).map (a :: ·) ++ choices (n + 1) as

end NormalForms
