import Std.Data.TreeSet.Lemmas

/-! Variables. They are ordered by name, code point by code point. -/

namespace NormalForms

/-- A propositional variable. Any text is a name. -/
structure Var where
  name : String
deriving DecidableEq, Inhabited, Repr

instance : Ord Var := ⟨compareOn Var.name⟩

instance : Std.TransOrd Var := inferInstanceAs (Std.TransCmp (compareOn Var.name))

instance : Std.LawfulEqOrd Var where
  eq_of_compare {a b} h := by
    cases a
    cases b
    exact congrArg Var.mk (Std.LawfulEqOrd.eq_of_compare (α := String) h)

/-- A choice of truth values for all variables. -/
abbrev Assignment := Var → Bool

end NormalForms
