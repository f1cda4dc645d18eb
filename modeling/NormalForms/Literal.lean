import NormalForms.Symbols
import NormalForms.Var

/-!
Literals. They are ordered by polarity first: all positive literals come before all negative ones,
and within a polarity the variables decide. -/

namespace NormalForms

structure Literal where
  negated : Bool
  var : Var
deriving DecidableEq, Repr

instance : Ord Literal := ⟨compareLex (compareOn Literal.negated) (compareOn Literal.var)⟩

instance : Std.TransOrd Literal :=
  inferInstanceAs (Std.TransCmp (compareLex (compareOn Literal.negated) (compareOn Literal.var)))

instance : Std.LawfulEqOrd Literal where
  eq_of_compare {a b} h := by
    have h' : compareLex (compareOn Literal.negated) (compareOn Literal.var) a b = .eq := h
    rw [compareLex_eq_eq] at h'
    cases a
    cases b
    exact congr (congrArg Literal.mk (Std.LawfulEqOrd.eq_of_compare (α := Bool) h'.1))
      (Std.LawfulEqOrd.eq_of_compare (α := Var) h'.2)

namespace Literal

def pos (x : Var) : Literal := ⟨false, x⟩

def neg (x : Var) : Literal := ⟨true, x⟩

/-- The literal of the same variable with the opposite polarity. -/
def complement (l : Literal) : Literal := { l with negated := !l.negated }

def eval (v : Assignment) (l : Literal) : Bool := v l.var != l.negated

/-- The name, behind a sign of negation for a negative literal. -/
def render (s : Symbols) (l : Literal) : String :=
  if l.negated then s.negation ++ l.var.name else l.var.name

@[simp]
theorem complement_complement (l : Literal) : l.complement.complement = l := by simp [complement]

@[simp]
theorem eval_complement (v : Assignment) (l : Literal) : l.complement.eval v = !l.eval v := by
  cases l with
  | mk n x => cases n <;> cases h : v x <;> simp [eval, complement, h]

end Literal
end NormalForms
