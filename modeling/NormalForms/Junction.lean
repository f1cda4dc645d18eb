/-!
The two n-ary connectives. A conjunction of nothing is true and a disjunction of nothing is false.
A clausal normal form is named by its outer connective: `conj` stands for conjunctive normal form,
a conjunction of disjunctions, and `disj` for disjunctive normal form. -/

namespace NormalForms

inductive Junction
  | conj
  | disj
deriving DecidableEq, Ord, Repr

namespace Junction

/-- The connective that De Morgan's laws exchange for `j`. -/
def dual : Junction → Junction
  | conj => disj
  | disj => conj

/-- The truth value that makes no difference among the arguments, which is also the value of the
    empty junction. -/
def unit : Junction → Bool
  | conj => true
  | disj => false

/-- Whether `p` holds of all of `xs`, or of one of them. -/
def across {α : Type u} (j : Junction) (xs : List α) (p : α → Bool) : Bool :=
  match j with
  | conj => xs.all p
  | disj => xs.any p

@[simp]
theorem dual_dual (j : Junction) : j.dual.dual = j := by cases j <;> rfl

@[simp]
theorem unit_dual (j : Junction) : j.dual.unit = !j.unit := by cases j <;> rfl

@[simp]
theorem across_nil {α : Type u} (j : Junction) (p : α → Bool) : j.across [] p = j.unit := by cases j <;> rfl

theorem across_cons {α : Type u} (j : Junction) (x : α) (xs : List α) (p : α → Bool) :
    j.across (x :: xs) p = if p x = j.unit then j.across xs p else !j.unit := by
  cases j <;> cases h : p x <;> simp [across, unit, h]

end Junction
end NormalForms
