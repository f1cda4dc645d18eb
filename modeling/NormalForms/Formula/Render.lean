import NormalForms.Formula.Basic

/-!
Formulas as text. Arguments of connectives stand in parentheses unless they are tight: an atom, a
negation or a list in brackets. A conjunction or disjunction of one argument is written as that
argument, and the empty ones as the constants they are equivalent to. The arguments of a cardinality
constraint are separated by commas and need no parentheses of their own. -/

namespace NormalForms

def Symbols.constant (s : Symbols) (value : Bool) : String := if value then s.truth else s.falsehood

def Symbols.junction (s : Symbols) : Junction → String
  | .conj => s.conjunction
  | .disj => s.disjunction

def Symbols.quantifier (s : Symbols) : Quantifier → String
  | .existential => s.existential
  | .universal => s.universal

namespace Formula

/-- Whether the written formula needs no parentheses as an argument. -/
def isTight : Formula → Bool
  | const _ | var _ | lit _ | not _ | card .. => true
  | nary _ [] => true
  | nary _ [f] => f.isTight
  | nary _ (_ :: _ :: _) | implies .. | iff .. | quant .. => false

/-- Puts `text` into parentheses unless it is `tight`. -/
def parenthesize (tight : Bool) (text : String) : String := if tight then text else "(" ++ text ++ ")"

mutual

def render (s : Symbols) : Formula → String
  | const b => s.constant b
  | var x => x.name
  | lit l => l.render s
  | not f => s.negation ++ parenthesize f.isTight (f.render s)
  | nary j [] => s.constant j.unit
  | nary _ [f] => f.render s
  | nary j (f :: g :: fs) => (" " ++ s.junction j ++ " ").intercalate (renderOperands s (f :: g :: fs))
  | implies p c =>
    parenthesize p.isTight (p.render s) ++ " " ++ s.implication ++ " " ++ parenthesize c.isTight (c.render s)
  | iff l r =>
    parenthesize l.isTight (l.render s) ++ " " ++ s.equivalence ++ " " ++ parenthesize r.isTight (r.render s)
  | card c args => c.render ++ "(" ++ ", ".intercalate (renderList s args) ++ ")"
  | quant q xs f =>
    s.quantifier q ++ " " ++ ", ".intercalate (xs.map Var.name) ++ ". " ++ parenthesize f.isTight (f.render s)

/-- Each formula of the list, written as the whole formula. -/
def renderList (s : Symbols) : List Formula → List String
  | [] => []
  | f :: fs => f.render s :: renderList s fs

/-- Each formula of the list, written as an argument. -/
def renderOperands (s : Symbols) : List Formula → List String
  | [] => []
  | f :: fs => parenthesize f.isTight (f.render s) :: renderOperands s fs

end

def display (f : Formula) : String := f.render .unicode

@[simp]
theorem renderList_eq (s : Symbols) (fs : List Formula) : renderList s fs = fs.map (render s) := by
  induction fs with
  | nil => rfl
  | cons f fs ih => simp [renderList, ih]

@[simp]
theorem renderOperands_eq (s : Symbols) (fs : List Formula) :
    renderOperands s fs = fs.map fun f => parenthesize f.isTight (f.render s) := by
  induction fs with
  | nil => rfl
  | cons f fs ih => simp [renderOperands, ih]

end Formula
end NormalForms
