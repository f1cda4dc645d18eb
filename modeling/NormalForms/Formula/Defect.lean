import NormalForms.Formula.Connective
import NormalForms.Formula.Render

/-!
What can be wrong with a formula: a connective with too many or too few arguments, a range that
contains no number, a quantifier that binds nothing, and a quantified formula where a propositional
one is expected. `validate` finds the first ill-formed node on the way from left to right. -/

namespace NormalForms

inductive Defect
  | badArity (connective : Connective) (expected found : Nat)
  | badBounds (lower upper : Nat)
  | emptyQuantifier (f : Formula)
  | notPropositional (f : Formula)
deriving DecidableEq

namespace Defect

def message : Defect → String
  | badArity connective expected found =>
    "connective `" ++ connective.render ++ "` expects " ++ toString expected ++ " argument(s), found " ++
      toString found
  | badBounds lower upper =>
    "range constraint with lower bound " ++ toString lower ++ " above upper bound " ++ toString upper
  | emptyQuantifier f => "quantifier binds no variables in `" ++ f.display ++ "`"
  | notPropositional f => "expecting a propositional formula, found `" ++ f.display ++ "`"

end Defect

/-- The defect of a range whose lower bound lies above its upper bound. -/
def Cardinality.defect? : Cardinality → Option Defect
  | between lower upper => if upper < lower then some (.badBounds lower upper) else none
  | atLeast _ | atMost _ | choose _ => none

/-- Assembles a formula. The number of arguments has to match the arity of the connective, and a
    range has to contain a number. -/
def Connective.apply : Connective → List Formula → Except Defect Formula
  | .not, [f] => .ok (.not f)
  | .nary j, args => .ok (.nary j args)
  | .implies, [p, c] => .ok (.implies p c)
  | .iff, [l, r] => .ok (.iff l r)
  | .card c, args =>
    match c.defect? with
    | some d => .error d
    | none => .ok (.card c args)
  | connective, args => .error (.badArity connective (connective.arity?.getD 0) args.length)

namespace Formula

mutual

/-- The first ill-formed node, every node before its subformulas. -/
def defect? : Formula → Option Defect
  | const _ | var _ | lit _ => none
  | not f => f.defect?
  | nary _ args => listDefect? args
  | implies p c => p.defect?.or c.defect?
  | iff l r => l.defect?.or r.defect?
  | card c args => c.defect?.or (listDefect? args)
  | quant q xs f => if xs.isEmpty then some (.emptyQuantifier (quant q xs f)) else f.defect?

def listDefect? : List Formula → Option Defect
  | [] => none
  | f :: fs => f.defect?.or (listDefect? fs)

end

/-- Accepts a formula whose ranges contain a number and whose quantifiers bind a variable. -/
def validate (f : Formula) : Except Defect Unit :=
  match f.defect? with
  | some d => .error d
  | none => .ok ()

@[simp]
theorem listDefect?_eq (fs : List Formula) : listDefect? fs = fs.findSome? defect? := by
  induction fs with
  | nil => rfl
  | cons f fs ih => cases h : f.defect? <;> simp [listDefect?, ih, h]

end Formula
end NormalForms
