import NormalForms.Formula.Defect

/-! Why a transformation ends without a normal form. -/

namespace NormalForms

inductive Failure
  | unsupported (node : Formula)
  | malformed (defect : Defect)
  | cancelled
  | limitExceeded (limit : Nat)
deriving DecidableEq

namespace Failure

def message : Failure → String
  | unsupported node => "cannot transform `" ++ node.kind ++ "` in `" ++ node.display ++ "`"
  | malformed _ => "malformed expression tree"
  | cancelled => "transformation cancelled"
  | limitExceeded limit => "DNF distribution exceeded the literal limit of " ++ toString limit

end Failure
end NormalForms
