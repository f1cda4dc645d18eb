/-! The options of the transformations to clausal normal forms. -/

namespace NormalForms

/-- A flag by which a run can be called off. -/
structure CancelToken where
  cancelled : Bool := false
deriving DecidableEq, Repr

namespace CancelToken

/-- Calls off the runs that look at the token. -/
def cancel (_ : CancelToken) : CancelToken := ⟨true⟩

end CancelToken

/-- The options: how many literals the expansion of a part of the formula may count, the stem of the
    names of auxiliary variables, and the token that the run looks at, if there is one. -/
structure Options where
  limit : Option Nat := none
  stem : String := "_t"
  token : Option CancelToken := none
deriving DecidableEq, Repr

namespace Options

/-- Whether a run has been called off, by the token or, if there is a token to do it with, by the
    source of names. -/
def stopped (o : Options) (bySource : Bool) : Bool := o.token.any fun t => t.cancelled || bySource

/-- The options with the token, if there is one, cancelled. -/
def cancel (o : Options) : Options := { o with token := o.token.map CancelToken.cancel }

end Options
end NormalForms
