import NormalForms.Var

/-!
Sources of names for auxiliary variables. Nothing is asked of the names here: a source may return
one that is in use. A source can also call off the run that draws from it. -/

namespace NormalForms

/-- What hands out variables from states of type `σ`. -/
class NameSource (σ : Type) where
  /-- The variable handed out for a stem, and the state after it. -/
  fresh : String → σ → Var × σ
  /-- Whether the source has called off the run that draws from it. -/
  cancelled : σ → Bool := fun _ => false

end NormalForms
