/-! The two alphabets in which formulas are written. -/

namespace NormalForms

structure Symbols where
  truth : String
  falsehood : String
  negation : String
  conjunction : String
  disjunction : String
  implication : String
  equivalence : String
  existential : String
  universal : String

namespace Symbols

/-- The signs of mathematical texts. -/
def unicode : Symbols where
  truth := "⊤"
  falsehood := "⟘"
  negation := "¬"
  conjunction := "∧"
  disjunction := "∨"
  implication := "→"
  equivalence := "⇔"
  existential := "∃"
  universal := "∀"

/-- Signs that can be typed on any keyboard. -/
def ascii : Symbols where
  truth := "true"
  falsehood := "false"
  negation := "~"
  conjunction := "&"
  disjunction := "|"
  implication := "->"
  equivalence := "<=>"
  existential := "?"
  universal := "!"

end Symbols
end NormalForms
