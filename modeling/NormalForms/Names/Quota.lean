import NormalForms.Names.Numbering

/-!
A numbering that calls off the run which draws from it with a given request for a name. The request
itself is still answered. -/

namespace NormalForms

/-- A numbering and the number of the request that calls off the run, counted from 1. Without it, and
    with the number 0, no request does. -/
structure Quota where
  names : Numbering
  requests : Nat := 0
  last : Option Nat := none

instance : NameSource Quota where
  fresh stem q :=
    let (x, names) := q.names.fresh stem
    (x, { q with names, requests := q.requests + 1 })
  cancelled q := q.last.any fun n => 0 < n && n ≤ q.requests

end NormalForms
