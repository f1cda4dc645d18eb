import NormalForms.Proofs.Encoding.Assert

/-!
No clause that an assertion returns contains complementary literals. This does not depend on the names: where a
name is in use already, a clause can become always true, and is then left out. -/

namespace NormalForms

theorem Definition.not_isTautology_of_mem_clausesFor {j : Junction} {x : Var} {args : List Literal} {c : Clause}
    (hc : c ∈ clausesFor j x args) : c.isTautology = false := by
  unfold clausesFor at hc
  simpa using (List.mem_filter.mp hc).2

namespace Encoder

variable {σ : Type} [NameSource σ] {e : Encoder σ}

/-- Whether no clause of a definition contains complementary literals. -/
def Proper (e : Encoder σ) : Prop := ∀ d ∈ e.definitions, ∀ c ∈ d.clauses, c.isTautology = false

theorem proper_define (e : Encoder σ) (j : Junction) (n : Nnf) (ls : List Literal) (h : e.Proper) :
    (e.define j n ls).2.Proper := by
  intro d hd
  rcases List.mem_append.mp hd with hd | hd
  · exact h d hd
  · rw [List.mem_singleton.mp hd]
    exact fun c hc => Definition.not_isTautology_of_mem_clausesFor hc

namespace Call

variable {c : Call σ}

theorem proper_after (h : c.start.Proper) : c.after.Proper := after_keeps (.of_define proper_define) h

theorem not_isTautology_of_mem_clauses {d : Clause} (h : c.start.Proper) (hd : d ∈ c.clauses) :
    d.isTautology = false := by
  rw [(succeeded_of_mem_clauses hd).clauses_eq, List.mem_append, List.mem_flatMap] at hd
  rcases hd with ⟨f, hf, hd⟩ | hd
  · exact proper_after h f (List.mem_of_mem_drop hf) d hd
  · simpa using (List.mem_filter.mp hd).2

end Call
end Encoder
end NormalForms
