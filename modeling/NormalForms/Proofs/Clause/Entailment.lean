import NormalForms.Proofs.Clause.Basic

/-!
What a clause says, and what follows from it. The assignment against all literals of a clause without complementary
ones can be chosen such that given literals outside of the clause are true. Main statement: the tests that look at
literals alone decide the meaning. A clause has complementary literals exactly if its disjunction is always true, and
exactly if its conjunction is always false; and it is contained in a clause without complementary literals exactly if
its disjunction implies the disjunction of the other, and exactly if the conjunction of the other implies its own. -/

namespace NormalForms

/-- Literals, no two of them complementary, all have a given value under some assignment. -/
theorem Literal.exists_assignment {p : Literal → Prop} (h : ∀ l, p l → ¬p l.complement) (b : Bool) :
    ∃ v, ∀ l, p l → l.eval v = b := by
  classical
  refine ⟨fun x => if p (.pos x) then b else !b, fun l hl => ?_⟩
  obtain ⟨negated, x⟩ := l
  cases negated with
  | false =>
    have positive : p (.pos x) := hl
    simp [eval, positive]
  | true =>
    have absent : ¬p (.pos x) := h _ hl
    simp [eval, absent]

namespace Clause

variable {c d : Clause}

/-- Literals outside of a clause can all have a value that no literal of the clause has, if no two of them are
    complementary and no two of the clause are. -/
theorem exists_assignment_apart (ls : List Literal) (hc : c.isTautology = false) (outside : ∀ l ∈ ls, l ∉ c)
    (consistent : ∀ l ∈ ls, l.complement ∉ ls) (b : Bool) :
    ∃ v, (∀ l ∈ ls, l.eval v = b) ∧ ∀ l ∈ c, l.eval v ≠ b := by
  have together : ∀ l : Literal, (l ∈ ls ∨ l.complement ∈ c) → ¬(l.complement ∈ ls ∨ l.complement.complement ∈ c) := by
    intro l hl hl'
    rw [Literal.complement_complement] at hl'
    rcases hl with hl | hl <;> rcases hl' with hl' | hl'
    · exact consistent l hl hl'
    · exact outside l hl hl'
    · exact outside _ hl' hl
    · exact isTautology_eq_false_iff.mp hc l hl' hl
  obtain ⟨v, hv⟩ := Literal.exists_assignment together b
  refine ⟨v, fun l hl => hv l (.inl hl), fun l hl => Literal.eval_complement_eq_iff.mp (hv l.complement (.inr ?_))⟩
  rwa [Literal.complement_complement]

/-- Only a clause with complementary literals has the value of the unit under every assignment. -/
theorem isTautology_iff_forall_eval (j : Junction) : c.isTautology = true ↔ ∀ v, c.eval j.dual v = j.unit := by
  refine ⟨fun h v => eval_of_isTautology h, fun h => ?_⟩
  rw [← Bool.not_eq_false]
  intro proper
  obtain ⟨v, -, against⟩ := exists_assignment_apart [] proper (fun _ hl => absurd hl List.not_mem_nil)
    (fun _ hl => absurd hl List.not_mem_nil) j.unit
  obtain ⟨l, hl, hv⟩ := eval_dual_eq_unit_iff.mp (h v)
  exact against l hl hv

/-- A clause that is not contained in `d` has a literal outside of it, which can have the value of the unit where `d`
    does not. -/
theorem subsumes_iff_forall_eval (hd : d.isTautology = false) (j : Junction) :
    c.subsumes d = true ↔ ∀ v, c.eval j.dual v = j.unit → d.eval j.dual v = j.unit := by
  refine ⟨fun h v => eval_of_subsumes h, fun h => subsumes_iff.mpr fun l hl => ?_⟩
  by_contra missing
  obtain ⟨v, hv, against⟩ := exists_assignment_apart [l] hd (by simpa using missing)
    (by simpa using l.complement_ne) j.unit
  have holds : c.eval j.dual v = j.unit := eval_dual_eq_unit_iff.mpr ⟨l, hl, hv l (List.mem_singleton_self l)⟩
  obtain ⟨m, hm, hmv⟩ := eval_dual_eq_unit_iff.mp (h v holds)
  exact against m hm hmv

/-- A clause contains complementary literals exactly if its disjunction is true under every assignment, and exactly if
    its conjunction is false under every assignment. Where `d` contains none, all literals of `c` are in `d` exactly if
    the disjunction of `d` is true wherever that of `c` is, and exactly if the conjunction of `c` is true wherever that
    of `d` is. -/
theorem tautology_and_subsumption_complete (c d : Clause) :
    (c.isTautology = true ↔ ∀ v, (c.toFormula .disj).eval v = .ok true) ∧
      (c.isTautology = true ↔ ∀ v, (c.toFormula .conj).eval v = .ok false) ∧
      (d.isTautology = false →
        (c.subsumes d = true ↔
          ∀ v, (c.toFormula .disj).eval v = .ok true → (d.toFormula .disj).eval v = .ok true) ∧
        (c.subsumes d = true ↔
          ∀ v, (d.toFormula .conj).eval v = .ok true → (c.toFormula .conj).eval v = .ok true)) := by
  simp only [eval_toFormula, Except.ok.injEq]
  refine ⟨isTautology_iff_forall_eval .conj, isTautology_iff_forall_eval .disj, fun hd => ?_⟩
  refine ⟨subsumes_iff_forall_eval hd .conj, (subsumes_iff_forall_eval hd .disj).trans (forall_congr' fun v => ?_)⟩
  -- A conjunction implies another exactly if it is false wherever the other is.
  show (c.eval .conj v = false → d.eval .conj v = false) ↔ _
  cases c.eval .conj v <;> cases d.eval .conj v <;> simp

/-- `a ∨ ¬b` implies `¬b ∨ c ∨ a`, and not `b ∨ c ∨ a`, where `b` occurs with the other sign. -/
theorem tautology_and_subsumption_complete_of_signs :
    let a := Literal.pos ⟨"a"⟩
    let b := Literal.pos ⟨"b"⟩
    let c := Literal.pos ⟨"c"⟩
    let shorter := Clause.ofList [a, b.complement]
    let longer := Clause.ofList [b.complement, c, a]
    let other := Clause.ofList [b, c, a]
    longer.isTautology = false ∧ other.isTautology = false ∧
      (∀ v, (shorter.toFormula .disj).eval v = .ok true → (longer.toFormula .disj).eval v = .ok true) ∧
      ¬∀ v, (shorter.toFormula .disj).eval v = .ok true → (other.toFormula .disj).eval v = .ok true := by
  intro a b c shorter longer other
  have proper : longer.isTautology = false := by decide
  have proper' : other.isTautology = false := by decide
  have contained := ((tautology_and_subsumption_complete shorter longer).2.2 proper).1
  have outside := ((tautology_and_subsumption_complete shorter other).2.2 proper').1
  exact ⟨proper, proper', contained.mp (by decide), fun h => absurd (outside.mpr h) (by decide)⟩

end Clause
end NormalForms
