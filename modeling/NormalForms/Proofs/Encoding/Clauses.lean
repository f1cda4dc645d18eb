import NormalForms.Definition
import NormalForms.Proofs.Clause.Basic

/-!
The clauses of a definition. They hold exactly where the variable has the value of the junction that it is
defined as. Every one of them contains the variable, and every argument occurs in one of them. -/

namespace NormalForms

/-- Whether all of the clauses, read as disjunctions, are true under `v`. -/
def Satisfies (v : Assignment) (cs : List Clause) : Prop := ∀ c ∈ cs, c.eval .disj v = true

section
variable {v w : Assignment} {cs ds : List Clause} {c : Clause} {l m : Literal}

theorem satisfies_append : Satisfies v (cs ++ ds) ↔ Satisfies v cs ∧ Satisfies v ds := by
  rw [Satisfies, List.forall_mem_append]
  rfl

theorem satisfies_flatMap {α : Type} {as : List α} {f : α → List Clause} :
    Satisfies v (as.flatMap f) ↔ ∀ a ∈ as, Satisfies v (f a) := by
  rw [Satisfies, List.forall_mem_flatMap]
  rfl

theorem Satisfies.mono (h : Satisfies v ds) (hsub : cs ⊆ ds) : Satisfies v cs := fun c hc => h c (hsub hc)

theorem Satisfies.congr (h : Satisfies v cs) (hvw : ∀ c ∈ cs, ∀ l ∈ c, v l.var = w l.var) : Satisfies w cs := by
  intro c hc
  rw [← Clause.eval_congr (hvw c hc)]
  exact h c hc

/-- Clauses that are always true make no difference. -/
theorem satisfies_filter_isTautology : Satisfies v (cs.filter fun c => !c.isTautology) ↔ Satisfies v cs := by
  constructor
  · intro h c hc
    cases ht : c.isTautology with
    | true => exact Clause.eval_of_isTautology (j := .conj) ht
    | false => exact h c (List.mem_filter.mpr ⟨hc, by simp [ht]⟩)
  · intro h c hc
    exact h c (List.mem_filter.mp hc).1

theorem Clause.eval_pair (v : Assignment) (l m : Literal) : (ofList [l, m]).eval .disj v = (l.eval v || m.eval v) := by
  rw [eval_ofList]
  simp [Junction.across]

/-- Two literals of different variables are not complementary. -/
theorem Clause.not_isTautology_pair (h : l.var ≠ m.var) : (ofList [l, m]).isTautology = false := by
  rw [Bool.eq_false_iff]
  intro ht
  obtain ⟨k, hk, hk'⟩ := isTautology_iff.mp ht
  simp only [mem_ofList, List.mem_cons, List.not_mem_nil, or_false] at hk hk'
  have hvar : k.complement.var = k.var := rfl
  rcases hk with rfl | rfl
  · rcases hk' with he | he
    · exact k.complement_ne he
    · exact h (by rw [← he, hvar])
  · rcases hk' with he | he
    · exact h (by rw [← he, hvar])
    · exact k.complement_ne he

end

namespace Definition

variable {j : Junction} {x : Var} {v : Assignment} {args : List Literal} {a l : Literal} {c : Clause}

/-- The clause that relates the variable of a definition to one argument. -/
def link (j : Junction) (x : Var) (a : Literal) : Clause :=
  match j with
  | .conj => .ofList [.neg x, a]
  | .disj => .ofList [.pos x, a.complement]

/-- The clause that relates the variable of a definition to all arguments. -/
def closing (j : Junction) (x : Var) (args : List Literal) : Clause :=
  match j with
  | .conj => .ofList (.pos x :: args.map .complement)
  | .disj => .ofList (.neg x :: args)

theorem clausesFor_eq (j : Junction) (x : Var) (args : List Literal) :
    clausesFor j x args = (args.map (link j x) ++ [closing j x args]).filter fun c => !c.isTautology := by
  cases j <;> rfl

theorem mem_clausesFor_iff : c ∈ clausesFor j x args ↔
    ((∃ a ∈ args, link j x a = c) ∨ c = closing j x args) ∧ c.isTautology = false := by
  rw [clausesFor_eq, List.mem_filter, List.mem_append, List.mem_map, List.mem_singleton, Bool.not_eq_true']

/-! ### Truth values -/

theorem eval_link : (link j x a).eval .disj v = true ↔ (v x = j.unit → a.eval v = j.unit) := by
  cases j with
  | conj =>
    rw [link, Clause.eval_pair]
    cases hx : v x <;> simp [Literal.eval, Literal.neg, Junction.unit, hx]
  | disj =>
    rw [link, Clause.eval_pair, Literal.eval_complement]
    cases hx : v x <;> simp [Literal.eval, Literal.pos, Junction.unit, hx]

theorem eval_closing :
    (closing j x args).eval .disj v = true ↔ (v x ≠ j.unit → ∃ a ∈ args, a.eval v ≠ j.unit) := by
  cases j with
  | conj =>
    rw [closing, Clause.eval_ofList]
    simp only [Junction.across, List.any_cons, List.any_map, Function.comp_def, Literal.eval_complement]
    cases hx : v x <;> simp [Literal.eval, Literal.pos, Junction.unit, hx]
  | disj =>
    rw [closing, Clause.eval_ofList]
    simp only [Junction.across, List.any_cons]
    cases hx : v x <;> simp [Literal.eval, Literal.neg, Junction.unit, hx]

/-- The clauses of a definition hold exactly where the variable has the value of the junction. -/
theorem satisfies_clausesFor (j : Junction) :
    Satisfies v (clausesFor j x args) ↔ v x = j.across args fun a => a.eval v := by
  have links : Satisfies v (args.map (link j x)) ↔ (v x = j.unit → ∀ a ∈ args, a.eval v = j.unit) := by
    rw [Satisfies, List.forall_mem_map]
    simp only [eval_link]
    exact ⟨fun h hx a ha => h a ha hx, fun h a ha hx => h hx a ha⟩
  rw [clausesFor_eq, satisfies_filter_isTautology, satisfies_append, links, Satisfies, List.forall_mem_singleton,
    eval_closing]
  constructor
  · rintro ⟨hlinks, hclosing⟩
    apply Junction.eq_of_unit_iff j
    rw [Junction.across_eq_unit_iff]
    refine ⟨hlinks, fun hall => ?_⟩
    by_cases hx : v x = j.unit
    · exact hx
    · obtain ⟨a, ha, hne⟩ := hclosing hx
      exact absurd (hall a ha) hne
  · intro h
    rw [h, Ne, Junction.across_eq_unit_iff]
    refine ⟨id, fun hsome => ?_⟩
    simpa using hsome

/-! ### Variables -/

theorem var_of_mem_link (hl : l ∈ link j x a) : l.var = x ∨ l.var = a.var := by
  cases j with
  | conj =>
    rw [link, Clause.mem_ofList, List.mem_pair] at hl
    rcases hl with rfl | rfl
    · exact .inl rfl
    · exact .inr rfl
  | disj =>
    rw [link, Clause.mem_ofList, List.mem_pair] at hl
    rcases hl with rfl | rfl
    · exact .inl rfl
    · exact .inr rfl

theorem var_of_mem_closing (hl : l ∈ closing j x args) : l.var = x ∨ ∃ a ∈ args, l.var = a.var := by
  cases j with
  | conj =>
    rw [closing, Clause.mem_ofList, List.mem_cons, List.mem_map] at hl
    rcases hl with rfl | ⟨a, ha, rfl⟩
    · exact .inl rfl
    · exact .inr ⟨a, ha, rfl⟩
  | disj =>
    rw [closing, Clause.mem_ofList, List.mem_cons] at hl
    rcases hl with rfl | ha
    · exact .inl rfl
    · exact .inr ⟨l, ha, rfl⟩

theorem var_of_mem_clausesFor (hc : c ∈ clausesFor j x args) (hl : l ∈ c) :
    l.var = x ∨ ∃ a ∈ args, l.var = a.var := by
  rcases (mem_clausesFor_iff.mp hc).1 with ⟨a, ha, rfl⟩ | rfl
  · exact (var_of_mem_link hl).imp_right fun h => ⟨a, ha, h⟩
  · exact var_of_mem_closing hl

theorem exists_var_eq_of_mem_clausesFor (hc : c ∈ clausesFor j x args) : ∃ l ∈ c, l.var = x := by
  rcases (mem_clausesFor_iff.mp hc).1 with ⟨a, -, rfl⟩ | rfl
  · cases j with
    | conj => exact ⟨.neg x, by simp [link], rfl⟩
    | disj => exact ⟨.pos x, by simp [link], rfl⟩
  · cases j with
    | conj => exact ⟨.pos x, by simp [closing], rfl⟩
    | disj => exact ⟨.neg x, by simp [closing], rfl⟩

/-- The clause that relates an argument to the variable is never left out. -/
theorem exists_var_eq_of_mem_args (ha : a ∈ args) (hx : a.var ≠ x) :
    ∃ c ∈ clausesFor j x args, ∃ l ∈ c, l.var = a.var := by
  have proper : (link j x a).isTautology = false := by
    cases j with
    | conj => exact Clause.not_isTautology_pair hx.symm
    | disj => exact Clause.not_isTautology_pair hx.symm
  refine ⟨link j x a, mem_clausesFor_iff.mpr ⟨.inl ⟨a, ha, rfl⟩, proper⟩, ?_⟩
  cases j with
  | conj => exact ⟨a, by simp [link], rfl⟩
  | disj => exact ⟨a.complement, by simp [link], rfl⟩

end Definition
end NormalForms
