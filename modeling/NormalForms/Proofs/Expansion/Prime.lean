import NormalForms.Proofs.Clause.Entailment
import NormalForms.Proofs.Expansion.Coverage

/-!
Prime implicants and prime implicates. A junction of dual junctions of literals, no two of them complementary inside
one of these, is read off in both directions: the clauses that bound it are those that meet every inner junction, and
so are the clauses that its expansion covers. Main statement: an expansion into disjunctive normal form is the prime
implicants of a conjunction of disjunctions, and one into conjunctive normal form the prime implicates of a
disjunction of conjunctions. -/

namespace NormalForms

namespace Nnf

variable {form j : Junction} {n : Nnf} {c : Clause} {css : List (List Literal)}

/-! ### Implicants and implicates -/

/-- Whether the conjunction of the literals of `c` implies `n`. -/
def Implicant (n : Nnf) (c : Clause) : Prop := ∀ v, c.eval .conj v = true → n.eval v = true

/-- Whether `n` implies the disjunction of the literals of `c`. -/
def Implicate (n : Nnf) (c : Clause) : Prop := ∀ v, n.eval v = true → c.eval .disj v = true

/-- Whether `c` is an implicant without complementary literals, and no part of it is an implicant. -/
def PrimeImplicant (n : Nnf) : Clause → Prop := Clause.IsMinimal n.Implicant

/-- Whether `c` is an implicate without complementary literals, and no part of it is an implicate. -/
def PrimeImplicate (n : Nnf) : Clause → Prop := Clause.IsMinimal n.Implicate

/-- Whether `c`, as a clause of a `form` normal form, has the value of the unit wherever `n` has it. -/
def Bounds (form : Junction) (n : Nnf) (c : Clause) : Prop :=
  ∀ v, n.eval v = form.unit → c.eval form.dual v = form.unit

theorem bounds_conj : Bounds .conj n = n.Implicate := rfl

/-- A conjunction implies a normal form if it is false wherever the normal form is. -/
theorem bounds_disj : Bounds .disj n = n.Implicant := by
  funext c
  refine forall_congr fun v => ?_
  show (n.eval v = false → c.eval .conj v = false) = _
  cases n.eval v <;> cases c.eval .conj v <;> simp

/-! ### Two levels -/

/-- The `j` of the dual junctions of the literals in each list. -/
def twoLevel (j : Junction) (css : List (List Literal)) : Nnf := nary j (css.map fun ls => nary j.dual (ls.map lit))

theorem value_twoLevel (p : Literal → Bool) (j : Junction) (css : List (List Literal)) :
    (twoLevel j css).value p = j.across css fun ls => j.dual.across ls p := by
  rw [twoLevel, value_nary, Junction.across_map]
  refine Junction.across_congr fun ls _ => ?_
  rw [value_nary, Junction.across_map]
  rfl

/-- A dual junction of junctions has the value of the unit exactly if all literals of one inner junction have it. -/
theorem value_twoLevel_dual_eq_unit_iff {p : Literal → Bool} :
    (twoLevel form.dual css).value p = form.unit ↔ ∃ ls ∈ css, ∀ l ∈ ls, p l = form.unit := by
  rw [value_twoLevel, Junction.across_dual_eq_unit_iff, Junction.dual_dual]
  simp only [Junction.across_eq_unit_iff]

theorem covers_expansion_twoLevel (hc : c.isTautology = false) :
    ((twoLevel form.dual css).expansion form).Covers c ↔ ∀ ls ∈ css, ∃ l ∈ ls, l ∈ c := by
  rw [covers_expansion hc, Ne, value_twoLevel_dual_eq_unit_iff]
  simp only [not_exists, not_and, Classical.not_forall, exists_prop]
  exact forall₂_congr fun ls _ => exists_congr fun l => and_congr_right fun _ => Clause.valuation_ne_unit_iff

/-- A clause that misses an inner junction does not bound: the literals of the junction can all have the value of the
    unit where the clause does not. -/
theorem bounds_twoLevel_iff (h : ∀ ls ∈ css, ∀ l ∈ ls, l.complement ∉ ls) (hc : c.isTautology = false) :
    Bounds form (twoLevel form.dual css) c ↔ ∀ ls ∈ css, ∃ l ∈ ls, l ∈ c := by
  have unit_iff : ∀ v, (twoLevel form.dual css).eval v = form.unit ↔ ∃ ls ∈ css, ∀ l ∈ ls, l.eval v = form.unit := by
    intro v
    rw [eval_eq_value, value_twoLevel_dual_eq_unit_iff]
  constructor
  · intro bounds ls hls
    apply Classical.byContradiction
    intro missed
    have outside : ∀ l ∈ ls, l ∉ c := fun l hl hlc => missed ⟨l, hl, hlc⟩
    obtain ⟨v, hls', against⟩ := Clause.exists_assignment_apart ls hc outside (h ls hls) form.unit
    obtain ⟨l, hl, hlv⟩ := Clause.eval_dual_eq_unit_iff.mp (bounds v ((unit_iff v).mpr ⟨ls, hls, hls'⟩))
    exact against l hl hlv
  · intro meets v hv
    obtain ⟨ls, hls, hunit⟩ := (unit_iff v).mp hv
    obtain ⟨l, hl, hlc⟩ := meets ls hls
    exact Clause.eval_dual_eq_unit_iff.mpr ⟨l, hlc, hunit l hl⟩

/-- The expansion of two levels is the minimal clauses that bound them. -/
theorem mem_expansion_twoLevel_iff (h : ∀ ls ∈ css, ∀ l ∈ ls, l.complement ∉ ls) :
    c ∈ (twoLevel form.dual css).expansion form ↔ c.IsMinimal (Bounds form (twoLevel form.dual css)) := by
  refine (irredundant_expansion form _).mem_iff_isMinimal (fun d hd => not_isTautology_of_mem_expansion hd) ?_
  intro d hd
  rw [bounds_twoLevel_iff h hd, covers_expansion_twoLevel hd]

end Nnf

namespace Expander

/-- Without a limit there are clauses of every junction of dual junctions of literals. Where no two literals of one
    inner junction are complementary, the clauses of a conjunction of disjunctions in disjunctive normal form are its
    prime implicants, and those of a disjunction of conjunctions in conjunctive normal form its prime implicates. -/
theorem clauses_twoLevel_are_prime (literals : Nat) (css : List (List Literal))
    (h : ∀ ls ∈ css, ∀ l ∈ ls, l.complement ∉ ls) :
    (∃ S, (clauses { form := .disj, literals } (.twoLevel .conj css)).1 = .ok S ∧
        ∀ c, c ∈ S ↔ (Nnf.twoLevel .conj css).PrimeImplicant c) ∧
      ∃ S, (clauses { form := .conj, literals } (.twoLevel .disj css)).1 = .ok S ∧
        ∀ c, c ∈ S ↔ (Nnf.twoLevel .disj css).PrimeImplicate c := by
  refine ⟨⟨_, clauses_fst rfl _, fun c => ?_⟩, ⟨_, clauses_fst rfl _, fun c => ?_⟩⟩
  · rw [Nnf.PrimeImplicant, ← Nnf.bounds_disj]
    exact Nnf.mem_expansion_twoLevel_iff h
  · rw [Nnf.PrimeImplicate, ← Nnf.bounds_conj]
    exact Nnf.mem_expansion_twoLevel_iff h

/-- Two junctions with complementary literals, one of them with a repeated literal, and a weakening of it: what is left
    of the two after their complementary literals is prime, although neither has all of it. -/
theorem clauses_twoLevel_are_prime_of_consensus :
    let a := Literal.pos ⟨"a"⟩
    let b := Literal.pos ⟨"b"⟩
    let d := Literal.pos ⟨"d"⟩
    let css := [[a, b, a], [a.complement, d], [b, d, a]]
    let consensus := Clause.ofList [b, d]
    (∀ ls ∈ css, ∀ l ∈ ls, l.complement ∉ ls) ∧ (Nnf.twoLevel .conj css).PrimeImplicant consensus ∧
      (Nnf.twoLevel .disj css).PrimeImplicate consensus := by
  intro a b d css consensus
  have h : ∀ ls ∈ css, ∀ l ∈ ls, l.complement ∉ ls := by decide
  obtain ⟨⟨S, hS, implicants⟩, T, hT, implicates⟩ := clauses_twoLevel_are_prime 0 css h
  have inS : (clauses { form := .disj } (.twoLevel .conj css)).1.toOption.any (·.contains consensus) = true := by
    decide +kernel
  have inT : (clauses { form := .conj } (.twoLevel .disj css)).1.toOption.any (·.contains consensus) = true := by
    decide +kernel
  rw [hS] at inS
  rw [hT] at inT
  exact ⟨h, (implicants consensus).mp (ClauseSet.contains_iff.mp inS),
    (implicates consensus).mp (ClauseSet.contains_iff.mp inT)⟩

end Expander
end NormalForms
