import NormalForms.Classification
import NormalForms.Proofs.Distinct
import NormalForms.Proofs.Nnf.OfFormula

/-!
The shape of simplified normal forms. No junction has an argument with its own connective, its arguments are
two at least and distinct, and a constant is only the whole normal form. Merging simplified arguments keeps
this shape, so every simplification has it. Main statement: the negation normal form of a formula is simplified,
is recognised as one, and keeps the truth value of the formula under every assignment. -/

namespace NormalForms

namespace Nnf

/-! ### Simplified normal forms -/

/-- Whether a `j` of the arguments is needed as it is. -/
structure Irredundant (j : Junction) (args : List Nnf) : Prop where
  flat : ∀ ms, nary j ms ∉ args
  distinct : args.Nodup
  plural : 2 ≤ args.length

/-- Whether all junctions in a normal form are needed as they are. -/
def Reduced (n : Nnf) : Prop := ∀ j args, nary j args ∈ n.junctions → Irredundant j args

/-- Whether a normal form is simplified: its junctions are needed as they are, and no constant lies strictly
    below its root. -/
structure Simplified (n : Nnf) : Prop where
  reduced : n.Reduced
  absorbed : n.innerConstants = []

variable {i j : Junction} {n m : Nnf} {args ns : List Nnf}

theorem reduced_const (b : Bool) : (const b).Reduced := fun _ _ h => absurd h List.not_mem_nil

theorem reduced_lit (l : Literal) : (lit l).Reduced := fun _ _ h => absurd h List.not_mem_nil

theorem reduced_nary (h : Irredundant j args) (hargs : ∀ n ∈ args, n.Reduced) : (nary j args).Reduced := by
  intro i ms hms
  rcases mem_junctions_nary.mp hms with heq | ⟨n, hn, hms⟩
  · cases heq
    exact h
  · exact hargs n hn i ms hms

theorem Reduced.irredundant (h : (nary j args).Reduced) : Irredundant j args :=
  h j args (nary_mem_junctions j args)

theorem Reduced.of_mem (h : (nary j args).Reduced) (hn : n ∈ args) : n.Reduced :=
  fun i ms hms => h i ms (mem_junctions_nary.mpr (.inr ⟨n, hn, hms⟩))

/-! ### Merging simplified arguments -/

theorem reduced_ofArgs (hflat : ∀ ms, nary j ms ∉ ns) (hns : ns.Nodup) (h : ∀ n ∈ ns, n.Reduced) :
    (ofArgs j ns).Reduced := by
  match ns with
  | [] => exact reduced_const _
  | [n] => exact h n (List.mem_singleton_self n)
  | n :: m :: ns => exact reduced_nary ⟨hflat, hns, by simp⟩ h

/-- What an argument contributes to a `j` is reduced, and none of it is a `j`. -/
theorem reduced_spliced (h : n.Reduced) (hm : m ∈ spliced j n) : m.Reduced ∧ ∀ ms, m ≠ nary j ms := by
  cases n with
  | const b => exact absurd hm List.not_mem_nil
  | lit l =>
    rw [List.mem_singleton.mp hm]
    exact ⟨reduced_lit l, fun ms => Nnf.noConfusion⟩
  | nary i args =>
    rw [spliced] at hm
    split at hm
    · rename_i hi
      refine ⟨h.of_mem hm, fun ms hms => ?_⟩
      rw [hms, ← hi] at hm
      exact h.irredundant.flat ms hm
    · rename_i hi
      rw [List.mem_singleton.mp hm]
      refine ⟨h, fun ms hms => ?_⟩
      cases hms
      exact hi rfl

theorem reduced_merge (h : ∀ n ∈ args, n.Reduced) : (merge j args).Reduced := by
  rw [merge_eq]
  split
  · exact reduced_const _
  · have parts : ∀ m ∈ (args.flatMap (spliced j)).eraseDups, m.Reduced ∧ ∀ ms, m ≠ nary j ms := by
      intro m hm
      obtain ⟨n, hn, hm⟩ := List.mem_flatMap.mp (List.mem_eraseDups.mp hm)
      exact reduced_spliced (h n hn) hm
    exact reduced_ofArgs (fun ms hms => (parts _ hms).2 ms rfl) (nodup_eraseDups _) fun m hm => (parts m hm).1

theorem simplified_simplify (n : Nnf) : n.simplify.Simplified := by
  refine ⟨?_, n.innerConstants_simplify⟩
  rw [simplify_eq]
  induction n with
  | const b => exact reduced_const b
  | lit l => exact reduced_lit l
  | nary j args ih =>
    rw [simplifyRec, simplifyRecList_eq]
    refine reduced_merge fun m hm => ?_
    obtain ⟨n, hn, rfl⟩ := List.mem_map.mp hm
    exact ih n hn

theorem isNnf_toFormula (n : Nnf) : n.toFormula.isNnf = true := by
  induction n with
  | const b => rfl
  | lit l => rfl
  | nary j args ih =>
    rw [toFormula, toFormulaList_eq, Formula.isNnf, Formula.isNnfList_eq, List.all_map, List.all_eq_true]
    exact ih

end Nnf

namespace Formula

variable {f : Formula} {n : Nnf}

theorem simplified_of_nnf (h : f.nnf = .ok n) : n.Simplified := by
  obtain ⟨g, m, -, -, rfl⟩ := nnf_eq_ok h
  exact m.simplified_simplify

/-- The negation normal form of a formula, where there is one: the formula has the truth value of it under every
    assignment, its variables are variables of the formula, it is recognised as a negation normal form, and it
    is simplified. -/
theorem nnf_preserves_meaning (h : f.nnf = .ok n) :
    (∀ v, f.eval v = .ok (n.eval v)) ∧ (∀ x ∈ n.variables, x ∈ f.variables) ∧
      n.toFormula.classify .negation = ⟨true, true⟩ ∧ n.Simplified := by
  refine ⟨eval_of_nnf h, fun x hx => mem_variables_of_nnf h (Nnf.mem_variables.mp hx), ?_, simplified_of_nnf h⟩
  rw [classify, n.isNnf_toFormula]

/-- The difference of a count with a repeated argument and an implication with a constant. -/
theorem nnf_preserves_meaning_of_count :
    let f := not (iff (card (.atLeast 2) [var ⟨"a"⟩, var ⟨"a"⟩]) (implies (var ⟨"b"⟩) (const false)))
    let n := Nnf.nary .disj [.nary .conj [.lit (.pos ⟨"a"⟩), .lit (.pos ⟨"b"⟩)],
      .nary .conj [.lit (.neg ⟨"b"⟩), .lit (.neg ⟨"a"⟩)]]
    f.nnf = .ok n ∧ (∀ v, f.eval v = .ok (n.eval v)) ∧ n.Simplified := by
  intro f n
  have hn : f.nnf = .ok n := rfl
  obtain ⟨heval, -, -, hsimplified⟩ := nnf_preserves_meaning hn
  exact ⟨hn, heval, hsimplified⟩

end Formula
end NormalForms
