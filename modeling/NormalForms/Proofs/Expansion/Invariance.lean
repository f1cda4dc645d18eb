import Mathlib.Data.List.Forall2
import NormalForms.Proofs.Expansion.Threshold
import NormalForms.Proofs.Nnf.Simplify

/-!
What expansions do not depend on. The clauses of a normal form are determined by its values, so simplification keeps
them, and so does any change of the order of arguments. The literals that a node counts are those of its distinct
combinations, and these are determined by the clauses of the arguments as sets. Main statements: normal forms that
differ in the order of arguments alone are expanded to the same clauses with the same count, or both exceed the limit;
and a simplified normal form has the clauses of the original one. -/

namespace NormalForms

variable {form : Junction}

/-! ### The order of arguments -/

namespace Nnf

/-- Whether two normal forms differ in nothing but the order of the arguments of their junctions, at any depth: the
    arguments are reordered one by one, and change places. -/
inductive Reordered : Nnf → Nnf → Prop
  | const (b : Bool) : Reordered (const b) (const b)
  | lit (l : Literal) : Reordered (lit l) (lit l)
  | nary (j : Junction) {ms ms' ns : List Nnf} (below : List.Forall₂ Reordered ms ms') (here : ms'.Perm ns) :
    Reordered (nary j ms) (nary j ns)

variable {m n : Nnf} {ms ms' ns : List Nnf}

/-- What holds of junctions if it holds of their arguments, as they are reordered one by one, holds of all reordered
    normal forms. -/
@[elab_as_elim]
theorem Reordered.induction {motive : ∀ m n, m.Reordered n → Prop} (const : ∀ b, motive _ _ (.const b))
    (lit : ∀ l, motive _ _ (.lit l))
    (nary : ∀ j ms ms' ns (below : List.Forall₂ Reordered ms ms') (here : ms'.Perm ns),
      List.Forall₂ (fun m n => ∃ h, motive m n h) ms ms' → motive _ _ (.nary j below here))
    {m n : Nnf} (h : m.Reordered n) : motive m n h := by
  induction m generalizing n with
  | const b =>
    cases h
    exact const b
  | lit l =>
    cases h
    exact lit l
  | nary j ms ih =>
    cases h with
    | @nary _ _ ms' ns below here =>
      have arguments := (List.forall₂_and_left ms ms').mpr ⟨fun m hm n (h : m.Reordered n) => ih m hm h, below⟩
      exact nary j ms ms' ns below here (arguments.imp fun _ _ h => ⟨h.2, h.1 _ h.2⟩)

theorem map_eq_of_forall₂ {α : Type} {f : Nnf → α} (h : List.Forall₂ (fun m n => f m = f n) ms ns) :
    ms.map f = ns.map f := by
  rwa [← List.forall₂_eq_eq_eq, List.forall₂_map_left_iff, List.forall₂_map_right_iff]

theorem Reordered.value_eq (h : m.Reordered n) (p : Literal → Bool) : m.value p = n.value p := by
  induction h using Reordered.induction with
  | const b => rfl
  | lit l => rfl
  | nary j ms ms' ns below here ih =>
    have values : ms.map (value p) = ms'.map (value p) := map_eq_of_forall₂ (ih.imp fun _ _ ⟨_, h⟩ => h)
    rw [value_nary, value_nary, Junction.across_eq_of_map_eq values]
    exact Junction.across_congr_mem fun _ => here.mem_iff

/-- The combinations at a node are the same if the arguments have the same clauses and change places. -/
theorem mem_combinations_reordered
    (below : List.Forall₂ (fun m n => ∀ c, c ∈ m.expansion form ↔ c ∈ n.expansion form) ms ms') (here : ms'.Perm ns)
    (c : Clause) : c ∈ ClauseSet.combinations (expansionList form ms) ↔
      c ∈ ClauseSet.combinations (expansionList form ns) := by
  rw [ClauseSet.mem_combinations_iff not_isTautology_of_mem_expansionList,
    ClauseSet.mem_combinations_iff not_isTautology_of_mem_expansionList, expansionList_eq, expansionList_eq]
  have lists : List.Forall₂ (fun cs ds => ∀ c, c ∈ cs ↔ c ∈ ds) ((ms.map (expansion form)).map ClauseSet.clauses)
      ((ms'.map (expansion form)).map ClauseSet.clauses) := by
    simp only [List.forall₂_map_left_iff, List.forall₂_map_right_iff]
    exact below
  rw [Clause.mem_allUnions_congr lists, Clause.mem_allUnions_perm ((here.map _).map _)]

/-- The count depends on the arguments of a node by the sum of what they count and by their distinct combinations. -/
theorem Reordered.charge_eq (h : m.Reordered n) : m.charge form = n.charge form := by
  induction h using Reordered.induction with
  | const b => rfl
  | lit l => rfl
  | nary j ms ms' ns below here ih =>
    have charges : ms.map (charge form) = ms'.map (charge form) := map_eq_of_forall₂ (ih.imp fun _ _ ⟨_, h⟩ => h)
    have sums : chargeList form ms = chargeList form ns := by
      rw [chargeList_eq, chargeList_eq, charges]
      exact (here.map _).sum_eq
    have clauses : List.Forall₂ (fun m n => ∀ c, c ∈ m.expansion form ↔ c ∈ n.expansion form) ms ms' :=
      below.imp fun _ _ h => ClauseSet.sameClauses_iff.mp (sameClauses_of_value_eq h.value_eq)
    rw [charge, charge, sums, ClauseSet.literalCount_congr (mem_combinations_reordered clauses here)]

end Nnf

namespace Expander

/-- Normal forms that differ in the order of arguments alone, at any depth: either both have clauses, the same ones up
    to their order and with the same count of literals, or both exceed the limit. -/
theorem clauses_of_reordered (form : Junction) (limit : Option Nat) (literals : Nat) {m n : Nnf} (h : m.Reordered n) :
    let e : Expander := { form, limit, literals }
    let r := e.clauses m
    let s := e.clauses n
    (∃ S T, r.1 = .ok S ∧ s.1 = .ok T ∧ S.sameClauses T = true ∧ r.2.literals = s.2.literals) ∨
      (r.1 = .error .limitExceeded ∧ s.1 = .error .limitExceeded) := by
  intro e r s
  have same : m.charge form = n.charge form := h.charge_eq
  have decision : overflows form limit m = overflows form limit n := by rw [overflows, overflows, same]
  cases hm : overflows form limit m with
  | true =>
    refine .inr ⟨?_, ?_⟩
    · show (e.clauses m).1 = _
      rw [clauses_fst rfl, if_pos hm]
    · show (e.clauses n).1 = _
      rw [clauses_fst rfl, if_pos (decision ▸ hm)]
  | false =>
    have hr : r = (.ok (m.expansion form), { e with literals := m.charge form }) :=
      clauses_of_within rfl (overflows_eq_false_iff.mp hm)
    have hs : s = (.ok (n.expansion form), { e with literals := n.charge form }) :=
      clauses_of_within rfl (overflows_eq_false_iff.mp (decision ▸ hm))
    refine .inl ⟨m.expansion form, n.expansion form, ?_, ?_, Nnf.sameClauses_of_value_eq h.value_eq, ?_⟩
    · rw [hr]
    · rw [hs]
    · rw [hr, hs]
      exact same

/-- Arguments that change places at two depths. The five combinations, of two literals each, come in different orders,
    and the limits 10 and 9 decide both normal forms alike. -/
theorem clauses_of_reordered_at_two_depths :
    let x (name : String) : Nnf := .lit (.pos ⟨name⟩)
    let m := Nnf.nary .disj [.nary .conj [x "a", x "b"], .nary .conj [x "c", .lit (.neg ⟨"a"⟩), x "d"]]
    let n := Nnf.nary .disj [.nary .conj [.lit (.neg ⟨"a"⟩), x "d", x "c"], .nary .conj [x "b", x "a"]]
    m.Reordered n ∧
      (∃ S T, (clauses { form := .conj, limit := some 10 } m).1 = .ok S ∧
        (clauses { form := .conj, limit := some 10 } n).1 = .ok T ∧ S.sameClauses T = true ∧
        (clauses { form := .conj, limit := some 10 } m).2.literals =
          (clauses { form := .conj, limit := some 10 } n).2.literals) ∧
      (clauses { form := .conj, limit := some 9 } m).1 = .error .limitExceeded ∧
      (clauses { form := .conj, limit := some 9 } n).1 = .error .limitExceeded := by
  intro x m n
  have reordered : m.Reordered n := by
    refine .nary .disj (.cons (.nary .conj (.cons (.lit _) (.cons (.lit _) .nil)) (.swap _ _ _))
      (.cons (.nary .conj (.cons (.lit _) (.cons (.lit _) (.cons (.lit _) .nil))) ?_) .nil)) (.swap _ _ _)
    exact (List.Perm.swap _ _ _).trans (.cons _ (.swap _ _ _))
  have completes : (clauses { form := .conj, limit := some 10 } m).1.toOption.isSome = true := by decide +kernel
  have stops : (clauses { form := .conj, limit := some 9 } m).1.toOption.isSome = false := by decide +kernel
  refine ⟨reordered, ?_, ?_⟩
  · rcases clauses_of_reordered .conj (some 10) 0 reordered with h | ⟨h, -⟩
    · exact h
    · rw [h] at completes
      cases completes
  · rcases clauses_of_reordered .conj (some 9) 0 reordered with ⟨S, -, h, -⟩ | h
    · rw [h] at stops
      cases stops
    · exact h

/-! ### Simplification -/

/-- Without a limit a normal form and its simplification, which is flat and has neither repeated arguments nor inner
    constants, have the same clauses up to their order. -/
theorem clauses_of_simplify (form : Junction) (literals : Nat) (n : Nnf) :
    ∃ S T, (clauses { form, literals } n).1 = .ok S ∧ (clauses { form, literals } n.simplify).1 = .ok T ∧
      S.sameClauses T = true :=
  ⟨n.expansion form, n.simplify.expansion form, clauses_fst rfl n, clauses_fst rfl n.simplify,
    Nnf.sameClauses_of_value_eq fun p => (n.value_simplify p).symm⟩

end Expander
end NormalForms
