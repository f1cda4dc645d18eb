import Mathlib.Logic.Equiv.Basic
import NormalForms.Proofs.Expansion.Count
import NormalForms.Proofs.Nnf.Translate

/-!
Expansions of translated normal forms. The expansion takes the same course for a normal form and for its translation,
also where it is interrupted: it gathers renamed clauses in the same order and counts the same literals. This holds for
a renaming alone and, with the form exchanged for the other one, for a negation. Main statement: an expansion looks
neither at the names of variables nor at their polarities. -/

namespace NormalForms

variable {φ : Renaming} {limit : Option Nat}

/-- Whether two runs end alike: they are interrupted for the same reason, or their results are related, and they have
    counted as many literals. -/
inductive EndAlike {α β : Type} (R : α → β → Prop) : Except Interrupt α × Nat → Except Interrupt β × Nat → Prop
  | ok {a : α} {b : β} (h : R a b) (k : Nat) : EndAlike R (.ok a, k) (.ok b, k)
  | error (interrupt : Interrupt) (k : Nat) : EndAlike R (.error interrupt, k) (.error interrupt, k)

theorem EndAlike.cases {α β : Type} {R : α → β → Prop} {r : Except Interrupt α × Nat} {s : Except Interrupt β × Nat}
    (h : EndAlike R r s) : (∃ a b k, r = (.ok a, k) ∧ s = (.ok b, k) ∧ R a b) ∨
      ∃ interrupt k, r = (.error interrupt, k) ∧ s = (.error interrupt, k) := by
  cases h with
  | @ok a b h k => exact .inl ⟨a, b, k, rfl, rfl, h⟩
  | error interrupt k => exact .inr ⟨interrupt, k, rfl, rfl⟩

theorem EndAlike.of_ok {α β : Type} {R : α → β → Prop} {a : α} {b : β} {k m : Nat}
    (h : EndAlike R (.ok a, k) (.ok b, m)) : R a b ∧ k = m := by
  cases h with
  | ok h k => exact ⟨h, rfl⟩

/-! ### Combinations -/

namespace Tally

variable {t u : Tally}

/-- Whether `u` has gathered the clauses of `t`, renamed, and counted as many literals. -/
structure Renames (φ : Renaming) (t u : Tally) : Prop where
  clauses : t.clauses.Renames φ u.clauses
  literals : t.literals = u.literals

theorem Renames.exceeds (h : t.Renames φ u) : t.exceeds limit = u.exceeds limit := by
  rw [Tally.exceeds, Tally.exceeds, h.literals]

theorem Renames.emit (h : t.Renames φ u) (c : Clause) : (t.emit c).Renames φ (u.emit (c.rename φ)) where
  clauses := by
    rw [clauses_emit, clauses_emit]
    exact h.clauses.insert c
  literals := by rw [literals_emit, literals_emit, h.literals, h.clauses.contains_eq, Clause.size_rename]

end Tally

namespace ClauseSet

variable {Ss Ts : List ClauseSet}

theorem renames_product (limit : Option Nat) {t u : Tally} (hs : List.Forall₂ (Renames φ) Ss Ts) (chosen : Clause)
    (h : t.Renames φ u) :
    (product limit Ss chosen t).Renames φ (product limit Ts (chosen.rename φ) u) := by
  induction hs generalizing chosen t u with
  | nil => exact h.emit chosen
  | cons hST hs ih =>
    rw [product, product, hST, List.foldl_map]
    refine List.foldl_rel h fun c _ t u h => ?_
    rw [h.exceeds, Clause.clashes_rename, ← Clause.rename_union]
    split
    · exact h
    · exact ih _ h

theorem renames_join (hs : List.Forall₂ (Renames φ) Ss Ts) : (join Ss).Renames φ (join Ts) :=
  ((renames_empty φ).foldl_extend hs).removeSubsumed

theorem combine_endAlike (hs : List.Forall₂ (Renames φ) Ss Ts) (k : Nat) :
    EndAlike (Renames φ) (combine limit Ss k) (combine limit Ts k) := by
  have sorted : List.Forall₂ (Renames φ) (sortOn size Ss) (sortOn size Ts) := forall₂_sortOn (fun _ _ h => h.size_eq) hs
  have gathered := renames_product limit (t := ⟨empty, k⟩) (u := ⟨empty, k⟩) sorted .empty
    ⟨renames_empty φ, rfl⟩
  rw [Clause.rename_empty] at gathered
  rw [combine, combine, gathered.exceeds, gathered.literals]
  split
  · exact .error _ _
  · exact .ok gathered.clauses.removeSubsumed _

theorem renames_ofConst (φ : Renaming) (form : Junction) (b negated : Bool) :
    (ofConst form b).Renames φ (ofConst (form.under negated) (b != negated)) := by
  have same : (b != negated) = (form.under negated).unit ↔ b = form.unit := by
    rw [Junction.unit_under]
    cases b <;> cases negated <;> simp
  simp only [ofConst, same]
  split
  · exact renames_empty φ
  · exact renames_single φ .empty

end ClauseSet

/-! ### Normal forms -/

namespace Expander

open ClauseSet (Renames)

/-- The expander for the form that stands for its own form under an odd number of negations, if `negated`. -/
def under (e : Expander) (negated : Bool) : Expander := { e with form := e.form.under negated }

variable {e : Expander} {negated : Bool} {ns : List Nnf} {Ss Ts : List ClauseSet}

theorem node_endAlike (hs : List.Forall₂ (Renames φ) Ss Ts) (i : Junction) (k : Nat) :
    EndAlike (Renames φ) (e.node i Ss k) ((e.under negated).node (i.under negated) Ts k) := by
  simp only [node, under, Junction.under_inj]
  split
  · exact .ok (ClauseSet.renames_join hs) k
  · exact ClauseSet.combine_endAlike hs k

theorem expandRecList_endAlike
    (ih : ∀ n ∈ ns, ∀ k, EndAlike (Renames φ) (e.expandRec n k) ((e.under negated).expandRec (n.translate negated φ) k))
    (k : Nat) : EndAlike (List.Forall₂ (Renames φ)) (e.expandRecList ns k)
      ((e.under negated).expandRecList (ns.map (Nnf.translate negated φ)) k) := by
  induction ns generalizing k with
  | nil => exact .ok .nil k
  | cons n ns ihs =>
    rw [List.map_cons, expandRecList, expandRecList]
    rcases (ih n List.mem_cons_self k).cases with ⟨S, T, m, hS, hT, hST⟩ | ⟨interrupt, m, hS, hT⟩
    · rw [hS, hT]
      dsimp only
      rcases (ihs (fun n' hn' => ih n' (List.mem_cons_of_mem n hn')) m).cases with
        ⟨Ss, Ts, m', hSs, hTs, hs⟩ | ⟨interrupt, m', hSs, hTs⟩
      · rw [hSs, hTs]
        exact .ok (.cons hST hs) m'
      · rw [hSs, hTs]
        exact .error interrupt m'
    · rw [hS, hT]
      exact .error interrupt m

theorem expandRec_endAlike (e : Expander) (negated : Bool) (φ : Renaming) (n : Nnf) (k : Nat) :
    EndAlike (Renames φ) (e.expandRec n k) ((e.under negated).expandRec (n.translate negated φ) k) := by
  induction n generalizing k with
  | const b =>
    rw [Nnf.translate, expandRec, expandRec, under]
    split
    · exact .error _ k
    · exact .ok (ClauseSet.renames_ofConst φ e.form b negated) k
  | lit l =>
    rw [Nnf.translate, expandRec, expandRec, under]
    split
    · exact .error _ k
    · exact .ok (ClauseSet.renames_single φ (.single l)) k
  | nary i args ih =>
    have cancelled : (e.under negated).cancelled = e.cancelled := rfl
    rw [Nnf.translate_nary, expandRec, expandRec, cancelled]
    split
    · exact .error _ k
    · rcases (expandRecList_endAlike ih k).cases with ⟨Ss, Ts, m, hSs, hTs, hs⟩ | ⟨interrupt, m, hSs, hTs⟩
      · rw [hSs, hTs]
        exact node_endAlike hs i m
      · rw [hSs, hTs]
        exact .error interrupt m

/-- The clauses of a translated normal form are the renamed clauses of the normal form, in the same order, or both
    expansions are interrupted; the literals counted are as many. -/
theorem clauses_endAlike (e : Expander) (negated : Bool) (φ : Renaming) (n : Nnf) :
    let r := e.clauses n
    let s := (e.under negated).clauses (n.translate negated φ)
    EndAlike (Renames φ) (r.1, r.2.literals) (s.1, s.2.literals) := by
  rw [clauses_eq, clauses_eq]
  exact expandRec_endAlike e negated φ n 0

/-- Variables renamed so that distinct ones stay distinct, with the polarity of some exchanged: the expansion counts as
    many literals, and either the clauses are the renamed ones, in the same order, or the limit is exceeded both times. -/
theorem clauses_of_renamed (ρ : Var → Var) (hρ : Function.Injective ρ) (flipped : Var → Bool) (form : Junction)
    (limit : Option Nat) (literals : Nat) (n : Nnf) :
    let φ := Renaming.ofVars ρ hρ flipped
    let e : Expander := { form, limit, literals }
    let r := e.clauses n
    let s := e.clauses (n.rename φ)
    r.2.literals = s.2.literals ∧
      ((∃ S T, r.1 = .ok S ∧ s.1 = .ok T ∧ T.clauses = S.clauses.map (Clause.rename φ)) ∨
        (r.1 = .error .limitExceeded ∧ s.1 = .error .limitExceeded)) := by
  intro φ e r s
  have alike : EndAlike (Renames φ) (r.1, r.2.literals) (s.1, s.2.literals) := e.clauses_endAlike false φ n
  rcases alike.cases with ⟨S, T, k, hr, hs, h⟩ | ⟨interrupt, k, hr, hs⟩
  · obtain ⟨hS, hk⟩ := Prod.mk.inj hr
    obtain ⟨hT, hk'⟩ := Prod.mk.inj hs
    exact ⟨hk.trans hk'.symm, .inl ⟨S, T, hS, hT, h⟩⟩
  · obtain ⟨hi, hk⟩ := Prod.mk.inj hr
    obtain ⟨hi', hk'⟩ := Prod.mk.inj hs
    obtain rfl : interrupt = .limitExceeded := eq_limitExceeded_of_clauses rfl hi
    exact ⟨hk.trans hk'.symm, .inr ⟨hi, hi'⟩⟩

/-- Two variables exchanged and the polarity of a third one flipped. Each clause sorts its literals anew, the clauses
    come in the same order, and of the limits 8 and 7 the second one is exceeded both times. -/
theorem clauses_of_renamed_exchange :
    let x (name : String) : Nnf := .lit (.pos ⟨name⟩)
    let n := Nnf.nary .disj [.nary .conj [x "a", x "b"], .nary .conj [x "c", x "d"]]
    let ρ : Equiv.Perm Var := Equiv.swap ⟨"a"⟩ ⟨"d"⟩
    let φ := Renaming.ofVars ρ ρ.injective (· = ⟨"b"⟩)
    let eight : Expander := { form := .conj, limit := some 8 }
    let seven : Expander := { form := .conj, limit := some 7 }
    Function.Injective ρ ∧
      (∃ S T, (eight.clauses n).1 = .ok S ∧ (eight.clauses (n.rename φ)).1 = .ok T ∧
        T.clauses = S.clauses.map (Clause.rename φ)) ∧
      (seven.clauses n).1 = .error .limitExceeded ∧ (seven.clauses (n.rename φ)).1 = .error .limitExceeded := by
  intro x n ρ φ eight seven
  have completes : (eight.clauses n).1.toOption.isSome = true := by decide +kernel
  have stops : (seven.clauses n).1.toOption.isSome = false := by decide +kernel
  refine ⟨ρ.injective, ?_, ?_⟩
  · refine (clauses_of_renamed ρ ρ.injective (· = ⟨"b"⟩) .conj (some 8) 0 n).2.resolve_right fun ⟨h, _⟩ => ?_
    rw [h] at completes
    cases completes
  · refine (clauses_of_renamed ρ ρ.injective (· = ⟨"b"⟩) .conj (some 7) 0 n).2.resolve_left fun ⟨S, _, h, _⟩ => ?_
    rw [h] at stops
    cases stops

end Expander

namespace Nnf

/-- Without a limit, the clauses of a translated normal form are the renamed ones, and as many literals are counted. -/
theorem expansion_translate (negated : Bool) (φ : Renaming) (form : Junction) (n : Nnf) :
    (n.expansion form).Renames φ ((n.translate negated φ).expansion (form.under negated)) ∧
      n.charge form = (n.translate negated φ).charge (form.under negated) := by
  have clauses (form : Junction) (n : Nnf) : (Expander.clauses { form } n).1 = .ok (n.expansion form) :=
    Expander.clauses_fst rfl n
  have under : Expander.under { form } negated = { form := form.under negated } := rfl
  have alike := Expander.clauses_endAlike { form } negated φ n
  dsimp only at alike
  rw [under, clauses, clauses, Expander.literals_clauses, Expander.literals_clauses] at alike
  exact alike.of_ok

end Nnf
end NormalForms
