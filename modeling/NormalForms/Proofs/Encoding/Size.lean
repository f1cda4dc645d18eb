import NormalForms.Proofs.Clause.Size
import NormalForms.Proofs.Encoding.Assert

/-!
The size of encodings. The clauses that define a junction of `k` literals have at most `3 * k + 1` literals. Each
argument pays three of them and one is paid by the junction itself, so what an assertion returns has at most four
literals for each node of its formula, however often a definition is used again. -/

namespace NormalForms

open Clause (totalSize)

/-! ### Definitions -/

namespace Definition

theorem totalSize_map_pair (p : Literal → Literal) (l : Literal) (ls : List Literal) :
    totalSize (ls.map fun m => .ofList [l, p m]) ≤ 2 * ls.length := by
  have pairs : ∀ c ∈ ls.map fun m => Clause.ofList [l, p m], c.size ≤ 2 :=
    List.forall_mem_map.mpr fun m _ => Clause.size_ofList_le [l, p m]
  simpa using Clause.totalSize_le_mul pairs

theorem totalSize_clausesFor_le (j : Junction) (x : Var) (args : List Literal) :
    totalSize (clausesFor j x args) ≤ 3 * args.length + 1 := by
  refine Nat.le_trans (Clause.totalSize_filter_le _ _) ?_
  cases j with
  | conj =>
    have pairs := totalSize_map_pair id (.neg x) args
    have whole := Clause.size_ofList_le (.pos x :: args.map Literal.complement)
    simp only [id, List.length_cons, List.length_map] at pairs whole
    simp only [conjunctionClauses, Clause.totalSize_append, Clause.totalSize_cons, Clause.totalSize_nil]
    omega
  | disj =>
    have pairs := totalSize_map_pair Literal.complement (.pos x) args
    have whole := Clause.size_ofList_le (.neg x :: args)
    simp only [List.length_cons] at whole
    simp only [disjunctionClauses, Clause.totalSize_append, Clause.totalSize_cons, Clause.totalSize_nil]
    omega

end Definition

namespace Encoder

variable {σ : Type}

/-- The literals in the clauses of all definitions. -/
def definitionSize (e : Encoder σ) : Nat := totalSize (e.definitions.flatMap Definition.clauses)

variable [NameSource σ] {e e' : Encoder σ} {n : Nnf} {ns : List Nnf} {l : Literal} {ls : List Literal}

theorem definitionSize_define (e : Encoder σ) (j : Junction) (n : Nnf) (ls : List Literal) :
    (e.define j n ls).2.definitionSize ≤ e.definitionSize + (3 * ls.length + 1) := by
  have added : (e.define j n ls).2.definitionSize =
      e.definitionSize + totalSize (Definition.clausesFor j (NameSource.fresh e.stem e.source).1 ls) := by
    rw [definitionSize, define, List.flatMap_append, Clause.totalSize_append, List.flatMap_singleton]
    rfl
  have new := Definition.totalSize_clausesFor_le j (NameSource.fresh e.stem e.source).1 ls
  omega

/-! ### Encoding -/

theorem definitionSize_encodeRecList
    (h : ∀ n ∈ ns, ∀ (e e' : Encoder σ) l, encodeRec n e = (.ok l, e') →
      e'.definitionSize + 3 ≤ e.definitionSize + 4 * n.size)
    (hns : encodeRecList ns e = (.ok ls, e')) :
    e'.definitionSize + 3 * ls.length ≤ e.definitionSize + 4 * Nnf.sizeList ns := by
  induction ns generalizing e ls with
  | nil =>
    cases hns
    exact Nat.le_refl _
  | cons n ns ih =>
    obtain ⟨l, ls', later, rfl, hn, hrest⟩ := encodeRecList_cons_ok hns
    have first := h n List.mem_cons_self e later l hn
    have rest := ih (fun m hm => h m (List.mem_cons_of_mem n hm)) hrest
    rw [List.length_cons, Nnf.sizeList]
    omega

/-- A literal for `n` leaves three of the four literals for the root of `n` to the definition that it goes into. -/
theorem definitionSize_encodeRec (h : encodeRec n e = (.ok l, e')) :
    e'.definitionSize + 3 ≤ e.definitionSize + 4 * n.size := by
  induction n generalizing e e' l with
  | const b => cases h
  | lit m =>
    cases h
    rw [Nnf.size]
    omega
  | nary j args ih =>
    rw [Nnf.size]
    rcases encodeRec_nary_ok h with ⟨d, -, -, rfl⟩ | ⟨-, ls, later, hargs, hdefine⟩
    · omega
    · have children := definitionSize_encodeRecList (fun n hn e e' l h => ih n hn h) hargs
      have whole := later.definitionSize_define j (.nary j args) ls
      obtain rfl : (later.define j (.nary j args) ls).2 = e' := congrArg Prod.snd hdefine
      omega

/-! ### Assertions -/

theorem totalSize_assertedBy_le (j : Junction) (ls : List Literal) : totalSize (assertedBy j ls) ≤ ls.length := by
  cases j with
  | conj =>
    have singles : totalSize (ls.map .single) ≤ 1 * (ls.map Clause.single).length :=
      Clause.totalSize_le_mul (List.forall_mem_map.mpr fun l _ => Nat.le_of_eq (Clause.size_single l))
    rwa [List.length_map, Nat.one_mul] at singles
  | disj => simpa [assertedBy] using Clause.size_ofList_le ls

theorem definitionSize_assertion {cs : List Clause} (h : (e.assertion n).1 = .ok cs) :
    (e.assertion n).2.definitionSize + totalSize cs ≤ e.definitionSize + 4 * n.size := by
  cases n with
  | const b => cases b <;> cases h <;> exact Nat.le_add_right _ _
  | lit l =>
    cases h
    rw [Clause.totalSize_cons, Clause.size_single, Clause.totalSize_nil, Nnf.size]
    show e.definitionSize + (1 + 0) ≤ _
    omega
  | nary j args =>
    obtain ⟨ls, hargs, rfl⟩ := assertion_nary_ok h
    have children := definitionSize_encodeRecList (fun n _ e e' l => definitionSize_encodeRec) hargs
    have asserted := totalSize_assertedBy_le j ls
    rw [Nnf.size]
    omega

namespace Call

variable {c : Call σ}

theorem definitionSize_after (c : Call σ) :
    c.after.definitionSize = c.start.definitionSize + totalSize (c.made.flatMap Definition.clauses) := by
  rw [definitionSize, c.definitions_after, List.flatMap_append, Clause.totalSize_append]
  rfl

/-- What a call returns has at most four literals for each node of its formula. -/
theorem totalSize_clauses_le (h : c.Succeeded) : totalSize c.clauses ≤ 4 * c.formula.size := by
  obtain ⟨cs, hcs⟩ := h.exists_assertion
  have whole := definitionSize_assertion hcs
  have asserted : totalSize c.asserted ≤ totalSize cs := by
    rw [Call.asserted, hcs]
    exact Clause.totalSize_filter_le _ cs
  rw [← after_eq, definitionSize_after] at whole
  rw [h.clauses_eq, Clause.totalSize_append]
  omega

end Call

theorem totalSize_calls_le (h : ∀ c ∈ e.calls ns, c.Succeeded) :
    totalSize ((e.calls ns).flatMap Call.clauses) ≤ 4 * Nnf.sizeList ns := by
  induction ns generalizing e with
  | nil => exact Nat.le_refl _
  | cons n ns ih =>
    rw [calls, List.forall_mem_cons] at h
    have first : totalSize (⟨e, n⟩ : Call σ).clauses ≤ 4 * n.size := Call.totalSize_clauses_le h.1
    have rest := ih h.2
    rw [calls, List.flatMap_cons, Clause.totalSize_append, Nnf.sizeList]
    omega

end Encoder
end NormalForms
