import NormalForms.Expansion
import NormalForms.Proofs.Clause.Size
import NormalForms.Proofs.Nnf.Basic
import NormalForms.Proofs.Traversal

/-!
What an expansion computes, and what it counts. Without a limit, the clauses of a normal form are
`expansion`, by recursion on the normal form, and the count of literals grows by `charge`, the literals of
the distinct combinations at every combining node. A limit does not change this as long as the count stays
within it; otherwise the expansion stops with a count above the limit. -/

namespace NormalForms

/-! ### Combinations -/

namespace Tally

variable {limit : Option Nat} {t : Tally} {c : Clause} {cs : List Clause}

/-- Gathers a combination, unless the count lies above the limit already. -/
def emitWithin (limit : Option Nat) (t : Tally) (c : Clause) : Tally := if t.exceeds limit then t else t.emit c

theorem clauses_emit (t : Tally) (c : Clause) : (t.emit c).clauses = t.clauses.insert c := by
  unfold emit ClauseSet.insert
  split <;> simp_all

theorem literals_emit (t : Tally) (c : Clause) :
    (t.emit c).literals = t.literals + if t.clauses.contains c then 0 else c.size := by
  have hadd := ClauseSet.add_fst t.clauses c
  unfold emit
  split
  · rename_i h
    have : c ∉ t.clauses := by simpa [h, ← ClauseSet.contains_iff] using hadd
    simp [this]
  · rename_i h
    have : c ∈ t.clauses := by simpa [h, ← ClauseSet.contains_iff] using hadd
    simp [this]

/-- A count above the limit stays there. -/
theorem exceeds_foldl_emit (h : t.exceeds limit = true) : (cs.foldl emit t).exceeds limit = true := by
  induction cs generalizing t with
  | nil => exact h
  | cons c cs ih =>
    refine ih ?_
    rw [exceeds, Option.any_eq_true] at h ⊢
    obtain ⟨L, hL, hlt⟩ := h
    refine ⟨L, hL, ?_⟩
    rw [decide_eq_true_iff] at hlt ⊢
    rw [literals_emit]
    omega

theorem foldl_emitWithin_of_exceeds (h : t.exceeds limit = true) : cs.foldl (emitWithin limit) t = t := by
  induction cs with
  | nil => rfl
  | cons c cs ih => rw [List.foldl_cons, emitWithin, if_pos h, ih]

theorem foldl_emitWithin_of_within (h : (cs.foldl emit t).exceeds limit = false) :
    cs.foldl (emitWithin limit) t = cs.foldl emit t := by
  induction cs generalizing t with
  | nil => rfl
  | cons c cs ih =>
    have ht : t.exceeds limit = false := by
      cases ht : t.exceeds limit with
      | false => rfl
      | true => rw [exceeds_foldl_emit ht] at h; cases h
    rw [List.foldl_cons, emitWithin, ht]
    exact ih h

theorem exceeds_foldl_emitWithin (h : (cs.foldl emit t).exceeds limit = true) :
    (cs.foldl (emitWithin limit) t).exceeds limit = true := by
  induction cs generalizing t with
  | nil => exact h
  | cons c cs ih =>
    cases ht : t.exceeds limit with
    | true => rwa [foldl_emitWithin_of_exceeds ht]
    | false =>
      rw [List.foldl_cons, emitWithin, ht]
      exact ih h

theorem clauses_foldl_emit (t : Tally) (cs : List Clause) : (cs.foldl emit t).clauses = t.clauses.extend cs := by
  induction cs generalizing t with
  | nil => rfl
  | cons c cs ih =>
    rw [List.foldl_cons, ih, clauses_emit]
    rfl

end Tally

namespace ClauseSet

/-- The count grows by the literals of the combinations that are new. -/
theorem literals_foldl_emit (t : Tally) (cs : List Clause) :
    (cs.foldl Tally.emit t).literals + t.clauses.literalCount = t.literals + (t.clauses.extend cs).literalCount := by
  induction cs generalizing t with
  | nil => rfl
  | cons c cs ih =>
    have tail := ih (t.emit c)
    rw [Tally.literals_emit, Tally.clauses_emit, literalCount_insert] at tail
    have step : t.clauses.extend (c :: cs) = (t.clauses.insert c).extend cs := rfl
    rw [List.foldl_cons, step]
    omega

/-- The unions of `chosen` with one clause of every operand that bring no complementary literals together,
    in the order in which they are gathered. -/
def unions : List ClauseSet → Clause → List Clause
  | [], chosen => [chosen]
  | S :: operands, chosen =>
    S.clauses.flatMap fun c => if c.clashes chosen then [] else unions operands (chosen.union c)

theorem product_eq {limit : Option Nat} {operands : List ClauseSet} {chosen : Clause} {t : Tally}
    (h : t.exceeds limit = false) :
    product limit operands chosen t = (unions operands chosen).foldl (Tally.emitWithin limit) t := by
  induction operands generalizing chosen t with
  | nil => simp [product, unions, Tally.emitWithin, h]
  | cons S operands ih =>
    rw [product, unions, List.foldl_flatMap]
    congr 1
    funext t c
    cases ht : t.exceeds limit with
    | true => rw [Tally.foldl_emitWithin_of_exceeds ht, Bool.true_or, if_pos rfl]
    | false =>
      rw [Bool.false_or]
      split
      · rfl
      · exact ih ht

/-- The distinct combinations of one clause of every operand. -/
def combinations (operands : List ClauseSet) : ClauseSet := ofList (unions (sortOn size operands) .empty)

variable {limit : Option Nat} {operands : List ClauseSet} {k L : Nat}

theorem foldl_emit_unions (operands : List ClauseSet) (k : Nat) :
    (unions (sortOn size operands) .empty).foldl Tally.emit ⟨empty, k⟩ =
      ⟨combinations operands, k + (combinations operands).literalCount⟩ := by
  have hc := Tally.clauses_foldl_emit ⟨empty, k⟩ (unions (sortOn size operands) .empty)
  have hl := literals_foldl_emit ⟨empty, k⟩ (unions (sortOn size operands) .empty)
  have hempty : empty.literalCount = 0 := rfl
  generalize (unions (sortOn size operands) .empty).foldl Tally.emit ⟨empty, k⟩ = t at hc hl
  obtain ⟨S, m⟩ := t
  simp only at hc hl
  rw [hempty, Nat.add_zero] at hl
  rw [hl, hc]
  rfl

/-- Whether a count stays within the limit. -/
def Within (limit : Option Nat) (k : Nat) : Prop := ∀ L, limit = some L → k ≤ L

theorem exceeds_eq_false_iff {t : Tally} : t.exceeds limit = false ↔ Within limit t.literals := by
  cases limit <;> simp [Tally.exceeds, Within]

theorem Within.mono {m : Nat} (h : Within limit m) (hk : k ≤ m) : Within limit k :=
  fun L hL => Nat.le_trans hk (h L hL)

theorem combine_of_within (h : Within limit (k + (combinations operands).literalCount)) :
    combine limit operands k =
      (.ok (combinations operands).removeSubsumed, k + (combinations operands).literalCount) := by
  have hstart : Tally.exceeds limit ⟨empty, k⟩ = false :=
    exceeds_eq_false_iff.mpr (h.mono (Nat.le_add_right k _))
  have hend : Tally.exceeds limit ⟨combinations operands, k + (combinations operands).literalCount⟩ = false :=
    exceeds_eq_false_iff.mpr h
  rw [combine, product_eq hstart, Tally.foldl_emitWithin_of_within (by rwa [foldl_emit_unions]), foldl_emit_unions]
  simp [hend]

theorem combine_of_not_within (hk : k ≤ L) (h : L < k + (combinations operands).literalCount) :
    ∃ m, combine (some L) operands k = (.error .limitExceeded, m) ∧ L < m := by
  have hstart : Tally.exceeds (some L) ⟨empty, k⟩ = false := by simpa [Tally.exceeds] using hk
  have hend : Tally.exceeds (some L) ((unions (sortOn size operands) .empty).foldl Tally.emit ⟨empty, k⟩) = true := by
    rw [foldl_emit_unions]
    simpa [Tally.exceeds] using h
  have hover := Tally.exceeds_foldl_emitWithin hend
  rw [combine, product_eq hstart]
  simp only [hover, if_true]
  exact ⟨_, rfl, by simpa [Tally.exceeds] using hover⟩

end ClauseSet

/-! ### The expansion of a normal form -/

namespace Nnf

mutual

/-- The clauses of a normal form in the `form` normal form, without a limit. -/
def expansion (form : Junction) : Nnf → ClauseSet
  | const b => .ofConst form b
  | lit l => .single (.single l)
  | nary i args =>
    if i = form then .join (expansionList form args)
    else (ClauseSet.combinations (expansionList form args)).removeSubsumed

/-- The clauses of each normal form of a list. -/
def expansionList (form : Junction) : List Nnf → List ClauseSet
  | [] => []
  | n :: ns => n.expansion form :: expansionList form ns

end

mutual

/-- The literals that the expansion of a normal form counts: those of the distinct combinations at every
    node that combines its arguments. -/
def charge (form : Junction) : Nnf → Nat
  | const _ | lit _ => 0
  | nary i args =>
    chargeList form args +
      if i = form then 0 else (ClauseSet.combinations (expansionList form args)).literalCount

/-- The literals that the expansions of a list count together. -/
def chargeList (form : Junction) : List Nnf → Nat
  | [] => 0
  | n :: ns => n.charge form + chargeList form ns

end

@[simp]
theorem expansionList_eq (form : Junction) (ns : List Nnf) : expansionList form ns = ns.map (expansion form) := by
  induction ns with
  | nil => rfl
  | cons n ns ih => simp [expansionList, ih]

theorem chargeList_eq (form : Junction) (ns : List Nnf) : chargeList form ns = (ns.map (charge form)).sum := by
  induction ns with
  | nil => rfl
  | cons n ns ih => rw [chargeList, ih, List.map_cons, List.sum_cons]

end Nnf

namespace Expander

open ClauseSet (Within)
open Traversal (Computes ComputesAll)

variable {e : Expander} {n : Nnf} {ns : List Nnf} {k L : Nat}

/-! ### The traversal -/

theorem expandRec_of_cancelled (hc : e.cancelled = true) (n : Nnf) (k : Nat) :
    e.expandRec n k = (.error .cancelled, k) := by cases n <;> simp [expandRec, hc]

theorem expand_computesAll (h : ∀ n ∈ ns, ∀ k, e.traversal.Computes n k (2 * n.size) (e.expandRec n k).1 (e.expandRec n k).2)
    (k : Nat) :
    e.traversal.ComputesAll ns k (2 * Nnf.sizeList ns) (e.expandRecList ns k).1 (e.expandRecList ns k).2 := by
  refine .of_forall (fun ns => 2 * Nnf.sizeList ns) rfl (fun n ns => ?_) (fun _ => rfl) (fun n ns s => ?_) h k
  · rw [Nnf.sizeList, Nat.mul_add]
  · rw [expandRecList]
    rcases e.expandRec n s with ⟨_ | a, s'⟩
    · rfl
    · dsimp only
      rcases e.expandRecList ns s' with ⟨_ | as, s''⟩ <;> rfl

theorem expand_computes (e : Expander) (n : Nnf) (k : Nat) :
    e.traversal.Computes n k (2 * n.size) (e.expandRec n k).1 (e.expandRec n k).2 := by
  cases hc : e.cancelled with
  | true =>
    rw [expandRec_of_cancelled hc]
    exact (Computes.fail (by simp [traversal, hc])).mono (by have := n.size_pos; omega)
  | false =>
    induction n generalizing k with
    | const b =>
      simp only [expandRec, hc]
      exact (Computes.done (by simp [traversal, hc])).mono (by simp [Nnf.size])
    | lit l =>
      simp only [expandRec, hc]
      exact (Computes.done (by simp [traversal, hc])).mono (by simp [Nnf.size])
    | nary i args ih =>
      have enter : e.traversal.enter (.nary i args) k = .descend i args := by simp [traversal, hc]
      have children := expand_computesAll ih k
      rw [Nnf.size, Nat.mul_add, expandRec, hc]
      rcases hargs : e.expandRecList args k with ⟨_ | operands, m⟩
      · rw [hargs] at children
        exact .descend_error enter children
      · rw [hargs] at children
        exact .descend enter children rfl

theorem clauses_eq (e : Expander) (n : Nnf) :
    e.clauses n = ((e.expandRec n 0).1, { e with literals := (e.expandRec n 0).2 }) := by
  rw [clauses, Traversal.traverse_eq (e.expand_computes n 0)]
  simp

/-! ### The limit -/

theorem node_of_within {i : Junction} {args : List Nnf}
    (h : Within e.limit (k + if i = e.form then 0 else (ClauseSet.combinations (Nnf.expansionList e.form args)).literalCount)) :
    e.node i (Nnf.expansionList e.form args) k =
      (.ok ((Nnf.nary i args).expansion e.form),
        k + if i = e.form then 0 else (ClauseSet.combinations (Nnf.expansionList e.form args)).literalCount) := by
  rw [node, Nnf.expansion]
  by_cases hi : i = e.form
  · simp only [if_pos hi, Nat.add_zero]
  · simp only [if_neg hi] at h ⊢
    exact ClauseSet.combine_of_within h

theorem expandRecList_of_within
    (ih : ∀ n ∈ ns, ∀ k, Within e.limit (k + n.charge e.form) →
      e.expandRec n k = (.ok (n.expansion e.form), k + n.charge e.form))
    (h : Within e.limit (k + Nnf.chargeList e.form ns)) :
    e.expandRecList ns k = (.ok (Nnf.expansionList e.form ns), k + Nnf.chargeList e.form ns) := by
  induction ns generalizing k with
  | nil => rfl
  | cons n ns ihs =>
    rw [Nnf.chargeList, ← Nat.add_assoc] at h ⊢
    have head := ih n List.mem_cons_self k (h.mono (Nat.le_add_right _ _))
    have tail := ihs (fun m hm => ih m (List.mem_cons_of_mem n hm)) h
    rw [expandRecList, head]
    dsimp only
    rw [tail]
    rfl

/-- Within the limit, an expansion is the one without a limit. -/
theorem expandRec_of_within (hc : e.cancelled = false) (h : Within e.limit (k + n.charge e.form)) :
    e.expandRec n k = (.ok (n.expansion e.form), k + n.charge e.form) := by
  induction n generalizing k with
  | const b => simp [expandRec, hc, Nnf.expansion, Nnf.charge]
  | lit l => simp [expandRec, hc, Nnf.expansion, Nnf.charge]
  | nary i args ih =>
    rw [Nnf.charge, ← Nat.add_assoc] at h ⊢
    have operands := expandRecList_of_within (fun n hn k hk => ih n hn hk) (h.mono (Nat.le_add_right _ _))
    rw [expandRec, hc, if_neg (by simp), operands]
    exact node_of_within h

theorem expandRecList_of_not_within (hL : e.limit = some L) (hc : e.cancelled = false)
    (ih : ∀ n ∈ ns, ∀ k ≤ L, L < k + n.charge e.form →
      ∃ m, e.expandRec n k = (.error .limitExceeded, m) ∧ L < m)
    (hk : k ≤ L) (h : L < k + Nnf.chargeList e.form ns) :
    ∃ m, e.expandRecList ns k = (.error .limitExceeded, m) ∧ L < m := by
  induction ns generalizing k with
  | nil =>
    rw [Nnf.chargeList] at h
    omega
  | cons n ns ihs =>
    rw [Nnf.chargeList, ← Nat.add_assoc] at h
    rw [expandRecList]
    by_cases hn : L < k + n.charge e.form
    · obtain ⟨m, hm, hlt⟩ := ih n List.mem_cons_self k hk hn
      rw [hm]
      exact ⟨m, rfl, hlt⟩
    · have within : Within e.limit (k + n.charge e.form) := fun L' hL' => by
        rw [hL] at hL'
        cases hL'
        omega
      obtain ⟨m, hm, hlt⟩ := ihs (fun n' hn' => ih n' (List.mem_cons_of_mem n hn')) (Nat.not_lt.mp hn) h
      rw [expandRec_of_within hc within]
      dsimp only
      rw [hm]
      exact ⟨m, rfl, hlt⟩

/-- Where the count of the expansion without a limit lies above the limit, the expansion stops. -/
theorem expandRec_of_not_within (hL : e.limit = some L) (hc : e.cancelled = false) (hk : k ≤ L)
    (h : L < k + n.charge e.form) : ∃ m, e.expandRec n k = (.error .limitExceeded, m) ∧ L < m := by
  induction n generalizing k with
  | const b =>
    rw [Nnf.charge] at h
    omega
  | lit l =>
    rw [Nnf.charge] at h
    omega
  | nary i args ih =>
    rw [Nnf.charge, ← Nat.add_assoc] at h
    rw [expandRec, hc, if_neg (by simp)]
    by_cases hargs : L < k + Nnf.chargeList e.form args
    · obtain ⟨m, hm, hlt⟩ := expandRecList_of_not_within hL hc (fun n hn k hk h => ih n hn hk h) hk hargs
      rw [hm]
      exact ⟨m, rfl, hlt⟩
    · have within : Within e.limit (k + Nnf.chargeList e.form args) := fun L' hL' => by
        rw [hL] at hL'
        cases hL'
        omega
      rw [expandRecList_of_within (fun n _ k hk => expandRec_of_within hc hk) within]
      -- The arguments stay within the limit, so this node combines them and exceeds it.
      have hi : i ≠ e.form := by
        rintro rfl
        simp only [if_true, Nat.add_zero] at h
        exact hargs h
      rw [if_neg hi] at h
      obtain ⟨m, hm, hlt⟩ := ClauseSet.combine_of_not_within (Nat.not_lt.mp hargs) h
      refine ⟨m, ?_, hlt⟩
      dsimp only
      rw [node, if_neg hi, hL, hm]

/-! ### Expansions from the start -/

/-- Whether the expansion of a normal form counts more literals than the limit. -/
def overflows (form : Junction) (limit : Option Nat) (n : Nnf) : Bool := limit.any (· < n.charge form)

theorem overflows_iff {form : Junction} {limit : Option Nat} :
    overflows form limit n = true ↔ ∃ L, limit = some L ∧ L < n.charge form := by
  cases limit <;> simp [overflows]

theorem overflows_eq_false_iff {form : Junction} {limit : Option Nat} :
    overflows form limit n = false ↔ Within limit (n.charge form) := by
  cases limit <;> simp [overflows, Within]

theorem clauses_of_cancelled (hc : e.cancelled = true) (n : Nnf) : (e.clauses n).1 = .error .cancelled := by
  rw [clauses_eq, expandRec_of_cancelled hc]

theorem clauses_of_within (hc : e.cancelled = false) (h : Within e.limit (n.charge e.form)) :
    e.clauses n = (.ok (n.expansion e.form), { e with literals := n.charge e.form }) := by
  have within : Within e.limit (0 + n.charge e.form) := by rwa [Nat.zero_add]
  rw [clauses_eq, expandRec_of_within hc within, Nat.zero_add]

theorem clauses_of_not_within (hL : e.limit = some L) (hc : e.cancelled = false) (h : L < n.charge e.form) :
    ∃ m, e.clauses n = (.error .limitExceeded, { e with literals := m }) ∧ L < m := by
  obtain ⟨m, hm, hlt⟩ := expandRec_of_not_within (n := n) (k := 0) hL hc (Nat.zero_le L) (by rwa [Nat.zero_add])
  rw [clauses_eq, hm]
  exact ⟨m, rfl, hlt⟩

theorem clauses_fst (hc : e.cancelled = false) (n : Nnf) :
    (e.clauses n).1 = if overflows e.form e.limit n then .error .limitExceeded else .ok (n.expansion e.form) := by
  cases ho : overflows e.form e.limit n with
  | true =>
    obtain ⟨L, hL, hlt⟩ := overflows_iff.mp ho
    obtain ⟨m, hm, -⟩ := clauses_of_not_within hL hc hlt
    rw [hm]
    rfl
  | false =>
    rw [clauses_of_within hc (overflows_eq_false_iff.mp ho)]
    rfl

/-- Nothing but the limit stops an expansion that is not cancelled. -/
theorem eq_limitExceeded_of_clauses {interrupt : Interrupt} (hc : e.cancelled = false)
    (h : (e.clauses n).1 = .error interrupt) : interrupt = .limitExceeded := by
  rw [clauses_fst hc] at h
  split at h
  · exact (Except.error.inj h).symm
  · cases h

/-- The count after an expansion without a limit. -/
theorem literals_clauses (form : Junction) (n : Nnf) :
    (Expander.clauses { form } n).2.literals = n.charge form := by
  rw [clauses_of_within (e := { form }) rfl fun L hL => nomatch hL]

end Expander

/-- The clauses of a part that is expanded without a limit. -/
def Nnf.distributed (form : Junction) (p : Nnf) : List Clause :=
  match (Expander.clauses { form } p).1 with
  | .ok S => S.clauses
  | .error _ => []

theorem Nnf.distributed_eq (form : Junction) (p : Nnf) : p.distributed form = (p.expansion form).clauses := by
  rw [distributed, Expander.clauses_fst rfl]
  rfl

end NormalForms
