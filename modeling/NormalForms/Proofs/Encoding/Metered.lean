import NormalForms.Names.Quota
import NormalForms.Proofs.Encoding.Assert

/-!
Encoders that count their requests. A numbering is asked for one name for each definition, so an encoder that draws
from a numbering can be run with a quota beside it. It makes and reports the same definitions and returns the
same clauses; what the quota adds is only that the number of definitions tells whether the run is called off. -/

namespace NormalForms.Encoder

variable {k : Nat} {e : Encoder Numbering} {n : Nnf} {ns : List Nnf}

/-- The encoder with a quota whose request number `k` calls off the run. Each definition has taken one request. -/
def metered (k : Nat) (e : Encoder Numbering) : Encoder Quota where
  source := { names := e.source, requests := e.definitions.length, last := some k }
  stem := e.stem
  definitions := e.definitions
  events := e.events

/-- The run is called off once there are as many definitions as the quota has requests. -/
theorem cancelled_metered (hk : 0 < k) :
    NameSource.cancelled (e.metered k).source = true ↔ k ≤ e.definitions.length := by
  show (decide (0 < k) && decide (k ≤ e.definitions.length)) = true ↔ _
  rw [Bool.and_eq_true, decide_eq_true_iff, decide_eq_true_iff, and_iff_right hk]

theorem find?_metered (k : Nat) (e : Encoder Numbering) (n : Nnf) : (e.metered k).find? n = e.find? n := rfl

theorem define_metered (k : Nat) (e : Encoder Numbering) (j : Junction) (n : Nnf) (ls : List Literal) :
    (e.metered k).define j n ls = ((e.define j n ls).1, (e.define j n ls).2.metered k) := by
  simp [define, metered, NameSource.fresh]

theorem encodeRecList_metered (k : Nat)
    (h : ∀ n ∈ ns, ∀ e : Encoder Numbering, encodeRec n (e.metered k) = ((encodeRec n e).1, (encodeRec n e).2.metered k))
    (e : Encoder Numbering) :
    encodeRecList ns (e.metered k) = ((encodeRecList ns e).1, (encodeRecList ns e).2.metered k) := by
  induction ns generalizing e with
  | nil => rfl
  | cons n ns ih =>
    rw [encodeRecList, encodeRecList, h n List.mem_cons_self]
    rcases encodeRec n e with ⟨failure | l, e'⟩
    · rfl
    · dsimp only
      rw [ih fun m hm => h m (List.mem_cons_of_mem n hm)]
      rcases encodeRecList ns e' with ⟨failure | ls, e''⟩ <;> rfl

theorem encodeRec_metered (k : Nat) (n : Nnf) (e : Encoder Numbering) :
    encodeRec n (e.metered k) = ((encodeRec n e).1, (encodeRec n e).2.metered k) := by
  induction n generalizing e with
  | const b => rfl
  | lit l => rfl
  | nary j args ih =>
    rw [encodeRec, encodeRec, find?_metered]
    cases e.find? (.nary j args) with
    | some d => rfl
    | none =>
      dsimp only
      rw [encodeRecList_metered k ih]
      rcases encodeRecList args e with ⟨failure | ls, e'⟩
      · rfl
      · dsimp only
        rw [define_metered]

theorem assertion_metered (k : Nat) (e : Encoder Numbering) (n : Nnf) :
    (e.metered k).assertion n = ((e.assertion n).1, (e.assertion n).2.metered k) := by
  cases n with
  | const b => cases b <;> rfl
  | lit l => rfl
  | nary j args =>
    rw [assertion_nary, assertion_nary, encodeRecList_metered k fun n _ => encodeRec_metered k n]

/-- An assertion returns the same with a quota as without it. -/
theorem assert_metered (k : Nat) (e : Encoder Numbering) (n : Nnf) :
    (e.metered k).assert n = ((e.assert n).1, (e.assert n).2.metered k) := by
  rw [assert_eq, assert_eq, assertion_metered]
  rfl

end NormalForms.Encoder
