import NormalForms.Proofs.Encoding.Assert
import NormalForms.Proofs.Formula.Nodes

/-!
Where assertions fail. Encoding stops at the first constant that it enters, and it does not enter what is defined. A
junction is defined when all its arguments have literals, so no definition, also of a call that fails later, holds a
constant, and none is passed over. Main statement: whatever calls came before, an assertion fails exactly if there is a
constant strictly below the root of its formula, and it fails at the first one. -/

namespace NormalForms

open Formula (StopsAt)

/-- The first of some constants as a formula that is not supported. -/
def firstConstant? (bs : List Bool) : Option Formula := bs.head?.map .const

theorem firstConstant?_append (bs cs : List Bool) :
    firstConstant? (bs ++ cs) = (firstConstant? bs).or (firstConstant? cs) := by
  rw [firstConstant?, List.head?_append, Option.map_or]
  rfl

namespace Encoder

/-- Whether no formula with a constant in it is defined. -/
def Supported {σ : Type} (e : Encoder σ) : Prop := ∀ n ∈ e.formulas, n.constants = []

/-! ### Definitions without constants -/

section
variable {σ : Type} {e : Encoder σ} {n : Nnf} {args : List Nnf} {l : Literal} {ls : List Literal}

theorem supported_start (source : σ) (stem : String) : Supported { source, stem } :=
  fun _ hn => absurd hn List.not_mem_nil

/-- A normal form that a literal stands for holds no constant. -/
theorem Supported.constants_of_stands (he : e.Supported) (h : Stands e.definitions n l) : n.constants = [] := by
  cases n with
  | const b => exact absurd h id
  | lit m => rfl
  | nary j args =>
    obtain ⟨d, hd, hformula, -⟩ := h
    rw [← hformula]
    exact he _ (List.mem_map_of_mem hd)

theorem Supported.constantsList_of_stands (he : e.Supported) (h : List.Forall₂ (Stands e.definitions) args ls) :
    Nnf.constantsList args = [] := by
  induction h with
  | nil => rfl
  | cons hl _ ih => rw [Nnf.constantsList, he.constants_of_stands hl, ih, List.append_nil]

end

section
variable {σ : Type} [NameSource σ] {e : Encoder σ} {ns : List Nnf}

theorem supported_keptBy (js : List Nnf) : KeptBy (Supported (σ := σ)) js := by
  intro e j args ls _ hargs he m hm
  rw [formulas_define, List.mem_append] at hm
  rcases hm with hm | hm
  · exact he m hm
  · rw [List.mem_singleton.mp hm, Nnf.constants]
    exact he.constantsList_of_stands hargs

/-! ### Encoding -/

theorem encodeRecList_cons_fst (e : Encoder σ) (n : Nnf) (ns : List Nnf) :
    (encodeRecList (n :: ns) e).1 =
      (encodeRec n e).1 >>= fun l => (encodeRecList ns (encodeRec n e).2).1.map (l :: ·) := by
  rw [encodeRecList]
  rcases encodeRec n e with ⟨failure | l, later⟩
  · rfl
  · dsimp only
    rcases encodeRecList ns later with ⟨failure | ls, last⟩ <;> rfl

theorem stopsAt_encodeRecList
    (h : ∀ n ∈ ns, ∀ e : Encoder σ, e.Supported → StopsAt (encodeRec n e).1 (firstConstant? n.constants))
    (he : e.Supported) : StopsAt (encodeRecList ns e).1 (firstConstant? (Nnf.constantsList ns)) := by
  induction ns generalizing e with
  | nil => exact ⟨[], rfl⟩
  | cons n ns ih =>
    have later : (encodeRec n e).2.Supported := encodeRec_keeps (supported_keptBy _) he
    have rest := ih (fun m hm => h m (List.mem_cons_of_mem n hm)) later
    rw [encodeRecList_cons_fst, Nnf.constantsList, firstConstant?_append]
    exact (h n List.mem_cons_self e he).bind fun l => rest.map (l :: ·)

/-- Encoding stops at the first constant. A junction that is defined already holds none. -/
theorem stopsAt_encodeRec (he : e.Supported) (n : Nnf) : StopsAt (encodeRec n e).1 (firstConstant? n.constants) := by
  induction n generalizing e with
  | const b => rfl
  | lit l => exact ⟨l, rfl⟩
  | nary j args ih =>
    rw [encodeRec]
    cases hfind : e.find? (.nary j args) with
    | some d =>
      rw [he _ (mem_formulas_of_find? hfind)]
      exact ⟨_, rfl⟩
    | none =>
      have found := (stopsAt_encodeRecList (fun n hn e he => ih n hn he) he).map fun ls =>
        ((encodeRecList args e).2.define j (.nary j args) ls).1
      dsimp only
      rcases hargs : encodeRecList args e with ⟨failure | ls, later⟩ <;> rwa [hargs] at found

/-! ### Assertions -/

theorem stopsAt_assertion (he : e.Supported) (n : Nnf) :
    StopsAt (e.assertion n).1 (firstConstant? n.innerConstants) := by
  cases n with
  | const b => cases b <;> exact ⟨_, rfl⟩
  | lit l => exact ⟨_, rfl⟩
  | nary j args =>
    rw [assertion_nary]
    exact (stopsAt_encodeRecList (fun n _ _ he => stopsAt_encodeRec he n) he).map (assertedBy j)

/-- An assertion stops at the first constant strictly below the root. -/
theorem stopsAt_assert (he : e.Supported) (n : Nnf) : StopsAt (e.assert n).1 (firstConstant? n.innerConstants) := by
  rw [assert_eq]
  exact (stopsAt_assertion he n).map _

end

/-- Whatever formulas have been asserted before, with success or not, an assertion fails if and only if there is a
    constant strictly below the root of its formula. Its failure then is that the leftmost such constant is not
    supported. -/
theorem assert_fails_at_first_constant {σ : Type} [NameSource σ] (source : σ) (stem : String) (ns : List Nnf)
    (n : Nnf) :
    let e := ({ source, stem } : Encoder σ).afterCalls ns
    ((∃ failure, (e.assert n).1 = .error failure) ↔ n.innerConstants ≠ []) ∧
      ∀ failure, (e.assert n).1 = .error failure ↔
        ∃ b, n.innerConstants.head? = some b ∧ failure = .unsupported (.const b) := by
  intro e
  have stops : StopsAt (e.assert n).1 (firstConstant? n.innerConstants) :=
    stopsAt_assert (afterCalls_keeps (fun _ _ => supported_keptBy _) (supported_start source stem)) n
  have fails : ∀ failure, (e.assert n).1 = .error failure ↔
      ∃ b, n.innerConstants.head? = some b ∧ failure = .unsupported (.const b) := by
    intro failure
    rw [stops.eq_error_iff]
    constructor
    · rintro ⟨q, hq, rfl⟩
      obtain ⟨b, hb, rfl⟩ := Option.map_eq_some_iff.mp hq
      exact ⟨b, hb, rfl⟩
    · rintro ⟨b, hb, rfl⟩
      exact ⟨.const b, Option.map_eq_some_iff.mpr ⟨b, hb, rfl⟩, rfl⟩
  refine ⟨?_, fails⟩
  constructor
  · rintro ⟨failure, hfailure⟩ nothing
    obtain ⟨b, hb, -⟩ := (fails failure).mp hfailure
    rw [nothing] at hb
    cases hb
  · intro hne
    exact ⟨_, (fails _).mpr ⟨_, List.head?_eq_some_head hne, rfl⟩⟩

end Encoder
end NormalForms
