import NormalForms.Proofs.Encoding.Proper
import NormalForms.Proofs.Expansion.Proper
import NormalForms.Proofs.Formula.Strict
import NormalForms.Proofs.Transform.Parts

/-!
Results of transformations. On every way to a result its clauses are proper: on the fast path by what is
recognised, and past it because no part brings in a clause with complementary literals, with any source of names
and also where the run can be called off midway. Main statement: results are strict, and a strict formula is
returned as it is, at once. -/

namespace NormalForms

/-! ### The loop over the parts -/

section
variable {τ : Type} {form : Junction} {o : Options} {fallback : Fallback τ} {good : τ → Prop} {n : Nnf}
  {ns : List Nnf} {p q : Progress τ} {f r : Formula} {s : τ}

/-- Whether a fallback stays among the states that are `good`, and hands out no clause with complementary
    literals from them. -/
structure Fallback.Proper (fallback : Fallback τ) (good : τ → Prop) : Prop where
  stays : ∀ n s, good s → good (fallback.take n s).2
  clauses : ∀ n s cs, good s → (fallback.take n s).1 = .ok cs → ∀ c ∈ cs, c.isTautology = false

/-- Whether no clause gathered so far contains complementary literals, and the state is `good`. -/
structure Progress.Proper (p : Progress τ) (good : τ → Prop) : Prop where
  expanded : ∀ c ∈ p.expanded, c.isTautology = false
  encoded : ∀ c ∈ p.encoded, c.isTautology = false
  state : good p.state

theorem Progress.proper_part {place : Nat} (hf : fallback.Proper good) (h : p.Proper good)
    (hpart : p.part form o fallback place n = (.ok (), q)) : q.Proper good := by
  rcases part_ok hpart with rfl | ⟨clauses, htake, rfl⟩
  · refine ⟨fun c hc => ?_, h.encoded, h.state⟩
    rcases ClauseSet.mem_extend.mp hc with hc | hc
    · exact h.expanded c hc
    · exact Nnf.not_isTautology_of_mem_expansion hc
  · refine ⟨h.expanded, fun c hc => ?_, hf.stays n p.state h.state⟩
    rcases List.mem_append.mp hc with hc | hc
    · exact h.encoded c hc
    · exact hf.clauses n p.state clauses h.state htake c hc

theorem Progress.proper_parts {place : Nat} (hf : fallback.Proper good) (h : p.Proper good)
    (hparts : p.parts form o fallback place ns = (.ok (), q)) : q.Proper good := by
  induction ns generalizing p place with
  | nil =>
    cases hparts
    exact h
  | cons n ns ih =>
    rw [parts] at hparts
    rcases hpart : p.part form o fallback place n with ⟨failure | _, next⟩
    · rw [hpart] at hparts
      cases hparts
    · rw [hpart] at hparts
      exact ih (proper_part hf h hpart) hparts

/-! ### Transformations -/

theorem strict_of_takesFastPath (h : f.takesFastPath form = true) : (f.fastForm form).Strict form := by
  obtain ⟨hform, hproper⟩ := Bool.and_eq_true_iff.mp h
  unfold Formula.fastForm
  split
  · rename_i hclausal
    exact Formula.strict_iff.mpr ⟨congrArg₂ Classification.mk hform hclausal, hproper⟩
  · exact Formula.strict_reshape hform hproper

theorem strict_of_transform (hf : fallback.Proper good) (hs : good s)
    (h : (transform form o fallback f s).result = .ok r) : r.Strict form := by
  rcases transform_ok h with ⟨hfast, rfl⟩ | ⟨n, q, -, hparts, rfl⟩
  · exact strict_of_takesFastPath hfast
  · have start : Progress.Proper ⟨.empty, [], s, [.begun form, .simplified n]⟩ good :=
      ⟨fun c hc => absurd hc ClauseSet.not_mem_empty, fun c hc => absurd hc List.not_mem_nil, hs⟩
    have gathered := Progress.proper_parts hf start hparts
    refine Formula.strict_toFormula fun c hc => ?_
    rcases ClauseSet.mem_extend.mp hc with hc | hc
    · exact gathered.expanded c hc
    · exact gathered.encoded c hc

/-- A strict formula is returned as it is, whatever the options and the state. -/
theorem transform_of_strict (h : f.Strict form) (o : Options) (fallback : Fallback τ) (s : τ) :
    transform form o fallback f s =
      { result := .ok f, state := s, events := [.begun form, .fastPath false] } := by
  obtain ⟨hclass, hproper⟩ := Formula.strict_iff.mp h
  have fast : f.takesFastPath form = true := by
    rw [Formula.takesFastPath, hclass, hproper]
    rfl
  rw [transform_eq_of_takesFastPath fast, Formula.fastForm, hclass]
  rfl

end

/-! ### Both normal forms -/

theorem Fallback.proper_encode {σ : Type} [NameSource σ] : (encode (σ := σ)).Proper Encoder.Proper where
  stays n e he := Encoder.Call.proper_after (c := ⟨e, n⟩) he
  clauses n e cs he hcs c hc := by
    refine Encoder.Call.not_isTautology_of_mem_clauses (c := ⟨e, n⟩) he ?_
    have result : (⟨e, n⟩ : Encoder.Call σ).result = .ok cs := hcs
    rw [Encoder.Call.clauses, result]
    exact hc

theorem Fallback.proper_refuse (limit : Nat) : (refuse limit).Proper fun _ => True where
  stays _ _ _ := trivial
  clauses _ _ _ _ h := nomatch h

/-- A conjunctive normal form, made with any options and any source of names, has both levels in full and only
    proper clauses, and is its own conjunctive normal form with all other options and sources, which are not asked
    for a name. Disjunctive normal forms likewise. -/
theorem normal_forms_strict_and_stable (o : Options) (f r : Formula) :
    (∀ (σ : Type) [NameSource σ] (source : σ), (toCnf o f source).result = .ok r →
        r.classify (.clausal .conj) = ⟨true, true⟩ ∧ r.Strict .conj ∧
          ∀ (τ : Type) [NameSource τ] (o' : Options) (source' : τ), toCnf o' r source' =
            { result := .ok r, state := source', events := [.begun .conj, .fastPath false] }) ∧
      ((f.dnf o).result = .ok r →
        r.classify (.clausal .disj) = ⟨true, true⟩ ∧ r.Strict .disj ∧
          ∀ o' : Options, r.dnf o' = { result := .ok r, state := (), events := [.begun .disj, .fastPath false] }) := by
  constructor
  · intro σ _ source h
    have strict : r.Strict .conj :=
      strict_of_transform Fallback.proper_encode (fun d hd => absurd hd List.not_mem_nil) h
    refine ⟨(Formula.strict_iff.mp strict).1, strict, fun τ _ o' source' => ?_⟩
    rw [toCnf, transform_of_strict strict]
  · intro h
    have strict : r.Strict .disj := strict_of_transform (Fallback.proper_refuse _) trivial h
    exact ⟨(Formula.strict_iff.mp strict).1, strict, fun o' => transform_of_strict strict o' _ ()⟩

/-- The variable `0` is taken, and is also the name of the first definition, of which two clauses are then always
    true and left out. -/
theorem normal_forms_strict_and_stable_of_clash :
    let x (name : String) : Formula := .var ⟨name⟩
    let yes (name : String) : Formula := .lit (.pos ⟨name⟩)
    let no (name : String) : Formula := .lit (.neg ⟨name⟩)
    let f : Formula := .any [.all [x "0", x "b"], .all [x "c", x "d"]]
    let r : Formula := .all [.any [yes "b", no "0"], .any [yes "c", no "1"], .any [yes "d", no "1"],
      .any [yes "1", no "c", no "d"], .any [yes "0", yes "1"]]
    (toCnf { limit := some 0, stem := "" } f Numbering.empty).result = .ok r ∧ r.Strict .conj ∧
      ∀ o : Options, (r.cnf o).result = .ok r := by
  intro x yes no f r
  have result : (toCnf { limit := some 0, stem := "" } f Numbering.empty).result = .ok r := by decide
  obtain ⟨-, strict, stable⟩ := (normal_forms_strict_and_stable _ f r).1 Numbering .empty result
  refine ⟨result, strict, fun o => ?_⟩
  rw [Formula.cnf, stable Numbering o]

end NormalForms
