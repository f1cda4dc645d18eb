import NormalForms.Proofs.Nnf.OfFormula

/-!
Formulas that have the shape of a negation normal form already. Such a formula is well-formed and its own basis,
and with no negation to push it becomes the normal form that is read from it; so its negation normal form is the
simplification of what is read. -/

namespace NormalForms

namespace Nnf

variable {f : Formula} {fs : List Formula} {n : Nnf} {ns : List Nnf}

theorem ofFormulaList?_eq_cons (h : ofFormulaList? (f :: fs) = some ns) :
    ∃ n ms, ofFormula? f = some n ∧ ofFormulaList? fs = some ms ∧ ns = n :: ms := by
  rw [ofFormulaList?] at h
  split at h
  · rename_i n ms hn hms
    cases h
    exact ⟨n, ms, hn, hms, rfl⟩
  · cases h

/-- A formula that is read as a normal form, on its way through the stages. -/
structure Stages (f : Formula) (n : Nnf) : Prop where
  wellFormed : f.defect? = none
  basis : f.toBasisRec = .ok f
  pushed : ofBasisRec false f = .ok n

theorem stages_list (ih : ∀ f ∈ fs, ∀ n, ofFormula? f = some n → Stages f n) (h : ofFormulaList? fs = some ns) :
    Formula.listDefect? fs = none ∧ Formula.toBasisRecList fs = .ok fs ∧ ofBasisRecList false fs = .ok ns := by
  induction fs generalizing ns with
  | nil =>
    cases h
    exact ⟨rfl, rfl, rfl⟩
  | cons f fs ihs =>
    obtain ⟨n, ms, hn, hms, rfl⟩ := ofFormulaList?_eq_cons h
    obtain ⟨wellFormed, basis, pushed⟩ := ih f List.mem_cons_self n hn
    obtain ⟨wellFormeds, bases, pusheds⟩ := ihs (fun g hg => ih g (List.mem_cons_of_mem f hg)) hms
    refine ⟨?_, ?_, ?_⟩
    · rw [Formula.listDefect?, wellFormed, wellFormeds]
      rfl
    · rw [Formula.toBasisRecList, basis, bases]
      rfl
    · rw [ofBasisRecList, pushed, pusheds]
      rfl

theorem stages_of_ofFormula? (h : ofFormula? f = some n) : Stages f n := by
  induction f generalizing n with
  | const b =>
    cases h
    exact ⟨rfl, rfl, by rw [ofBasisRec, Bool.bne_false]⟩
  | var x =>
    cases h
    exact ⟨rfl, rfl, rfl⟩
  | lit l =>
    cases h
    exact ⟨rfl, rfl, rfl⟩
  | nary j args ih =>
    rw [ofFormula?] at h
    obtain ⟨ns, hns, rfl⟩ := Option.map_eq_some_iff.mp h
    obtain ⟨wellFormed, basis, pushed⟩ := stages_list (fun f hf n hn => ih f hf hn) hns
    refine ⟨wellFormed, ?_, ?_⟩
    · rw [Formula.toBasisRec, basis]
      rfl
    · rw [ofBasisRec, pushed]
      rfl
  | not f => cases h
  | implies p c => cases h
  | iff l r => cases h
  | card c args => cases h
  | quant q xs f => cases h

theorem ofFormulaList?_map_toFormula (h : ∀ n ∈ ns, ofFormula? n.toFormula = some n) :
    ofFormulaList? (ns.map toFormula) = some ns := by
  induction ns with
  | nil => rfl
  | cons n ns ih =>
    rw [List.map_cons, ofFormulaList?, h n List.mem_cons_self, ih fun m hm => h m (List.mem_cons_of_mem n hm)]

theorem ofFormula?_toFormula (n : Nnf) : ofFormula? n.toFormula = some n := by
  induction n with
  | const b => rfl
  | lit l => rfl
  | nary j args ih =>
    rw [toFormula, toFormulaList_eq, ofFormula?, ofFormulaList?_map_toFormula ih, Option.map_some]

end Nnf

/-- The negation normal form of a formula that is read as `n` is the simplification of `n`. -/
theorem Formula.nnf_of_ofFormula? {f : Formula} {n : Nnf} (h : Nnf.ofFormula? f = some n) : f.nnf = .ok n.simplify := by
  obtain ⟨wellFormed, basis, pushed⟩ := Nnf.stages_of_ofFormula? h
  rw [nnf, wellFormed]
  dsimp only
  rw [toBasis_eq, basis]
  show (Nnf.ofBasis f >>= fun n => pure n.simplify) = _
  rw [Nnf.ofBasis_eq, pushed]
  rfl

theorem Nnf.nnf_toFormula (n : Nnf) : n.toFormula.nnf = .ok n.simplify := Formula.nnf_of_ofFormula? n.ofFormula?_toFormula

end NormalForms
