import NormalForms.Proofs.Clause.Rename
import NormalForms.Proofs.Distinct
import NormalForms.Proofs.Nnf.OfFormula
import NormalForms.Transform

/-!
Renamed and negated normal forms. A translation renames the literals and, for a negation, exchanges the connectives and
the constants as De Morgan's laws do; the dual is the translation that takes each literal to its complement. The
simplification of a translated normal form is the translated simplification. Main statement: the negation normal form
of a negation is the dual of that of the formula, and fails for the same reason. -/

namespace NormalForms

namespace Junction

variable {i j : Junction}

theorem under_inj {negated : Bool} : i.under negated = j.under negated ↔ i = j := by
  cases negated <;> cases i <;> cases j <;> simp [under, dual]

theorem unit_under (j : Junction) (negated : Bool) : (j.under negated).unit = (j.unit != negated) := by
  cases negated <;> cases j <;> rfl

theorem under_not (j : Junction) (negated : Bool) : j.under (!negated) = (j.under negated).under true := by
  cases negated <;> cases j <;> rfl

end Junction

namespace Nnf

mutual

/-- The normal form with renamed literals and, if `negated`, with the other constant for each constant and the dual
    of each connective. -/
def translate (negated : Bool) (φ : Renaming) : Nnf → Nnf
  | const b => const (b != negated)
  | lit l => lit (φ.map l)
  | nary j args => nary (j.under negated) (translateList negated φ args)

def translateList (negated : Bool) (φ : Renaming) : List Nnf → List Nnf
  | [] => []
  | n :: ns => n.translate negated φ :: translateList negated φ ns

end

/-- The negation by De Morgan's laws: every connective, constant and literal is exchanged for its dual, and the order
    of the arguments stays. -/
def dual (n : Nnf) : Nnf := n.translate true .flip

/-- The normal form with every literal renamed, and otherwise as it is. -/
def rename (φ : Renaming) (n : Nnf) : Nnf := n.translate false φ

variable {negated : Bool} {φ : Renaming} {m n : Nnf}

theorem translateList_eq (negated : Bool) (φ : Renaming) (ns : List Nnf) :
    translateList negated φ ns = ns.map (translate negated φ) := by
  induction ns with
  | nil => rfl
  | cons n ns ih => rw [translateList, ih, List.map_cons]

theorem translate_nary (negated : Bool) (φ : Renaming) (j : Junction) (args : List Nnf) :
    (nary j args).translate negated φ = nary (j.under negated) (args.map (translate negated φ)) := by
  rw [translate, translateList_eq]

@[simp]
theorem rename_const (φ : Renaming) (b : Bool) : (const b).rename φ = const b := by rw [rename, translate, Bool.bne_false]

@[simp]
theorem rename_lit (φ : Renaming) (l : Literal) : (lit l).rename φ = lit (φ.map l) := rfl

@[simp]
theorem rename_nary (φ : Renaming) (j : Junction) (args : List Nnf) :
    (nary j args).rename φ = nary j (args.map (rename φ)) := translate_nary false φ j args

@[simp]
theorem dual_const (b : Bool) : (const b).dual = const (!b) := by rw [dual, translate, Bool.bne_true]

@[simp]
theorem dual_lit (l : Literal) : (lit l).dual = lit l.complement := rfl

@[simp]
theorem dual_nary (j : Junction) (args : List Nnf) : (nary j args).dual = nary j.dual (args.map dual) :=
  translate_nary true .flip j args

@[simp]
theorem dual_dual (n : Nnf) : n.dual.dual = n := by
  induction n with
  | const b => rw [dual_const, dual_const, Bool.not_not]
  | lit l => rw [dual_lit, dual_lit, Literal.complement_complement]
  | nary j args ih =>
    have arguments : args.map (dual ∘ dual) = args.map id := List.map_congr_left ih
    rw [dual_nary, dual_nary, Junction.dual_dual, List.map_map, arguments, List.map_id]

mutual

theorem translate_inj : ∀ m n : Nnf, m.translate negated φ = n.translate negated φ ↔ m = n
  | const _, n => by cases n <;> simp [translate]
  | lit _, n => by cases n <;> simp [translate, φ.injective.eq_iff]
  | nary _ ms, n => by cases n <;> simp [translate, Junction.under_inj, translateList_inj ms]

theorem translateList_inj : ∀ ms ns : List Nnf, translateList negated φ ms = translateList negated φ ns ↔ ms = ns
  | [], ns => by cases ns <;> simp [translateList]
  | m :: ms, ns => by cases ns <;> simp [translateList, translate_inj m, translateList_inj ms]

end

theorem translate_injective (negated : Bool) (φ : Renaming) : Function.Injective (translate negated φ) :=
  fun m n => (translate_inj m n).mp

/-! ### Simplification -/

theorem spliced_translate (negated : Bool) (φ : Renaming) (j : Junction) (n : Nnf) :
    spliced (j.under negated) (n.translate negated φ) = (spliced j n).map (translate negated φ) := by
  cases n with
  | const b => rfl
  | lit l => rfl
  | nary i args =>
    simp only [translate_nary, spliced, Junction.under_inj]
    split
    · rfl
    · rw [List.map_singleton, translate_nary]

theorem ofArgs_translate (negated : Bool) (φ : Renaming) (j : Junction) (ns : List Nnf) :
    ofArgs (j.under negated) (ns.map (translate negated φ)) = (ofArgs j ns).translate negated φ := by
  match ns with
  | [] => rw [List.map_nil, ofArgs, ofArgs, translate, Junction.unit_under]
  | [n] => rfl
  | m :: n :: ns => exact (translate_nary negated φ j (m :: n :: ns)).symm

theorem merge_translate (negated : Bool) (φ : Renaming) (j : Junction) (args : List Nnf) :
    merge (j.under negated) (args.map (translate negated φ)) = (merge j args).translate negated φ := by
  have decisive : const (!(j.under negated).unit) = (const !j.unit).translate negated φ := by
    rw [translate, Junction.unit_under, Bool.not_bne]
  have decided : (args.map (translate negated φ)).contains (const !(j.under negated).unit) =
      args.contains (const !j.unit) := by
    rw [Bool.eq_iff_iff, List.contains_iff_mem, List.contains_iff_mem, decisive,
      List.mem_map_of_injective (translate_injective negated φ)]
  have contributed : (args.map (translate negated φ)).flatMap (spliced (j.under negated)) =
      (args.flatMap (spliced j)).map (translate negated φ) := by
    rw [List.flatMap_map, List.map_flatMap]
    exact congrArg args.flatMap (funext (spliced_translate negated φ j))
  rw [merge_eq, merge_eq, decided, contributed, eraseDups_map (translate_injective negated φ), ofArgs_translate,
    decisive]
  split <;> rfl

/-- Translation and simplification can change places. -/
theorem simplify_translate (negated : Bool) (φ : Renaming) (n : Nnf) :
    (n.translate negated φ).simplify = n.simplify.translate negated φ := by
  rw [simplify_eq, simplify_eq]
  induction n with
  | const b => rfl
  | lit l => rfl
  | nary j args ih =>
    rw [translate_nary, simplifyRec, simplifyRec, simplifyRecList_eq, simplifyRecList_eq, ← merge_translate,
      List.map_map, List.map_map]
    exact congrArg (merge _) (List.map_congr_left ih)

/-! ### Parts -/

theorem parts_translate (negated : Bool) (φ : Renaming) (form : Junction) (n : Nnf) :
    (n.translate negated φ).parts (form.under negated) = (n.parts form).map (translate negated φ) := by
  cases n with
  | const b => rfl
  | lit l => rfl
  | nary i args =>
    simp only [translate_nary, parts, args?, Junction.under_inj]
    split
    · rfl
    · rw [Option.getD_none, Option.getD_none, List.map_singleton, translate_nary]

/-! ### Negations -/

theorem ofBasisRecList_not {fs : List Formula}
    (ih : ∀ f ∈ fs, ofBasisRec (!negated) f = (ofBasisRec negated f).map dual) :
    ofBasisRecList (!negated) fs = (ofBasisRecList negated fs).map (List.map dual) := by
  induction fs with
  | nil => rfl
  | cons f fs ihs =>
    rw [ofBasisRecList, ofBasisRecList, ih f List.mem_cons_self, ihs fun g hg => ih g (List.mem_cons_of_mem f hg)]
    rcases ofBasisRec negated f with failure | n
    · rfl
    · rcases ofBasisRecList negated fs with failure | ns <;> rfl

/-- One more negation above leads to the dual. -/
theorem ofBasisRec_not (negated : Bool) (f : Formula) : ofBasisRec (!negated) f = (ofBasisRec negated f).map dual := by
  induction f generalizing negated with
  | const b => cases b <;> cases negated <;> rfl
  | var x => rfl
  | lit l =>
    cases negated with
    | false => rfl
    | true =>
      show _ = Except.ok (lit l.complement.complement)
      rw [Literal.complement_complement]
      rfl
  | not f ih => exact ih !negated
  | nary j args ih =>
    rw [ofBasisRec, ofBasisRec, ofBasisRecList_not fun f hf => ih f hf negated, Junction.under_not]
    rcases ofBasisRecList negated args with failure | ns
    · rfl
    · exact congrArg Except.ok (translate_nary true .flip (j.under negated) ns).symm
  | implies p c => rfl
  | iff l r => rfl
  | card c args => rfl
  | quant q xs f => rfl

end Nnf

/-- The negation normal form of a negation is the dual. -/
theorem Formula.nnf_not (f : Formula) : (not f).nnf = f.nnf.map Nnf.dual := by
  have defect : (not f).defect? = f.defect? := rfl
  have basis : (not f).toBasis = f.toBasis.map not := by
    rw [toBasis_eq, toBasis_eq, toBasisRec]
    rcases f.toBasisRec with failure | g <;> rfl
  rw [nnf, nnf, defect, basis]
  cases f.defect? with
  | some d => rfl
  | none =>
    rcases f.toBasis with failure | g
    · rfl
    · show (Nnf.ofBasis (not g) >>= fun n => pure n.simplify) = (Nnf.ofBasis g >>= fun n => pure n.simplify).map Nnf.dual
      have pushed : Nnf.ofBasis (not g) = (Nnf.ofBasis g).map Nnf.dual := by
        rw [Nnf.ofBasis_eq, Nnf.ofBasis_eq, ← Nnf.ofBasisRec_not]
        rfl
      rw [pushed]
      rcases Nnf.ofBasis g with failure | n
      · rfl
      · exact congrArg Except.ok (Nnf.simplify_translate true .flip n)

/-- A negation has a negation normal form exactly if the formula has one, and fails otherwise for the same reason. The
    normal form is the dual: with the other connective for each connective, the other constant for each constant and
    the complement of each literal, in the same order. So two negations make no difference. -/
theorem Formula.nnf_of_negation_is_dual (f : Formula) :
    (∀ failure, (not f).nnf = .error failure ↔ f.nnf = .error failure) ∧
      (∀ n, (not f).nnf = .ok n.dual ↔ f.nnf = .ok n) ∧ (not (not f)).nnf = f.nnf := by
  rw [nnf_not (not f), nnf_not f]
  rcases f.nnf with failure | n
  · exact ⟨fun _ => Iff.rfl, fun m => ⟨nofun, nofun⟩, rfl⟩
  · refine ⟨fun _ => ⟨nofun, nofun⟩, fun m => ⟨fun h => ?_, fun h => ?_⟩, congrArg Except.ok n.dual_dual⟩
    · have duals : n.dual = m.dual := Except.ok.inj h
      rw [← n.dual_dual, duals, m.dual_dual]
    · rw [Except.ok.inj h]
      rfl

end NormalForms
