import NormalForms.Proofs.Distinct
import NormalForms.Proofs.Encoding.Assert

/-!
What an encoder defines, and in which order. Every junction below the roots of the asserted formulas is defined once,
where it is completed first and however often it occurs after that. So the defined formulas are known from the asserted
ones alone, and their number grows with those. A numbering registers one name for each. -/

namespace NormalForms

/-! ### Defined formulas -/

namespace Encoder

section
variable {σ : Type} {e e' e'' : Encoder σ} {n : Nnf} {ns ms : List Nnf}

/-- Whether no formula is defined twice, and every junction in a defined formula is defined. -/
structure Shared (e : Encoder σ) : Prop where
  nodup : e.formulas.Nodup
  closed : ∀ n ∈ e.formulas, n.junctions ⊆ e.formulas

/-- Whether `later` defines the formulas that `e` defines and behind them those of `ns`, each where it occurs first,
    and shares its definitions. -/
structure Appends (ns : List Nnf) (e later : Encoder σ) : Prop where
  shared : later.Shared
  formulas_eq : later.formulas = (e.formulas ++ ns).eraseDups

theorem shared_start (source : σ) (stem : String) : Shared { source, stem } where
  nodup := .nil
  closed _ hn := absurd hn List.not_mem_nil

theorem Shared.appends (h : e.Shared) (hns : ns ⊆ e.formulas) : Appends ns e e where
  shared := h
  formulas_eq := by rw [eraseDups_append_of_subset hns, eraseDups_of_nodup h.nodup]

theorem Appends.trans (h : Appends ns e e') (h' : Appends ms e' e'') : Appends (ns ++ ms) e e'' where
  shared := h'.shared
  formulas_eq := by rw [h'.formulas_eq, h.formulas_eq, eraseDups_eraseDups_append, List.append_assoc]

/-- An encoder that starts without definitions defines the formulas to append alone. -/
theorem Appends.formulas_of_start (h : Appends ns e e') (he : e.definitions = []) : e'.formulas = ns.eraseDups := by
  have start : e.formulas = [] := List.map_eq_nil_iff.mpr he
  rw [h.formulas_eq, start, List.nil_append]

end

/-! ### Encoding -/

section
variable {σ : Type} [NameSource σ] {e e' : Encoder σ} {n : Nnf} {ns : List Nnf}

theorem appends_define {j : Junction} {args : List Nnf} {ls : List Literal} (h : Appends (Nnf.postorderList args) e e')
    (absent : Nnf.nary j args ∉ e'.formulas) :
    Appends (Nnf.nary j args).postorder e (e'.define j (.nary j args) ls).2 := by
  refine ⟨⟨?_, fun m hm k hk => ?_⟩, ?_⟩
  · rw [formulas_define, ← List.concat_eq_append]
    exact h.shared.nodup.concat absent
  · rw [formulas_define, List.mem_append] at hm ⊢
    rcases hm with hm | hm
    · exact .inl (h.shared.closed m hm hk)
    · rw [List.mem_singleton.mp hm, ← Nnf.mem_postorder, Nnf.postorder, List.mem_append] at hk
      rcases hk with hk | hk
      · rw [h.formulas_eq, List.mem_eraseDups]
        exact .inl (List.mem_append_right _ hk)
      · exact .inr hk
  · rw [h.formulas_eq, List.mem_eraseDups] at absent
    rw [formulas_define, h.formulas_eq, Nnf.postorder, ← List.append_assoc, eraseDups_concat_of_not_mem absent]

theorem appends_encodeRecList {ls : List Literal}
    (h : ∀ n ∈ ns, ∀ (e e' : Encoder σ) l, e.Shared → encodeRec n e = (.ok l, e') → Appends n.postorder e e')
    (he : e.Shared) (hns : encodeRecList ns e = (.ok ls, e')) : Appends (Nnf.postorderList ns) e e' := by
  induction ns generalizing e ls with
  | nil =>
    cases hns
    exact he.appends (List.nil_subset _)
  | cons n ns ih =>
    obtain ⟨l, ls', later, rfl, hn, hrest⟩ := encodeRecList_cons_ok hns
    have first := h n List.mem_cons_self e later l he hn
    exact first.trans (ih (fun m hm => h m (List.mem_cons_of_mem n hm)) first.shared hrest)

/-- Encoding appends the junctions of the normal form as they are completed. If the root is defined, all of them
    are. -/
theorem appends_encodeRec {l : Literal} (he : e.Shared) (h : encodeRec n e = (.ok l, e')) :
    Appends n.postorder e e' := by
  induction n generalizing e e' l with
  | const b => cases h
  | lit m =>
    cases h
    exact he.appends (List.nil_subset _)
  | nary j args ih =>
    rcases encodeRec_nary_ok h with ⟨d, hfind, -, rfl⟩ | ⟨hfind, ls, later, hargs, hdefine⟩
    · refine he.appends fun m hm => ?_
      exact he.closed _ (mem_formulas_of_find? hfind) (Nnf.mem_postorder.mp hm)
    · have children := appends_encodeRecList (fun n hn e e' l he h => ih n hn he h) he hargs
      have absent := find?_encodeRecList hfind
      rw [hargs, find?_eq_none_iff] at absent
      obtain rfl : (later.define j (.nary j args) ls).2 = e' := congrArg Prod.snd hdefine
      exact appends_define children absent

/-! ### Assertions -/

theorem appends_assertion {cs : List Clause} (he : e.Shared) (h : (e.assertion n).1 = .ok cs) :
    Appends n.innerPostorder e (e.assertion n).2 := by
  cases n with
  | const b => cases b <;> exact he.appends (List.nil_subset _)
  | lit l => exact he.appends (List.nil_subset _)
  | nary j args =>
    obtain ⟨ls, hargs, -⟩ := assertion_nary_ok h
    exact appends_encodeRecList (fun n _ e e' l => appends_encodeRec) he hargs

/-- A successful call appends the junctions strictly below the root of its formula. -/
theorem Call.appends {c : Call σ} (he : c.start.Shared) (h : c.Succeeded) :
    Appends c.formula.innerPostorder c.start c.after := by
  obtain ⟨cs, hcs⟩ := h.exists_assertion
  rw [after_eq]
  exact appends_assertion he hcs

/-- Calls, all of them successful, append the junctions strictly below the roots of their formulas. -/
theorem appends_afterCalls (he : e.Shared) (h : ∀ c ∈ e.calls ns, c.Succeeded) :
    Appends (ns.flatMap Nnf.innerPostorder) e (e.afterCalls ns) := by
  induction ns generalizing e with
  | nil => exact he.appends (List.nil_subset _)
  | cons n ns ih =>
    rw [calls, List.forall_mem_cons] at h
    have first : Appends n.innerPostorder e (e.assert n).2 := Call.appends (c := ⟨e, n⟩) he h.1
    exact first.trans (ih first.shared h.2)

end

/-! ### Names -/

/-- A definition registers its name behind those of the others. -/
theorem variables_define {σ : Type} [NameSource σ] {numbering : σ → Numbering} (draws : Numbering.DrawnBy numbering)
    {known : List Var} {e : Encoder σ} (j : Junction) (n : Nnf) (ls : List Literal)
    (he : (numbering e.source).variables = known ++ e.definitions.map Definition.name) :
    (numbering (e.define j n ls).2.source).variables = known ++ (e.define j n ls).2.definitions.map Definition.name := by
  have names : (numbering (e.define j n ls).2.source).variables =
      (numbering e.source).variables ++ [(NameSource.fresh e.stem e.source).1] := draws.variables_fresh e.stem e.source
  rw [names, he, List.append_assoc]
  show _ = _ ++ (e.definitions ++ [_]).map _
  rw [List.map_append]
  rfl

/-- A numbering registers the names of the definitions, in their order, whatever is registered before. -/
theorem variables_afterCalls (m : Numbering) (stem : String) (ns : List Nnf) :
    let later := ({ source := m, stem } : Encoder Numbering).afterCalls ns
    later.source.variables = m.variables ++ later.definitions.map Definition.name :=
  afterCalls_keeps
    (P := fun e : Encoder Numbering => e.source.variables = m.variables ++ e.definitions.map Definition.name)
    (fun _ _ => .of_define fun _ => variables_define Numbering.drawnBy_id) (List.append_nil _).symm

end Encoder
end NormalForms
