import NormalForms.Proofs.Clause.Set
import NormalForms.Proofs.Formula.Strict
import NormalForms.Proofs.Nnf.Reading

/-!
Clauses read from formulas. What is written is read back, clause by clause; missing connectives make no difference
to the reading; strict formulas are read with proper clauses. A formula from which clauses can be read has the shape
of a negation normal form, and the clauses have its truth value, also where complementary literals have values of
their own. -/

namespace NormalForms

/-- A partial function on a list has all its values exactly if they are the members of one list. -/
theorem mapM_eq_some_iff {α : Type u} {β : Type w} {f : α → Option β} {as : List α} {bs : List β} :
    as.mapM f = some bs ↔ as.map f = bs.map some := by
  induction as generalizing bs with
  | nil => cases bs <;> simp
  | cons a as ih =>
    rw [List.mapM_cons, List.map_cons]
    cases ha : f a with
    | none => cases bs <;> simp
    | some b =>
      show ((as.mapM f).bind fun cs => some (b :: cs)) = some bs ↔ _
      constructor
      · intro h
        obtain ⟨cs, hcs, h⟩ := Option.bind_eq_some_iff.mp h
        cases h
        rw [ih.mp hcs, List.map_cons]
      · intro h
        cases bs with
        | nil => cases h
        | cons c cs =>
          obtain ⟨hb, hcs⟩ := List.cons.inj h
          cases hb
          rw [ih.mpr hcs]
          rfl

variable {i j form : Junction} {f : Formula} {args : List Formula} {c : Clause} {S : ClauseSet}

/-! ### Clauses -/

namespace Clause

theorem ofFormula?_nary (i : Junction) (args : List Formula) :
    ofFormula? i (.nary i args) = (args.mapM Formula.asLiteral?).map ofList := by
  rw [ofFormula?, Formula.args?_nary]

theorem ofFormula?_of_asLiteral? {l : Literal} (h : f.asLiteral? = some l) : ofFormula? i f = some (single l) := by
  have bare : f.args? i = none := by cases f <;> first | rfl | cases h
  rw [ofFormula?, bare]
  exact congrArg (Option.map single) h

theorem ofFormula?_toFormula (i : Junction) (c : Clause) : ofFormula? i (c.toFormula i) = some c := by
  have literals : (c.literals.map Formula.lit).mapM Formula.asLiteral? = some c.literals := by
    rw [mapM_eq_some_iff, List.map_map]
    rfl
  rw [toFormula, ofFormula?_nary, literals, Option.map_some]
  exact congrArg some (ext fun l => mem_ofList)

/-- A literal is read as the clause of it, with a connective around it or without. -/
theorem ofFormula?_wrap (i : Junction) (f : Formula) :
    ofFormula? i (if f.isLiteral then .nary i [f] else f) = ofFormula? i f := by
  split
  · rename_i hf
    obtain ⟨l, hl⟩ := Formula.isLiteral_iff.mp hf
    rw [ofFormula?_nary, ofFormula?_of_asLiteral? hl, List.mapM_cons, hl]
    rfl
  · rfl

theorem exists_ofFormula?_of_properClause (h : f.ProperClause i) :
    ∃ c, ofFormula? i f = some c ∧ c.isTautology = false := by
  obtain ⟨args, ls, rfl, hls, -, apart⟩ := h
  refine ⟨ofList ls, ?_, ?_⟩
  · rw [ofFormula?_nary, mapM_eq_some_iff.mpr hls]
    rfl
  · rw [isTautology_eq_false_iff]
    simpa only [mem_ofList] using apart

theorem nnf_of_asLiteral? {l : Literal} (h : f.asLiteral? = some l) : Nnf.ofFormula? f = some (.lit l) := by
  cases f <;> cases h <;> rfl

theorem nnfs_of_asLiteral? {ls : List Literal} (h : args.map Formula.asLiteral? = ls.map some) :
    Nnf.ofFormulaList? args = some (ls.map .lit) := by
  induction args generalizing ls with
  | nil =>
    rw [List.map_eq_nil_iff.mp h.symm]
    rfl
  | cons f args ih =>
    cases ls with
    | nil => cases h
    | cons l ls =>
      obtain ⟨hl, hls⟩ := List.cons.inj h
      rw [Nnf.ofFormulaList?, nnf_of_asLiteral? hl, ih hls]
      rfl

/-- A literal, or a junction of literals, has the shape of a negation normal form. -/
theorem nnf_of_ofFormula? (h : ofFormula? i f = some c) :
    ∃ n, Nnf.ofFormula? f = some n ∧ ∀ p, n.value p = i.across c.literals p := by
  rw [ofFormula?] at h
  split at h
  · rename_i args hargs
    obtain ⟨ls, hls, rfl⟩ := Option.map_eq_some_iff.mp h
    refine ⟨.nary i (ls.map .lit), ?_, fun p => ?_⟩
    · rw [Formula.eq_of_args? hargs, Nnf.ofFormula?, nnfs_of_asLiteral? (mapM_eq_some_iff.mp hls)]
      rfl
    · rw [Nnf.value_nary, Junction.across_map]
      exact Junction.across_congr_mem fun l => mem_ofList.symm
  · obtain ⟨l, hl, rfl⟩ := Option.map_eq_some_iff.mp h
    exact ⟨.lit l, nnf_of_asLiteral? hl, fun p => (Junction.across_singleton l).symm⟩

end Clause

/-! ### Clause sets -/

namespace ClauseSet

theorem ofFormula?_nary (j : Junction) (args : List Formula) :
    ofFormula? j (.nary j args) = (args.mapM (Clause.ofFormula? j.dual)).map ofList := by
  rw [ofFormula?, Formula.args?_nary]

/-- The clauses of a clause set, put together again. -/
theorem clauses_ofList_clauses (S : ClauseSet) : (ofList S.clauses).clauses = S.clauses := by
  rw [clauses_ofList, eraseDups_of_nodup S.nodup]

theorem ofFormula?_toFormula (j : Junction) (S : ClauseSet) : ofFormula? j (S.toFormula j) = some (ofList S.clauses) := by
  have clauses : (S.clauses.map (Clause.toFormula j.dual)).mapM (Clause.ofFormula? j.dual) = some S.clauses := by
    rw [mapM_eq_some_iff, List.map_map]
    exact List.map_congr_left fun c _ => c.ofFormula?_toFormula j.dual
  rw [toFormula, ofFormula?_nary, clauses, Option.map_some]

theorem ofFormula?_reshape (j : Junction) (f : Formula) : ofFormula? j (f.reshape j) = ofFormula? j f := by
  unfold Formula.reshape
  dsimp only
  split
  · rename_i args hargs
    rw [Formula.eq_of_args? hargs, ofFormula?_nary, ofFormula?_nary, List.mapM_map]
    exact congrArg (fun g => (List.mapM g args).map ofList) (funext fun c => Clause.ofFormula?_wrap j.dual c)
  · rename_i hargs
    rw [ofFormula?_nary, ofFormula?, hargs, List.mapM_cons, Clause.ofFormula?_wrap]
    cases Clause.ofFormula? j.dual f <;> rfl

theorem exists_ofFormula?_of_strict (h : f.Strict form) :
    ∃ S, ofFormula? form f = some S ∧ ∀ c ∈ S, c.isTautology = false := by
  obtain ⟨cs, rfl, hcs⟩ := h
  obtain ⟨ds, hds, proper⟩ : ∃ ds : List Clause, cs.map (Clause.ofFormula? form.dual) = ds.map some ∧
      ∀ d ∈ ds, d.isTautology = false := by
    induction cs with
    | nil => exact ⟨[], rfl, fun d hd => absurd hd List.not_mem_nil⟩
    | cons c cs ih =>
      obtain ⟨d, hd, hproper⟩ := Clause.exists_ofFormula?_of_properClause (hcs c List.mem_cons_self)
      obtain ⟨ds, hds, hpropers⟩ := ih fun c' hc' => hcs c' (List.mem_cons_of_mem c hc')
      exact ⟨d :: ds, by rw [List.map_cons, hd, hds, List.map_cons], List.forall_mem_cons.mpr ⟨hproper, hpropers⟩⟩
  refine ⟨ofList ds, ?_, fun d hd => proper d (mem_ofList.mp hd)⟩
  rw [ofFormula?_nary, mapM_eq_some_iff.mpr hds]
  rfl

theorem nnfs_of_ofFormula? {cs : List Clause} (h : args.map (Clause.ofFormula? i) = cs.map some) :
    ∃ ns, Nnf.ofFormulaList? args = some ns ∧
      ∀ p, (j.across ns fun n => n.value p) = j.across cs fun c => i.across c.literals p := by
  induction args generalizing cs with
  | nil =>
    rw [List.map_eq_nil_iff.mp h.symm]
    exact ⟨[], rfl, fun p => rfl⟩
  | cons f args ih =>
    cases cs with
    | nil => cases h
    | cons c cs =>
      obtain ⟨hc, hcs⟩ := List.cons.inj h
      obtain ⟨n, hn, hvalue⟩ := Clause.nnf_of_ofFormula? hc
      obtain ⟨ns, hns, hvalues⟩ := ih hcs
      refine ⟨n :: ns, by rw [Nnf.ofFormulaList?, hn, hns], fun p => ?_⟩
      rw [Junction.across_cons, Junction.across_cons, hvalue, hvalues]

/-- A formula from which clauses are read has the shape of a negation normal form. -/
theorem nnf_of_ofFormula? (h : ofFormula? form f = some S) :
    ∃ n, Nnf.ofFormula? f = some n ∧
      ∀ p, n.value p = form.across S.clauses fun c => form.dual.across c.literals p := by
  rw [ofFormula?] at h
  split at h
  · rename_i args hargs
    obtain ⟨cs, hcs, rfl⟩ := Option.map_eq_some_iff.mp h
    obtain ⟨ns, hns, hvalues⟩ := nnfs_of_ofFormula? (j := form) (mapM_eq_some_iff.mp hcs)
    refine ⟨.nary form ns, ?_, fun p => ?_⟩
    · rw [Formula.eq_of_args? hargs, Nnf.ofFormula?, hns]
      rfl
    · rw [Nnf.value_nary, hvalues]
      exact Junction.across_congr_mem fun c => mem_ofList.symm
  · obtain ⟨c, hc, rfl⟩ := Option.map_eq_some_iff.mp h
    obtain ⟨n, hn, hvalue⟩ := Clause.nnf_of_ofFormula? hc
    refine ⟨n, hn, fun p => ?_⟩
    rw [hvalue]
    exact (Junction.across_singleton (p := fun c : Clause => form.dual.across c.literals p) c).symm

end ClauseSet
end NormalForms
