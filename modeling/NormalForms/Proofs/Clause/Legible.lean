import NormalForms.Proofs.Clause.Reading

/-!
Formulas that clauses can be read from. A clausal normal form divides a formula into parts, and each part again: the
arguments of the connective that is looked for, or the formula itself in the place of the only one. Reading clauses,
recognising the normal form and recognising proper clauses are written apart from each other, but all of them look at
these parts alone. Main statement: clause sets and formulas in a clausal normal form convert both ways, exactly the
recognised formulas can be read, and the clauses that are read have the truth value of the formula. -/

namespace NormalForms

namespace Formula

/-- The arguments of a `j`. Any other formula stands in the place of its only argument. -/
def parts (j : Junction) (f : Formula) : List Formula := (f.args? j).getD [f]

/-- Whether the formula is a literal, or an `i` of literals. -/
def isLegibleClause (i : Junction) (f : Formula) : Bool := (f.parts i).all isLiteral

/-- Whether the formula is a clause, or a `form` of clauses. -/
def isLegible (form : Junction) (f : Formula) : Bool := (f.parts form).all (isLegibleClause form.dual)

/-- The literals of a clause as they are written. -/
def writtenLiterals (i : Junction) (f : Formula) : List Literal := (f.parts i).filterMap asLiteral?

/-- The literals of a formula in the `form` normal form as they are written, clause by clause. -/
def writtenClauses (form : Junction) (f : Formula) : List (List Literal) :=
  (f.parts form).map (writtenLiterals form.dual)

variable {i form : Junction} {f : Formula} {args : List Formula}

theorem parts_of_args? (h : f.args? i = some args) : f.parts i = args := by rw [parts, h, Option.getD_some]

theorem parts_of_args?_eq_none (h : f.args? i = none) : f.parts i = [f] := by rw [parts, h, Option.getD_none]

theorem all_parts_of_args?_eq_none (h : f.args? i = none) (p : Formula → Bool) : (f.parts i).all p = p f := by
  rw [parts_of_args?_eq_none h, List.all_cons, List.all_nil, Bool.and_true]

/-! ### Recognising -/

theorem isLiteral_or_isClause (i : Junction) (f : Formula) : (f.isLiteral || f.isClause i) = f.isLegibleClause i := by
  rw [isClause, isLegibleClause]
  cases h : f.args? i with
  | none => rw [all_parts_of_args?_eq_none h, Option.any_none, Bool.or_false]
  | some args =>
    have compound : f.isLiteral = false := by
      rw [eq_of_args? h]
      rfl
    rw [parts_of_args? h, compound, Option.any_some, Bool.false_or]

theorem normalForm_classifyClausal (form : Junction) (f : Formula) :
    (f.classifyClausal form).normalForm = f.isLegible form := by
  rw [isLegible]
  cases h : f.args? form with
  | none => rw [classifyClausal_of_args? h, isLiteral_or_isClause, all_parts_of_args?_eq_none h]
  | some args =>
    rw [parts_of_args? h, eq_of_args? h, classifyClausal_nary]
    simp only [isLiteral_or_isClause]
    split
    · rename_i hall
      exact hall.symm
    · rename_i hall
      exact (Bool.eq_false_of_not_eq_true hall).symm

theorem map_asLiteral?_parts (h : f.isLegibleClause i = true) :
    (f.parts i).map asLiteral? = (f.writtenLiterals i).map some := by
  obtain ⟨ls, hls⟩ := all_isLiteral_iff.mp h
  rw [hls, writtenLiterals, filterMap_asLiteral? hls]

theorem isProperClause_iff_writtenLiterals (h : f.isLegibleClause i = true) : f.isProperClause i = true ↔
    (f.writtenLiterals i).Nodup ∧ ∀ l ∈ f.writtenLiterals i, l.complement ∉ f.writtenLiterals i := by
  have literals := map_asLiteral?_parts h
  cases hargs : f.args? i with
  | none =>
    -- A literal in the place of a clause always passes, and it is the only one that is written.
    rw [parts_of_args?_eq_none hargs] at literals
    obtain ⟨l, hl⟩ := List.length_eq_one_iff.mp (by simpa using (congrArg List.length literals).symm)
    simp [isProperClause, hargs, hl, l.complement_ne]
  | some args =>
    rw [parts_of_args? hargs] at literals
    have compound := isProperClause_iff (i := i) literals
    rwa [← eq_of_args? hargs] at compound

theorem hasProperClauses_iff_writtenClauses (h : f.isLegible form = true) : f.hasProperClauses form = true ↔
    ∀ ls ∈ f.writtenClauses form, ls.Nodup ∧ ∀ l ∈ ls, l.complement ∉ ls := by
  have division : f.hasProperClauses form = (f.parts form).all (isProperClause form.dual) := by
    rw [hasProperClauses]
    cases hargs : f.args? form with
    | none => rw [all_parts_of_args?_eq_none hargs]
    | some args => rw [parts_of_args? hargs]
  rw [division, List.all_eq_true, writtenClauses, List.forall_mem_map]
  exact forall₂_congr fun c hc => isProperClause_iff_writtenLiterals (List.all_eq_true.mp h c hc)

end Formula

/-! ### Reading -/

variable {i form : Junction} {f : Formula} {S : ClauseSet}

theorem Clause.ofFormula?_eq_mapM (i : Junction) (f : Formula) :
    ofFormula? i f = ((f.parts i).mapM Formula.asLiteral?).map ofList := by
  rw [ofFormula?]
  cases h : f.args? i with
  | none =>
    rw [Formula.parts_of_args?_eq_none h, List.mapM_cons]
    cases f.asLiteral? <;> rfl
  | some args => rw [Formula.parts_of_args? h]

theorem ClauseSet.ofFormula?_eq_mapM (form : Junction) (f : Formula) :
    ofFormula? form f = ((f.parts form).mapM (Clause.ofFormula? form.dual)).map ofList := by
  rw [ofFormula?]
  cases h : f.args? form with
  | none =>
    rw [Formula.parts_of_args?_eq_none h, List.mapM_cons]
    cases Clause.ofFormula? form.dual f <;> rfl
  | some args => rw [Formula.parts_of_args? h]

/-- A function that is defined where `p` holds has a value for every element of a list, or none for the list. -/
theorem mapM_ite {α : Type u} {β : Type w} {p : α → Bool} {g : α → β} (as : List α) :
    (as.mapM fun a => if p a then some (g a) else none) = if as.all p then some (as.map g) else none := by
  induction as with
  | nil => rfl
  | cons a as ih =>
    rw [List.mapM_cons, ih, List.all_cons]
    cases p a <;> cases as.all p <;> rfl

theorem Formula.mapM_asLiteral? (args : List Formula) :
    args.mapM asLiteral? = if args.all isLiteral then some (args.filterMap asLiteral?) else none := by
  induction args with
  | nil => rfl
  | cons f args ih =>
    rw [List.mapM_cons, ih, List.all_cons, isLiteral, List.filterMap_cons]
    cases f.asLiteral? <;> cases args.all isLiteral <;> rfl

theorem Clause.ofFormula?_eq (i : Junction) (f : Formula) :
    ofFormula? i f = if f.isLegibleClause i then some (ofList (f.writtenLiterals i)) else none := by
  rw [ofFormula?_eq_mapM, Formula.mapM_asLiteral?, Formula.isLegibleClause, Formula.writtenLiterals]
  split <;> rfl

/-- Reading gives the written clauses as sets, each at its first occurrence. -/
theorem ClauseSet.ofFormula?_eq (form : Junction) (f : Formula) : ofFormula? form f =
    if f.isLegible form then some (ofList ((f.writtenClauses form).map Clause.ofList)) else none := by
  rw [ofFormula?_eq_mapM, funext (Clause.ofFormula?_eq form.dual), mapM_ite, Formula.isLegible, Formula.writtenClauses,
    List.map_map]
  split <;> rfl

theorem ClauseSet.isSome_ofFormula? (form : Junction) (f : Formula) : (ofFormula? form f).isSome = f.isLegible form := by
  rw [ofFormula?_eq]
  cases f.isLegible form <;> rfl

theorem ClauseSet.eval_of_ofFormula? (h : ofFormula? form f = some S) (v : Assignment) :
    f.eval v = .ok (S.eval form v) := by
  obtain ⟨n, hn, hvalue⟩ := nnf_of_ofFormula? h
  rw [Formula.eval_of_nnf (Formula.nnf_of_ofFormula? hn), Nnf.eval_simplify, Nnf.eval_eq_value, hvalue]
  rfl

/-- What is written as a conjunctive or a disjunctive normal form is read back with its clauses in their order.
    Exactly the formulas that are recognised as the normal form can be read, and the clauses have the truth value of
    the formula under every assignment. -/
theorem ClauseSet.formulas_convert_both_ways (form : Junction) :
    (∀ S : ClauseSet, ∃ T, ofFormula? form (S.toFormula form) = some T ∧ T.clauses = S.clauses ∧
        ∀ c, T.contains c = S.contains c) ∧
      ∀ f : Formula, (ofFormula? form f).isSome = (f.classify (.clausal form)).normalForm ∧
        ∀ S, ofFormula? form f = some S → ∀ v, f.eval v = .ok (S.eval form v) := by
  refine ⟨fun S => ⟨ofList S.clauses, ofFormula?_toFormula form S, clauses_ofList_clauses S, fun c => ?_⟩, fun f => ⟨?_, ?_⟩⟩
  · rw [Bool.eq_iff_iff, contains_iff, contains_iff, mem_ofList, mem_def]
  · rw [isSome_ofFormula?, Formula.classify, Formula.normalForm_classifyClausal]
  · exact fun S h v => eval_of_ofFormula? h v

/-- Variables and literals are read alike, so one literal is lost in the first clause, and with it the second clause is
    the first one again. -/
theorem ClauseSet.formulas_convert_both_ways_of_repetitions :
    let a : Formula := .var ⟨"a"⟩
    let b : Formula := .lit (.neg ⟨"b"⟩)
    let f : Formula := .all [.any [a, b, .lit (.pos ⟨"a"⟩)], .any [b, a], b]
    let S := ofList [.ofList [.pos ⟨"a"⟩, .neg ⟨"b"⟩, .pos ⟨"a"⟩], .ofList [.neg ⟨"b"⟩, .pos ⟨"a"⟩], .ofList [.neg ⟨"b"⟩]]
    ofFormula? .conj f = some S ∧ S.clauses = [.ofList [.pos ⟨"a"⟩, .neg ⟨"b"⟩], .ofList [.neg ⟨"b"⟩]] ∧
      (f.classify (.clausal .conj)).normalForm = true ∧ ∀ v, f.eval v = .ok (S.eval .conj v) := by
  intro a b f S
  have read : ofFormula? .conj f = some S := rfl
  obtain ⟨-, convert⟩ := formulas_convert_both_ways .conj
  obtain ⟨recognised, values⟩ := convert f
  refine ⟨read, by decide, ?_, values S read⟩
  rw [← recognised, read]
  rfl

end NormalForms
