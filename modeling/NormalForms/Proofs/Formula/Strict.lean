import NormalForms.Proofs.Clause.Basic
import NormalForms.Proofs.Formula.Reshape

/-!
Strict clausal formulas: both levels of a clausal normal form in full, and in no clause equal or complementary
literals. These are exactly the formulas that the recognisers accept without anything missing. Putting the
missing connectives around a formula that the recognisers accept makes it strict. -/

namespace NormalForms.Formula

/-- Whether a formula is an `i` of literals of which no two are equal or complementary. A variable counts as its
    positive literal. -/
def ProperClause (i : Junction) (f : Formula) : Prop :=
  ∃ (args : List Formula) (ls : List Literal), f = nary i args ∧ args.map asLiteral? = ls.map some ∧ ls.Nodup ∧
    ∀ l ∈ ls, l.complement ∉ ls

/-- Whether a formula is a `form` of proper clauses. -/
def Strict (form : Junction) (f : Formula) : Prop := ∃ cs, f = nary form cs ∧ ∀ c ∈ cs, c.ProperClause form.dual

variable {i form : Junction} {f c : Formula} {args cs : List Formula} {ls : List Literal}

/-! ### Clauses -/

theorem args?_nary (i : Junction) (args : List Formula) : (nary i args).args? i = some args := if_pos rfl

theorem args?_nary_dual (i : Junction) (args : List Formula) : (nary i args).args? i.dual = none := by
  cases i <;> rfl

theorem isLiteral_iff : f.isLiteral = true ↔ ∃ l, f.asLiteral? = some l := Option.isSome_iff_exists

theorem all_isLiteral_iff : args.all isLiteral = true ↔ ∃ ls : List Literal, args.map asLiteral? = ls.map some := by
  induction args with
  | nil => exact ⟨fun _ => ⟨[], rfl⟩, fun _ => rfl⟩
  | cons f args ih =>
    rw [List.all_cons, Bool.and_eq_true, isLiteral_iff, ih]
    constructor
    · rintro ⟨⟨l, hl⟩, ls, hls⟩
      exact ⟨l :: ls, by rw [List.map_cons, hl, hls, List.map_cons]⟩
    · rintro ⟨ls, hls⟩
      cases ls with
      | nil => cases hls
      | cons l ls =>
        obtain ⟨hl, hls⟩ := List.cons.inj hls
        exact ⟨⟨l, hl⟩, ls, hls⟩

theorem filterMap_asLiteral? (h : args.map asLiteral? = ls.map some) : args.filterMap asLiteral? = ls := by
  have := congrArg (List.filterMap id) h
  simpa [List.filterMap_map] using this

theorem isProperClause_iff (h : args.map asLiteral? = ls.map some) :
    (nary i args).isProperClause i = true ↔ ls.Nodup ∧ ∀ l ∈ ls, l.complement ∉ ls := by
  have length : args.length = ls.length := by simpa using congrArg List.length h
  rw [isProperClause, args?_nary]
  simp only [filterMap_asLiteral? h, length, Bool.and_eq_true, beq_iff_eq, Clause.size_ofList_eq_iff, Bool.not_eq_true',
    Clause.isTautology_eq_false_iff, Clause.mem_ofList]

theorem properClause_iff : c.ProperClause i ↔ c.isClause i = true ∧ c.isProperClause i = true := by
  constructor
  · rintro ⟨args, ls, rfl, hls, hproper⟩
    refine ⟨?_, (isProperClause_iff hls).mpr hproper⟩
    rw [isClause, args?_nary]
    exact all_isLiteral_iff.mpr ⟨ls, hls⟩
  · rintro ⟨hclause, hproper⟩
    obtain ⟨args, hargs, hall⟩ := (Option.any_eq_true ..).mp hclause
    obtain ⟨ls, hls⟩ := all_isLiteral_iff.mp hall
    obtain rfl := eq_of_args? hargs
    exact ⟨args, ls, rfl, hls, (isProperClause_iff hls).mp hproper⟩

/-! ### Recognisers -/

theorem classifyClausal_nary (form : Junction) (cs : List Formula) :
    (nary form cs).classifyClausal form =
      if cs.all fun c => c.isLiteral || c.isClause form.dual then ⟨true, cs.all (isClause form.dual)⟩
      else ⟨false, false⟩ := by
  have literal : (nary form cs).isLiteral = false := rfl
  have clause : (nary form cs).isClause form.dual = false := by rw [isClause, args?_nary_dual, Option.any_none]
  rw [classifyClausal, literal, clause, args?_nary]
  rfl

/-- A formula other than a `form` is in the normal form as a literal or a clause. -/
theorem classifyClausal_of_args? (h : f.args? form = none) :
    f.classifyClausal form = ⟨f.isLiteral || f.isClause form.dual, false⟩ := by
  rw [classifyClausal, h]
  cases f.isLiteral || f.isClause form.dual <;> rfl

/-- Strict formulas are those that are recognised with nothing missing. -/
theorem strict_iff :
    f.Strict form ↔ f.classifyClausal form = ⟨true, true⟩ ∧ f.hasProperClauses form = true := by
  constructor
  · rintro ⟨cs, rfl, hcs⟩
    simp only [properClause_iff] at hcs
    have clauses : cs.all (isClause form.dual) = true := List.all_eq_true.mpr fun c hc => (hcs c hc).1
    have accepted : (cs.all fun c => c.isLiteral || c.isClause form.dual) = true :=
      List.all_eq_true.mpr fun c hc => by rw [(hcs c hc).1, Bool.or_true]
    refine ⟨?_, ?_⟩
    · rw [classifyClausal_nary, accepted, clauses]
      rfl
    · rw [hasProperClauses, args?_nary]
      exact List.all_eq_true.mpr fun c hc => (hcs c hc).2
  · rintro ⟨hclass, hproper⟩
    cases hargs : f.args? form with
    | none =>
      rw [classifyClausal_of_args? hargs] at hclass
      exact nomatch congrArg Classification.clausal hclass
    | some cs =>
      obtain rfl := eq_of_args? hargs
      rw [hasProperClauses, args?_nary] at hproper
      rw [classifyClausal_nary] at hclass
      split at hclass
      case isFalse => cases hclass
      have clauses : cs.all (isClause form.dual) = true := congrArg Classification.clausal hclass
      refine ⟨cs, rfl, fun c hc => properClause_iff.mpr ⟨?_, ?_⟩⟩
      · exact List.all_eq_true.mp clauses c hc
      · exact List.all_eq_true.mp hproper c hc

/-! ### Missing connectives -/

theorem properClause_singleton {l : Literal} (h : f.asLiteral? = some l) : (nary i [f]).ProperClause i := by
  refine ⟨[f], [l], rfl, by rw [List.map_singleton, h, List.map_singleton], List.nodup_singleton l, ?_⟩
  intro m hm hc
  rw [List.mem_singleton] at hm hc
  rw [hm] at hc
  exact l.complement_ne hc

/-- With a connective around it if it is a literal, what is accepted as a proper clause is one. -/
theorem properClause_wrap (h : (c.isLiteral || c.isClause i) = true) (hproper : c.isProperClause i = true) :
    (if c.isLiteral then nary i [c] else c).ProperClause i := by
  split
  · rename_i hc
    obtain ⟨l, hl⟩ := isLiteral_iff.mp hc
    exact properClause_singleton hl
  · rename_i hc
    rw [Bool.not_eq_true] at hc
    rw [hc, Bool.false_or] at h
    exact properClause_iff.mpr ⟨h, hproper⟩

theorem strict_reshape (h : (f.classifyClausal form).normalForm = true) (hproper : f.hasProperClauses form = true) :
    (f.reshape form).Strict form := by
  rw [hasProperClauses] at hproper
  rw [reshape]
  cases hargs : f.args? form with
  | none =>
    rw [classifyClausal_of_args? hargs] at h
    rw [hargs] at hproper
    refine ⟨_, rfl, fun c hc => ?_⟩
    rw [List.mem_singleton.mp hc]
    exact properClause_wrap h hproper
  | some cs =>
    rw [hargs] at hproper
    rw [eq_of_args? hargs, classifyClausal_nary] at h
    split at h
    case isFalse => cases h
    rename_i haccepted
    refine ⟨_, rfl, fun c hc => ?_⟩
    obtain ⟨d, hd, rfl⟩ := List.mem_map.mp hc
    exact properClause_wrap (List.all_eq_true.mp haccepted d hd) (List.all_eq_true.mp hproper d hd)

/-! ### Clause sets -/

theorem properClause_toFormula {c : Clause} (h : c.isTautology = false) : (c.toFormula i).ProperClause i := by
  refine ⟨_, c.literals, rfl, ?_, c.nodup_literals, Clause.isTautology_eq_false_iff.mp h⟩
  rw [List.map_map]
  rfl

theorem strict_toFormula {S : ClauseSet} (h : ∀ c ∈ S, c.isTautology = false) : (S.toFormula form).Strict form := by
  refine ⟨_, rfl, fun f hf => ?_⟩
  obtain ⟨c, hc, rfl⟩ := List.mem_map.mp hf
  exact properClause_toFormula (h c hc)

end NormalForms.Formula
