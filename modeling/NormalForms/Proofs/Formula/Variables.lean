import NormalForms.Proofs.Formula.Scope
import NormalForms.Proofs.Nnf.Basic

/-!
The variables of a formula. Composed from those of the immediate subformulas, they are the variables with a free
occurrence, and the walk with its scope collects the same ones in the same order. Normal forms have the variables of
the formulas they are read as. Evaluation looks at no other variables: the bound ones are out of its sight, as it fails
at a quantified formula without entering it. -/

namespace NormalForms.Formula

variable {f : Formula} {fs : List Formula}

/-! ### Composition -/

theorem variablesOf_eq (fs : List Formula) : variablesOf fs = (fs.flatMap (freeOccurrences [])).eraseDups :=
  eraseDups_flatMap_eraseDups (freeOccurrences []) fs

/-- A top node without binders has the variables of its children, which are those of the formula. -/
theorem topVariables_of_children (h : f.asLiteral? = none) (unbinding : f.binders = [])
    (top : f.topVariables = some (variablesOf f.children)) : f.topVariables = some f.variables := by
  rw [top, «variables», freeOccurrences_of_node [] h, unbinding, variablesOf_eq, List.append_nil]

theorem variables_quant (q : Quantifier) (xs : List Var) (f : Formula) :
    (quant q xs f).variables = f.variables.filter fun x => !xs.contains x := by
  rw [«variables», freeOccurrences, List.nil_append, freeOccurrences_eq_filter, eraseDups_filter]
  rfl

/-- Every formula but constants and variables has the variables of its top node. -/
theorem topVariables_eq (f : Formula) :
    f.topVariables = some f.variables ∨ (∃ b, f = const b) ∨ ∃ x, f = var x := by
  cases f with
  | const b => exact .inr (.inl ⟨b, rfl⟩)
  | var x => exact .inr (.inr ⟨x, rfl⟩)
  | lit l => exact .inl rfl
  | not f => exact .inl rfl
  | quant q xs f => exact .inl (congrArg some (variables_quant q xs f).symm)
  | _ => exact .inl (topVariables_of_children rfl rfl rfl)

/-! ### Normal forms -/

theorem occurrences_toFormula (n : Nnf) : n.toFormula.occurrences = n.occurrences := by
  induction n with
  | const b => rfl
  | lit l => rfl
  | nary j args ih =>
    rw [Nnf.toFormula, Nnf.toFormulaList_eq, occurrences_nary, List.flatMap_map, Nnf.occurrences_nary]
    exact List.flatMap_congr ih

theorem variables_toFormula (n : Nnf) : n.toFormula.variables = n.variables :=
  congrArg List.eraseDups (occurrences_toFormula n)

/-! ### Truth values -/

section
variable {v w : Assignment}

theorem evalJunction_congr (j : Junction) (h : ∀ f ∈ fs, f.eval v = f.eval w) :
    evalJunction v j fs = evalJunction w j fs := by
  induction fs with
  | nil => rfl
  | cons f fs ih =>
    rw [evalJunction, evalJunction, h f List.mem_cons_self, ih fun g hg => h g (List.mem_cons_of_mem f hg)]

theorem countTrue_congr (h : ∀ f ∈ fs, f.eval v = f.eval w) : countTrue v fs = countTrue w fs := by
  induction fs with
  | nil => rfl
  | cons f fs ih =>
    rw [countTrue, countTrue, h f List.mem_cons_self, ih fun g hg => h g (List.mem_cons_of_mem f hg)]

theorem eval_congr (h : ∀ x ∈ f.occurrences, v x = w x) : f.eval v = f.eval w := by
  induction f with
  | const b => rfl
  | var x => exact congrArg Except.ok (h x List.mem_cons_self)
  | lit l => rw [eval, eval, Literal.eval, Literal.eval, h l.var List.mem_cons_self]
  | not f ih => rw [eval, eval, ih h]
  | nary j args ih =>
    rw [occurrences_nary, List.forall_mem_flatMap] at h
    rw [eval, eval, evalJunction_congr j fun f hf => ih f hf (h f hf)]
  | implies p c ihp ihc =>
    rw [occurrences, freeOccurrences, List.forall_mem_append] at h
    rw [eval, eval, ihp h.1, ihc h.2]
  | iff l r ihl ihr =>
    rw [occurrences, freeOccurrences, List.forall_mem_append] at h
    rw [eval, eval, ihl h.1, ihr h.2]
  | card c args ih =>
    rw [occurrences, freeOccurrences, freeOccurrencesList_eq, List.forall_mem_flatMap] at h
    rw [eval, eval, countTrue_congr fun f hf => ih f hf (h f hf)]
  | quant q xs f ih => rfl

end

/-! ### All of it -/

/-- The variables are those with a free occurrence, each once, in the order of the first ones. The walk with its scope
    stack ends with them, and so does the composition at the top node, where the formula has one; a normal form has the
    variables of the formula it is read as. Assignments that agree on them give the same truth value or the same
    defect. -/
theorem variables_free_and_decisive (f : Formula) :
    f.variables.Nodup ∧ (∀ x, x ∈ f.variables ↔ ∃ p, f.FreeAt p x) ∧
      (f.variables.Pairwise fun x y => ∃ p, f.FreeAt p x ∧ ∀ q, f.FreeAt q y → p < q) ∧
      f.walk = some f.variables ∧
      (f.topVariables = some f.variables ∨ (∃ b, f = const b) ∨ ∃ x, f = var x) ∧
      (∀ n : Nnf, n.variables = n.toFormula.variables) ∧
      ∀ v w : Assignment, (∀ x ∈ f.variables, v x = w x) → f.eval v = f.eval w := by
  exact ⟨nodup_eraseDups _, fun x => mem_variables_iff_freeAt, variables_ordered f, walk_eq f, topVariables_eq f,
    fun n => (variables_toFormula n).symm, fun v w agree => eval_congr fun x hx => agree x (mem_variables.mpr hx)⟩

/-- The scope of `b` ends, and `a` stands free beside the quantifier that binds it. What is assigned to `b` does not
    matter. -/
theorem variables_free_and_decisive_of_scopes :
    let f := any [implies (var ⟨"c"⟩) (var ⟨"a"⟩),
      quant .existential [⟨"a"⟩, ⟨"b"⟩] (all [var ⟨"a"⟩, quant .universal [⟨"b"⟩] (var ⟨"b"⟩), lit (.neg ⟨"d"⟩), var ⟨"b"⟩])]
    let v : Assignment := fun x => x == ⟨"a"⟩
    let w : Assignment := fun x => x == ⟨"a"⟩ || x == ⟨"b"⟩
    f.variables = [⟨"c"⟩, ⟨"a"⟩, ⟨"d"⟩] ∧ (∀ x ∈ f.variables, v x = w x) ∧ f.eval v = f.eval w := by
  intro f v w
  have listed : f.variables = [⟨"c"⟩, ⟨"a"⟩, ⟨"d"⟩] := by decide
  have agree : ∀ x ∈ f.variables, v x = w x := by
    rw [listed]
    decide
  exact ⟨listed, agree, (variables_free_and_decisive f).2.2.2.2.2.2 v w agree⟩

end NormalForms.Formula
