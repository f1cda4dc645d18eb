import Mathlib.Data.List.Nodup
import NormalForms.Proofs.Encoding.Clauses
import NormalForms.Proofs.Formula.Eval
import NormalForms.Proofs.Nnf.Basic

/-!
Definitions in layers. Each definition is made on top of those before it: its variable is new, and its
clauses relate the variable to literals that stand for the arguments of its formula. By induction on the
layers, an assignment satisfies the clauses of all definitions exactly if it gives each variable the truth
value of its formula, and one extension of an assignment to the new variables does. -/

namespace NormalForms

/-- Whether a literal stands for a normal form: a literal stands for itself, and the variable of a definition
    for the formula of it. No literal stands for a constant. -/
def Stands (ds : List Definition) : Nnf → Literal → Prop
  | .const _, _ => False
  | .lit m, l => l = m
  | .nary j args, l => ∃ d ∈ ds, d.formula = .nary j args ∧ l = .pos d.name

/-- Whether a definition says of its variable what its formula says, with literals that stand for the arguments. -/
def Definition.BuiltOn (ds : List Definition) (d : Definition) : Prop :=
  ∃ j args ls, d.formula = .nary j args ∧ List.Forall₂ (Stands ds) args ls ∧ d.clauses = clausesFor j d.name ls

/-- Whether `d` is a definition over the variables of `base` on top of the definitions `ds`. -/
structure Defines (base : List Var) (ds : List Definition) (d : Definition) : Prop where
  fresh : d.name ∉ base ++ ds.map Definition.name
  registered : ∀ x ∈ d.formula.occurrences, x ∈ base
  builtOn : d.BuiltOn ds

/-- Whether each definition is one on top of those before it. -/
inductive Layered (base : List Var) : List Definition → Prop
  | nil : Layered base []
  | snoc {ds : List Definition} {d : Definition} : Layered base ds → Defines base ds d → Layered base (ds ++ [d])

/-- Whether the variable of each definition has the truth value of its formula. -/
def Carries (w : Assignment) (ds : List Definition) : Prop := ∀ d ∈ ds, w d.name = d.formula.eval w

/-- Whether `w` gives the value of `v` to all variables other than `xs`. -/
def AgreesOff (xs : List Var) (v w : Assignment) : Prop := ∀ x, x ∉ xs → w x = v x

variable {base : List Var} {ds es : List Definition} {d e : Definition} {n : Nnf} {args : List Nnf} {l : Literal}
  {ls : List Literal} {c : Clause} {v w : Assignment} {x : Var}

theorem Carries.mono (h : Carries w es) (hsub : ds ⊆ es) : Carries w ds := fun d hd => h d (hsub hd)

/-! ### Literals that stand for normal forms -/

namespace Stands

theorem mono (h : Stands ds n l) (hsub : ds ⊆ es) : Stands es n l := by
  cases n with
  | const b => exact h
  | lit m => exact h
  | nary j args =>
    obtain ⟨d, hd, hformula, hl⟩ := h
    exact ⟨d, hsub hd, hformula, hl⟩

theorem eval (h : Stands ds n l) (hw : Carries w ds) : l.eval w = n.eval w := by
  cases n with
  | const b => exact absurd h id
  | lit m =>
    rw [show l = m from h]
    rfl
  | nary j args =>
    obtain ⟨d, hd, hformula, rfl⟩ := h
    rw [← hformula, ← hw d hd]
    simp [Literal.eval, Literal.pos]

theorem var_mem (h : Stands ds n l) (hn : ∀ x ∈ n.occurrences, x ∈ base) : l.var ∈ base ++ ds.map Definition.name := by
  cases n with
  | const b => exact absurd h id
  | lit m =>
    rw [show l = m from h]
    exact List.mem_append_left _ (hn m.var (List.mem_singleton_self m.var))
  | nary j args =>
    obtain ⟨d, hd, -, rfl⟩ := h
    exact List.mem_append_right base (List.mem_map_of_mem hd)

/-- Literals that stand for arguments have the truth values of the arguments. -/
theorem across_eval (h : List.Forall₂ (Stands ds) args ls) (hw : Carries w ds) (j : Junction) :
    (j.across ls fun l => l.eval w) = (Nnf.nary j args).eval w := by
  rw [Nnf.eval_nary]
  induction h with
  | nil => rw [Junction.across_nil, Junction.across_nil]
  | cons hl _ ih => rw [Junction.across_cons, Junction.across_cons, hl.eval hw, ih]

theorem exists_of_mem (h : List.Forall₂ (Stands ds) args ls) (hl : l ∈ ls) : ∃ n ∈ args, Stands ds n l := by
  induction h with
  | nil => exact absurd hl List.not_mem_nil
  | cons hn _ ih =>
    rcases List.mem_cons.mp hl with rfl | hl
    · exact ⟨_, List.mem_cons_self, hn⟩
    · obtain ⟨n, hn, hstands⟩ := ih hl
      exact ⟨n, List.mem_cons_of_mem _ hn, hstands⟩

end Stands

/-! ### Clauses of layered definitions -/

theorem Defines.satisfies_iff (h : Defines base ds d) (hw : Carries w ds) :
    Satisfies w d.clauses ↔ w d.name = d.formula.eval w := by
  obtain ⟨j, args, ls, hformula, hargs, hclauses⟩ := h.builtOn
  rw [hclauses, Definition.satisfies_clausesFor, Stands.across_eval hargs hw, hformula]

/-- The clauses of a definition hold its variable and those of literals that stand for the arguments of its formula. -/
theorem Definition.BuiltOn.var_eq (h : d.BuiltOn ds) (hc : c ∈ d.clauses) (hl : l ∈ c) :
    l.var = d.name ∨ ∃ j args, d.formula = .nary j args ∧ ∃ n ∈ args, ∃ a, Stands ds n a ∧ l.var = a.var := by
  obtain ⟨j, args, ls, hformula, hargs, hclauses⟩ := h
  rw [hclauses] at hc
  refine (Definition.var_of_mem_clausesFor hc hl).imp_right ?_
  rintro ⟨a, ha, hx⟩
  obtain ⟨n, hn, hstands⟩ := Stands.exists_of_mem hargs ha
  exact ⟨j, args, hformula, n, hn, a, hstands, hx⟩

theorem Defines.var_mem (h : Defines base ds d) (hc : c ∈ d.clauses) (hl : l ∈ c) :
    l.var = d.name ∨ l.var ∈ base ++ ds.map Definition.name := by
  refine (h.builtOn.var_eq hc hl).imp_right ?_
  rintro ⟨j, args, hformula, n, hn, a, hstands, hx⟩
  rw [hx]
  refine hstands.var_mem fun x hx => h.registered x ?_
  rw [hformula]
  exact Nnf.mem_occurrences_nary.mpr ⟨n, hn, hx⟩

namespace Layered

/-- The clauses of all definitions hold exactly if each variable has the truth value of its formula. -/
theorem satisfies_iff (h : Layered base ds) : Satisfies w (ds.flatMap Definition.clauses) ↔ Carries w ds := by
  induction h with
  | nil => exact ⟨fun _ d hd => absurd hd List.not_mem_nil, fun _ c hc => absurd hc List.not_mem_nil⟩
  | @snoc ds d h hd ih =>
    rw [List.flatMap_append, satisfies_append, ih, List.flatMap_singleton]
    constructor
    · rintro ⟨hw, hclauses⟩ e he
      rcases List.mem_append.mp he with he | he
      · exact hw e he
      · rw [List.mem_singleton.mp he]
        exact (hd.satisfies_iff hw).mp hclauses
    · intro hw
      have below : Carries w ds := hw.mono (List.subset_append_left ds [d])
      exact ⟨below, (hd.satisfies_iff below).mpr (hw d (List.mem_append_right ds (List.mem_singleton_self d)))⟩

theorem name_not_mem (h : Layered base ds) (hd : d ∈ ds) : d.name ∉ base := by
  induction h with
  | nil => exact absurd hd List.not_mem_nil
  | snoc h hlast ih =>
    rcases List.mem_append.mp hd with hd | hd
    · exact ih hd
    · rw [List.mem_singleton.mp hd]
      exact fun hbase => hlast.fresh (List.mem_append_left _ hbase)

theorem registered (h : Layered base ds) (hd : d ∈ ds) (hx : x ∈ d.formula.occurrences) : x ∈ base := by
  induction h with
  | nil => exact absurd hd List.not_mem_nil
  | snoc h hlast ih =>
    rcases List.mem_append.mp hd with hd | hd
    · exact ih hd
    · rw [List.mem_singleton.mp hd] at hx
      exact hlast.registered x hx

theorem nodup (h : Layered base ds) : (ds.map Definition.name).Nodup := by
  induction h with
  | nil => exact .nil
  | @snoc ds d h hlast ih =>
    rw [List.map_append, List.nodup_append]
    refine ⟨ih, by simp, fun x hx y hy => ?_⟩
    rintro rfl
    rw [List.map_singleton, List.mem_singleton] at hy
    rw [hy] at hx
    exact hlast.fresh (List.mem_append_right base hx)

theorem eq_of_name_eq (h : Layered base ds) (hd : d ∈ ds) (he : e ∈ ds) (hname : d.name = e.name) : d = e :=
  List.inj_on_of_nodup_map h.nodup hd he hname

theorem var_mem (h : Layered base ds) (hd : d ∈ ds) (hc : c ∈ d.clauses) (hl : l ∈ c) :
    l.var ∈ base ++ ds.map Definition.name := by
  induction h with
  | nil => exact absurd hd List.not_mem_nil
  | @snoc ds e h hlast ih =>
    rw [List.map_append, ← List.append_assoc]
    rcases List.mem_append.mp hd with hd | hd
    · exact List.mem_append_left _ (ih hd)
    · rw [List.mem_singleton.mp hd] at hc
      rcases hlast.var_mem hc hl with hx | hx
      · exact List.mem_append_right _ (by simp [hx])
      · exact List.mem_append_left _ hx

end Layered

/-! ### The extension of an assignment -/

/-- The assignment that gives each variable of a definition the truth value of its formula under `v`. -/
def extension (ds : List Definition) (v : Assignment) : Assignment := fun x =>
  match ds.find? fun d => d.name == x with
  | some d => d.formula.eval v
  | none => v x

theorem agreesOff_extension (ds : List Definition) (v : Assignment) : AgreesOff (ds.map Definition.name) v (extension ds v) := by
  intro x hx
  have absent : (ds.find? fun d => d.name == x) = none := by
    rw [List.find?_eq_none]
    intro d hd hname
    exact hx (List.mem_map.mpr ⟨d, hd, by simpa using hname⟩)
  rw [extension, absent]

namespace Layered

theorem extension_name (h : Layered base ds) (hd : d ∈ ds) (v : Assignment) : extension ds v d.name = d.formula.eval v := by
  cases hfind : ds.find? fun e => e.name == d.name with
  | none =>
    rw [List.find?_eq_none] at hfind
    exact absurd (beq_self_eq_true d.name) (hfind d hd)
  | some e =>
    have hname : e.name = d.name := by simpa using List.find?_some hfind
    rw [extension, hfind, h.eq_of_name_eq (List.mem_of_find?_eq_some hfind) hd hname]

/-- New variables do not change the value of a normal form over the base. -/
theorem eval_eq (h : Layered base ds) (hn : ∀ x ∈ n.occurrences, x ∈ base)
    (hw : AgreesOff (ds.map Definition.name) v w) : n.eval w = n.eval v := by
  refine n.eval_congr fun x hx => hw x fun hname => ?_
  obtain ⟨d, hd, rfl⟩ := List.mem_map.mp hname
  exact h.name_not_mem hd (hn d.name hx)

/-- Among the assignments that agree with `v` off the new variables, the extension is the one under which
    each of them has the truth value of its formula. -/
theorem carries_iff (h : Layered base ds) (hw : AgreesOff (ds.map Definition.name) v w) :
    Carries w ds ↔ w = extension ds v := by
  have formulas : ∀ d ∈ ds, d.formula.eval w = d.formula.eval v := fun d hd =>
    h.eval_eq (fun x hx => h.registered hd hx) hw
  constructor
  · intro hc
    funext x
    by_cases hx : x ∈ ds.map Definition.name
    · obtain ⟨d, hd, rfl⟩ := List.mem_map.mp hx
      rw [hc d hd, formulas d hd, h.extension_name hd]
    · rw [hw x hx, agreesOff_extension ds v x hx]
  · rintro rfl d hd
    rw [formulas d hd, h.extension_name hd]

end Layered
end NormalForms
