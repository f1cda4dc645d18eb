import NormalForms.Proofs.Encoding.Correct
import NormalForms.Proofs.Encoding.Sharing

/-!
What definitions are made of. A definition is made of the literals among the arguments of its formula and, for the
junctions among them, of the variables of definitions before it; and so are the clauses that assert a formula. The
variables of the formulas need not be registered for this. Main statement: after successful calls the definitions are
those of the junctions strictly below the roots, each once and as they are completed, and each call has returned the
clauses of the definitions that it made and those that assert its formula. -/

namespace NormalForms

variable {ds : List Definition} {d : Definition} {c : Clause} {l : Literal} {j : Junction} {args : List Nnf}

/-! ### Definitions on top of others -/

/-- The literals among the arguments of a junction. -/
def Nnf.literalArgs : Nnf → List Literal
  | .const _ | .lit _ => []
  | .nary _ args => args.flatMap fun
    | .lit l => [l]
    | .const _ | .nary .. => []

/-- Whether each definition is built on those before it. -/
def Built (ds : List Definition) : Prop := ∀ (i : Nat) (d : Definition), ds[i]? = some d → d.BuiltOn (ds.take i)

theorem Nnf.mem_literalArgs (h : Nnf.lit l ∈ args) : l ∈ (Nnf.nary j args).literalArgs :=
  List.mem_flatMap.mpr ⟨.lit l, h, List.mem_singleton_self l⟩

/-- A literal that stands for an argument is the argument or has the variable of a definition. -/
theorem Stands.var_mem_literalArgs {n : Nnf} (h : Stands ds n l) (hn : n ∈ args) :
    l.var ∈ (Nnf.nary j args).literalArgs.map Literal.var ++ ds.map Definition.name := by
  cases n with
  | const b => exact absurd h id
  | lit m =>
    rw [show l = m from h]
    exact List.mem_append_left _ (List.mem_map_of_mem (Nnf.mem_literalArgs hn))
  | nary i ms =>
    obtain ⟨d, hd, -, rfl⟩ := h
    exact List.mem_append_right _ (List.mem_map_of_mem hd)

theorem Definition.BuiltOn.var_mem (h : d.BuiltOn ds) (hc : c ∈ d.clauses) (hl : l ∈ c) :
    l.var ∈ d.name :: (d.formula.literalArgs.map Literal.var ++ ds.map Definition.name) := by
  rw [List.mem_cons]
  refine (h.var_eq hc hl).imp_right ?_
  rintro ⟨j, args, hformula, n, hn, a, hstands, hvar⟩
  rw [hvar, hformula]
  exact hstands.var_mem_literalArgs hn

theorem built_nil : Built [] := fun _ _ hd => nomatch hd

theorem Built.concat (h : Built ds) (hd : d.BuiltOn ds) : Built (ds ++ [d]) := by
  intro i e he
  rcases Nat.lt_or_ge i ds.length with hi | hi
  · rw [List.getElem?_append_left hi] at he
    rw [List.take_append_of_le_length (Nat.le_of_lt hi)]
    exact h i e he
  · rw [List.getElem?_append_right hi, List.getElem?_singleton] at he
    split at he
    · obtain rfl : i = ds.length := by omega
      cases he
      rwa [List.take_left]
    · cases he

namespace Encoder

/-! ### Calls -/

section
variable {σ : Type} [NameSource σ]

theorem built_keptBy (js : List Nnf) : KeptBy (fun e : Encoder σ => Built e.definitions) js :=
  fun _ j args ls _ hargs he => he.concat ⟨j, args, ls, rfl, hargs, rfl⟩

/-- A successful call returns the clauses of the definitions that it makes, and then those that assert its formula. -/
theorem Call.result_of_succeeded {c : Call σ} (h : c.Succeeded) :
    ∃ cs, IsAssertion c.after.definitions c.formula cs ∧
      c.result = .ok (c.made.flatMap Definition.clauses ++ cs.filter fun d => !d.isTautology) := by
  obtain ⟨cs, hcs⟩ := h.exists_assertion
  refine ⟨cs, ?_, ?_⟩
  · rw [after_eq]
    exact isAssertion hcs
  · rw [h.result_eq, h.clauses_eq, asserted, hcs]
    rfl

end

/-- Formulas asserted one after the other, each with success. The junctions strictly below their roots, and no other
    formulas, are defined, each once, in the order in which a walk through the formulas from left to right completes
    them first. The variables are distinct. The clauses of a definition hold its own variable, variables of literals
    among the arguments of its formula, and variables of definitions before it. Each call returns the clauses of the
    definitions that it adds, in their order, and then those that assert its formula and are not always true. -/
theorem definitions_shared_exactly (m : Numbering) (stem : String) (ns : List Nnf)
    (succeeded : ∀ c ∈ ({ source := m, stem } : Encoder Numbering).calls ns, c.Succeeded) :
    let e : Encoder Numbering := { source := m, stem }
    let ds := (e.afterCalls ns).definitions
    let formulas := ds.map Definition.formula
    formulas = (ns.flatMap Nnf.innerPostorder).eraseDups ∧
      formulas.Nodup ∧ (∀ f, f ∈ formulas ↔ ∃ n ∈ ns, f ∈ n.innerJunctions) ∧
      (ds.map Definition.name).Nodup ∧
      (∀ i d, ds[i]? = some d → ∀ c ∈ d.clauses, ∀ l ∈ c,
        l.var ∈ d.name :: (d.formula.literalArgs.map Literal.var ++ (ds.take i).map Definition.name)) ∧
      ∀ c ∈ e.calls ns, c.after.definitions = c.start.definitions ++ c.made ∧
        ∃ cs, IsAssertion c.after.definitions c.formula cs ∧
          c.result = .ok (c.made.flatMap Definition.clauses ++ cs.filter fun d => !d.isTautology) := by
  intro e ds formulas
  have appends : Appends _ e _ := appends_afterCalls (shared_start m stem) succeeded
  have order : formulas = (ns.flatMap Nnf.innerPostorder).eraseDups := appends.formulas_of_start rfl
  have names := variables_afterCalls m stem ns
  have built : Built ds :=
    afterCalls_keeps (P := fun e : Encoder Numbering => Built e.definitions) (fun _ _ => built_keptBy _) built_nil
  refine ⟨order, appends.shared.nodup, fun f => ?_, ?_, fun i d hd c hc l hl => ?_, fun c hc => ?_⟩
  · rw [order, List.mem_eraseDups, List.mem_flatMap]
    exact exists_congr fun n => and_congr_right fun _ => Nnf.mem_innerPostorder
  · have distinct := (e.afterCalls ns).source.nodup_variables
    rw [names] at distinct
    exact distinct.of_append_right
  · exact (built i d hd).var_mem hc hl
  · exact ⟨c.definitions_after, Call.result_of_succeeded (succeeded c hc)⟩

/-- A conjunction that is asserted first, is then twice below a root, once below another junction, and once more in a
    third call. It is defined in the second call, before the junction around it. -/
theorem definitions_shared_exactly_of_three_calls :
    let a : Nnf := .lit (.pos ⟨"a"⟩)
    let both : Nnf := .nary .conj [a, .lit (.neg ⟨"b"⟩)]
    let around : Nnf := .nary .disj [both, a]
    let ns : List Nnf := [both, .nary .disj [.nary .conj [around, a], both], .nary .conj [both, around]]
    let e : Encoder Numbering := { source := .empty, stem := "_t" }
    (∀ c ∈ e.calls ns, c.Succeeded) ∧
      (e.afterCalls ns).definitions.map Definition.formula = [both, around, .nary .conj [around, a]] ∧
      ((e.afterCalls ns).definitions.map Definition.name).Nodup := by
  intro a both around ns e
  have succeeded : ∀ c ∈ e.calls ns, c.Succeeded := succeeded_of_innerConstants (by decide) e
  obtain ⟨order, -, -, distinct, -, -⟩ := definitions_shared_exactly .empty "_t" ns succeeded
  exact ⟨succeeded, order.trans (by decide), distinct⟩

end Encoder
end NormalForms
