import NormalForms.Proofs.Encoding.Encode

/-!
Assertions, one after the other. An assertion grows the encoder whether it succeeds or not. Where the variables
of all definitions carry the values of their formulas, the clauses that assert a formula are true exactly if
the formula is. A sequence of assertions is described by its calls; each call reports the definitions that it makes,
and the definitions in the end are those that the calls made, in their order. -/

namespace NormalForms

namespace Encoder

/-! ### One assertion -/

section
variable {known base : List Var} {e : Encoder Numbering} {n : Nnf}

/-- Whether clauses assert a formula, given definitions: they are true exactly if the formula is, and their
    variables are variables of the base and of the definitions. -/
structure Asserts (base : List Var) (ds : List Definition) (n : Nnf) (cs : List Clause) : Prop where
  satisfies_iff : ∀ w, Carries w ds → (Satisfies w cs ↔ n.eval w = true)
  var_mem : ∀ c ∈ cs, ∀ l ∈ c, l.var ∈ base ++ ds.map Definition.name

theorem asserts_lit {ds : List Definition} (l : Literal) (hn : l.var ∈ base) : Asserts base ds (.lit l) [.single l] where
  satisfies_iff w _ := by
    rw [Satisfies, List.forall_mem_singleton, Clause.eval_single, Nnf.eval]
  var_mem := by
    intro c hc m hm
    rw [List.mem_singleton.mp hc, Clause.mem_single] at hm
    rw [hm]
    exact List.mem_append_left _ hn

theorem asserts_nary {ds : List Definition} {j : Junction} {args : List Nnf} {ls : List Literal}
    (hn : ∀ x ∈ (Nnf.nary j args).occurrences, x ∈ base) (h : List.Forall₂ (Stands ds) args ls) :
    Asserts base ds (.nary j args) (assertedBy j ls) := by
  have vars : ∀ l ∈ ls, l.var ∈ base ++ ds.map Definition.name := by
    intro l hl
    obtain ⟨n, hmem, hstands⟩ := Stands.exists_of_mem h hl
    exact hstands.var_mem fun x hx => hn x (Nnf.mem_occurrences_nary.mpr ⟨n, hmem, hx⟩)
  constructor
  · intro w hw
    rw [← Stands.across_eval h hw j]
    cases j with
    | conj =>
      rw [Satisfies, assertedBy, List.forall_mem_map]
      simp only [Clause.eval_single, Junction.across, List.all_eq_true]
    | disj => rw [Satisfies, assertedBy, List.forall_mem_singleton, Clause.eval_ofList]
  · intro c hc l hl
    cases j with
    | conj =>
      obtain ⟨m, hm, rfl⟩ := List.mem_map.mp hc
      rw [Clause.mem_single.mp hl]
      exact vars m hm
    | disj =>
      rw [List.mem_singleton.mp hc, Clause.mem_ofList] at hl
      exact vars l hl

/-- Whether `cs` are the clauses that assert a formula, given definitions: those of a junction are made of literals
    that stand for its arguments. -/
def IsAssertion (ds : List Definition) : Nnf → List Clause → Prop
  | .const true, cs => cs = []
  | .const false, cs => cs = [.empty]
  | .lit l, cs => cs = [.single l]
  | .nary j args, cs => ∃ ls, List.Forall₂ (Stands ds) args ls ∧ cs = assertedBy j ls

theorem isAssertion {σ : Type} [NameSource σ] {e : Encoder σ} {cs : List Clause} (h : (e.assertion n).1 = .ok cs) :
    IsAssertion (e.assertion n).2.definitions n cs := by
  cases n with
  | const b => cases b <;> exact (Except.ok.inj h).symm
  | lit l => exact (Except.ok.inj h).symm
  | nary j args =>
    obtain ⟨ls, hargs, rfl⟩ := assertion_nary_ok h
    exact ⟨ls, forall₂_stands hargs, rfl⟩

theorem IsAssertion.asserts {ds : List Definition} {cs : List Clause} (h : IsAssertion ds n cs)
    (hn : ∀ x ∈ n.occurrences, x ∈ base) : Asserts base ds n cs := by
  cases n with
  | const b =>
    cases b with
    | true =>
      rw [show cs = [] from h]
      exact ⟨fun w _ => by simp [Satisfies, Nnf.eval], fun c hc => absurd hc List.not_mem_nil⟩
    | false =>
      rw [show cs = [.empty] from h]
      refine ⟨fun w _ => ?_, fun c hc l hl => ?_⟩
      · rw [Satisfies, List.forall_mem_singleton, Nnf.eval]
        rfl
      · rw [List.mem_singleton.mp hc] at hl
        exact absurd hl Clause.not_mem_empty
  | lit l =>
    rw [show cs = [.single l] from h]
    exact asserts_lit l (hn l.var (List.mem_singleton_self l.var))
  | nary j args =>
    obtain ⟨ls, hargs, rfl⟩ := h
    exact asserts_nary hn hargs

theorem grows_assertion (he : e.Consistent known base) (hn : ∀ x ∈ n.occurrences, x ∈ base) :
    Grows known base e (e.assertion n).2 :=
  assertion_keeps (grows_keptBy fun _ hm x hx => hn x (Nnf.mem_occurrences_of_mem_innerJunctions hm hx)) he.grows

theorem assert_eq {σ : Type} [NameSource σ] (e : Encoder σ) (n : Nnf) :
    e.assert n = ((e.assertion n).1.map fun cs => (e.newDefinitions (e.assertion n).2).flatMap Definition.clauses ++
      cs.filter fun c => !c.isTautology, (e.assertion n).2) := by
  rw [assert]
  rcases e.assertion n with ⟨failure | cs, later⟩ <;> rfl

/-- Without constants below the root, an assertion succeeds. -/
theorem assertion_ok {σ : Type} [NameSource σ] (h : n.innerConstants = []) (e : Encoder σ) :
    ∃ cs later, e.assertion n = (.ok cs, later) := by
  cases n with
  | const b => cases b <;> exact ⟨_, _, rfl⟩
  | lit l => exact ⟨_, _, rfl⟩
  | nary j args =>
    obtain ⟨ls, later, hargs⟩ := encodeRecList_ok (fun n hn => encodeRec_ok (Nnf.constants_of_mem h hn)) e
    rw [assertion_nary, hargs]
    exact ⟨_, _, rfl⟩

end

/-! ### Sequences of assertions -/

/-- A call that asserts a formula with an encoder. -/
structure Call (σ : Type) where
  start : Encoder σ
  formula : Nnf

namespace Call

variable {σ : Type} [NameSource σ] (c : Call σ)

/-- The clauses that the call returns, or its failure. -/
def result : Except Failure (List Clause) := (c.start.assert c.formula).1

/-- The encoder after the call. -/
def after : Encoder σ := (c.start.assert c.formula).2

/-- Whether the call returns clauses. -/
def Succeeded : Prop := ∃ cs, c.result = .ok cs

/-- The clauses that the call returns. A call that fails returns none. -/
def clauses : List Clause := c.result.toOption.getD []

/-- The definitions that the call records, also if it fails. -/
def made : List Definition := c.start.newDefinitions c.after

/-- The clauses that the call returns beside the definitions. -/
def asserted : List Clause := ((c.start.assertion c.formula).1.toOption.getD []).filter fun d => !d.isTautology

variable {c}

theorem after_eq : c.after = (c.start.assertion c.formula).2 := by
  rw [after, assert_eq]

theorem after_keeps {P : Encoder σ → Prop} (keeps : KeptBy P c.formula.innerJunctions) (h : P c.start) :
    P c.after := by
  rw [after_eq]
  exact assertion_keeps keeps h

theorem definitions_after (c : Call σ) : c.after.definitions = c.start.definitions ++ c.made := by
  have grows : c.start.definitions <+: c.after.definitions :=
    after_keeps (P := fun e => c.start.definitions <+: e.definitions) (.of_define prefix_define) (List.prefix_refl _)
  exact (List.prefix_iff_eq_append.mp grows).symm

/-- What every definition adds to a list that is read off the encoder, a call adds for the definitions that it makes,
    in their order. -/
theorem list_after {α : Type} (list : Encoder σ → List α) (entry : Definition → α)
    (adds : ∀ e j n ls, ∃ d, (Encoder.define e j n ls).2.definitions = e.definitions ++ [d] ∧
      list (e.define j n ls).2 = list e ++ [entry d])
    (c : Call σ) : list c.after = list c.start ++ c.made.map entry := by
  -- The definitions are split at the start of the call, as other calls may have made some before.
  obtain ⟨made, hmade, hlist⟩ : ∃ made, c.after.definitions = c.start.definitions ++ made ∧
      list c.after = list c.start ++ made.map entry := by
    refine after_keeps (P := fun e => ∃ made, e.definitions = c.start.definitions ++ made ∧
      list e = list c.start ++ made.map entry) (.of_define fun e j n ls he => ?_)
      ⟨[], (List.append_nil _).symm, (List.append_nil _).symm⟩
    obtain ⟨made, hmade, hlist⟩ := he
    obtain ⟨d, hd, added⟩ := adds e j n ls
    refine ⟨made ++ [d], ?_, ?_⟩
    · rw [hd, hmade, List.append_assoc]
    · rw [added, hlist, List.append_assoc, List.map_append, List.map_singleton]
  rw [c.definitions_after, List.append_cancel_left_eq] at hmade
  rw [hlist, hmade]

/-- A call reports the definitions that it makes, also if it fails. -/
theorem events_after (c : Call σ) : c.after.events = c.start.events ++ c.made.map Definition.event :=
  list_after Encoder.events Definition.event (fun _ _ _ _ => ⟨_, rfl, rfl⟩) c

theorem newEvents_after (c : Call σ) : c.start.newEvents c.after = c.made.map Definition.event := by
  rw [newEvents, events_after, List.drop_left]

theorem Succeeded.exists_assertion (h : c.Succeeded) : ∃ cs, (c.start.assertion c.formula).1 = .ok cs := by
  obtain ⟨cs, h⟩ := h
  rw [result, assert_eq] at h
  rcases hcs : (c.start.assertion c.formula).1 with failure | cs'
  · rw [hcs] at h
    cases h
  · exact ⟨cs', rfl⟩

theorem succeeded_of_assertion {cs : List Clause} (h : (c.start.assertion c.formula).1 = .ok cs) : c.Succeeded := by
  rw [Succeeded, result, assert_eq, h]
  exact ⟨_, rfl⟩

theorem Succeeded.result_eq (h : c.Succeeded) : c.result = .ok c.clauses := by
  obtain ⟨cs, hcs⟩ := h
  rw [clauses, hcs]
  rfl

theorem Succeeded.clauses_eq (h : c.Succeeded) : c.clauses = c.made.flatMap Definition.clauses ++ c.asserted := by
  obtain ⟨cs, hcs⟩ := h.exists_assertion
  rw [clauses, result, asserted, made, after_eq, assert_eq, hcs]
  rfl

theorem succeeded_of_mem_clauses {d : Clause} (h : d ∈ c.clauses) : c.Succeeded := by
  unfold clauses at h
  rcases hr : c.result with failure | cs
  · rw [hr] at h
    exact absurd h List.not_mem_nil
  · exact ⟨cs, hr⟩

end Call

section
variable {σ : Type} [NameSource σ]

/-- The calls that assert formulas one after the other, whether they succeed or not. -/
def calls (e : Encoder σ) : List Nnf → List (Call σ)
  | [] => []
  | n :: ns => ⟨e, n⟩ :: (e.assert n).2.calls ns

/-- The encoder after the calls that assert formulas one after the other. -/
def afterCalls (e : Encoder σ) : List Nnf → Encoder σ
  | [] => e
  | n :: ns => (e.assert n).2.afterCalls ns

theorem map_formula_calls (e : Encoder σ) (ns : List Nnf) : (e.calls ns).map Call.formula = ns := by
  induction ns generalizing e with
  | nil => rfl
  | cons n ns ih => rw [calls, List.map_cons, ih]

theorem forall_mem_calls {e : Encoder σ} {ns : List Nnf} {p : Nnf → Prop} :
    (∀ c ∈ e.calls ns, p c.formula) ↔ ∀ n ∈ ns, p n := by
  rw [← List.forall_mem_map (f := Call.formula), map_formula_calls]

/-- What the definitions of junctions strictly below the roots keep, the calls keep. -/
theorem afterCalls_keeps {P : Encoder σ → Prop} {e : Encoder σ} {ns : List Nnf}
    (keeps : ∀ n ∈ ns, KeptBy P n.innerJunctions) (he : P e) : P (e.afterCalls ns) := by
  induction ns generalizing e with
  | nil => exact he
  | cons n ns ih =>
    have first : P (e.assert n).2 := Call.after_keeps (c := ⟨e, n⟩) (keeps n List.mem_cons_self) he
    exact ih (fun m hm => keeps m (List.mem_cons_of_mem n hm)) first

/-- The definitions in the end are those of the start and those that the calls made. -/
theorem definitions_afterCalls (e : Encoder σ) (ns : List Nnf) :
    (e.afterCalls ns).definitions = e.definitions ++ (e.calls ns).flatMap Call.made := by
  induction ns generalizing e with
  | nil => exact (List.append_nil _).symm
  | cons n ns ih =>
    have first : (e.assert n).2.definitions = e.definitions ++ (⟨e, n⟩ : Call σ).made :=
      (⟨e, n⟩ : Call σ).definitions_after
    rw [afterCalls, ih, first, calls, List.flatMap_cons, List.append_assoc]

end

section
variable {known base : List Var} {e : Encoder Numbering} {ns : List Nnf} {c : Call Numbering} {w : Assignment}

/-- A call of a sequence: it begins with a consistent encoder, grows it, and the rest grows it further. -/
structure Call.Within (known base : List Var) (c : Call Numbering) (last : Encoder Numbering) : Prop where
  start : c.start.Consistent known base
  registered : ∀ x ∈ c.formula.occurrences, x ∈ base
  grows : Grows known base c.start c.after
  rest : Grows known base c.after last

theorem consistent_start {m : Numbering} (stem : String) (h : base ⊆ m.variables) :
    Consistent m.variables base ({ source := m, stem } : Encoder Numbering) where
  base_subset := h
  registered := (List.append_nil m.variables).symm
  fresh _ hd := absurd hd List.not_mem_nil
  layered := .nil

theorem occurrences_registered {m : Numbering} {n : Nnf} (h : ∀ x ∈ n.variables, m.contains x = true) :
    ∀ x ∈ n.occurrences, x ∈ m.variables :=
  fun x hx => Numbering.contains_iff.mp (h x (Nnf.mem_variables.mpr hx))

theorem Call.grows_after (he : c.start.Consistent known base) (hn : ∀ x ∈ c.formula.occurrences, x ∈ base) :
    Grows known base c.start c.after := by
  rw [Call.after_eq]
  exact grows_assertion he hn

theorem grows_afterCalls (he : e.Consistent known base) (hns : ∀ n ∈ ns, ∀ x ∈ n.occurrences, x ∈ base) :
    Grows known base e (e.afterCalls ns) ∧ ∀ c ∈ e.calls ns, c.Within known base (e.afterCalls ns) := by
  induction ns generalizing e with
  | nil => exact ⟨he.grows, fun c hc => absurd hc List.not_mem_nil⟩
  | cons n ns ih =>
    have hn := hns n List.mem_cons_self
    have first : Grows known base e (e.assert n).2 := Call.grows_after (c := ⟨e, n⟩) he hn
    obtain ⟨rest, within⟩ := ih first.consistent fun m hm => hns m (List.mem_cons_of_mem n hm)
    refine ⟨first.trans rest, fun c hc => ?_⟩
    rcases List.mem_cons.mp hc with rfl | hc
    · exact ⟨he, hn, first, rest⟩
    · exact within c hc

/-- Where the definitions carry their values, a call asserts its formula. -/
theorem Call.Within.satisfies_asserted {last : Encoder Numbering} (h : c.Within known base last) (hc : c.Succeeded)
    (hw : Carries w last.definitions) : Satisfies w c.asserted ↔ c.formula.eval w = true := by
  obtain ⟨cs, hcs⟩ := hc.exists_assertion
  have asserts := (isAssertion hcs).asserts h.registered
  rw [← Call.after_eq] at asserts
  rw [← asserts.satisfies_iff w (hw.mono h.rest.subset), Call.asserted, hcs]
  exact satisfies_filter_isTautology

/-- The variables of what a call returns are variables of the base and of definitions. -/
theorem Call.Within.var_mem {last : Encoder Numbering} (h : c.Within known base last) {d : Clause} {l : Literal}
    (hd : d ∈ c.clauses) (hl : l ∈ d) : l.var ∈ base ++ last.definitions.map Definition.name := by
  have hc := Call.succeeded_of_mem_clauses hd
  have names : base ++ c.after.definitions.map Definition.name ⊆ base ++ last.definitions.map Definition.name := by
    intro x hx
    rcases List.mem_append.mp hx with hx | hx
    · exact List.mem_append_left _ hx
    · exact List.mem_append_right base (List.map_subset _ h.rest.subset hx)
  rw [hc.clauses_eq, List.mem_append, List.mem_flatMap] at hd
  rcases hd with ⟨f, hf, hd⟩ | hd
  · refine names (h.grows.consistent.layered.var_mem ?_ hd hl)
    rw [c.definitions_after]
    exact List.mem_append_right _ hf
  · obtain ⟨cs, hcs⟩ := hc.exists_assertion
    have asserts := (isAssertion hcs).asserts h.registered
    rw [← Call.after_eq] at asserts
    rw [Call.asserted, hcs] at hd
    exact names (asserts.var_mem d (List.mem_filter.mp hd).1 l hl)

end
end Encoder
end NormalForms
