import NormalForms.Proofs.Encoding.Assert

/-!
Assertions of which some fail. A call that fails keeps the definitions that it made, and returns none of their
clauses; a later call that meets the same subformula mentions its variable, and does not return them either.
Main statement: the calls return the clauses of all definitions that they mention, and what they return is
satisfiable if and only if the formulas of the successful calls are, exactly when no call mentions a definition
of a failed call whose clauses are not asserted besides. -/

namespace NormalForms

variable {base : List Var} {ds : List Definition} {d d' : Definition} {c : Clause} {w : Assignment}

/-! ### Clauses of definitions -/

theorem Defines.exists_var_eq (h : Defines base ds d) (hc : c ∈ d.clauses) : ∃ l ∈ c, l.var = d.name := by
  obtain ⟨j, args, ls, -, -, hclauses⟩ := h.builtOn
  rw [hclauses] at hc
  exact Definition.exists_var_eq_of_mem_clausesFor hc

/-- A clause of a definition holds a variable that no earlier definition can hold. -/
theorem Defines.not_mem_clauses (h : Defines base ds d) (hds : Layered base ds) (hd' : d' ∈ ds) (hc : c ∈ d.clauses) :
    c ∉ d'.clauses := by
  intro hc'
  obtain ⟨l, hl, hvar⟩ := h.exists_var_eq hc
  exact h.fresh (hvar ▸ hds.var_mem hd' hc' hl)

/-- Different definitions share no clause. -/
theorem Layered.eq_of_mem_clauses (h : Layered base ds) (hd : d ∈ ds) (hd' : d' ∈ ds) (hc : c ∈ d.clauses)
    (hc' : c ∈ d'.clauses) : d = d' := by
  induction h with
  | nil => exact absurd hd List.not_mem_nil
  | @snoc ds e h hlast ih =>
    rcases List.mem_append.mp hd with hd | hd
    · rcases List.mem_append.mp hd' with hd' | hd'
      · exact ih hd hd'
      · rw [List.mem_singleton.mp hd'] at hc'
        exact absurd hc (hlast.not_mem_clauses h hd hc')
    · rw [List.mem_singleton.mp hd] at hc ⊢
      rcases List.mem_append.mp hd' with hd' | hd'
      · exact absurd hc' (hlast.not_mem_clauses h hd' hc)
      · exact (List.mem_singleton.mp hd').symm

/-- Where clauses hold for definitions that are closed under the definitions mentioned in their clauses, these
    definitions carry their values. -/
theorem Layered.carries_of_closed (h : Layered base ds) (p : Definition → Bool)
    (hp : ∀ d ∈ ds, p d = true → Satisfies w d.clauses)
    (closed : ∀ d ∈ ds, p d = true → ∀ d' ∈ ds, (∃ c ∈ d.clauses, ∃ l ∈ c, l.var = d'.name) → p d' = true) :
    Carries w (ds.filter p) := by
  induction h with
  | nil => exact fun d hd => absurd hd List.not_mem_nil
  | @snoc ds e h hlast ih =>
    have below : Carries w (ds.filter p) := by
      refine ih (fun d hd => hp d (List.mem_append_left _ hd)) fun d hd hpd d' hd' => ?_
      exact closed d (List.mem_append_left _ hd) hpd d' (List.mem_append_left _ hd')
    intro d hd
    rw [List.filter_append, List.mem_append] at hd
    rcases hd with hd | hd
    · exact below d hd
    · obtain ⟨hd, hpd⟩ := List.mem_filter.mp hd
      rw [List.mem_singleton.mp hd] at hpd ⊢
      have last : e ∈ ds ++ [e] := List.mem_append_right ds (List.mem_singleton_self e)
      obtain ⟨j, args, ls, hformula, hargs, hclauses⟩ := hlast.builtOn
      have holds := hp e last hpd
      rw [hclauses, Definition.satisfies_clausesFor] at holds
      -- The arguments occur in the clauses, so their definitions are among those that carry their values.
      have known : List.Forall₂ (Stands (ds.filter p)) args ls := by
        rw [List.forall₂_iff_zip] at hargs ⊢
        refine ⟨hargs.1, fun {n l} hzip => ?_⟩
        have hstands := hargs.2 hzip
        cases n with
        | const b => exact hstands
        | lit m => exact hstands
        | nary i ms =>
          obtain ⟨d', hd', hformula', rfl⟩ := hstands
          have other : (Literal.pos d'.name).var ≠ e.name := fun hname =>
            hlast.fresh (List.mem_append_right base (List.mem_map.mpr ⟨d', hd', hname⟩))
          have occurs := Definition.exists_var_eq_of_mem_args (j := j) (List.of_mem_zip hzip).2 other
          rw [← hclauses] at occurs
          have hpd' := closed e last hpd d' (List.mem_append_left _ hd') occurs
          exact ⟨d', List.mem_filter.mpr ⟨hd', hpd'⟩, hformula', rfl⟩
      rw [holds, Stands.across_eval known below, hformula]

namespace Encoder

variable {known base : List Var} {e : Encoder Numbering} {ns : List Nnf} {k : Nat} {w : Assignment}

/-! ### What calls return -/

theorem Call.mem_clauses_iff {σ : Type} [NameSource σ] {c : Call σ} {cl : Clause} :
    cl ∈ c.clauses ↔ (c.Succeeded ∧ ∃ d ∈ c.made, cl ∈ d.clauses) ∨ cl ∈ c.asserted := by
  constructor
  · intro h
    have hc := succeeded_of_mem_clauses h
    rw [hc.clauses_eq, List.mem_append, List.mem_flatMap] at h
    exact h.imp_left fun h => ⟨hc, h⟩
  · rintro (⟨hc, h⟩ | h)
    · rw [hc.clauses_eq, List.mem_append, List.mem_flatMap]
      exact .inl h
    · have hc : c.Succeeded := by
        unfold asserted at h
        rcases hcs : (c.start.assertion c.formula).1 with failure | cs
        · rw [hcs] at h
          exact absurd h List.not_mem_nil
        · exact succeeded_of_assertion hcs
      rw [hc.clauses_eq]
      exact List.mem_append_right _ h

/-- The variables in the clauses that a call returns. -/
def Call.mentioned {σ : Type} [NameSource σ] (c : Call σ) : List Var := c.clauses.flatMap Clause.variables

theorem Call.mem_mentioned {σ : Type} [NameSource σ] {c : Call σ} {x : Var} :
    x ∈ c.mentioned ↔ ∃ cl ∈ c.clauses, ∃ l ∈ cl, l.var = x := by
  rw [mentioned, List.mem_flatMap]
  exact exists_congr fun cl => and_congr_right fun _ => Clause.mem_variables

/-- Whether each call mentions only definitions whose clauses have all been returned, by it or by an earlier
    call. -/
def ReturnsDefinitions (e : Encoder Numbering) (ns : List Nnf) : Prop :=
  ∀ k c, (e.calls ns)[k]? = some c → ∀ d ∈ (e.afterCalls ns).definitions, d.name ∈ c.mentioned →
    d.clauses ⊆ ((e.calls ns).take (k + 1)).flatMap Call.clauses

/-- Whether all clauses that the calls return are satisfiable exactly if the formulas of the successful calls
    are. -/
def Equisatisfiable (e : Encoder Numbering) (ns : List Nnf) : Prop :=
  (∃ w, Satisfies w ((e.calls ns).flatMap Call.clauses)) ↔
    ∃ v, ∀ c ∈ e.calls ns, c.Succeeded → c.formula.eval v = true

/-- Whether each call mentions only definitions that a successful call made, it or an earlier one, or whose
    clauses these calls happen to assert. -/
def MentionsReturned (e : Encoder Numbering) (ns : List Nnf) : Prop :=
  ∀ k c, (e.calls ns)[k]? = some c → ∀ d ∈ (e.afterCalls ns).definitions, d.name ∈ c.mentioned →
    (∃ c' ∈ (e.calls ns).take (k + 1), c'.Succeeded ∧ d ∈ c'.made) ∨
      d.clauses ⊆ ((e.calls ns).take (k + 1)).flatMap Call.asserted

theorem MentionsReturned.returnsDefinitions (h : MentionsReturned e ns) : ReturnsDefinitions e ns := by
  intro k c hk d hd hmentioned cl hcl
  rw [List.mem_flatMap]
  rcases h k c hk d hd hmentioned with ⟨c', hc', hsucceeded, hmade⟩ | hasserted
  · exact ⟨c', hc', Call.mem_clauses_iff.mpr (.inl ⟨hsucceeded, d, hmade, hcl⟩)⟩
  · obtain ⟨c', hc', hcl⟩ := List.mem_flatMap.mp (hasserted hcl)
    exact ⟨c', hc', Call.mem_clauses_iff.mpr (.inr hcl)⟩

theorem made_subset {c : Call Numbering} (hc : c ∈ e.calls ns) : c.made ⊆ (e.afterCalls ns).definitions := by
  intro d hd
  rw [definitions_afterCalls]
  exact List.mem_append_right _ (List.mem_flatMap.mpr ⟨c, hc, hd⟩)

/-- Definitions share no clauses, so what is returned of a definition that no successful call made is asserted. -/
theorem ReturnsDefinitions.mentionsReturned (he : e.Consistent known base)
    (hns : ∀ n ∈ ns, ∀ x ∈ n.occurrences, x ∈ base) (h : ReturnsDefinitions e ns) : MentionsReturned e ns := by
  intro k c hk d hd hmentioned
  have layered := (grows_afterCalls he hns).1.consistent.layered
  by_cases hmade : ∃ c' ∈ (e.calls ns).take (k + 1), c'.Succeeded ∧ d ∈ c'.made
  · exact .inl hmade
  · refine .inr fun cl hcl => ?_
    obtain ⟨c', hc', hcl'⟩ := List.mem_flatMap.mp (h k c hk d hd hmentioned hcl)
    rcases Call.mem_clauses_iff.mp hcl' with ⟨hsucceeded, d', hd', hcl'⟩ | hasserted
    · have hd'' := made_subset (List.mem_of_mem_take hc') hd'
      rw [← layered.eq_of_mem_clauses hd hd'' hcl hcl'] at hd'
      exact absurd ⟨c', hc', hsucceeded, hd'⟩ hmade
    · exact List.mem_flatMap.mpr ⟨c', hc', hasserted⟩

theorem take_subset_clauses : ((e.calls ns).take k).flatMap Call.clauses ⊆ (e.calls ns).flatMap Call.clauses := by
  intro cl hcl
  obtain ⟨c, hc, hcl⟩ := List.mem_flatMap.mp hcl
  exact List.mem_flatMap.mpr ⟨c, List.mem_of_mem_take hc, hcl⟩

/-! ### Satisfiability -/

/-- Where the definitions that are mentioned are all returned, what the calls return does not depend on the
    other auxiliary variables. -/
theorem satisfies_extension (he : e.Consistent known base) (hns : ∀ n ∈ ns, ∀ x ∈ n.occurrences, x ∈ base)
    (h : ReturnsDefinitions e ns) (hw : Satisfies w ((e.calls ns).flatMap Call.clauses)) :
    Satisfies (extension (e.afterCalls ns).definitions w) ((e.calls ns).flatMap Call.clauses) := by
  obtain ⟨grows, within⟩ := grows_afterCalls he hns
  have layered := grows.consistent.layered
  have mentioned : ∀ cl ∈ (e.calls ns).flatMap Call.clauses, ∀ l ∈ cl, ∀ d ∈ (e.afterCalls ns).definitions,
      l.var = d.name → d.clauses ⊆ (e.calls ns).flatMap Call.clauses := by
    intro cl hcl l hl d hd hvar
    obtain ⟨c, hc, hcl⟩ := List.mem_flatMap.mp hcl
    obtain ⟨k, hk⟩ := List.mem_iff_getElem?.mp hc
    have returned := h k c hk d hd (Call.mem_mentioned.mpr ⟨cl, hcl, l, hl, hvar⟩)
    exact List.Subset.trans returned take_subset_clauses
  have carries := layered.carries_of_closed (w := w) (fun d => decide (d.clauses ⊆ (e.calls ns).flatMap Call.clauses))
    (fun d _ hd => hw.mono (of_decide_eq_true hd)) (by
      rintro d hd hpd d' hd' ⟨cl, hcl, l, hl, hvar⟩
      exact decide_eq_true (mentioned cl (of_decide_eq_true hpd hcl) l hl d' hd' hvar))
  refine hw.congr fun cl hcl l hl => ?_
  obtain ⟨c, hc, hmem⟩ := List.mem_flatMap.mp hcl
  rcases List.mem_append.mp ((within c hc).var_mem hmem hl) with hbase | hname
  · refine (agreesOff_extension _ w l.var fun hname => ?_).symm
    obtain ⟨d, hd, hvar⟩ := List.mem_map.mp hname
    exact layered.name_not_mem hd (hvar ▸ hbase)
  · obtain ⟨d, hd, hvar⟩ := List.mem_map.mp hname
    have returned := mentioned cl hcl l hl d hd hvar.symm
    rw [← hvar, layered.extension_name hd]
    exact carries d (List.mem_filter.mpr ⟨hd, decide_eq_true returned⟩)

theorem ReturnsDefinitions.equisatisfiable (he : e.Consistent known base)
    (hns : ∀ n ∈ ns, ∀ x ∈ n.occurrences, x ∈ base) (h : ReturnsDefinitions e ns) : Equisatisfiable e ns := by
  obtain ⟨grows, within⟩ := grows_afterCalls he hns
  have layered := grows.consistent.layered
  have carries : ∀ v, Carries (extension (e.afterCalls ns).definitions v) (e.afterCalls ns).definitions := fun v =>
    (layered.carries_iff (agreesOff_extension _ v)).mpr rfl
  constructor
  · rintro ⟨w, hw⟩
    have extended := satisfies_extension he hns h hw
    refine ⟨extension (e.afterCalls ns).definitions w, fun c hc hsucceeded => ?_⟩
    rw [← (within c hc).satisfies_asserted hsucceeded (carries w)]
    exact extended.mono fun cl hcl => List.mem_flatMap.mpr ⟨c, hc, Call.mem_clauses_iff.mpr (.inr hcl)⟩
  · rintro ⟨v, hv⟩
    refine ⟨extension (e.afterCalls ns).definitions v, fun cl hcl => ?_⟩
    obtain ⟨c, hc, hcl⟩ := List.mem_flatMap.mp hcl
    have hsucceeded := Call.succeeded_of_mem_clauses hcl
    rcases Call.mem_clauses_iff.mp hcl with ⟨-, d, hd, hcl⟩ | hcl
    · exact layered.satisfies_iff.mpr (carries v) cl (List.mem_flatMap.mpr ⟨d, made_subset hc hd, hcl⟩)
    · refine ((within c hc).satisfies_asserted hsucceeded (carries v)).mpr ?_ cl hcl
      have hformula : ∀ x ∈ c.formula.occurrences, x ∈ base := (within c hc).registered
      rw [layered.eval_eq hformula (agreesOff_extension _ v)]
      exact hv c hc hsucceeded

/-- For formulas over registered variables, of which some may hold constants below their roots, asserted one after
    the other: each call mentions only definitions whose clauses have been returned by then, and all clauses
    together are satisfiable if and only if the formulas of the successful calls are, exactly when each call
    mentions only definitions that successful calls made by then, or whose clauses they assert. -/
theorem returnsDefinitions_and_equisatisfiable_iff (m : Numbering) (stem : String) (ns : List Nnf)
    (registered : ∀ n ∈ ns, ∀ x ∈ n.variables, m.contains x = true) :
    let e : Encoder Numbering := { source := m, stem }
    ReturnsDefinitions e ns ∧ Equisatisfiable e ns ↔ MentionsReturned e ns := by
  intro e
  have he : e.Consistent m.variables m.variables := consistent_start stem (List.Subset.refl _)
  have hns : ∀ n ∈ ns, ∀ x ∈ n.occurrences, x ∈ m.variables := fun n hn => occurrences_registered (registered n hn)
  constructor
  · rintro ⟨h, -⟩
    exact h.mentionsReturned he hns
  · intro h
    exact ⟨h.returnsDefinitions, h.returnsDefinitions.equisatisfiable he hns⟩

/-- A call that fails behind a conjunction, and a call that does not meet the same conjunction. -/
theorem unmentioned_definition_is_harmless :
    let both (l m : Literal) : Nnf := .nary .conj [.lit l, .lit m]
    let ns : List Nnf := [.nary .disj [both (.pos ⟨"a"⟩) (.pos ⟨"b"⟩), .const true],
      .nary .disj [both (.pos ⟨"a"⟩) (.neg ⟨"b"⟩), .lit (.pos ⟨"b"⟩)]]
    let e : Encoder Numbering := { source := .ofVars [⟨"a"⟩, ⟨"b"⟩], stem := "_t" }
    (∀ n ∈ ns, ∀ x ∈ n.variables, e.source.contains x = true) ∧ (e.afterCalls ns).definitions.length = 2 ∧
      ReturnsDefinitions e ns ∧ Equisatisfiable e ns := by
  intro both ns e
  have registered : ∀ n ∈ ns, ∀ x ∈ n.variables, e.source.contains x = true := by decide
  refine ⟨registered, by decide, (returnsDefinitions_and_equisatisfiable_iff _ _ ns registered).mpr ?_⟩
  let first : Call Numbering := ⟨e, ns.head (by decide)⟩
  let second : Call Numbering := ⟨first.after, ns.getLast (by decide)⟩
  have definitions : (e.afterCalls ns).definitions = first.made ++ second.made := rfl
  have nothing : first.mentioned = [] := by decide
  have unmentioned : ∀ d ∈ first.made, d.name ∉ second.mentioned := by decide
  intro k c hk d hd hmentioned
  match k with
  | 0 =>
    obtain rfl : first = c := Option.some.inj hk
    rw [nothing] at hmentioned
    exact absurd hmentioned List.not_mem_nil
  | 1 =>
    obtain rfl : second = c := Option.some.inj hk
    rw [definitions] at hd
    rcases List.mem_append.mp hd with hd | hd
    · exact absurd hmentioned (unmentioned d hd)
    · exact .inl ⟨second, List.mem_cons_of_mem first (List.mem_singleton_self second), ⟨_, rfl⟩, hd⟩
  | k + 2 => cases hk

/-- A call that fails behind the contradiction of `a` has defined it. A later call that asserts the contradiction
    of `a` or the one of `b` returns only the definition of the latter: its clauses are satisfiable, although
    its formula is not. -/
theorem failed_call_loses_definition :
    let never (x : Var) : Nnf := .nary .conj [.lit (.pos x), .lit (.neg x)]
    let ns : List Nnf := [.nary .disj [never ⟨"a"⟩, .const true], .nary .disj [never ⟨"a"⟩, never ⟨"b"⟩]]
    let e : Encoder Numbering := { source := .ofVars [⟨"a"⟩, ⟨"b"⟩], stem := "_t" }
    (∀ n ∈ ns, ∀ x ∈ n.variables, e.source.contains x = true) ∧ ¬ReturnsDefinitions e ns ∧ ¬Equisatisfiable e ns := by
  intro never ns e
  refine ⟨by decide, fun h => ?_, fun h => ?_⟩
  · have second : (e.calls ns)[1]? = some ⟨(e.assert (ns.head (by decide))).2, ns.getLast (by decide)⟩ := rfl
    have lost := h 1 _ second ((e.afterCalls ns).definitions.head (by decide)) (List.head_mem _) (by decide)
    exact absurd lost (by decide)
  · have satisfiable : Satisfies (fun x => x == ⟨"_t0"⟩) ((e.calls ns).flatMap Call.clauses) := by
      unfold Satisfies
      decide
    obtain ⟨v, hv⟩ := h.mp ⟨_, satisfiable⟩
    have second : (⟨(e.assert (ns.head (by decide))).2, ns.getLast (by decide)⟩ : Call Numbering) ∈ e.calls ns :=
      List.mem_cons_of_mem _ (List.mem_singleton_self _)
    have := hv _ second ⟨_, rfl⟩
    revert this
    simp [ns, never, Nnf.eval, Junction.across, Literal.eval, Literal.pos, Literal.neg]

end Encoder
end NormalForms
