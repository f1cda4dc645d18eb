import NormalForms.Proofs.Encoding.Assert

/-!
Assertions of formulas without constants below their roots. Every call succeeds, so the clauses that the calls
return hold the clauses of every definition, and they are true exactly if all definitions carry their values and
all formulas are true. Main statement: an assignment extends in one way to the new variables, and the extension
satisfies what the calls return exactly if all formulas are true. -/

namespace NormalForms.Encoder

variable {known base : List Var} {e : Encoder Numbering} {ns : List Nnf} {v w : Assignment}

theorem succeeded_of_innerConstants {σ : Type} [NameSource σ] (h : ∀ n ∈ ns, n.innerConstants = []) (e : Encoder σ) :
    ∀ c ∈ e.calls ns, c.Succeeded := by
  have proper := (forall_mem_calls (e := e)).mpr h
  intro c hc
  obtain ⟨cs, later, hcs⟩ := assertion_ok (proper c hc) c.start
  exact Call.succeeded_of_assertion (by rw [hcs])

/-- What successful calls return is true exactly if all definitions carry their values and all formulas are
    true. -/
theorem satisfies_calls (he : e.Consistent known base) (hstart : e.definitions = [])
    (hns : ∀ n ∈ ns, ∀ x ∈ n.occurrences, x ∈ base) (hc : ∀ c ∈ e.calls ns, c.Succeeded) :
    Satisfies w ((e.calls ns).flatMap Call.clauses) ↔
      Carries w (e.afterCalls ns).definitions ∧ ∀ n ∈ ns, n.eval w = true := by
  obtain ⟨grows, within⟩ := grows_afterCalls he hns
  have layered := grows.consistent.layered
  have definitions := e.definitions_afterCalls ns
  rw [hstart, List.nil_append] at definitions
  have split : Satisfies w ((e.calls ns).flatMap Call.clauses) ↔
      Satisfies w ((e.afterCalls ns).definitions.flatMap Definition.clauses) ∧
        ∀ c ∈ e.calls ns, Satisfies w c.asserted := by
    rw [definitions, List.flatMap_assoc, satisfies_flatMap, satisfies_flatMap, ← forall₂_and]
    refine forall₂_congr fun c hmem => ?_
    rw [(hc c hmem).clauses_eq, satisfies_append]
  rw [split, layered.satisfies_iff]
  refine and_congr_right fun hw => ?_
  rw [← forall_mem_calls (e := e) (p := fun n => n.eval w = true)]
  exact forall₂_congr fun c hmem => (within c hmem).satisfies_asserted (hc c hmem) hw

/-- Among the extensions of an assignment, only the one that gives each variable the value of its formula can
    satisfy what successful calls return, and it does if all formulas are true. -/
theorem satisfies_calls_of_agreesOff (he : e.Consistent known base) (hstart : e.definitions = [])
    (hns : ∀ n ∈ ns, ∀ x ∈ n.occurrences, x ∈ base) (hc : ∀ c ∈ e.calls ns, c.Succeeded)
    (hw : AgreesOff ((e.afterCalls ns).definitions.map Definition.name) v w) :
    Satisfies w ((e.calls ns).flatMap Call.clauses) ↔
      w = extension (e.afterCalls ns).definitions v ∧ ∀ n ∈ ns, n.eval v = true := by
  have layered := (grows_afterCalls he hns).1.consistent.layered
  rw [satisfies_calls he hstart hns hc, layered.carries_iff hw]
  refine and_congr_right fun _ => forall₂_congr fun n hn => ?_
  rw [layered.eval_eq (hns n hn) hw]

/-- Formulas over registered variables, without constants below their roots, asserted one after the other: every
    assignment extends in exactly one way to the new variables such that all definitions hold, and each new
    variable then has the value of its formula. The extension satisfies all clauses that the calls return if
    and only if all formulas are true, and if one is false, no other extension satisfies them. -/
theorem assertions_correct (m : Numbering) (stem : String) (ns : List Nnf)
    (registered : ∀ n ∈ ns, ∀ x ∈ n.variables, m.contains x = true) (proper : ∀ n ∈ ns, n.innerConstants = []) :
    let e : Encoder Numbering := { source := m, stem }
    let ds := (e.afterCalls ns).definitions
    let names := ds.map Definition.name
    let returned := (e.calls ns).flatMap Call.clauses
    (∀ c ∈ e.calls ns, c.Succeeded) ∧
      names.Nodup ∧ (∀ x ∈ names, m.contains x = false) ∧
      ∀ v, ∃ w, AgreesOff names v w ∧ Satisfies w (ds.flatMap Definition.clauses) ∧
        (∀ w', AgreesOff names v w' → Satisfies w' (ds.flatMap Definition.clauses) → w' = w) ∧
        (∀ d ∈ ds, w d.name = d.formula.eval v) ∧
        (Satisfies w returned ↔ ∀ n ∈ ns, n.eval v = true) ∧
        ((∃ n ∈ ns, n.eval v = false) → ∀ w', AgreesOff names v w' → ¬Satisfies w' returned) := by
  intro e ds names returned
  have he : e.Consistent m.variables m.variables := consistent_start stem (List.Subset.refl _)
  have hns : ∀ n ∈ ns, ∀ x ∈ n.occurrences, x ∈ m.variables := fun n hn => occurrences_registered (registered n hn)
  have hc : ∀ c ∈ e.calls ns, c.Succeeded := succeeded_of_innerConstants proper e
  have layered : Layered m.variables ds := (grows_afterCalls he hns).1.consistent.layered
  have answer : ∀ {v w}, AgreesOff names v w →
      (Satisfies w returned ↔ w = extension ds v ∧ ∀ n ∈ ns, n.eval v = true) :=
    fun hw => satisfies_calls_of_agreesOff he rfl hns hc hw
  refine ⟨hc, layered.nodup, ?_, fun v => ⟨extension ds v, agreesOff_extension ds v, ?_, ?_, ?_, ?_, ?_⟩⟩
  · intro x hx
    obtain ⟨d, hd, rfl⟩ := List.mem_map.mp hx
    rw [Bool.eq_false_iff]
    exact fun h => layered.name_not_mem hd (Numbering.contains_iff.mp h)
  · exact layered.satisfies_iff.mpr ((layered.carries_iff (agreesOff_extension ds v)).mpr rfl)
  · intro w' hw' hds
    exact (layered.carries_iff hw').mp (layered.satisfies_iff.mp hds)
  · exact fun d hd => layered.extension_name hd v
  · rw [answer (agreesOff_extension ds v)]
    exact ⟨fun h => h.2, fun h => ⟨rfl, h⟩⟩
  · rintro ⟨n, hn, hfalse⟩ w' hw' h
    have := ((answer hw').mp h).2 n hn
    rw [hfalse] at this
    cases this

/-- Two assertions that share a subformula. The second call makes no definition of it, and a conjunction of
    nothing is defined as well. -/
theorem assertions_correct_of_shared :
    let a : Nnf := .lit (.pos ⟨"a"⟩)
    let both : Nnf := .nary .conj [a, .lit (.neg ⟨"b"⟩)]
    let ns : List Nnf := [.nary .disj [both, .nary .conj [], a], .nary .conj [both, a]]
    let e : Encoder Numbering := { source := .ofVars [⟨"a"⟩, ⟨"b"⟩], stem := "_t" }
    (e.afterCalls ns).definitions.map Definition.name = [⟨"_t0"⟩, ⟨"_t1"⟩] ∧
      ∀ v, ∃ w, AgreesOff [⟨"_t0"⟩, ⟨"_t1"⟩] v w ∧ (w ⟨"_t0"⟩ = (v ⟨"a"⟩ && !v ⟨"b"⟩)) ∧
        (Satisfies w ((e.calls ns).flatMap Call.clauses) ↔ ∀ n ∈ ns, n.eval v = true) := by
  intro a both ns e
  have names : (e.afterCalls ns).definitions.map Definition.name = [⟨"_t0"⟩, ⟨"_t1"⟩] := by decide
  have first : ∃ d ∈ (e.afterCalls ns).definitions, d.name = ⟨"_t0"⟩ ∧ d.formula = both :=
    ⟨(e.afterCalls ns).definitions.head (by decide), List.head_mem _, by decide, by decide⟩
  obtain ⟨-, -, -, correct⟩ := assertions_correct (.ofVars [⟨"a"⟩, ⟨"b"⟩]) "_t" ns (by decide) (by decide)
  refine ⟨names, fun v => ?_⟩
  obtain ⟨w, hw, -, -, hnames, hreturned, -⟩ := correct v
  rw [names] at hw
  obtain ⟨d, hd, hname, hformula⟩ := first
  refine ⟨w, hw, ?_, hreturned⟩
  rw [← hname, hnames d hd, hformula]
  simp [both, a, Nnf.eval, Junction.across, Literal.eval, Literal.pos, Literal.neg]

end NormalForms.Encoder
