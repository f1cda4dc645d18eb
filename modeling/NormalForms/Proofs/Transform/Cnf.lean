import NormalForms.Proofs.Encoding.Correct
import NormalForms.Proofs.Transform.Parts

/-!
Conjunctive normal forms. The parts within the limit are expanded and the others are asserted one after the other
with one encoder. Main statement: whatever the limit, every model of the formula extends in exactly one way to
a model of the result, and no other assignment does. -/

namespace NormalForms

open Encoder (Call)

/-- Falling back to the encoder is asserting the parts one after the other. -/
theorem Fallback.takeAll_encode {σ : Type} [NameSource σ] {e : Encoder σ} {ns : List Nnf}
    (h : ∀ c ∈ e.calls ns, c.Succeeded) :
    encode.takeAll ns e = (.ok ((e.calls ns).flatMap Call.clauses), e.afterCalls ns) := by
  induction ns generalizing e with
  | nil => rfl
  | cons n ns ih =>
    rw [Encoder.calls, List.forall_mem_cons] at h
    obtain ⟨⟨cs, hcs⟩, hns⟩ := h
    have clauses : (⟨e, n⟩ : Call σ).clauses = cs := by
      rw [Call.clauses, hcs]
      rfl
    have take : encode.take n e = (.ok cs, (e.assert n).2) := by
      show e.assert n = _
      rw [← show (e.assert n).1 = .ok cs from hcs]
    rw [takeAll, take]
    dsimp only
    rw [ih hns, Encoder.calls, List.flatMap_cons, clauses]
    rfl

/-- What is reported of a part that falls back: its place and the limit, and then each definition that the call for it
    makes. -/
def Encoder.Call.events {σ : Type} [NameSource σ] (c : Call σ) (place limit : Nat) : List Event :=
  .fallback place limit :: c.made.map Definition.event

theorem Fallback.events_encode {σ : Type} [NameSource σ] (o : Options) (place : Nat) (n : Nnf) (e : Encoder σ) :
    encode.events o place n e = (⟨e, n⟩ : Call σ).events place (o.limit.getD 0) :=
  congrArg (List.cons _) (⟨e, n⟩ : Call σ).newEvents_after

theorem ClauseSet.eval_conj_iff {S : ClauseSet} {w : Assignment} : S.eval .conj w = true ↔ Satisfies w S.clauses :=
  eval_eq_unit_iff

/-- Adding clauses to a clause set requires them to be true as well. -/
theorem ClauseSet.eval_extend {S : ClauseSet} {cs : List Clause} {w : Assignment} :
    (S.extend cs).eval .conj w = true ↔ S.eval .conj w = true ∧ Satisfies w cs := by
  have split : Satisfies w (S.extend cs).clauses ↔ Satisfies w S.clauses ∧ Satisfies w cs := by
    simp only [Satisfies, ← mem_def, mem_extend, or_imp, forall_and]
  rw [eval_conj_iff, eval_conj_iff, split]

section
variable {σ : Type} [NameSource σ] {m : Numbering} {f : Formula} {n p : Nnf} {o : Options} {x : Var}

/-- The parts that are asserted for the conjunctive normal form. -/
abbrev Options.asserted (o : Options) (n : Nnf) : List Nnf := overflowing .conj o.limit (n.parts .conj)

/-- The encoder at the start of a transformation. -/
abbrev Options.encoder (o : Options) (source : σ) : Encoder σ := { source, stem := o.stem }

/-- The definitions of the auxiliary variables of the conjunctive normal form. -/
abbrev Options.definitions (o : Options) (source : σ) (n : Nnf) : List Definition :=
  ((o.encoder source).afterCalls (o.asserted n)).definitions

/-- The clauses of the conjunctive normal form. -/
abbrev Options.clauses (o : Options) (source : σ) (n : Nnf) : ClauseSet :=
  (ClauseSet.empty.extendWithin .conj o.limit (n.parts .conj)).extend
    (((o.encoder source).calls (o.asserted n)).flatMap Call.clauses)

theorem mem_variables_of_mem_parts (hn : f.nnf = .ok n) (hp : p ∈ n.parts .conj) (hx : x ∈ p.occurrences) :
    x ∈ f.variables :=
  Formula.mem_variables_of_nnf hn (Nnf.mem_occurrences_of_mem_parts hp hx)

theorem mem_variables_of_mem_asserted (hn : f.nnf = .ok n) :
    ∀ p ∈ o.asserted n, ∀ x ∈ p.occurrences, x ∈ f.variables :=
  fun _ hp _ hx => mem_variables_of_mem_parts hn (List.mem_filter.mp hp).1 hx

/-- No part of a simplified normal form holds a constant below its root, so every assertion succeeds. -/
theorem succeeded_of_asserted {m : σ} (hn : f.nnf = .ok n) : ∀ c ∈ (o.encoder m).calls (o.asserted n), c.Succeeded := by
  refine Encoder.succeeded_of_innerConstants (fun p hp => ?_) _
  exact Nnf.innerConstants_of_mem_parts (Formula.innerConstants_of_nnf hn) (List.mem_filter.mp hp).1

theorem grows_asserted (hn : f.nnf = .ok n) (hf : f.variables ⊆ m.variables) :
    Encoder.Grows m.variables f.variables (o.encoder m) ((o.encoder m).afterCalls (o.asserted n)) ∧
      ∀ c ∈ (o.encoder m).calls (o.asserted n),
        c.Within m.variables f.variables ((o.encoder m).afterCalls (o.asserted n)) :=
  Encoder.grows_afterCalls (Encoder.consistent_start o.stem hf) (mem_variables_of_mem_asserted hn)

/-- The clauses are true exactly where the normal form is and the auxiliary variables have the values of their
    formulas. -/
theorem eval_clauses {v w : Assignment} (hn : f.nnf = .ok n) (hf : f.variables ⊆ m.variables)
    (hw : AgreesOff ((o.definitions m n).map Definition.name) v w) :
    (o.clauses m n).eval .conj w = true ↔ w = extension (o.definitions m n) v ∧ n.eval v = true := by
  have layered := (grows_asserted (o := o) hn hf).1.consistent.layered
  have expanded : (ClauseSet.empty.extendWithin .conj o.limit (n.parts .conj)).eval .conj w = true ↔
      ∀ p ∈ n.parts .conj, Expander.overflows .conj o.limit p = false → p.eval v = true := by
    rw [show true = Junction.conj.unit from rfl, ClauseSet.eval_extendWithin_eq_unit_iff]
    refine forall₂_congr fun p hp => ?_
    rw [layered.eval_eq (fun x hx => mem_variables_of_mem_parts hn hp hx) hw]
  have asserted := Encoder.satisfies_calls_of_agreesOff (Encoder.consistent_start o.stem hf) rfl
    (mem_variables_of_mem_asserted hn) (succeeded_of_asserted hn) hw
  have parts : n.eval v = true ↔ ∀ p ∈ n.parts .conj, p.eval v = true := by
    rw [← Nnf.eval_parts .conj, show true = Junction.conj.unit from rfl, Junction.across_eq_unit_iff]
  rw [ClauseSet.eval_extend, expanded, asserted, parts]
  constructor
  · rintro ⟨hwithin, hext, hover⟩
    refine ⟨hext, fun p hp => ?_⟩
    cases hp' : Expander.overflows .conj o.limit p with
    | false => exact hwithin p hp hp'
    | true => exact hover p (List.mem_filter.mpr ⟨hp, hp'⟩)
  · rintro ⟨hext, hall⟩
    exact ⟨fun p hp _ => hall p hp, hext, fun p hp => hall p (List.mem_filter.mp hp).1⟩

theorem mem_variables_clauses (hn : f.nnf = .ok n) (hf : f.variables ⊆ m.variables)
    (hx : x ∈ ((o.clauses m n).toFormula .conj).variables) :
    x ∈ f.variables ∨ x ∈ (o.definitions m n).map Definition.name := by
  obtain ⟨c, hc, l, hl, rfl⟩ := ClauseSet.mem_variables_toFormula.mp hx
  rcases ClauseSet.mem_extend.mp hc with hc | hc
  · obtain ⟨p, hp, hlp⟩ := ClauseSet.exists_part_of_mem_extendWithin hc hl
    exact .inl (mem_variables_of_mem_parts hn hp hlp)
  · obtain ⟨call, hcall, hc⟩ := List.mem_flatMap.mp hc
    exact List.mem_append.mp (((grows_asserted hn hf).2 call hcall).var_mem hc hl)

theorem toCnf_of_takesFastPath {m : σ} (h : f.takesFastPath .conj = true) :
    (toCnf o f m).result = .ok (f.fastForm .conj) ∧ (toCnf o f m).state = m := by
  have fast : (transform .conj o .encode f (o.encoder m)).result = .ok (f.fastForm .conj) ∧
      (transform .conj o .encode f (o.encoder m)).state = o.encoder m := transform_of_takesFastPath h
  exact ⟨fast.1, congrArg Encoder.source fast.2⟩

theorem toCnf_of_not_takesFastPath {m : σ} (ho : o.token = none) (h : f.takesFastPath .conj = false)
    (hn : f.nnf = .ok n) :
    (toCnf o f m).result = .ok ((o.clauses m n).toFormula .conj) ∧
      (toCnf o f m).state = ((o.encoder m).afterCalls (o.asserted n)).source ∧
      (toCnf o f m).events = [.begun .conj, .simplified n] ++
        Fallback.encode.trace .conj o 0 (n.parts .conj) (o.encoder m) ++
          [.merged (o.clauses m n).size (o.clauses m n).literalCount (o.definitions m n).length] := by
  obtain ⟨result, state, events⟩ := transform_of_not_takesFastPath .encode (o.encoder m) ho h hn
  rw [Fallback.takeAll_encode (succeeded_of_asserted hn)] at result state events
  exact ⟨result, congrArg Encoder.source state, events _ rfl⟩

theorem agreesOff_nil {v w : Assignment} : AgreesOff [] v w ↔ w = v :=
  ⟨fun h => funext fun x => h x List.not_mem_nil, fun h x _ => congrFun h x⟩

/-- Whether `r` has the models of `f`, each extended in exactly one way to the variables `names`: where `f` is
    true, one extension makes `r` true, and where `f` is false, all extensions make `r` false. -/
def Formula.ExtendsTo (names : List Var) (f r : Formula) : Prop := ∀ v,
  (f.eval v = .ok true ∧ ∃ w, AgreesOff names v w ∧ r.eval w = .ok true ∧
    ∀ w', AgreesOff names v w' → r.eval w' = .ok true → w' = w) ∨
  (f.eval v = .ok false ∧ ∀ w, AgreesOff names v w → r.eval w = .ok false)

theorem extendsTo_fastForm (hn : f.nnf = .ok n) (form : Junction) : f.ExtendsTo [] (f.fastForm form) := by
  intro v
  simp only [agreesOff_nil, forall_eq, exists_eq_left, Formula.eval_fastForm, Formula.eval_of_nnf hn v]
  cases n.eval v with
  | true => exact .inl ⟨rfl, rfl, fun _ => trivial⟩
  | false => exact .inr ⟨rfl, rfl⟩

theorem extendsTo_clauses (hn : f.nnf = .ok n) (hf : f.variables ⊆ m.variables) :
    f.ExtendsTo ((o.definitions m n).map Definition.name) ((o.clauses m n).toFormula .conj) := by
  intro v
  rw [Formula.eval_of_nnf hn v]
  simp only [ClauseSet.eval_toFormula]
  cases hv : n.eval v with
  | true =>
    have hext := agreesOff_extension (o.definitions m n) v
    refine .inl ⟨rfl, extension (o.definitions m n) v, hext, ?_, fun w hw hr => ?_⟩
    · rw [(eval_clauses hn hf hext).mpr ⟨rfl, hv⟩]
    · exact ((eval_clauses hn hf hw).mp (Except.ok.inj hr)).1
  | false =>
    refine .inr ⟨rfl, fun w hw => ?_⟩
    have never : ¬(o.clauses m n).eval .conj w = true := by
      rw [eval_clauses hn hf hw, hv]
      exact fun h => nomatch h.2
    rw [Bool.not_eq_true] at never
    rw [never]

/-- The conjunctive normal form of a formula over registered variables, with any limit: its variables are those
    of the formula and new ones, which the transformation registers, and its models are those of the formula,
    each extended in exactly one way to the new variables. -/
theorem cnf_preserves_models (ho : o.token = none) (hn : f.nnf = .ok n)
    (registered : ∀ x ∈ f.variables, m.contains x = true) :
    ∃ r names, (toCnf o f m).result = .ok r ∧ (toCnf o f m).state.variables = m.variables ++ names ∧
      names.Nodup ∧ (∀ x ∈ names, m.contains x = false) ∧ (∀ x ∈ r.variables, x ∈ f.variables ∨ x ∈ names) ∧
      f.ExtendsTo names r := by
  have hf : f.variables ⊆ m.variables := fun x hx => Numbering.contains_iff.mp (registered x hx)
  cases hfast : f.takesFastPath .conj with
  | true =>
    obtain ⟨hresult, hstate⟩ := toCnf_of_takesFastPath (o := o) (m := m) hfast
    refine ⟨f.fastForm .conj, [], hresult, ?_, .nil, fun x hx => absurd hx List.not_mem_nil,
      fun x hx => .inl (Formula.mem_variables_fastForm.mp hx), extendsTo_fastForm hn .conj⟩
    rw [hstate, List.append_nil]
  | false =>
    obtain ⟨hresult, hstate, -⟩ := toCnf_of_not_takesFastPath (m := m) ho hfast hn
    have last := (grows_asserted (o := o) hn hf).1.consistent
    refine ⟨_, (o.definitions m n).map Definition.name, hresult, ?_, last.layered.nodup, ?_,
      fun x hx => mem_variables_clauses hn hf hx, extendsTo_clauses hn hf⟩
    · rw [hstate, last.registered]
    · intro x hx
      obtain ⟨d, hd, rfl⟩ := List.mem_map.mp hx
      rw [Bool.eq_false_iff]
      exact fun h => last.fresh d hd (Numbering.contains_iff.mp h)

/-- A disjunction of conjunctions, encoded at the limit 0 in a numbering in which `_t0` is taken. -/
theorem cnf_preserves_models_of_encoded :
    let f : Formula := .any [.all [.var ⟨"a"⟩, .var ⟨"b"⟩], .all [.not (.var ⟨"a"⟩), .var ⟨"_t0"⟩]]
    let m := Numbering.ofVars f.variables
    (∀ x ∈ f.variables, m.contains x = true) ∧
      ∃ r, (toCnf { limit := some 0 } f m).result = .ok r ∧
        (toCnf { limit := some 0 } f m).state.variables = m.variables ++ [⟨"_t1"⟩, ⟨"_t2"⟩] ∧
        f.ExtendsTo [⟨"_t1"⟩, ⟨"_t2"⟩] r := by
  intro f m
  have registered : ∀ x ∈ f.variables, m.contains x = true := by decide
  have state : (toCnf { limit := some 0 } f m).state.variables = m.variables ++ [⟨"_t1"⟩, ⟨"_t2"⟩] := by decide
  obtain ⟨r, names, hresult, hstate, -, -, -, hmodels⟩ := cnf_preserves_models (o := { limit := some 0 })
    (n := .nary .disj [.nary .conj [.lit (.pos ⟨"a"⟩), .lit (.pos ⟨"b"⟩)],
      .nary .conj [.lit (.neg ⟨"a"⟩), .lit (.pos ⟨"_t0"⟩)]]) rfl rfl registered
  rw [state, List.append_cancel_left_eq] at hstate
  exact ⟨registered, r, hresult, state, hstate ▸ hmodels⟩

end
end NormalForms
