import NormalForms.Proofs.Encoding.Sharing
import NormalForms.Proofs.Transform.Cnf

/-!
The reach of the limit in conjunctive normal forms. Whether a part is encoded depends on its own count and the
limit alone, and the other parts have the clauses that they have without a limit. A larger limit encodes fewer
parts. There is one new variable for each junction strictly below the roots of the encoded parts, so a larger
limit also needs no more variables. -/

namespace NormalForms

open Encoder (Call)

/-- Whether a part is encoded: expanded without a limit, it counts more literals than the limit. -/
def Options.encodes (o : Options) (p : Nnf) : Bool :=
  o.limit.any (· < (Expander.clauses { form := .conj } p).2.literals)

section
variable {σ : Type} [NameSource σ] {source : σ} {m : Numbering} {f : Formula} {n p : Nnf} {o o' : Options}

theorem Options.encodes_eq (o : Options) (p : Nnf) : o.encodes p = Expander.overflows .conj o.limit p := by
  rw [encodes, Expander.literals_clauses, Expander.overflows]

theorem Options.asserted_eq (o : Options) (n : Nnf) : o.asserted n = (n.parts .conj).filter o.encodes :=
  List.filter_congr fun p _ => (o.encodes_eq p).symm

theorem Options.clauses_clauses (o : Options) (source : σ) (n : Nnf) : (o.clauses source n).clauses =
    (((n.parts .conj).filter fun p => !o.encodes p).flatMap (Nnf.distributed .conj) ++
      ((o.encoder source).calls ((n.parts .conj).filter o.encodes)).flatMap Call.clauses).eraseDups := by
  rw [← asserted_eq, clauses, ClauseSet.empty_extendWithin, ClauseSet.extend_ofList, ClauseSet.clauses_ofList]
  simp only [encodes_eq, funext (Nnf.distributed_eq .conj)]

/-! ### Larger limits -/

/-- A part that is encoded with a limit is encoded with every smaller limit. -/
theorem Options.encodes_mono (h : ∀ L', o'.limit = some L' → ∃ L, o.limit = some L ∧ L ≤ L') (hp : o'.encodes p = true) :
    o.encodes p = true := by
  rw [encodes_eq, Expander.overflows_iff] at hp ⊢
  obtain ⟨L', hL', hlt⟩ := hp
  obtain ⟨L, hL, hle⟩ := h L' hL'
  exact ⟨L, hL, Nat.lt_of_le_of_lt hle hlt⟩

/-- There are as many definitions as distinct junctions strictly below the roots of the encoded parts. -/
theorem length_definitions (hn : f.nnf = .ok n) :
    (o.definitions source n).length =
      (((n.parts .conj).filter o.encodes).flatMap Nnf.innerPostorder).eraseDups.length := by
  have appends := Encoder.appends_afterCalls (Encoder.shared_start source o.stem) (succeeded_of_asserted hn)
  rw [← o.asserted_eq, ← appends.formulas_of_start rfl, Encoder.formulas, List.length_map]

theorem length_definitions_le (hn : f.nnf = .ok n) (h : ∀ L', o'.limit = some L' → ∃ L, o.limit = some L ∧ L ≤ L') :
    (o'.definitions source n).length ≤ (o.definitions source n).length := by
  rw [length_definitions hn, length_definitions hn]
  refine length_eraseDups_le fun j hj => ?_
  obtain ⟨p, hp, hj⟩ := List.mem_flatMap.mp hj
  obtain ⟨hp, hencodes⟩ := List.mem_filter.mp hp
  exact List.mem_flatMap.mpr ⟨p, List.mem_filter.mpr ⟨hp, Options.encodes_mono h hencodes⟩, hj⟩

theorem definitions_eq_nil (hlimit : o.limit = none) : o.definitions source n = [] := by
  have nothing : o.asserted n = [] := List.filter_eq_nil_iff.mpr fun p _ => by simp [Expander.overflows, hlimit]
  rw [Options.definitions, nothing]
  rfl

/-! ### Conjunctive normal forms -/

theorem variables_toCnf (ho : o.token = none) (hn : f.nnf = .ok n) (hfast : f.takesFastPath .conj = false) :
    (toCnf o f m).state.variables = m.variables ++ (o.definitions m n).map Definition.name := by
  rw [(toCnf_of_not_takesFastPath ho hfast hn).2.1]
  exact Encoder.variables_afterCalls m o.stem (o.asserted n)

theorem Fallback.fallback_mem_events {i L place : Nat} {e : Encoder σ} :
    Event.fallback i L ∈ encode.events o place p e ↔ i = place ∧ L = o.limit.getD 0 := by
  rw [events_encode, Call.events, List.mem_cons, Event.fallback.injEq]
  exact or_iff_left fun h => by
    obtain ⟨d, -, hd⟩ := List.mem_map.mp h
    cases hd

/-- The fall backs that are reported are those of the parts that exceed the limit, each with its place. -/
theorem Fallback.fallback_mem_trace {i L place : Nat} {ns : List Nnf} {e : Encoder σ} :
    Event.fallback i L ∈ encode.trace .conj o place ns e ↔
      ∃ n, (n, i) ∈ ns.zipIdx place ∧ o.limit = some L ∧ L < n.charge .conj := by
  induction ns generalizing place e with
  | nil => simp [trace]
  | cons n ns ih =>
    rw [List.zipIdx_cons, trace]
    simp only [List.mem_cons, Prod.mk.injEq, or_and_right, exists_or, and_assoc, exists_eq_left]
    split
    · rename_i hn
      obtain ⟨L', hL', hlt⟩ := Expander.overflows_iff.mp hn
      rw [List.mem_append, fallback_mem_events, ih, hL', Option.getD_some]
      refine or_congr_left (and_congr_right fun _ => ⟨?_, ?_⟩)
      · rintro rfl
        exact ⟨rfl, hlt⟩
      · rintro ⟨hL, -⟩
        exact (Option.some.inj hL).symm
    · rename_i hn
      rw [ih]
      refine (or_iff_right ?_).symm
      rintro ⟨-, hL⟩
      exact hn (Expander.overflows_iff.mpr ⟨L, hL⟩)

theorem fallback_mem_toCnf (ho : o.token = none) (hn : f.nnf = .ok n) (hfast : f.takesFastPath .conj = false)
    {i L : Nat} : Event.fallback i L ∈ (toCnf o f source).events ↔
      o.limit = some L ∧ ∃ p, (n.parts .conj)[i]? = some p ∧ L < (Expander.clauses { form := .conj } p).2.literals := by
  rw [(toCnf_of_not_takesFastPath ho hfast hn).2.2, List.mem_append, List.mem_append, Fallback.fallback_mem_trace]
  simp [List.mk_mem_zipIdx_iff_getElem?, Expander.literals_clauses, and_left_comm]

/-- A formula that is not returned at once, in conjunctive normal form. A part of its negation normal form falls
    back exactly if, expanded without a limit, it counts more literals than the limit. The clauses are the distinct
    ones of the other parts, as without a limit, and then of the encoded parts, each in the order of the parts.
    From one numbering, a larger limit registers no more variables, and no limit none at all. -/
theorem fallback_local_and_monotone (ho : o.token = none) (hn : f.nnf = .ok n) (hfast : f.takesFastPath .conj = false) :
    (∀ (σ : Type) [NameSource σ] (source : σ),
      let calls := ({ source, stem := o.stem } : Encoder σ).calls ((n.parts .conj).filter o.encodes)
      let within := (n.parts .conj).filter fun p => !o.encodes p
      (∀ i L, .fallback i L ∈ (toCnf o f source).events ↔ o.limit = some L ∧
        ∃ p, (n.parts .conj)[i]? = some p ∧ L < (Expander.clauses { form := .conj } p).2.literals) ∧
      (∀ c ∈ calls, c.Succeeded) ∧
      (toCnf o f source).result = .ok (.all
        ((within.flatMap (Nnf.distributed .conj) ++ calls.flatMap Call.clauses).eraseDups.map (Clause.toFormula .disj)))) ∧
    ∀ m : Numbering, ∃ names, (toCnf o f m).state.variables = m.variables ++ names ∧ (o.limit = none → names = []) ∧
      ∀ o' : Options, o'.token = none → (∀ L', o'.limit = some L' → ∃ L, o.limit = some L ∧ L ≤ L') →
        ∃ names', (toCnf o' f m).state.variables = m.variables ++ names' ∧ names'.length ≤ names.length := by
  refine ⟨fun σ _ source => ⟨fun i L => fallback_mem_toCnf ho hn hfast, ?_, ?_⟩, fun m => ?_⟩
  · rw [← o.asserted_eq]
    exact succeeded_of_asserted hn
  · rw [(toCnf_of_not_takesFastPath ho hfast hn).1, ClauseSet.toFormula, o.clauses_clauses]
    rfl
  · refine ⟨_, variables_toCnf ho hn hfast, fun hlimit => ?_, fun o' ho' h => ⟨_, variables_toCnf ho' hn hfast, ?_⟩⟩
    · rw [definitions_eq_nil hlimit, List.map_nil]
    · rw [List.length_map, List.length_map]
      exact length_definitions_le hn h

/-- Two parts that count four and eight literals: at the limit 5 only the second falls back, and no more names
    are registered than at the limit 3. -/
theorem fallback_local_and_monotone_of_two_parts :
    let x (name : String) : Formula := .var ⟨name⟩
    let l (name : String) : Nnf := .lit (.pos ⟨name⟩)
    let f : Formula := .all [.any [.all [x "a", x "b"], x "c"], .any [.all [x "b", x "c"], .all [x "a", x "d"]]]
    let p := Nnf.nary .disj [.nary .conj [l "a", l "b"], l "c"]
    let q := Nnf.nary .disj [.nary .conj [l "b", l "c"], .nary .conj [l "a", l "d"]]
    f.nnf = .ok (.nary .conj [p, q]) ∧ f.takesFastPath .conj = false ∧
      .fallback 0 5 ∉ (toCnf { limit := some 5 } f Numbering.empty).events ∧
      .fallback 1 5 ∈ (toCnf { limit := some 5 } f Numbering.empty).events ∧
      ∃ names names', (toCnf { limit := some 3 } f Numbering.empty).state.variables = names ∧
        (toCnf { limit := some 5 } f Numbering.empty).state.variables = names' ∧ names'.length ≤ names.length := by
  intro x l f p q
  have hn : f.nnf = .ok (.nary .conj [p, q]) := rfl
  have hfast : f.takesFastPath .conj = false := by decide
  have three := fallback_local_and_monotone (o := { limit := some 3 }) rfl hn hfast
  have five := fallback_local_and_monotone (o := { limit := some 5 }) rfl hn hfast
  have place := (five.1 Numbering .empty).1
  obtain ⟨names, hnames, -, fewer⟩ := three.2 .empty
  obtain ⟨names', hnames', hle⟩ := fewer { limit := some 5 } rfl fun L' h => by
    cases h
    exact ⟨3, rfl, by decide⟩
  refine ⟨hn, hfast, fun h => ?_, (place 1 5).mpr ⟨rfl, q, rfl, by decide⟩, names, names', hnames, hnames', hle⟩
  obtain ⟨-, p', hp, hlt⟩ := (place 0 5).mp h
  cases hp
  exact absurd hlt (by decide)

end
end NormalForms
