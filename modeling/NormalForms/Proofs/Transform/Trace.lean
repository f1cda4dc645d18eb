import NormalForms.Proofs.Clause.Size
import NormalForms.Proofs.Formula.Nodes
import NormalForms.Proofs.Transform.Failures
import NormalForms.Proofs.Transform.Fallback
import NormalForms.Proofs.Transform.Registered

/-!
The events of a conjunctive normal form. The parts that exceed the limit are reported in their order, each with its
place and with the definitions that the call for it makes, whose names are those that the numbering grows by. The
numbers that are reported last are those of the formula that is returned. -/

namespace NormalForms

open Encoder (Call)

/-! ### Literal nodes -/

namespace Formula

/-- Whether the root is a literal. A variable is none. -/
def isLiteralNode : Formula → Bool
  | lit _ => true
  | const _ | var _ | not _ | nary .. | implies .. | iff .. | card .. | quant .. => false

/-- The literal nodes of a junction are those of its arguments. -/
theorem countP_nodes_nary (j : Junction) (args : List Formula) :
    (nary j args).nodes.countP isLiteralNode = (args.map fun f => f.nodes.countP isLiteralNode).sum := by
  rw [nodes, List.countP_cons_of_neg (by simp [isLiteralNode]), nodesList_eq_flatMap, List.countP_flatMap]
  rfl

end Formula

theorem Clause.countP_nodes_toFormula (i : Junction) (c : Clause) :
    (c.toFormula i).nodes.countP Formula.isLiteralNode = c.size := by
  have single : ∀ l : Literal, (Formula.lit l).nodes.countP Formula.isLiteralNode = 1 := fun _ => rfl
  rw [toFormula, Formula.countP_nodes_nary, List.map_map, size]
  simp [Function.comp_def, single]

/-- The literals of a clause set are the literal nodes of its formula. -/
theorem ClauseSet.countP_nodes_toFormula (j : Junction) (S : ClauseSet) :
    (S.toFormula j).nodes.countP Formula.isLiteralNode = S.literalCount := by
  rw [toFormula, Formula.countP_nodes_nary, List.map_map, literalCount_eq, Clause.totalSize]
  exact congrArg List.sum (List.map_congr_left fun c _ => c.countP_nodes_toFormula j.dual)

/-! ### Calls -/

section
variable {σ : Type} [NameSource σ] {o : Options}

/-- A call registers the names of the definitions that it makes, in their order and behind the others. -/
theorem Encoder.Call.variables_after {numbering : σ → Numbering} (draws : Numbering.DrawnBy numbering) (c : Call σ) :
    (numbering c.after.source).variables = (numbering c.start.source).variables ++ c.made.map Definition.name :=
  list_after (fun e => (numbering e.source).variables) Definition.name
    (fun e _ _ _ => ⟨_, rfl, draws.variables_fresh e.stem e.source⟩) c

/-- What is reported of the parts from a place on: for each part that is encoded, its place and its call. -/
theorem Fallback.trace_encode (place : Nat) (ns : List Nnf) (e : Encoder σ) :
    let places := (ns.zipIdx place).filter fun p => o.encodes p.1
    encode.trace .conj o place ns e =
      (places.zip (e.calls (places.map Prod.fst))).flatMap fun (p, c) => c.events p.2 (o.limit.getD 0) := by
  induction ns generalizing place e with
  | nil => rfl
  | cons n ns ih =>
    dsimp only at ih ⊢
    rw [trace, ← o.encodes_eq, List.zipIdx_cons, List.filter_cons]
    cases o.encodes n with
    | false => exact ih (place + 1) e
    | true =>
      rw [if_pos rfl, if_pos rfl, ih, List.map_cons, Encoder.calls, List.zip_cons_cons, List.flatMap_cons, events_encode]
      rfl

end

theorem map_fst_filter_zipIdx {α : Type} (p : α → Bool) (as : List α) :
    (as.zipIdx.filter fun a => p a.1).map Prod.fst = as.filter p := by
  have filtered : (as.zipIdx.map Prod.fst).filter p = _ := List.filter_map
  rw [List.zipIdx_map_fst] at filtered
  exact filtered.symm

theorem pairwise_snd_filter_zipIdx {α : Type} (p : α × Nat → Bool) (as : List α) :
    ((as.zipIdx.filter p).map Prod.snd).Pairwise (· < ·) := by
  have all : (as.zipIdx.map Prod.snd).Pairwise (· < ·) := by
    rw [List.zipIdx_map_snd]
    exact List.pairwise_lt_range'
  exact all.sublist (List.filter_sublist.map Prod.snd)

/-! ### Runs -/

section
variable {m : Numbering} {f r : Formula} {o : Options}

/-- A run for a conjunctive normal form that is not returned at once. It reports the negation normal form; then, for
    the parts that exceed the limit and in their order, the place of the part and the limit, and the definitions that
    the call for it makes; and last the numbers of clauses and literal nodes of the result and of definitions. The
    names of the definitions of a call are those that the numbering grows by in it, and those of all definitions the
    ones that it grows by in the run. -/
theorem trace_tells_result (ho : o.token = none) (hfast : f.takesFastPath .conj = false)
    (hr : (toCnf o f m).result = .ok r) :
    ∃ n clauses, f.nnf = .ok n ∧ r = .all clauses ∧
      let run := toCnf o f m
      let places := (n.parts .conj).zipIdx.filter fun p => o.encodes p.1
      let calls := ({ source := m, stem := o.stem } : Encoder Numbering).calls (places.map Prod.fst)
      run.events = [.begun .conj, .simplified n] ++
          ((places.zip calls).flatMap fun (p, c) => c.events p.2 (o.limit.getD 0)) ++
          [.merged clauses.length (r.nodes.countP Formula.isLiteralNode) run.defined.length] ∧
        (places.map Prod.snd).Pairwise (· < ·) ∧ calls.map Call.formula = places.map Prod.fst ∧
        (∀ p ∈ places, o.limit = some (o.limit.getD 0)) ∧
        (∀ c ∈ calls, c.result = .ok (c.made.flatMap Definition.clauses ++ c.asserted) ∧
          c.after.source.variables = c.start.source.variables ++ c.made.map Definition.name) ∧
        run.state.variables = m.variables ++ run.defined := by
  obtain ⟨n, hn⟩ : ∃ n, f.nnf = .ok n := by
    have hr : (transform .conj o .encode f (o.encoder m)).result = .ok r := hr
    rcases transform_ok hr with ⟨fast, -⟩ | ⟨n, -, hn, -⟩
    · rw [hfast] at fast
      cases fast
    · exact ⟨n, hn⟩
  obtain ⟨result, -, events⟩ := toCnf_of_not_takesFastPath (m := m) ho hfast hn
  rw [hr] at result
  cases result
  have grown : (toCnf o f m).state.variables = m.variables ++ (toCnf o f m).defined :=
    variables_toCnf_eq Numbering.drawnBy_id o f m
  have auxiliary : (o.definitions m n).length = (toCnf o f m).defined.length := by
    rw [variables_toCnf ho hn hfast, List.append_cancel_left_eq] at grown
    rw [← grown, List.length_map]
  have encoded : ((n.parts .conj).zipIdx.filter fun p => o.encodes p.1).map Prod.fst = o.asserted n := by
    rw [map_fst_filter_zipIdx, o.asserted_eq]
  refine ⟨n, _, hn, rfl, ?_, pairwise_snd_filter_zipIdx _ _, Encoder.map_formula_calls _ _, fun p hp => ?_,
    fun c hc => ⟨?_, c.variables_after Numbering.drawnBy_id⟩, grown⟩
  · rw [events, Fallback.trace_encode, auxiliary, ClauseSet.countP_nodes_toFormula, List.length_map]
    rfl
  · have hp := (List.mem_filter.mp hp).2
    rw [o.encodes_eq, Expander.overflows_iff] at hp
    obtain ⟨L, hL, -⟩ := hp
    rw [hL, Option.getD_some]
  · rw [encoded] at hc
    have succeeded := succeeded_of_asserted hn c hc
    rw [succeeded.result_eq, succeeded.clauses_eq]

/-- Three parts, of which the first and the last exceed the limit 4 and share a conjunction. The last makes one
    definition, and the others are reported with the first. -/
theorem trace_tells_result_of_shared_parts :
    let x (name : String) : Formula := .var ⟨name⟩
    let l (name : String) : Nnf := .lit (.pos ⟨name⟩)
    let both : Formula := .all [x "a", x "b"]
    let f : Formula := .all [.any [both, .all [x "c", x "d"]], x "e", .any [both, .all [x "c", x "e"]]]
    let run := toCnf { limit := some 4 } f Numbering.empty
    let ab := Nnf.nary .conj [l "a", l "b"]
    let cd := Nnf.nary .conj [l "c", l "d"]
    let ce := Nnf.nary .conj [l "c", l "e"]
    let n := Nnf.nary .conj [.nary .disj [ab, cd], l "e", .nary .disj [ab, ce]]
    f.takesFastPath .conj = false ∧
      run.events = [.begun .conj, .simplified n, .fallback 0 4, .substituted ⟨"_t0"⟩ ab 3, .substituted ⟨"_t1"⟩ cd 3,
        .fallback 2 4, .substituted ⟨"_t2"⟩ ce 3, .merged 12 26 3] ∧
      ∃ clauses, run.result = .ok (.all clauses) ∧ clauses.length = 12 ∧
        (Formula.all clauses).nodes.countP Formula.isLiteralNode = 26 := by
  intro x l both f run ab cd ce n
  have hfast : f.takesFastPath .conj = false := by decide
  have reported : run.events = [.begun .conj, .simplified n, .fallback 0 4, .substituted ⟨"_t0"⟩ ab 3,
    .substituted ⟨"_t1"⟩ cd 3, .fallback 2 4, .substituted ⟨"_t2"⟩ ce 3, .merged 12 26 3] := by decide +kernel
  obtain ⟨r, hr⟩ := exists_toCnf (o := { limit := some 4 }) (f := f) (n := n) Numbering.empty rfl rfl
  obtain ⟨_, clauses, _, rfl, events, -⟩ := trace_tells_result rfl hfast hr
  have last : some (Event.merged 12 26 3) = some (.merged clauses.length _ _) :=
    (congrArg List.getLast? (reported.symm.trans events)).trans List.getLast?_concat
  rw [Option.some.injEq, Event.merged.injEq] at last
  exact ⟨hfast, reported, clauses, hr, last.1.symm, last.2.1.symm⟩

end
end NormalForms
