import NormalForms.Proofs.Encoding.Sharing
import NormalForms.Proofs.Transform.Cnf

/-!
What conjunctive normal forms register. A run draws a name for each definition, also where an assertion fails midway,
and reports the definition. So however a run ends, and also if it is called off, the numbering that it draws from has
the variables from before and behind them those that the run reports. -/

namespace NormalForms

/-- The variable that an event reports as defined. -/
def Event.defined? : Event → Option Var
  | substituted x .. => some x
  | begun _ | fastPath _ | simplified _ | fallback .. | merged .. => none

/-- The variables that are reported as defined, in the order of the reports. -/
def Report.defined {τ : Type} (r : Report τ) : List Var := r.events.filterMap Event.defined?

section
variable {σ : Type} {numbering : σ → Numbering} {known : List Var} {e : Encoder σ} {events : List Event}

/-- Whether the numbering that the encoder draws from has the names of the definitions behind the `known` variables,
    and the definitions are reported. -/
structure Encoder.Reported (numbering : σ → Numbering) (known : List Var) (e : Encoder σ) (events : List Event) :
    Prop where
  registered : (numbering e.source).variables = known ++ e.definitions.map Definition.name
  reported : events.filterMap Event.defined? = e.definitions.map Definition.name

/-- What reports no definition leaves the encoder and the reports in step. -/
theorem Encoder.Reported.concat {event : Event} (h : e.Reported numbering known events)
    (quiet : event.defined? = none) : e.Reported numbering known (events ++ [event]) where
  registered := h.registered
  reported := by rw [List.filterMap_append, List.filterMap_cons_none quiet, List.filterMap_nil, List.append_nil, h.reported]

end

section
variable {σ : Type} [NameSource σ] {numbering : σ → Numbering} {o : Options} {known : List Var} {e : Encoder σ}
  {events : List Event}

theorem Fallback.defined_events (o : Options) (place : Nat) (n : Nnf) (e : Encoder σ) :
    (Fallback.encode.events o place n e).filterMap Event.defined? =
      (⟨e, n⟩ : Encoder.Call σ).made.map Definition.name := by
  rw [Fallback.events_encode, Encoder.Call.events, List.filterMap_cons_none rfl, List.filterMap_map]
  exact congrFun List.filterMap_eq_map _

namespace Encoder

/-- Asserting a part keeps the encoder and the reports in step, whether it succeeds or not. -/
theorem reported_take (draws : Numbering.DrawnBy numbering) (place : Nat) (n : Nnf)
    (h : e.Reported numbering known events) :
    Reported numbering known (Fallback.encode.take n e).2 (events ++ Fallback.encode.events o place n e) where
  registered := Call.after_keeps (c := ⟨e, n⟩)
    (P := fun e => (numbering e.source).variables = known ++ e.definitions.map Definition.name)
    (.of_define fun _ => variables_define draws) h.registered
  reported := by
    have after : (Fallback.encode.take n e).2.definitions = e.definitions ++ (⟨e, n⟩ : Call σ).made :=
      (⟨e, n⟩ : Call σ).definitions_after
    rw [List.filterMap_append, h.reported, Fallback.defined_events, after, List.map_append]

theorem reported_transform (draws : Numbering.DrawnBy numbering) (f : Formula) (h : e.Reported numbering known []) :
    (transform .conj o .encode f e).state.Reported numbering known (transform .conj o .encode f e).events := by
  have begun : e.Reported numbering known [.begun .conj] := h.concat rfl
  unfold transform
  dsimp only
  split
  · exact begun.concat rfl
  · split
    · exact begun
    · split
      · exact begun
      · rename_i n _
        have simplified : e.Reported numbering known ([.begun .conj] ++ [.simplified n]) := begun.concat rfl
        let p : Progress (Encoder σ) := ⟨.empty, [], e, [.begun .conj] ++ [.simplified n]⟩
        have run : Reported numbering known (p.parts .conj o .encode 0 (n.parts .conj)).2.state
            (p.parts .conj o .encode 0 (n.parts .conj)).2.events :=
          p.parts_keep_reported (fun place n _ _ => reported_take draws place n) 0 (n.parts .conj) simplified
        split
        · rename_i hparts
          rwa [hparts] at run
        · rename_i hparts
          rw [hparts] at run
          exact run.concat rfl

end Encoder

/-- However a run for a conjunctive normal form ends, the numbering that it draws from has the variables that the run
    reports as defined behind those from before. -/
theorem variables_toCnf_eq (draws : Numbering.DrawnBy numbering) (o : Options) (f : Formula) (source : σ) :
    (numbering (toCnf o f source).state).variables = (numbering source).variables ++ (toCnf o f source).defined := by
  have start : Encoder.Reported numbering (numbering source).variables { source, stem := o.stem } [] :=
    ⟨(List.append_nil _).symm, rfl⟩
  obtain ⟨registered, reported⟩ := Encoder.reported_transform (o := o) draws f start
  exact registered.trans (congrArg ((numbering source).variables ++ ·) reported.symm)

end
end NormalForms
