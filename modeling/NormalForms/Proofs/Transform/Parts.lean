import NormalForms.Proofs.Expansion.Meaning
import NormalForms.Proofs.Formula.Reshape
import NormalForms.Proofs.Nnf.OfFormula
import NormalForms.Transform

/-!
The loop over the parts of a formula. In a run without a token the parts within the limit are expanded, the others
fall back, and the loop ends with the first fall back that fails. What the fall backs do together is
`takeAll`, and what they report is `trace`; a transformation is described through them and through the clauses of
the expanded parts. -/

namespace NormalForms

/-! ### Parts of a normal form -/

namespace Nnf

variable {form : Junction} {n m : Nnf} {v : Assignment}

theorem parts_of_args? {args : List Nnf} (h : n.args? form = some args) : n = nary form args ∧ n.parts form = args := by
  cases n with
  | nary i ms =>
    rw [args?] at h
    split at h
    · rename_i hi
      cases h
      rw [hi, parts, args?, if_pos rfl]
      exact ⟨rfl, rfl⟩
    · cases h
  | _ => cases h

theorem value_parts (form : Junction) (p : Literal → Bool) (n : Nnf) :
    (form.across (n.parts form) fun m => m.value p) = n.value p := by
  cases hn : n.args? form with
  | none => rw [parts, hn, Option.getD_none, Junction.across_singleton]
  | some args =>
    obtain ⟨rfl, hparts⟩ := parts_of_args? hn
    rw [hparts, value_nary]

theorem eval_parts (form : Junction) (v : Assignment) (n : Nnf) :
    (form.across (n.parts form) fun m => m.eval v) = n.eval v := by
  rw [eval_eq_value, ← value_parts form]
  exact Junction.across_congr fun m _ => m.eval_eq_value v

theorem mem_occurrences_of_mem_parts {x : Var} (hm : m ∈ n.parts form) (hx : x ∈ m.occurrences) : x ∈ n.occurrences := by
  cases hn : n.args? form with
  | none =>
    rw [parts, hn, Option.getD_none, List.mem_singleton] at hm
    rwa [← hm]
  | some args =>
    obtain ⟨rfl, hparts⟩ := parts_of_args? hn
    rw [hparts] at hm
    exact mem_occurrences_nary.mpr ⟨m, hm, hx⟩

/-- A part of a normal form without constants below its root has none below its root. -/
theorem innerConstants_of_mem_parts (h : n.innerConstants = []) (hm : m ∈ n.parts form) : m.innerConstants = [] := by
  cases hn : n.args? form with
  | none =>
    rw [parts, hn, Option.getD_none, List.mem_singleton] at hm
    rwa [hm]
  | some args =>
    obtain ⟨rfl, hparts⟩ := parts_of_args? hn
    rw [hparts] at hm
    have := constants_of_mem h hm
    cases m with
    | const b => rfl
    | lit l => rfl
    | nary i ms => exact this

end Nnf

/-! ### The loop -/

section
variable {τ : Type}

/-- What the fallback does with parts one after the other, up to the first failure. -/
def Fallback.takeAll (fallback : Fallback τ) : List Nnf → τ → Except Failure (List Clause) × τ
  | [], s => (.ok [], s)
  | n :: ns, s =>
    match fallback.take n s with
    | (.error failure, s) => (.error failure, s)
    | (.ok clauses, s) =>
      match fallback.takeAll ns s with
      | (.ok more, s) => (.ok (clauses ++ more), s)
      | (.error failure, s) => (.error failure, s)

/-- What is reported when a part falls back: its place and the limit, and what the fallback reports of it. -/
def Fallback.events (fallback : Fallback τ) (o : Options) (place : Nat) (n : Nnf) (s : τ) : List Event :=
  .fallback place (o.limit.getD 0) :: fallback.reported s (fallback.take n s).2

/-- What is reported of the parts from a place on, if every fall back succeeds. -/
def Fallback.trace (fallback : Fallback τ) (form : Junction) (o : Options) : Nat → List Nnf → τ → List Event
  | _, [], _ => []
  | place, n :: ns, s =>
    if Expander.overflows form o.limit n then
      fallback.events o place n s ++ fallback.trace form o (place + 1) ns (fallback.take n s).2
    else fallback.trace form o (place + 1) ns s

/-- The parts whose expansion exceeds the limit. -/
def overflowing (form : Junction) (limit : Option Nat) (ns : List Nnf) : List Nnf :=
  ns.filter (Expander.overflows form limit)

/-- The clauses of the parts that stay within the limit, after those of `S`. -/
def ClauseSet.extendWithin (form : Junction) (limit : Option Nat) (S : ClauseSet) (ns : List Nnf) : ClauseSet :=
  (ns.filter fun n => !Expander.overflows form limit n).foldl (fun S n => S.extend (n.expansion form).clauses) S

variable {form : Junction} {o : Options} {fallback : Fallback τ} {n : Nnf} {ns : List Nnf} {p : Progress τ}
  {s : τ} {clauses : List Clause} {failure : Failure}

theorem ClauseSet.extendWithin_cons_of_within (S : ClauseSet) {limit : Option Nat}
    (h : Expander.overflows form limit n = false) :
    S.extendWithin form limit (n :: ns) = (S.extend (n.expansion form).clauses).extendWithin form limit ns := by
  rw [extendWithin, List.filter_cons_of_pos (by simp [h])]
  rfl

theorem ClauseSet.extendWithin_cons_of_overflows (S : ClauseSet) {limit : Option Nat}
    (h : Expander.overflows form limit n = true) :
    S.extendWithin form limit (n :: ns) = S.extendWithin form limit ns := by
  rw [extendWithin, List.filter_cons_of_neg (by simp [h])]
  rfl

theorem Options.stopped_of_token (h : o.token = none) (b : Bool) : o.stopped b = false := by
  rw [stopped, h]
  rfl

namespace Progress

/-- What every fall back keeps of the state and of what is reported so far, a part keeps, also where it fails. -/
theorem part_keeps_reported {P : τ → List Event → Prop}
    (keeps : ∀ place n s events, P s events → P (fallback.take n s).2 (events ++ fallback.events o place n s))
    (place : Nat) (n : Nnf) (h : P p.state p.events) :
    P (p.part form o fallback place n).2.state (p.part form o fallback place n).2.events := by
  have taken := keeps place n p.state p.events h
  rw [Fallback.events] at taken
  rw [part]
  split
  · exact h
  · exact h
  · rcases htake : fallback.take n p.state with ⟨failure | clauses, state⟩ <;> rwa [htake] at taken

theorem parts_keep_reported {P : τ → List Event → Prop}
    (keeps : ∀ place n s events, P s events → P (fallback.take n s).2 (events ++ fallback.events o place n s))
    (place : Nat) (ns : List Nnf) (h : P p.state p.events) :
    P (p.parts form o fallback place ns).2.state (p.parts form o fallback place ns).2.events := by
  induction ns generalizing p place with
  | nil => exact h
  | cons n ns ih =>
    have first : P (p.part form o fallback place n).2.state (p.part form o fallback place n).2.events :=
      part_keeps_reported keeps place n h
    rw [parts]
    rcases hn : p.part form o fallback place n with ⟨failure | ⟨⟩, q⟩
    · rwa [hn] at first
    · rw [hn] at first
      exact ih (place + 1) first

theorem parts_keeps {P : τ → Prop} (keeps : ∀ n s, P s → P (fallback.take n s).2) (place : Nat) (ns : List Nnf)
    (h : P p.state) : P (p.parts form o fallback place ns).2.state :=
  parts_keep_reported (P := fun s _ => P s) (fun _ n s _ => keeps n s) place ns h

/-- A loop over two lists of parts is a loop over the second from where the loop over the first ends. -/
theorem parts_append (place : Nat) (ms ns : List Nnf) (p : Progress τ) : p.parts form o fallback place (ms ++ ns) =
    match p.parts form o fallback place ms with
    | (.ok (), q) => q.parts form o fallback (place + ms.length) ns
    | (.error failure, q) => (.error failure, q) := by
  induction ms generalizing p place with
  | nil => rfl
  | cons m ms ih =>
    rw [List.cons_append, parts, parts, List.length_cons, Nat.add_comm ms.length, ← Nat.add_assoc]
    rcases p.part form o fallback place m with ⟨failure | -, q⟩
    · rfl
    · exact ih (place + 1) q

theorem part_of_within (place : Nat) (hp : o.stopped (fallback.cancelled p.state) = false)
    (h : Expander.overflows form o.limit n = false) :
    p.part form o fallback place n = (.ok (), { p with expanded := p.expanded.extend (n.expansion form).clauses }) := by
  rw [part, Expander.clauses_fst hp]
  simp only [h]
  rfl

theorem part_of_overflows (place : Nat) (hp : o.stopped (fallback.cancelled p.state) = false)
    (h : Expander.overflows form o.limit n = true) :
    p.part form o fallback place n =
      match fallback.take n p.state with
      | (.ok clauses, state) =>
        (.ok (), { p with encoded := p.encoded ++ clauses, state, events := p.events ++ fallback.events o place n p.state })
      | (.error failure, state) =>
        (.error failure, { p with state, events := p.events ++ fallback.events o place n p.state }) := by
  rw [part, Expander.clauses_fst hp, Fallback.events]
  rcases htake : fallback.take n p.state with ⟨_ | clauses, state⟩ <;> simp only [h, if_true]

/-- A part that does not fail is expanded or has fallen back, also in a run with a token. -/
theorem part_ok {place : Nat} {q : Progress τ} (h : p.part form o fallback place n = (.ok (), q)) :
    q = { p with expanded := p.expanded.extend (n.expansion form).clauses } ∨
      ∃ clauses, (fallback.take n p.state).1 = .ok clauses ∧ q =
        { p with
          encoded := p.encoded ++ clauses
          state := (fallback.take n p.state).2
          events := p.events ++ fallback.events o place n p.state } := by
  have expansion := @Expander.eq_expansion_of_clauses
    { form, limit := o.limit, cancelled := o.stopped (fallback.cancelled p.state) } n
  rw [part] at h
  rcases hS : (Expander.clauses { form, limit := o.limit, cancelled := o.stopped (fallback.cancelled p.state) } n).1
    with interrupt | S
  · simp only [hS] at h
    cases interrupt with
    | cancelled => cases h
    | limitExceeded =>
      rw [Fallback.events]
      rcases htake : fallback.take n p.state with ⟨failure | clauses, state⟩
      · simp only [htake] at h
        cases h
      · simp only [htake] at h
        cases h
        exact .inr ⟨clauses, rfl, rfl⟩
  · simp only [hS] at h
    cases h
    rw [expansion hS]
    exact .inl rfl

/-- The loop fails where the fall backs fail together, and ends in their state. If they succeed, it has gathered
    the clauses of all parts. -/
theorem parts_eq (form : Junction) (fallback : Fallback τ) (ns : List Nnf) (p : Progress τ) (place : Nat)
    (ho : o.token = none) :
    let r := fallback.takeAll (overflowing form o.limit ns) p.state
    ∃ q, p.parts form o fallback place ns = (r.1.map fun _ => (), q) ∧ q.state = r.2 ∧
      ∀ clauses, r.1 = .ok clauses →
        q.expanded = p.expanded.extendWithin form o.limit ns ∧ q.encoded = p.encoded ++ clauses ∧
          q.events = p.events ++ fallback.trace form o place ns p.state := by
  induction ns generalizing p place with
  | nil =>
    refine ⟨p, rfl, rfl, fun clauses h => ?_⟩
    cases h
    exact ⟨rfl, (List.append_nil _).symm, (List.append_nil _).symm⟩
  | cons n ns ih =>
    have going := o.stopped_of_token ho (fallback.cancelled p.state)
    rw [parts]
    cases hn : Expander.overflows form o.limit n with
    | false =>
      have first : overflowing form o.limit (n :: ns) = overflowing form o.limit ns :=
        List.filter_cons_of_neg (by simp [hn])
      rw [part_of_within place going hn, first, p.expanded.extendWithin_cons_of_within hn, Fallback.trace, hn]
      exact ih { p with expanded := p.expanded.extend (n.expansion form).clauses } (place + 1)
    | true =>
      have first : overflowing form o.limit (n :: ns) = n :: overflowing form o.limit ns := List.filter_cons_of_pos hn
      rw [part_of_overflows place going hn, first, p.expanded.extendWithin_cons_of_overflows hn, Fallback.takeAll,
        Fallback.trace, if_pos hn]
      generalize fallback.events o place n p.state = events
      rcases fallback.take n p.state with ⟨failure | clauses, state⟩
      · exact ⟨_, rfl, rfl, fun clauses h => nomatch h⟩
      · obtain ⟨q, hparts, hstate, hq⟩ :=
          ih { p with encoded := p.encoded ++ clauses, state, events := p.events ++ events } (place + 1)
        dsimp only at hparts hstate hq ⊢
        rw [hparts]
        rcases hrest : fallback.takeAll (overflowing form o.limit ns) state with ⟨failure | more, last⟩
        · rw [hrest] at hstate
          exact ⟨q, rfl, hstate, fun clauses h => nomatch h⟩
        · rw [hrest] at hstate hq
          refine ⟨q, rfl, hstate, fun clauses' h => ?_⟩
          cases h
          obtain ⟨hexpanded, hencoded, hevents⟩ := hq more rfl
          exact ⟨hexpanded, by rw [hencoded, List.append_assoc], by rw [hevents, List.append_assoc]⟩

end Progress

end

/-! ### Clauses of the expanded parts -/

namespace ClauseSet

variable {form : Junction} {limit : Option Nat} {ns : List Nnf} {c : Clause} {S : ClauseSet}

theorem mem_extendWithin : c ∈ S.extendWithin form limit ns ↔
    c ∈ S ∨ ∃ n ∈ ns, Expander.overflows form limit n = false ∧ c ∈ n.expansion form := by
  have : c ∈ ((ns.filter fun n => !Expander.overflows form limit n).map (Nnf.expansion form)).foldl
      (fun S T => S.extend T.clauses) S ↔ _ := mem_foldl_extend
  rw [List.foldl_map] at this
  rw [extendWithin, this]
  simp only [List.mem_map, exists_exists_and_eq_and]
  simp only [List.mem_filter, Bool.not_eq_true', and_assoc]

/-- From nothing, the clauses of the parts within the limit, part by part. -/
theorem empty_extendWithin (form : Junction) (limit : Option Nat) (ns : List Nnf) :
    empty.extendWithin form limit ns = ofList
      ((ns.filter fun n => !Expander.overflows form limit n).flatMap fun n => (n.expansion form).clauses) := by
  rw [ofList, extend, List.foldl_flatMap]
  rfl

theorem eval_extendWithin_eq_unit_iff {v : Assignment} : (empty.extendWithin form limit ns).eval form v = form.unit ↔
    ∀ n ∈ ns, Expander.overflows form limit n = false → n.eval v = form.unit := by
  rw [eval_eq_unit_iff]
  constructor
  · intro h n hn hwithin
    rw [← Nnf.eval_expansion form, eval_eq_unit_iff]
    exact fun c hc => h c (mem_extendWithin.mpr (.inr ⟨n, hn, hwithin, hc⟩))
  · intro h c hc
    rcases mem_extendWithin.mp hc with hc | ⟨n, hn, hwithin, hc⟩
    · exact absurd hc not_mem_empty
    · have := h n hn hwithin
      rw [← Nnf.eval_expansion form, eval_eq_unit_iff] at this
      exact this c hc

theorem exists_part_of_mem_extendWithin {l : Literal} (hc : c ∈ empty.extendWithin form limit ns) (hl : l ∈ c) :
    ∃ n ∈ ns, l.var ∈ n.occurrences := by
  rcases mem_extendWithin.mp hc with hc | ⟨n, hn, -, hc⟩
  · exact absurd hc not_mem_empty
  · exact ⟨n, hn, Nnf.mem_occurrences_of_mem_expansion hc hl⟩

/-- Where no part exceeds the limit, the clauses are those without a limit. -/
theorem extendWithin_of_not_overflowing (h : overflowing form limit ns = []) :
    S.extendWithin form limit ns = S.extendWithin form none ns := by
  have within : ∀ n ∈ ns, Expander.overflows form limit n = false := by
    simpa [overflowing, List.filter_eq_nil_iff] using h
  have unlimited : ∀ n ∈ ns, Expander.overflows form none n = false := fun _ _ => rfl
  rw [extendWithin, extendWithin, List.filter_eq_self.mpr fun n hn => by simp [within n hn],
    List.filter_eq_self.mpr fun n hn => by simp [unlimited n hn]]

end ClauseSet

/-! ### Transformations -/

/-- Whether a transformation returns the formula as it is, or with missing connectives around it. -/
def Formula.takesFastPath (form : Junction) (f : Formula) : Bool :=
  (f.classifyClausal form).normalForm && f.hasProperClauses form

/-- The formula with the missing connectives of the normal form around it, if any are missing. -/
def Formula.fastForm (form : Junction) (f : Formula) : Formula :=
  if (f.classifyClausal form).clausal then f else f.reshape form

theorem Formula.eval_fastForm (form : Junction) (v : Assignment) (f : Formula) : (f.fastForm form).eval v = f.eval v := by
  unfold fastForm
  split
  · rfl
  · exact eval_reshape form v f

theorem Formula.mem_variables_fastForm {form : Junction} {f : Formula} {x : Var} :
    x ∈ (f.fastForm form).variables ↔ x ∈ f.variables := by
  unfold fastForm
  split
  · rfl
  · exact mem_variables_reshape

section
variable {τ : Type} {form : Junction} {o : Options} {fallback : Fallback τ} {f : Formula} {n : Nnf} {s : τ}

/-- On the fast path neither the options nor the state make a difference. -/
theorem transform_eq_of_takesFastPath (h : f.takesFastPath form = true) : transform form o fallback f s =
    { result := .ok (f.fastForm form), state := s
      events := [.begun form, .fastPath !(f.classifyClausal form).clausal] } := by
  unfold Formula.takesFastPath at h
  unfold transform
  simp only [h, if_true]
  rfl

theorem transform_of_takesFastPath (h : f.takesFastPath form = true) :
    (transform form o fallback f s).result = .ok (f.fastForm form) ∧ (transform form o fallback f s).state = s := by
  rw [transform_eq_of_takesFastPath h]
  exact ⟨rfl, rfl⟩

/-- A result comes from the fast path, or from a loop over the parts that does not fail, also in a run with a
    token. -/
theorem transform_ok {r : Formula} (h : (transform form o fallback f s).result = .ok r) :
    f.takesFastPath form = true ∧ r = f.fastForm form ∨
      ∃ n q, f.nnf = .ok n ∧
        Progress.parts form o fallback 0 (n.parts form) ⟨.empty, [], s, [.begun form, .simplified n]⟩ = (.ok (), q) ∧
        r = (q.expanded.extend q.encoded).toFormula form := by
  cases hfast : f.takesFastPath form with
  | true =>
    rw [(transform_of_takesFastPath hfast).1] at h
    cases h
    exact .inl ⟨rfl, rfl⟩
  | false =>
    unfold Formula.takesFastPath at hfast
    unfold transform at h
    simp only [hfast, Bool.false_eq_true, if_false, List.cons_append, List.nil_append] at h
    split at h
    · cases h
    · split at h
      · cases h
      · rename_i n hn
        split at h
        · cases h
        · rename_i q hparts
          cases h
          exact .inr ⟨n, q, hn, hparts, rfl⟩

/-- Past the fast path, a transformation that is not called off ends where the loop over the parts does, also in a
    run with a token. -/
theorem transform_of_parts {r : Except Failure Unit} {q : Progress τ} (hfast : f.takesFastPath form = false)
    (hstopped : o.stopped (fallback.cancelled s) = false) (hn : f.nnf = .ok n)
    (h : Progress.parts form o fallback 0 (n.parts form) ⟨.empty, [], s, [.begun form, .simplified n]⟩ = (r, q)) :
    (transform form o fallback f s).result = r.map (fun _ => (q.expanded.extend q.encoded).toFormula form) ∧
      (transform form o fallback f s).state = q.state := by
  unfold Formula.takesFastPath at hfast
  unfold transform
  simp only [hfast, hstopped, hn, List.cons_append, List.nil_append, h]
  rcases r with failure | -
  · exact ⟨rfl, rfl⟩
  · exact ⟨rfl, rfl⟩

/-- Past the fast path, a transformation has the clauses of the expanded parts and then those of the fall
    backs, if they succeed, and ends in their state. It reports the normal form, the fall backs, and the clauses
    in the end. -/
theorem transform_of_not_takesFastPath (fallback : Fallback τ) (s : τ) (ho : o.token = none)
    (hfast : f.takesFastPath form = false) (hn : f.nnf = .ok n) :
    let r := fallback.takeAll (overflowing form o.limit (n.parts form)) s
    let merged (clauses : List Clause) := (ClauseSet.empty.extendWithin form o.limit (n.parts form)).extend clauses
    (transform form o fallback f s).result = r.1.map (fun clauses => (merged clauses).toFormula form) ∧
      (transform form o fallback f s).state = r.2 ∧
      ∀ clauses, r.1 = .ok clauses → (transform form o fallback f s).events =
        [.begun form, .simplified n] ++ fallback.trace form o 0 (n.parts form) s ++
          [.merged (merged clauses).size (merged clauses).literalCount (fallback.definitions r.2).length] := by
  unfold Formula.takesFastPath at hfast
  obtain ⟨q, hparts, hstate, hq⟩ := Progress.parts_eq form fallback (n.parts form)
    ⟨.empty, [], s, [Event.begun form] ++ [.simplified n]⟩ 0 ho
  unfold transform
  simp only [hfast, o.stopped_of_token ho, hn, hparts]
  rcases htake : fallback.takeAll (overflowing form o.limit (n.parts form)) s with ⟨failure | clauses, last⟩
  · rw [htake] at hstate
    exact ⟨rfl, hstate, fun clauses h => nomatch h⟩
  · rw [htake] at hstate hq
    obtain ⟨hexpanded, hencoded, hevents⟩ := hq clauses rfl
    rw [List.nil_append] at hencoded
    rw [← hexpanded, ← hencoded]
    refine ⟨rfl, hstate, fun clauses' h => ?_⟩
    cases h
    rw [← hstate]
    exact congrArg (· ++ _) hevents

end
end NormalForms
