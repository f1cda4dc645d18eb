import NormalForms.Proofs.Encoding.Metered
import NormalForms.Proofs.Transform.Fallback

/-!
Runs that are called off while they draw names. The token is looked at between the parts and not while a part is
encoded, so the part whose encoding makes the last request is finished, and the next part is what stops the run. Main
statement: a run whose last request does not come before the last part is the run without a token, and any other one
is called off, with the names of the parts up to the one that made the request. -/

namespace NormalForms

/-- The options with a token that nothing has cancelled yet. -/
abbrev Options.withToken (o : Options) : Options := { o with token := some {} }

/-! ### The loop with a quota -/

namespace Progress

variable {o : Options} {k : Nat} {p : Progress (Encoder Numbering)}

/-- The progress with a quota whose request number `k` calls off the run. -/
def metered (k : Nat) (p : Progress (Encoder Numbering)) : Progress (Encoder Quota) :=
  { p with state := p.state.metered k }

/-- The number of names drawn so far, one for each definition. -/
def drawn (p : Progress (Encoder Numbering)) : Nat := p.state.definitions.length

theorem stopped_metered (hk : 0 < k) (o : Options) (e : Encoder Numbering) :
    o.withToken.stopped (Fallback.encode.cancelled (e.metered k)) = true ↔ k ≤ e.definitions.length :=
  Encoder.cancelled_metered hk

theorem not_stopped_metered {e : Encoder Numbering} (o : Options) (he : e.definitions.length < k) :
    o.withToken.stopped (Fallback.encode.cancelled (e.metered k)) = false := by
  rw [Bool.eq_false_iff, Ne, stopped_metered (Nat.zero_lt_of_lt he)]
  exact Nat.not_le.mpr he

theorem take_metered (k : Nat) (n : Nnf) (p : Progress (Encoder Numbering)) :
    Fallback.encode.take n (p.metered k).state =
      ((Fallback.encode.take n p.state).1, (Fallback.encode.take n p.state).2.metered k) :=
  Encoder.assert_metered k p.state n

theorem events_metered (o : Options) (k place : Nat) (n : Nnf) (p : Progress (Encoder Numbering)) :
    Fallback.encode.events o.withToken place n (p.metered k).state = Fallback.encode.events o place n p.state := by
  rw [Fallback.events, take_metered]
  rfl

/-- Before the last request is made, a part with a quota goes as without a token. -/
theorem part_metered (ho : o.token = none) (hp : p.drawn < k) (place : Nat) (n : Nnf) :
    (p.metered k).part .conj o.withToken .encode place n =
      ((p.part .conj o .encode place n).1, (p.part .conj o .encode place n).2.metered k) := by
  have going : o.withToken.stopped (Fallback.encode.cancelled (p.metered k).state) = false :=
    not_stopped_metered o hp
  cases hn : Expander.overflows .conj o.limit n with
  | false => rw [part_of_within place going hn, part_of_within place (o.stopped_of_token ho _) hn]; rfl
  | true =>
    rw [part_of_overflows place going hn, part_of_overflows place (o.stopped_of_token ho _) hn, take_metered, events_metered]
    rcases Fallback.encode.take n p.state with ⟨failure | clauses, state⟩ <;> rfl

/-- Once the last request is made, the next part is not begun. -/
theorem part_metered_of_drawn (hk : 0 < k) (hp : k ≤ p.drawn) (place : Nat) (n : Nnf) :
    (p.metered k).part .conj o.withToken .encode place n = (.error .cancelled, p.metered k) := by
  have called := (stopped_metered hk o p.state).mpr hp
  rw [part, Expander.clauses_of_cancelled called]

/-! ### The first parts -/

/-- Where a loop without a token stands after its first parts. -/
def afterFirst (o : Options) (place : Nat) (ns : List Nnf) (i : Nat) (p : Progress (Encoder Numbering)) :
    Progress (Encoder Numbering) :=
  (p.parts .conj o .encode place (ns.take i)).2

/-- What every definition keeps of the encoder, the first parts keep. -/
theorem afterFirst_keeps {P : Encoder Numbering → Prop} (keeps : ∀ e j n ls, P e → P (Encoder.define e j n ls).2)
    (place : Nat) (ns : List Nnf) (i : Nat) (h : P p.state) : P (p.afterFirst o place ns i).state :=
  parts_keeps (fun n e he => Encoder.Call.after_keeps (c := ⟨e, n⟩) (.of_define keeps) he) place (ns.take i) h

/-- A number of names that is reached after some parts is reached after more of them. -/
theorem reached_mono {place i i' : Nat} {ns : List Nnf} (hi : i ≤ i') (h : k ≤ (p.afterFirst o place ns i).drawn) :
    k ≤ (p.afterFirst o place ns i').drawn := by
  have keeps : ∀ (e : Encoder Numbering) j n ls, k ≤ e.definitions.length → k ≤ (e.define j n ls).2.definitions.length :=
    fun e j n ls he => Nat.le_trans he (List.prefix_append e.definitions _).length_le
  obtain ⟨d, rfl⟩ := Nat.exists_eq_add_of_le hi
  rw [afterFirst] at h ⊢
  rw [List.take_add, parts_append]
  rcases hfirst : p.parts .conj o .encode place (ns.take i) with ⟨failure | ⟨⟩, q⟩
  · rwa [hfirst] at h
  · rw [hfirst] at h
    exact afterFirst_keeps keeps _ (ns.drop i) d h

/-- The first parts are a part that does not fail and the first ones of the rest. -/
theorem afterFirst_cons {place : Nat} {n : Nnf} {q : Progress (Encoder Numbering)}
    (hn : p.part .conj o .encode place n = (.ok (), q)) (ns : List Nnf) (i : Nat) :
    p.afterFirst o place (n :: ns) (i + 1) = q.afterFirst o (place + 1) ns i := by
  rw [afterFirst, List.take_succ_cons, parts, hn]
  rfl

/-- A loop with a quota, where the loop without a token succeeds. If the last request is made before the last part,
    it is the next part that fails. Otherwise the loop goes as without a token. -/
theorem parts_metered (ho : o.token = none) (hp : p.drawn < k) (place : Nat) (ns : List Nnf)
    (hok : (p.parts .conj o .encode place ns).1 = .ok ()) :
    ((∀ i < ns.length, (p.afterFirst o place ns i).drawn < k) ∧
        (p.metered k).parts .conj o.withToken .encode place ns =
          (.ok (), (p.afterFirst o place ns ns.length).metered k)) ∨
      ∃ i, i + 1 < ns.length ∧ (p.afterFirst o place ns i).drawn < k ∧ k ≤ (p.afterFirst o place ns (i + 1)).drawn ∧
        (p.metered k).parts .conj o.withToken .encode place ns =
          (.error .cancelled, (p.afterFirst o place ns (i + 1)).metered k) := by
  induction ns generalizing p place with
  | nil => exact .inl ⟨fun i hi => absurd hi (Nat.not_lt_zero i), rfl⟩
  | cons n ns ih =>
    rw [parts] at hok
    rcases hn : p.part .conj o .encode place n with ⟨failure | ⟨⟩, q⟩
    · rw [hn] at hok
      cases hok
    · rw [hn] at hok
      have first : (p.metered k).part .conj o.withToken .encode place n = (.ok (), q.metered k) := by
        rw [part_metered ho hp, hn]
      rw [parts, first, List.length_cons]
      simp only [afterFirst_cons hn]
      by_cases hq : q.drawn < k
      · rcases ih hq (place + 1) hok with ⟨below, run⟩ | ⟨i, hi, below, reached, run⟩
        · refine .inl ⟨fun i hi => ?_, run⟩
          cases i with
          | zero => exact hp
          | succ i =>
            rw [afterFirst_cons hn]
            exact below i (Nat.lt_of_succ_lt_succ hi)
        · refine .inr ⟨i + 1, Nat.succ_lt_succ hi, ?_, reached, run⟩
          rwa [afterFirst_cons hn]
      · cases ns with
        | nil =>
          refine .inl ⟨fun i hi => ?_, rfl⟩
          obtain rfl : i = 0 := Nat.lt_one_iff.mp hi
          exact hp
        | cons m ms =>
          refine .inr ⟨0, Nat.succ_lt_succ (Nat.zero_lt_succ _), hp, Nat.not_lt.mp hq, ?_⟩
          rw [parts, part_metered_of_drawn (Nat.zero_lt_of_lt hp) (Nat.not_lt.mp hq)]
          rfl

end Progress

/-! ### Conjunctive normal forms -/

section
variable {o : Options} {f : Formula} {m : Numbering} {n : Nnf} {k i : Nat}

/-- Where a conjunctive normal form without a token stands after the first parts. -/
def Options.progress (o : Options) (m : Numbering) (n : Nnf) (i : Nat) : Progress (Encoder Numbering) :=
  Progress.afterFirst o 0 (n.parts .conj) i ⟨.empty, [], o.encoder m, [.begun .conj, .simplified n]⟩

/-- The names that are registered after the first parts. -/
def Options.names (o : Options) (m : Numbering) (n : Nnf) (i : Nat) : Numbering := (o.progress m n i).state.source

/-- Whether request number `k` for a name is made while the part at place `i` is encoded. -/
def Options.DrawsAt (o : Options) (m : Numbering) (n : Nnf) (k i : Nat) : Prop :=
  (o.names m n i).count < m.count + k ∧ m.count + k ≤ (o.names m n (i + 1)).count

instance (o : Options) (m : Numbering) (n : Nnf) (k i : Nat) : Decidable (o.DrawsAt m n k i) :=
  inferInstanceAs (Decidable (_ ∧ _))

theorem count_names (o : Options) (m : Numbering) (n : Nnf) (i : Nat) :
    (o.names m n i).count = m.count + (o.progress m n i).drawn := by
  have registered : (o.names m n i).variables =
      m.variables ++ (o.progress m n i).state.definitions.map Definition.name :=
    Progress.afterFirst_keeps (P := fun e => e.source.variables = m.variables ++ e.definitions.map Definition.name)
      (fun _ => Encoder.variables_define Numbering.drawnBy_id) 0 (n.parts .conj) i (List.append_nil _).symm
  rw [Numbering.count, registered, List.length_append, List.length_map]
  rfl

theorem drawsAt_iff : o.DrawsAt m n k i ↔ (o.progress m n i).drawn < k ∧ k ≤ (o.progress m n (i + 1)).drawn := by
  rw [Options.DrawsAt, count_names, count_names, Nat.add_lt_add_iff_left, Nat.add_le_add_iff_left]

/-- Without a token, the loop over all parts succeeds. -/
theorem parts_of_nnf (ho : o.token = none) (hn : f.nnf = .ok n) :
    Progress.parts .conj o .encode 0 (n.parts .conj) ⟨.empty, [], o.encoder m, [.begun .conj, .simplified n]⟩ =
      (.ok (), o.progress m n (n.parts .conj).length) := by
  obtain ⟨q, hparts, -⟩ := Progress.parts_eq .conj .encode (n.parts .conj)
    ⟨.empty, [], o.encoder m, [.begun .conj, .simplified n]⟩ 0 ho
  rw [Fallback.takeAll_encode (succeeded_of_asserted hn)] at hparts
  rw [Options.progress, Progress.afterFirst, List.take_length, hparts]
  rfl

/-- A conjunctive normal form with a quota ends where the loop with the quota does. -/
theorem toCnf_metered {r : Except Failure Unit} {q : Progress (Encoder Numbering)} (hn : f.nnf = .ok n)
    (hfast : f.takesFastPath .conj = false) (hk : 0 < k)
    (h : (Progress.metered k ⟨.empty, [], o.encoder m, [.begun .conj, .simplified n]⟩).parts .conj
      o.withToken .encode 0 (n.parts .conj) = (r, q.metered k)) :
    let called := toCnf o.withToken f ({ names := m, last := some k } : Quota)
    called.result = r.map (fun _ => (q.expanded.extend q.encoded).toFormula .conj) ∧
      called.state.names = q.state.source := by
  have going := Progress.not_stopped_metered (e := o.encoder m) o hk
  obtain ⟨hresult, hstate⟩ := transform_of_parts hfast going hn h
  exact ⟨hresult, congrArg (fun e : Encoder Quota => e.source.names) hstate⟩

/-- A conjunctive normal form, past the fast path, of a formula that has a negation normal form. Without a token it
    succeeds. With a token that is cancelled by request number `k` for a name, from the same numbering, it has the same
    result and registers the same names if there are fewer requests, or if this one is made for the last part. Otherwise
    it is called off, and what is registered are the names of the run without a token up to the part that this request
    is made for. -/
theorem cancelled_or_same_cnf (ho : o.token = none) (hn : f.nnf = .ok n) (hfast : f.takesFastPath .conj = false)
    (hk : 0 < k) (m : Numbering) :
    let free := toCnf o f m
    let called := toCnf o.withToken f ({ names := m, last := some k } : Quota)
    let total := (n.parts .conj).length
    let harmless := free.state.count < m.count + k ∨ ∃ i, i + 1 = total ∧ o.DrawsAt m n k i
    (∃ r, free.result = .ok r) ∧ free.state = o.names m n total ∧
      (harmless → called.result = free.result ∧ called.state.names = free.state) ∧
      (¬harmless → called.result = .error .cancelled ∧
        ∃ i, i + 1 < total ∧ o.DrawsAt m n k i ∧ called.state.names = o.names m n (i + 1)) := by
  intro free called total harmless
  have run := parts_of_nnf (m := m) ho hn
  obtain ⟨hfree, hstate⟩ := transform_of_parts hfast (o.stopped_of_token ho _) hn run
  have names : free.state = o.names m n total := congrArg Encoder.source hstate
  have harmless_iff : harmless ↔ (o.progress m n total).drawn < k ∨
      ∃ i, i + 1 = total ∧ (o.progress m n i).drawn < k ∧ k ≤ (o.progress m n (i + 1)).drawn := by
    show free.state.count < m.count + k ∨ _ ↔ _
    rw [names, count_names, Nat.add_lt_add_iff_left]
    simp only [drawsAt_iff]
  refine ⟨⟨_, hfree⟩, names, ?_⟩
  have first : (o.progress m n 0).drawn < k := hk
  rcases Progress.parts_metered ho first 0 (n.parts .conj) (congrArg Prod.fst run) with
    ⟨below, hcalled⟩ | ⟨i, hi, below, reached, hcalled⟩
  · obtain ⟨hresult, hnames⟩ := toCnf_metered hn hfast hk hcalled
    refine ⟨fun _ => ⟨hresult.trans hfree.symm, hnames.trans names.symm⟩, fun harmful => absurd (harmless_iff.mpr ?_) harmful⟩
    -- The request is made for the last part, unless it is not made at all.
    by_cases hall : (o.progress m n total).drawn < k
    · exact .inl hall
    · cases htotal : total with
      | zero => exact absurd first (htotal ▸ hall)
      | succ i => exact .inr ⟨i, rfl, below i (by omega), Nat.not_lt.mp (htotal ▸ hall)⟩
  · obtain ⟨hresult, hnames⟩ := toCnf_metered hn hfast hk hcalled
    have harmful : ¬harmless := by
      rw [harmless_iff]
      rintro (hall | ⟨i', hi', hbelow, -⟩)
      · exact absurd (Progress.reached_mono (Nat.le_of_lt hi) reached) (Nat.not_le.mpr hall)
      · exact absurd (Progress.reached_mono (by omega) reached) (Nat.not_le.mpr hbelow)
    exact ⟨fun h => absurd h harmful, fun _ => ⟨hresult, i, hi, drawsAt_iff.mpr ⟨below, reached⟩, hnames⟩⟩

/-- Two encoded parts that take one name and two names: the first request calls off the run, and the last of the three
    requests changes nothing. -/
theorem cancelled_or_same_cnf_of_two_parts :
    let x (name : String) : Formula := .var ⟨name⟩
    let l (name : String) : Nnf := .lit (.pos ⟨name⟩)
    let f : Formula := .all [.any [.all [x "a", x "b"], x "c"], .any [.all [x "b", x "c"], .all [x "a", x "d"]]]
    let p := Nnf.nary .disj [.nary .conj [l "a", l "b"], l "c"]
    let q := Nnf.nary .disj [.nary .conj [l "b", l "c"], .nary .conj [l "a", l "d"]]
    let called (k : Nat) := toCnf { limit := some 3, token := some {} } f ({ names := .empty, last := some k } : Quota)
    f.nnf = .ok (.nary .conj [p, q]) ∧ f.takesFastPath .conj = false ∧ (called 1).result = .error .cancelled ∧
      (called 3).result = (toCnf { limit := some 3 } f Numbering.empty).result := by
  intro x l f p q called
  have hn : f.nnf = .ok (.nary .conj [p, q]) := rfl
  have hfast : f.takesFastPath .conj = false := by decide
  have first := cancelled_or_same_cnf (o := { limit := some 3 }) (k := 1) rfl hn hfast (by decide) .empty
  have third := cancelled_or_same_cnf (o := { limit := some 3 }) (k := 3) rfl hn hfast (by decide) .empty
  refine ⟨hn, hfast, (first.2.2.2 ?_).1, (third.2.2.1 (.inr ⟨1, rfl, by decide +kernel⟩)).1⟩
  rintro (h | ⟨i, hi, h⟩)
  · exact absurd h (by decide +kernel)
  · obtain rfl : i = 1 := Nat.succ.inj hi
    exact absurd h (by decide +kernel)

end
end NormalForms
