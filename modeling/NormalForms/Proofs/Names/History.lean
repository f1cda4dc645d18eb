import NormalForms.Names.Quota
import NormalForms.Proofs.Transform.Registered

/-!
Histories of numberings. A numbering is made for the variables that a formula lists, registers variables and hands out
fresh ones, and is drawn from by whole runs for conjunctive normal forms, whatever becomes of them. Beside it the
history keeps every name that was registered or handed out, with all repetitions. Main statements: the variables of the
numbering are those names without the repetitions, in the order of their numbers, and what comes later only appends to
them; and a fresh name is found within a number of rounds that the variables bound, is the least one, and is among no
names of the history. -/

namespace NormalForms.Numbering

/-- An operation on a numbering. The first one puts a new numbering in the place of the old one, for the variables that
    a formula of any kind lists. The last one is a run that the numbering calls off with a given request for a name. -/
inductive Op
  | ofVars (xs : List Var)
  | register (x : Var)
  | fresh (stem : String)
  | cnf (o : Options) (f : Formula)
  | cnfUntil (last : Nat) (o : Options) (f : Formula)

/-- The run for a conjunctive normal form that draws from the numbering until it is called off. -/
abbrev runUntil (m : Numbering) (last : Nat) (o : Options) (f : Formula) : Report Quota :=
  toCnf o f { names := m, last := some last }

/-- The numbering after an operation. -/
def after (m : Numbering) : Op → Numbering
  | .ofVars xs => ofVars xs
  | .register x => (m.register x).2
  | .fresh stem => (m.fresh stem).2
  | .cnf o f => (toCnf o f m).state
  | .cnfUntil last o f => (m.runUntil last o f).state.names

/-- The names that an operation registers or hands out. A run reports those that it draws. -/
def Op.names (m : Numbering) : Op → List Var
  | ofVars xs => xs
  | register x => [x]
  | fresh stem => [(m.fresh stem).1]
  | cnf o f => (toCnf o f m).defined
  | cnfUntil last o f => (m.runUntil last o f).defined

/-- A numbering beside the names that were registered in it or handed out, in this order and with repetitions. -/
structure History where
  numbering : Numbering
  names : List Var

/-- The history goes on with an operation. A new numbering begins a new one. -/
def History.after (h : History) (op : Op) : History where
  numbering := h.numbering.after op
  names :=
    match op with
    | .ofVars xs => xs
    | op => h.names ++ op.names h.numbering

/-- The history of operations, from the empty numbering on. -/
def history (ops : List Op) : History := ops.foldl History.after ⟨empty, []⟩

variable {m : Numbering} {h : History} {op : Op} {ops : List Op}

theorem drawnBy_names : DrawnBy Quota.names := fun _ _ => rfl

/-- New variables behind those of a numbering, which are distinct as in every numbering. -/
theorem eraseDups_of_variables {m' : Numbering} {xs : List Var} (h : m'.variables = m.variables ++ xs) :
    m'.variables = (m.variables ++ xs).eraseDups := by
  rw [← h, eraseDups_of_nodup m'.nodup_variables]

/-- An operation on a numbering puts the names that it registers or hands out behind the variables, those aside that
    are among them. -/
theorem variables_after (hop : ∀ xs, op ≠ .ofVars xs) :
    (m.after op).variables = (m.variables ++ op.names m).eraseDups := by
  cases op with
  | ofVars xs => exact absurd rfl (hop xs)
  | register x => exact m.variables_register x
  | fresh stem => exact eraseDups_of_variables (m.variables_fresh stem)
  | cnf o f => exact eraseDups_of_variables (variables_toCnf_eq drawnBy_id o f m)
  | cnfUntil last o f => exact eraseDups_of_variables (variables_toCnf_eq drawnBy_names o f _)

theorem prefix_after (hop : ∀ xs, op ≠ .ofVars xs) : m.variables <+: (m.after op).variables := by
  rw [variables_after hop, List.eraseDups_append, eraseDups_of_nodup m.nodup_variables]
  exact List.prefix_append _ _

/-- The variables of the numbering are the names of the history without repetitions. -/
theorem History.variables_after (hh : h.numbering.variables = h.names.eraseDups) (op : Op) :
    (h.after op).numbering.variables = (h.after op).names.eraseDups := by
  cases op with
  | ofVars xs => exact variables_ofVars xs
  | _ =>
    refine (Numbering.variables_after fun xs => by nofun).trans ?_
    rw [hh, eraseDups_eraseDups_append]
    rfl

theorem variables_history (ops : List Op) : (history ops).numbering.variables = (history ops).names.eraseDups := by
  suffices keep : ∀ h : History, h.numbering.variables = h.names.eraseDups →
      (ops.foldl History.after h).numbering.variables = (ops.foldl History.after h).names.eraseDups from keep _ rfl
  induction ops with
  | nil => exact fun _ hh => hh
  | cons op ops ih => exact fun h hh => ih _ (h.variables_after hh op)

/-- Without a new numbering, later operations only append. -/
theorem prefix_foldl_after (h : History) (hops : ∀ xs, Op.ofVars xs ∉ ops) :
    h.numbering.variables <+: (ops.foldl History.after h).numbering.variables := by
  induction ops generalizing h with
  | nil => exact List.prefix_refl _
  | cons op ops ih =>
    have first : h.numbering.variables <+: (h.after op).numbering.variables :=
      prefix_after fun xs hop => hops xs (hop ▸ List.mem_cons_self)
    exact first.trans (ih (h.after op) fun xs hmem => hops xs (List.mem_cons_of_mem op hmem))

/-- After every history the variables of the numbering are the names that were registered or handed out, each once and
    in the order of the first time. They are numbered from 1 to their count, and a name has a number exactly if the
    number has the name. Whatever is done with the numbering later, runs included that fail or are called off, it
    appends variables and leaves the numbers and names there are as they were. -/
theorem append_only_bijection (ops later : List Op) :
    let m := (history ops).numbering
    m.variables = (history ops).names.eraseDups ∧ m.variables.Nodup ∧ (∀ x i, m.index? x = some i ↔ m.var? i = some x) ∧
      (∀ i, (∃ x, m.var? i = some x) ↔ 1 ≤ i ∧ i ≤ m.count) ∧
      ((∀ xs, Op.ofVars xs ∉ later) →
        let m' := (history (ops ++ later)).numbering
        m.variables <+: m'.variables ∧ (∀ x i, m.index? x = some i → m'.index? x = some i) ∧
          ∀ i x, m.var? i = some x → m'.var? i = some x) := by
  refine ⟨variables_history ops, nodup_variables _, fun x i => index?_iff_var?, fun i => exists_var?_iff, ?_⟩
  intro hlater m'
  have appended : (history ops).numbering.variables <+: m'.variables := by
    show _ <+: ((ops ++ later).foldl History.after _).numbering.variables
    rw [List.foldl_append]
    exact prefix_foldl_after _ hlater
  refine ⟨appended, fun x i hx => ?_, fun i x => var?_of_prefix appended⟩
  rw [index?_iff_var?] at hx ⊢
  exact var?_of_prefix appended hx

/-- A run that fails at a quantifier, one that is called off with its first request after it has drawn a name, and a
    fresh name leave `a` and `_t0` with the numbers 1 and 2. -/
theorem append_only_bijection_of_failures :
    let x (name : String) : Formula := .var ⟨name⟩
    let f : Formula := .all [.any [.all [x "a", x "b"], x "c"], .any [.all [x "b", x "c"], x "a"]]
    let o : Options := { limit := some 0, token := some {} }
    let ops : List Op := [.register ⟨"b"⟩, .ofVars [⟨"a"⟩], .register ⟨"_t0"⟩]
    let later : List Op := [.cnf o (.quant .existential [⟨"a"⟩] (x "a")), .cnfUntil 1 o f, .fresh "a"]
    let m := (history ops).numbering
    let m' := (history (ops ++ later)).numbering
    (∀ xs, Op.ofVars xs ∉ later) ∧ m'.variables = [⟨"a"⟩, ⟨"_t0"⟩, ⟨"_t1"⟩, ⟨"a2"⟩] ∧
      m.index? ⟨"_t0"⟩ = some 2 ∧ m'.index? ⟨"_t0"⟩ = some 2 := by
  intro x f o ops later m m'
  have same : ∀ xs, Op.ofVars xs ∉ later := by simp [later]
  obtain ⟨-, -, numbered, -, kept⟩ := append_only_bijection ops later
  obtain ⟨-, index, -⟩ := kept same
  have second : m.index? ⟨"_t0"⟩ = some 2 := (numbered ⟨"_t0"⟩ 2).mpr (by decide +kernel)
  exact ⟨same, by decide +kernel, second, index ⟨"_t0"⟩ 2 second⟩

/-- After every history and for every stem, the search for a name without a bound ends within one round more than there
    are variables. The name that is handed out is the stem with the least counter, from the counter of the numbering on,
    that makes an unregistered name. It was never registered or handed out before, and gets the next number. -/
theorem fresh_is_least_unregistered (ops : List Op) (stem : String) :
    let m := (history ops).numbering
    let x := (m.fresh stem).1
    ∃ i rounds, m.Searches stem m.counter i rounds ∧ rounds ≤ m.count + 1 ∧
      IsLeast {k | m.counter ≤ k ∧ m.contains ⟨stem ++ toString k⟩ = false} i ∧ x = ⟨stem ++ toString i⟩ ∧
      (m.fresh stem).2.counter = m.counter + rounds ∧ x ∉ (history ops).names ∧
      (m.fresh stem).2.index? x = some (m.count + 1) := by
  intro m x
  obtain ⟨i, rounds, search, hrounds, hfresh, hcounter⟩ := exists_searches_fresh stem m
  refine ⟨i, rounds, search, hrounds, search.isLeast, hfresh, ?_, ?_, index?_fresh stem m⟩
  · rw [hcounter, search.add_rounds]
  · have new := m.fresh_not_mem stem
    rwa [show m.variables = (history ops).names.eraseDups from variables_history ops, List.mem_eraseDups] at new

/-- The counter is shared by the stems, and passes over the names that are registered. -/
example :
    let ops : List Op := [.register ⟨"t0"⟩, .register ⟨"t2"⟩, .fresh "t", .fresh "t", .fresh "u"]
    (history ops).numbering.variables = [⟨"t0"⟩, ⟨"t2"⟩, ⟨"t1"⟩, ⟨"t3"⟩, ⟨"u4"⟩] := by
  decide

end NormalForms.Numbering
