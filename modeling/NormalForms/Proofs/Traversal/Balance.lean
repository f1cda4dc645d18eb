import Mathlib.Logic.Relation
import NormalForms.Proofs.Traversal

/-!
The two stacks of a run, step by step. Each task of entering a node stands for one result to come, and each task of
leaving one for a result in place of those of the children. Counted like this the heights of the stacks always fit
(`Balanced`): no step changes that, so no run, whatever it traverses, lacks a result where it leaves a node, and a run
that works off all tasks ends with one result. -/

namespace NormalForms.Traversal

variable {σ ε ν μ α : Type}

/-- Where a run is: the tasks, the results and the state. -/
structure Config (σ ν μ α : Type) where
  tasks : List (Task ν μ)
  results : List α
  state : σ

/-- The start of a run. -/
def Config.start (node : ν) (s : σ) : Config σ ν μ α := ⟨[.enter node], [], s⟩

/-- The steps after which a run goes on. -/
inductive Step (t : Traversal σ ε ν μ α) : Config σ ν μ α → Config σ ν μ α → Prop
  | done {node s a tasks results} : t.enter node s = .done a →
    Step t ⟨.enter node :: tasks, results, s⟩ ⟨tasks, a :: results, s⟩
  | forward {node s next tasks results} : t.enter node s = .forward next →
    Step t ⟨.enter node :: tasks, results, s⟩ ⟨.enter next :: tasks, results, s⟩
  | descend {node s mark children tasks results} : t.enter node s = .descend mark children →
    Step t ⟨.enter node :: tasks, results, s⟩
      ⟨children.map .enter ++ .leave mark children.length :: tasks, results, s⟩
  | leave {mark arity s args rest a s' tasks results} : pop arity [] results = some (args, rest) →
    t.leave mark args s = (.ok a, s') →
    Step t ⟨.leave mark arity :: tasks, results, s⟩ ⟨tasks, a :: rest, s'⟩

/-- The ends of a run, apart from spent fuel. -/
inductive Halts (t : Traversal σ ε ν μ α) : Config σ ν μ α → Halt ε α → σ → Prop
  | finished {results s} : Halts t ⟨[], results, s⟩ (.finished results) s
  | entering {node s e tasks results} : t.enter node s = .fail e →
    Halts t ⟨.enter node :: tasks, results, s⟩ (.failed e) s
  | leaving {mark arity s args rest e s' tasks results} : pop arity [] results = some (args, rest) →
    t.leave mark args s = (.error e, s') →
    Halts t ⟨.leave mark arity :: tasks, results, s⟩ (.failed e) s'
  | missing {mark arity s tasks results} : pop arity [] results = none →
    Halts t ⟨.leave mark arity :: tasks, results, s⟩ .missing s

/-- Whether a run that begins with `node` comes to a configuration. -/
def Reaches (t : Traversal σ ε ν μ α) (node : ν) (s : σ) : Config σ ν μ α → Prop :=
  Relation.ReflTransGen t.Step (.start node s)

variable {t : Traversal σ ε ν μ α} {c d : Config σ ν μ α}

/-! ### Runs as steps -/

theorem run_of_step (h : t.Step c d) (fuel : Nat) :
    t.run (fuel + 1) c.tasks c.results c.state = t.run fuel d.tasks d.results d.state := by
  cases h with
  | done h => rw [run, h]
  | forward h => rw [run, h]
  | descend h => rw [run, h]
  | leave hpop h => simp only [run, hpop, h]

theorem run_of_halts {halt : Halt ε α} {s : σ} (h : t.Halts c halt s) (fuel : Nat) :
    t.run (fuel + 1) c.tasks c.results c.state = (halt, s) := by
  cases h with
  | finished => rw [run]
  | entering h => rw [run, h]
  | leaving hpop h => simp only [run, hpop, h]
  | missing hpop => simp only [run, hpop]

/-- From each configuration the run goes on or ends. -/
theorem step_or_halts (t : Traversal σ ε ν μ α) (c : Config σ ν μ α) :
    (∃ d, t.Step c d) ∨ ∃ halt s, t.Halts c halt s := by
  obtain ⟨tasks, results, s⟩ := c
  match tasks with
  | [] => exact .inr ⟨_, _, .finished⟩
  | .enter node :: tasks =>
    cases h : t.enter node s with
    | done a => exact .inl ⟨_, .done h⟩
    | forward next => exact .inl ⟨_, .forward h⟩
    | descend mark children => exact .inl ⟨_, .descend h⟩
    | fail e => exact .inr ⟨_, _, .entering h⟩
  | .leave mark arity :: tasks =>
    cases hpop : pop arity [] results with
    | none => exact .inr ⟨_, _, .missing hpop⟩
    | some taken =>
      obtain ⟨args, rest⟩ := taken
      rcases h : t.leave mark args s with ⟨e | a, s'⟩
      · exact .inr ⟨_, _, .leaving hpop h⟩
      · exact .inl ⟨_, .leave hpop h⟩

/-- A run with fuel to spare goes from step to step to the configuration in which it ends. -/
theorem exists_halts {halt : Halt ε α} {s : σ} (fuel : Nat)
    (h : t.run fuel c.tasks c.results c.state = (halt, s)) (hfuel : halt ≠ .exhausted) :
    ∃ d, Relation.ReflTransGen t.Step c d ∧ t.Halts d halt s := by
  induction fuel generalizing c with
  | zero =>
    obtain ⟨tasks, results, s'⟩ := c
    cases tasks with
    | nil =>
      cases h
      exact ⟨_, .refl, .finished⟩
    | cons task tasks =>
      cases h
      exact absurd rfl hfuel
  | succ fuel ih =>
    rcases t.step_or_halts c with ⟨d, hstep⟩ | ⟨halt', s', hend⟩
    · rw [run_of_step hstep] at h
      obtain ⟨last, hsteps, hend⟩ := ih h
      exact ⟨last, .head hstep hsteps, hend⟩
    · rw [run_of_halts hend] at h
      cases h
      exact ⟨c, .refl, hend⟩

/-! ### Heights -/

/-- Whether the tasks find the results that they need on a stack of this height, and leave one in the end. -/
def Balanced : List (Task ν μ) → Nat → Prop
  | [], height => height = 1
  | .enter _ :: tasks, height => Balanced tasks (height + 1)
  | .leave _ arity :: tasks, height => arity ≤ height ∧ Balanced tasks (height - arity + 1)

/-- Whether a task of leaving belongs to a node that was entered, and expects a result for each of its children. -/
def Issued (t : Traversal σ ε ν μ α) : Task ν μ → Prop
  | .enter _ => True
  | .leave mark arity => ∃ node s children, t.enter node s = .descend mark children ∧ arity = children.length

/-- What every configuration of a run has: stacks of fitting heights, and tasks that were put there by a step. -/
structure Sound (t : Traversal σ ε ν μ α) (c : Config σ ν μ α) : Prop where
  balanced : Balanced c.tasks c.results.length
  issued : ∀ task ∈ c.tasks, t.Issued task

theorem balanced_map_enter (children : List ν) (tasks : List (Task ν μ)) (height : Nat) :
    Balanced (children.map .enter ++ tasks) height ↔ Balanced tasks (height + children.length) := by
  induction children generalizing height with
  | nil => rfl
  | cons node children ih =>
    rw [List.map_cons, List.cons_append, Balanced, ih, List.length_cons, Nat.add_assoc, Nat.add_comm 1]

theorem length_of_pop {n : Nat} {taken results args rest : List α} (h : pop n taken results = some (args, rest)) :
    args.length = n + taken.length ∧ results.length = rest.length + n := by
  induction n generalizing taken results with
  | zero =>
    cases h
    exact ⟨(Nat.zero_add _).symm, rfl⟩
  | succ n ih =>
    cases results with
    | nil => cases h
    | cons a results =>
      have popped : pop n (a :: taken) results = some (args, rest) := h
      obtain ⟨hargs, hrest⟩ := ih popped
      rw [List.length_cons] at hargs ⊢
      exact ⟨by omega, by omega⟩

/-- Results are missing only on a stack that is too low. -/
theorem exists_pop {n : Nat} {results : List α} (taken : List α) (h : n ≤ results.length) :
    ∃ args rest, pop n taken results = some (args, rest) := by
  induction n generalizing taken results with
  | zero => exact ⟨taken, results, rfl⟩
  | succ n ih =>
    cases results with
    | nil => exact absurd h (Nat.not_succ_le_zero n)
    | cons a results => exact ih (a :: taken) (Nat.le_of_succ_le_succ h)

theorem sound_start (t : Traversal σ ε ν μ α) (node : ν) (s : σ) : t.Sound (.start node s) where
  balanced := rfl
  issued task h := by
    rw [List.mem_singleton.mp h]
    trivial

theorem Sound.step (h : t.Sound c) (hstep : t.Step c d) : t.Sound d := by
  cases hstep with
  | done => exact ⟨h.balanced, fun task htask => h.issued task (List.mem_cons_of_mem _ htask)⟩
  | forward => exact ⟨h.balanced, List.forall_mem_cons.mpr ⟨trivial, (List.forall_mem_cons.mp h.issued).2⟩⟩
  | @descend node s mark children tasks results henter =>
    have rest := (List.forall_mem_cons.mp h.issued).2
    constructor
    · -- Once the children have their results, leaving the node puts one in their place.
      show Balanced (children.map .enter ++ .leave mark children.length :: tasks) results.length
      rw [balanced_map_enter, Balanced, Nat.add_sub_cancel]
      exact ⟨Nat.le_add_left _ _, h.balanced⟩
    · refine List.forall_mem_append.mpr ⟨?_, List.forall_mem_cons.mpr ⟨⟨node, s, children, henter, rfl⟩, rest⟩⟩
      exact List.forall_mem_map.mpr fun _ _ => trivial
  | @leave mark arity s args rest a s' tasks results hpop =>
    obtain ⟨-, hlen⟩ := length_of_pop hpop
    have after : Balanced tasks (results.length - arity + 1) := h.balanced.2
    rw [hlen, Nat.add_sub_cancel] at after
    exact ⟨after, (List.forall_mem_cons.mp h.issued).2⟩

/-- Every configuration that a run comes to is sound. -/
theorem Reaches.sound {node : ν} {s : σ} (h : t.Reaches node s c) : t.Sound c := by
  induction h with
  | refl => exact t.sound_start node s
  | tail _ hstep ih => exact ih.step hstep

/-- Where a run leaves a node, there is a result for each child of the node. -/
theorem Reaches.supplied {node : ν} {s s' : σ} {mark : μ} {arity : Nat} {tasks : List (Task ν μ)} {results : List α}
    (h : t.Reaches node s ⟨.leave mark arity :: tasks, results, s'⟩) :
    arity ≤ results.length ∧ ∃ n s children, t.enter n s = .descend mark children ∧ arity = children.length :=
  ⟨h.sound.balanced.1, h.sound.issued _ List.mem_cons_self⟩

/-- Where a run has worked off all tasks, there is one result. -/
theorem Reaches.single {node : ν} {s s' : σ} {results : List α} (h : t.Reaches node s ⟨[], results, s'⟩) :
    ∃ a, results = [a] :=
  List.length_eq_one_iff.mp h.sound.balanced

end NormalForms.Traversal
