import NormalForms.Proofs.Formula.Basis
import NormalForms.Proofs.Formula.Occurrences

/-!
The walk that collects the variables, on an explicit stack. One scope serves the whole walk: a quantifier adds its
variables at the end, and a marker that waits below its body takes as many off again, so each name has to come back
into scope and go out of it as the binders nest. Entering a formula leaves the tasks below it and the scope as they
were, and collects its free occurrences; so the walk comes to an end, and with the variables of the formula. -/

namespace NormalForms.Formula

/-- What the walk still has to do: enter a formula, or take the variables that were bound last out of scope. -/
inductive ScopeTask
  | enter (f : Formula)
  | unbind (count : Nat)

open ScopeTask

/-- Works off the tasks, with fuel for a number of steps, and with the bound and the free variables met so far. There
    is no result if the fuel is spent, or if more variables are to leave the scope than are in it. -/
def collect : Nat → List ScopeTask → List Var → List Var → Option (List Var)
  | _, [], _, free => some free
  | 0, _ :: _, _, _ => none
  | fuel + 1, unbind count :: tasks, bound, free =>
    if count ≤ bound.length then collect fuel tasks (bound.take (bound.length - count)) free else none
  | fuel + 1, enter f :: tasks, bound, free =>
    match f with
    | var x => collect fuel tasks bound (if bound.contains x then free else free ++ [x])
    | lit l => collect fuel tasks bound (if bound.contains l.var then free else free ++ [l.var])
    | quant _ xs g => collect fuel (enter g :: unbind xs.length :: tasks) (bound ++ xs) free
    | const _ | not _ | nary .. | implies .. | iff .. | card .. =>
      collect fuel (f.children.map enter ++ tasks) bound free

/-- The variables that the walk has collected at its end, each once. -/
def walk (f : Formula) : Option (List Var) := (collect (2 * f.size) [enter f] [] []).map List.eraseDups

/-- Entering the formula takes at most two steps for each node, whatever waits below it. Its free occurrences are then
    collected, and the scope is the one before. -/
def Collects (f : Formula) : Prop :=
  ∃ k ≤ 2 * f.size, ∀ fuel tasks bound free, collect (fuel + k) (enter f :: tasks) bound free =
    collect fuel tasks bound (free ++ freeOccurrences bound f)

variable {f : Formula} {fs : List Formula}

theorem collect_enter_all (h : ∀ f ∈ fs, f.Collects) :
    ∃ k ≤ 2 * sizeList fs, ∀ fuel tasks bound free, collect (fuel + k) (fs.map enter ++ tasks) bound free =
      collect fuel tasks bound (free ++ fs.flatMap (freeOccurrences bound)) := by
  induction fs with
  | nil => exact ⟨0, Nat.zero_le _, fun fuel tasks bound free => by simp⟩
  | cons f fs ih =>
    obtain ⟨k, hk, first⟩ := h f List.mem_cons_self
    obtain ⟨m, hm, others⟩ := ih fun g hg => h g (List.mem_cons_of_mem f hg)
    refine ⟨m + k, by rw [sizeList]; omega, fun fuel tasks bound free => ?_⟩
    rw [← Nat.add_assoc, List.map_cons, List.cons_append, first, others, List.flatMap_cons, List.append_assoc]

/-- A node without binders is entered by entering its children from left to right. -/
theorem Collects.of_children (h : ∀ g ∈ f.children, g.Collects) (node : f.asLiteral? = none) (binders : f.binders = [])
    (step : ∀ fuel tasks bound free, collect (fuel + 1) (enter f :: tasks) bound free =
      collect fuel (f.children.map enter ++ tasks) bound free) : f.Collects := by
  obtain ⟨k, hk, below⟩ := collect_enter_all h
  refine ⟨k + 1, by rw [size_eq]; omega, fun fuel tasks bound free => ?_⟩
  rw [← Nat.add_assoc, step, below, freeOccurrences_of_node bound node, binders, List.append_nil]

/-- The marker takes off what the quantifier has put in scope. -/
theorem Collects.quant (q : Quantifier) (xs : List Var) (h : f.Collects) : (quant q xs f).Collects := by
  obtain ⟨k, hk, body⟩ := h
  refine ⟨k + 2, by rw [size]; omega, fun fuel tasks bound free => ?_⟩
  have enter_quant : collect (fuel + (k + 2)) (enter (.quant q xs f) :: tasks) bound free =
      collect (fuel + 1 + k) (enter f :: unbind xs.length :: tasks) (bound ++ xs) free := by
    rw [show fuel + (k + 2) = fuel + 1 + k + 1 by omega, collect]
  have within : xs.length ≤ (bound ++ xs).length := by simp
  rw [enter_quant, body, collect, if_pos within, List.length_append, Nat.add_sub_cancel, List.take_left, freeOccurrences]

theorem collects (f : Formula) : f.Collects := by
  induction f using induction_children with
  | atom f l h =>
    refine ⟨1, by have := f.size_pos; omega, fun fuel tasks bound free => ?_⟩
    have step : collect (fuel + 1) (enter f :: tasks) bound free =
        collect fuel tasks bound (if bound.contains l.var then free else free ++ [l.var]) := by
      rcases eq_of_asLiteral? h with rfl | rfl <;> rfl
    rw [step, freeOccurrences_of_asLiteral? bound h]
    cases bound.contains l.var <;> simp
  | node f h ih =>
    cases f with
    | quant q xs f => exact .quant q xs (ih f (List.mem_singleton_self f))
    | var x => cases h
    | lit l => cases h
    | _ => exact .of_children ih h rfl fun _ _ _ _ => rfl

theorem walk_eq (f : Formula) : f.walk = some f.variables := by
  obtain ⟨k, hk, collected⟩ := f.collects
  rw [walk, ← Nat.sub_add_cancel hk, collected, collect, List.nil_append]
  rfl

end NormalForms.Formula
