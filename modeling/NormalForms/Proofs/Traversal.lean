import NormalForms.Traversal

/-!
Runs of a traversal, node by node. `Computes` says what entering a node amounts to, whatever tasks and
results wait: after a bounded number of steps the result of the node lies on the stack, or the run has
failed. The lemmas build this up along a tree, so that a recursion over the tree which follows them is
what the traversal computes within the fuel of `traverse`; a missing result and spent fuel are then
ruled out. -/

namespace NormalForms.Traversal

variable {σ ε ν μ α : Type} {t : Traversal σ ε ν μ α}

/-- Entering `node` in state `s` takes at most `cost` steps and leads to `r` and the state `s'`. -/
def Computes (t : Traversal σ ε ν μ α) (node : ν) (s : σ) (cost : Nat) (r : Except ε α) (s' : σ) : Prop :=
  ∃ k ≤ cost, ∀ fuel tasks results, t.run (fuel + k) (.enter node :: tasks) results s =
    match r with
    | .ok a => t.run fuel tasks (a :: results) s'
    | .error e => (.failed e, s')

/-- Entering `nodes` one after the other takes at most `cost` steps and leads to `r`, which has one
    result for each of them, and to the state `s'`. -/
def ComputesAll (t : Traversal σ ε ν μ α) (nodes : List ν) (s : σ) (cost : Nat) (r : Except ε (List α))
    (s' : σ) : Prop :=
  (∀ as, r = .ok as → as.length = nodes.length) ∧
    ∃ k ≤ cost, ∀ fuel tasks results, t.run (fuel + k) (nodes.map .enter ++ tasks) results s =
      match r with
      | .ok as => t.run fuel tasks (as.reverse ++ results) s'
      | .error e => (.failed e, s')

theorem pop_append (bs taken rest : List α) :
    pop bs.length taken (bs ++ rest) = some (bs.reverse ++ taken, rest) := by
  induction bs generalizing taken with
  | nil => rfl
  | cons b bs ih => simp [pop, ih]

theorem pop_reverse_append (as rest : List α) : pop as.length [] (as.reverse ++ rest) = some (as, rest) := by
  simpa using pop_append as.reverse [] rest

section
variable {node next : ν} {nodes : List ν} {s s' s'' : σ} {c d : Nat} {mark : μ}

theorem Computes.mono {r : Except ε α} (h : t.Computes node s c r s') (hcd : c ≤ d) : t.Computes node s d r s' := by
  obtain ⟨k, hk, h⟩ := h
  exact ⟨k, Nat.le_trans hk hcd, h⟩

theorem ComputesAll.mono {r : Except ε (List α)} (h : t.ComputesAll nodes s c r s') (hcd : c ≤ d) :
    t.ComputesAll nodes s d r s' := by
  obtain ⟨hl, k, hk, h⟩ := h
  exact ⟨hl, k, Nat.le_trans hk hcd, h⟩

theorem Computes.done {a : α} (h : t.enter node s = .done a) : t.Computes node s 1 (.ok a) s :=
  ⟨1, Nat.le_refl 1, fun fuel tasks results => by simp [run, h]⟩

theorem Computes.fail {e : ε} (h : t.enter node s = .fail e) : t.Computes node s 1 (.error e) s :=
  ⟨1, Nat.le_refl 1, fun fuel tasks results => by simp [run, h]⟩

theorem Computes.forward {r : Except ε α} (h : t.enter node s = .forward next) (hn : t.Computes next s c r s') :
    t.Computes node s (c + 1) r s' := by
  obtain ⟨k, hk, hn⟩ := hn
  refine ⟨k + 1, by omega, fun fuel tasks results => ?_⟩
  rw [← hn fuel tasks results, ← Nat.add_assoc, run, h]

/-- Entering a node with children costs two steps besides those of the children, if they succeed. -/
theorem Computes.descend {as : List α} {r : Except ε α} (h : t.enter node s = .descend mark nodes)
    (hc : t.ComputesAll nodes s c (.ok as) s') (hl : t.leave mark as s' = (r, s'')) :
    t.Computes node s (c + 2) r s'' := by
  obtain ⟨hlen, k, hk, hc⟩ := hc
  refine ⟨k + 2, by omega, fun fuel tasks results => ?_⟩
  have enter : t.run (fuel + (k + 2)) (.enter node :: tasks) results s =
      t.run (fuel + 1 + k) (nodes.map .enter ++ .leave mark nodes.length :: tasks) results s := by
    rw [show fuel + (k + 2) = fuel + 1 + k + 1 by omega, run, h]
  rw [enter, hc]
  simp only [run, ← hlen as rfl, pop_reverse_append, hl]
  cases r <;> rfl

theorem Computes.descend_error {e : ε} (h : t.enter node s = .descend mark nodes)
    (hc : t.ComputesAll nodes s c (.error e) s') : t.Computes node s (c + 2) (.error e) s' := by
  obtain ⟨-, k, hk, hc⟩ := hc
  refine ⟨k + 2, by omega, fun fuel tasks results => ?_⟩
  rw [show fuel + (k + 2) = fuel + 1 + k + 1 by omega, run, h]
  exact hc (fuel + 1) (.leave mark nodes.length :: tasks) results

theorem ComputesAll.nil : t.ComputesAll [] s 0 (.ok []) s :=
  ⟨fun as h => by cases h; rfl, 0, Nat.le_refl 0, fun fuel tasks results => rfl⟩

theorem ComputesAll.cons {a : α} {as : List α} (h : t.Computes node s c (.ok a) s')
    (hs : t.ComputesAll nodes s' d (.ok as) s'') : t.ComputesAll (node :: nodes) s (c + d) (.ok (a :: as)) s'' := by
  obtain ⟨k, hk, h⟩ := h
  obtain ⟨hlen, l, hl, hs⟩ := hs
  refine ⟨fun bs hb => ?_, k + l, by omega, fun fuel tasks results => ?_⟩
  · cases hb
    simp [hlen as rfl]
  · have first := h (fuel + l) (nodes.map .enter ++ tasks) results
    rw [show fuel + (k + l) = fuel + l + k by omega, List.map_cons, List.cons_append, first]
    simp [hs fuel tasks (a :: results)]

theorem ComputesAll.cons_error {e : ε} (h : t.Computes node s c (.error e) s') :
    t.ComputesAll (node :: nodes) s (c + d) (.error e) s' := by
  obtain ⟨k, hk, h⟩ := h
  refine ⟨fun as ha => (nomatch ha), k, by omega, fun fuel tasks results => ?_⟩
  exact h fuel (nodes.map .enter ++ tasks) results

theorem ComputesAll.cons_tail_error {a : α} {e : ε} (h : t.Computes node s c (.ok a) s')
    (hs : t.ComputesAll nodes s' d (.error e) s'') :
    t.ComputesAll (node :: nodes) s (c + d) (.error e) s'' := by
  obtain ⟨k, hk, h⟩ := h
  obtain ⟨-, l, hl, hs⟩ := hs
  refine ⟨fun as ha => (nomatch ha), k + l, by omega, fun fuel tasks results => ?_⟩
  have first := h (fuel + l) (nodes.map .enter ++ tasks) results
  rw [show fuel + (k + l) = fuel + l + k by omega, List.map_cons, List.cons_append, first]
  exact hs fuel tasks (a :: results)

/-- A recursion on lists that goes from state to state, up to the first error, is what entering the nodes one after
    the other computes, if for each node this is what entering it computes. -/
theorem ComputesAll.of_forall {cost : ν → Nat} (costs : List ν → Nat) {f : ν → σ → Except ε α × σ}
    {fs : List ν → σ → Except ε (List α) × σ} (cost_nil : costs [] = 0)
    (cost_cons : ∀ n ns, costs (n :: ns) = cost n + costs ns) (fs_nil : ∀ s, fs [] s = (.ok [], s))
    (fs_cons : ∀ n ns s, fs (n :: ns) s =
      match f n s with
      | (.error e, s) => (.error e, s)
      | (.ok a, s) =>
        match fs ns s with
        | (.ok as, s) => (.ok (a :: as), s)
        | (.error e, s) => (.error e, s))
    (h : ∀ n ∈ nodes, ∀ s, t.Computes n s (cost n) (f n s).1 (f n s).2) (s : σ) :
    t.ComputesAll nodes s (costs nodes) (fs nodes s).1 (fs nodes s).2 := by
  induction nodes generalizing s with
  | nil =>
    rw [fs_nil, cost_nil]
    exact .nil
  | cons n ns ih =>
    have head := h n List.mem_cons_self s
    rw [cost_cons, fs_cons]
    rcases hn : f n s with ⟨_ | a, s'⟩
    · rw [hn] at head
      exact .cons_error head
    · rw [hn] at head
      have tail := ih (fun m hm => h m (List.mem_cons_of_mem n hm)) s'
      dsimp only
      rcases hns : fs ns s' with ⟨_ | as, s''⟩
      · rw [hns] at tail
        exact .cons_tail_error head tail
      · rw [hns] at tail
        exact .cons head tail

/-! ### Traversals that keep their state -/

/-- Where leaving a node does not change the state, its result is that of the children, combined. -/
theorem Computes.descend_bind {r : Except ε (List α)} {g : List α → Except ε α}
    (h : t.enter node s = .descend mark nodes) (hc : t.ComputesAll nodes s c r s)
    (hl : ∀ as, r = .ok as → t.leave mark as s = (g as, s)) : t.Computes node s (c + 2) (r >>= g) s := by
  cases r with
  | ok as => exact .descend h hc (hl as rfl)
  | error e => exact .descend_error h hc

theorem ComputesAll.cons_bind {r : Except ε α} {rs : Except ε (List α)} (h : t.Computes node s c r s)
    (hs : t.ComputesAll nodes s d rs s) :
    t.ComputesAll (node :: nodes) s (c + d) (do let a ← r; let as ← rs; return a :: as) s := by
  cases r with
  | error e => exact .cons_error h
  | ok a =>
    cases rs with
    | error e => exact .cons_tail_error h hs
    | ok as => exact .cons h hs

end

/-- How a run that leads to `r` halts: with one result, or with its error. -/
def Halt.of : Except ε α → Halt ε α
  | .ok a => .finished [a]
  | .error e => .failed e

@[simp]
theorem toExcept_of (other r : Except ε α) : (Halt.of r).toExcept other = r := by cases r <;> rfl

/-- What entering a node amounts to is what a run that begins with it does, with fuel for its steps. -/
theorem run_eq_of_computes {node : ν} {s s' : σ} {cost fuel : Nat} {r : Except ε α}
    (h : t.Computes node s cost r s') (hfuel : cost ≤ fuel) : t.run fuel [.enter node] [] s = (.of r, s') := by
  obtain ⟨k, hk, h⟩ := h
  have run := h (fuel - k) [] []
  rw [Nat.sub_add_cancel (Nat.le_trans hk hfuel)] at run
  rw [run]
  cases r <;> simp [Halt.of, Traversal.run]

theorem traverse_eq {node : ν} {s s' : σ} {size : Nat} {r : Except ε α} (h : t.Computes node s (2 * size) r s') :
    t.traverse size node s = (.of r, s') :=
  run_eq_of_computes h (Nat.le_refl _)

end NormalForms.Traversal
