import NormalForms.Nnf.Simplify
import NormalForms.Proofs.Nnf.Basic
import NormalForms.Proofs.Traversal

/-!
Simplification. The traversal computes the recursion `simplifyRec`, and what is true of `merge`, which
combines simplified arguments, carries over to whole normal forms: the truth value stays, no variable is
new, and no constant is left below the root. -/

namespace NormalForms.Nnf

/-! ### The traversal -/

mutual

theorem simplify_computes : ∀ n : Nnf, simplifyTraversal.Computes n () (2 * n.size) (.ok n.simplifyRec) ()
  | const b => (Traversal.Computes.done rfl).mono (by simp [size])
  | lit l => (Traversal.Computes.done rfl).mono (by simp [size])
  | nary j args => by
    have children := simplify_computesAll args
    refine (Traversal.Computes.descend rfl children rfl).mono ?_
    rw [size]
    omega

theorem simplify_computesAll :
    ∀ ns : List Nnf, simplifyTraversal.ComputesAll ns () (2 * sizeList ns) (.ok (simplifyRecList ns)) ()
  | [] => .nil
  | n :: ns => by
    refine (Traversal.ComputesAll.cons (simplify_computes n) (simplify_computesAll ns)).mono ?_
    rw [sizeList]
    omega

end

theorem simplify_eq (n : Nnf) : n.simplify = n.simplifyRec := by
  rw [simplify, Traversal.traverse_eq (simplify_computes n)]
  rfl

/-! ### Merging simplified arguments -/

/-- The junction of a list, without a connective where it is not needed. -/
def ofArgs (j : Junction) : List Nnf → Nnf
  | [] => const j.unit
  | [n] => n
  | ns => nary j ns

theorem merge_eq (j : Junction) (args : List Nnf) :
    merge j args = if args.contains (const !j.unit) then const !j.unit
      else ofArgs j (args.flatMap (spliced j)).eraseDups := by
  unfold merge
  rfl

theorem value_ofArgs (p : Literal → Bool) (j : Junction) (ns : List Nnf) :
    (ofArgs j ns).value p = j.across ns fun n => n.value p := by
  match ns with
  | [] => rw [ofArgs, value, Junction.across_nil]
  | [n] => rw [ofArgs, Junction.across_singleton]
  | n :: m :: ns => exact value_nary p j (n :: m :: ns)

theorem mem_occurrences_ofArgs {j : Junction} {ns : List Nnf} {x : Var} (h : x ∈ (ofArgs j ns).occurrences) :
    ∃ n ∈ ns, x ∈ n.occurrences := by
  match ns with
  | [] => simp [ofArgs, occurrences] at h
  | [n] => exact ⟨n, List.mem_singleton_self n, h⟩
  | n :: m :: ns => exact mem_occurrences_nary.mp h

theorem innerConstants_ofArgs {j : Junction} {ns : List Nnf} (h : ∀ n ∈ ns, n.constants = []) :
    (ofArgs j ns).innerConstants = [] := by
  match ns with
  | [] => rfl
  | [n] => exact innerConstants_of_constants (h n (List.mem_singleton_self n))
  | n :: m :: ns =>
    show constantsList (n :: m :: ns) = []
    rw [constantsList_eq, List.flatMap_eq_nil_iff]
    exact h

theorem value_spliced {p : Literal → Bool} {j : Junction} {n : Nnf} (h : n ≠ const !j.unit) :
    (j.across (spliced j n) fun m => m.value p) = n.value p := by
  cases n with
  | const b =>
    by_cases hb : b = j.unit
    · rw [spliced, Junction.across_nil, value, hb]
    · exact absurd (congrArg const (Junction.ne_unit_iff.mp hb)) h
  | lit l => rw [spliced, Junction.across_singleton]
  | nary i args =>
    rw [spliced]
    split
    · rename_i hi
      rw [hi, value_nary]
    · rw [Junction.across_singleton]

theorem value_merge (p : Literal → Bool) (j : Junction) (args : List Nnf) :
    (merge j args).value p = j.across args fun n => n.value p := by
  rw [merge_eq]
  split
  · rename_i h
    -- An argument that decides the junction decides the value.
    have hmem : const (!j.unit) ∈ args := by simpa using h
    rw [value]
    symm
    rw [← Junction.ne_unit_iff, Ne, Junction.across_eq_unit_iff]
    intro hall
    have := hall _ hmem
    rw [value] at this
    cases j <;> simp [Junction.unit] at this
  · rename_i h
    have hne : ∀ n ∈ args, n ≠ const !j.unit := fun n hn he => h (by simpa using he ▸ hn)
    calc
      (ofArgs j (args.flatMap (spliced j)).eraseDups).value p
        = j.across (args.flatMap (spliced j)).eraseDups fun n => n.value p := value_ofArgs p j _
      _ = j.across (args.flatMap (spliced j)) fun n => n.value p := Junction.across_congr_mem fun n => List.mem_eraseDups
      _ = j.across args fun n => j.across (spliced j n) fun m => m.value p := Junction.across_flatMap _ _
      _ = j.across args fun n => n.value p := Junction.across_congr fun n hn => value_spliced (hne n hn)

theorem mem_occurrences_spliced {j : Junction} {n m : Nnf} {x : Var} (hm : m ∈ spliced j n)
    (hx : x ∈ m.occurrences) : x ∈ n.occurrences := by
  cases n with
  | const b => simp [spliced] at hm
  | lit l => rwa [← List.mem_singleton.mp hm]
  | nary i args =>
    rw [spliced] at hm
    split at hm
    · exact mem_occurrences_nary.mpr ⟨m, hm, hx⟩
    · rwa [← List.mem_singleton.mp hm]

theorem mem_occurrences_merge {j : Junction} {args : List Nnf} {x : Var} (h : x ∈ (merge j args).occurrences) :
    ∃ n ∈ args, x ∈ n.occurrences := by
  rw [merge_eq] at h
  split at h
  · simp [occurrences] at h
  · obtain ⟨m, hm, hx⟩ := mem_occurrences_ofArgs h
    obtain ⟨n, hn, hmn⟩ := List.mem_flatMap.mp (List.mem_eraseDups.mp hm)
    exact ⟨n, hn, mem_occurrences_spliced hmn hx⟩

theorem constants_spliced {j : Junction} {n m : Nnf} (h : n.innerConstants = []) (hm : m ∈ spliced j n) :
    m.constants = [] := by
  cases n with
  | const b => simp [spliced] at hm
  | lit l =>
    rw [List.mem_singleton.mp hm]
    rfl
  | nary i args =>
    rw [spliced] at hm
    split at hm
    · exact constants_of_mem h hm
    · rw [List.mem_singleton.mp hm]
      exact h

theorem innerConstants_merge {j : Junction} {args : List Nnf} (h : ∀ n ∈ args, n.innerConstants = []) :
    (merge j args).innerConstants = [] := by
  rw [merge_eq]
  split
  · rfl
  · refine innerConstants_ofArgs fun m hm => ?_
    obtain ⟨n, hn, hmn⟩ := List.mem_flatMap.mp (List.mem_eraseDups.mp hm)
    exact constants_spliced (h n hn) hmn

/-! ### Whole normal forms -/

theorem value_simplify (p : Literal → Bool) (n : Nnf) : n.simplify.value p = n.value p := by
  rw [simplify_eq]
  induction n with
  | const b => rfl
  | lit l => rfl
  | nary j args ih =>
    rw [simplifyRec, simplifyRecList_eq, value_merge, Junction.across_map, value_nary]
    exact Junction.across_congr ih

theorem eval_simplify (v : Assignment) (n : Nnf) : n.simplify.eval v = n.eval v := by
  rw [eval_eq_value, value_simplify, ← eval_eq_value]

theorem mem_occurrences_simplify {n : Nnf} {x : Var} (h : x ∈ n.simplify.occurrences) : x ∈ n.occurrences := by
  rw [simplify_eq] at h
  induction n with
  | const b => exact h
  | lit l => exact h
  | nary j args ih =>
    rw [simplifyRec, simplifyRecList_eq] at h
    obtain ⟨m, hm, hx⟩ := mem_occurrences_merge h
    obtain ⟨n, hn, rfl⟩ := List.mem_map.mp hm
    exact mem_occurrences_nary.mpr ⟨n, hn, ih n hn hx⟩

theorem innerConstants_simplify (n : Nnf) : n.simplify.innerConstants = [] := by
  rw [simplify_eq]
  induction n with
  | const b => rfl
  | lit l => rfl
  | nary j args ih =>
    rw [simplifyRec, simplifyRecList_eq]
    refine innerConstants_merge fun m hm => ?_
    obtain ⟨n, hn, rfl⟩ := List.mem_map.mp hm
    exact ih n hn

end NormalForms.Nnf
