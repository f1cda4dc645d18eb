import Mathlib.Data.List.Nodup
import Mathlib.Data.List.Perm.Subperm
import Mathlib.Order.Bounds.Defs
import NormalForms.Names.Numbering
import NormalForms.Proofs.Distinct
import Std.Data.String.ToNat

/-!
Numberings. The registered names are distinct, a name has a number exactly if the number has the name, and what is
registered later comes behind what is registered before. Names of one stem differ if their counters do, so among one
name more than there are variables at least one is unregistered, and a search without a bound ends within that many
rounds, with the least counter that makes an unregistered name. -/

namespace NormalForms.Numbering

variable {m : Numbering} {stem : String} {k fuel i j : Nat} {x : Var}

theorem contains_iff : m.contains x = true ↔ x ∈ m.variables := by
  rw [contains, Option.isSome_iff_ne_none, Ne, index?_eq_none_iff]
  exact Decidable.not_not

/-- A variable that is registered twice would have two numbers in the index. -/
theorem nodup_variables (m : Numbering) : m.variables.Nodup := by
  rw [List.nodup_iff_getElem?_ne_getElem?]
  intro i j hij hj heq
  have later : m.variables[j]? = some m.variables[j] := List.getElem?_eq_getElem hj
  have number_i := (m.index_iff m.variables[j] (i + 1)).mpr ⟨Nat.succ_pos i, heq.trans later⟩
  have number_j := (m.index_iff m.variables[j] (j + 1)).mpr ⟨Nat.succ_pos j, later⟩
  have same := Option.some.inj (number_i.symm.trans number_j)
  omega

/-! ### Names and numbers -/

theorem index?_iff_var? : m.index? x = some i ↔ m.var? i = some x := by
  rw [index?, m.index_iff]
  cases i with
  | zero => simp [var?]
  | succ i => simp [var?]

theorem exists_var?_iff : (∃ x, m.var? i = some x) ↔ 1 ≤ i ∧ i ≤ m.count := by
  cases i with
  | zero => simp [var?]
  | succ i =>
    have inside : (∃ x, m.var? (i + 1) = some x) ↔ i < m.variables.length := by
      rw [var?, ← Option.isSome_iff_exists, isSome_getElem?]
    exact inside.trans ⟨fun h => ⟨Nat.le_add_left 1 i, h⟩, And.right⟩

/-- A numbering that goes on with more variables gives the same numbers the same names. -/
theorem var?_of_prefix {m' : Numbering} (h : m.variables <+: m'.variables) (hx : m.var? i = some x) :
    m'.var? i = some x := by
  cases i with
  | zero => exact hx
  | succ i =>
    obtain ⟨rest, hrest⟩ := h
    obtain ⟨hi, -⟩ := List.getElem?_eq_some_iff.mp hx
    rw [var?, ← hrest, List.getElem?_append_left hi]
    exact hx

/-! ### Registration -/

theorem variables_register_of_not_mem (h : x ∉ m.variables) : (m.register x).2.variables = m.variables ++ [x] := by
  unfold register
  split
  · rename_i i hi
    exact absurd (mem_of_index? hi) h
  · rfl

theorem variables_register_of_mem (h : x ∈ m.variables) : (m.register x).2.variables = m.variables := by
  unfold register
  split
  · rfl
  · rename_i hnone
    exact absurd h (index?_eq_none_iff.mp hnone)

/-- A variable comes behind the others, unless it is among them. -/
theorem variables_register (m : Numbering) (x : Var) : (m.register x).2.variables = (m.variables ++ [x]).eraseDups := by
  by_cases h : x ∈ m.variables
  · rw [variables_register_of_mem h, eraseDups_concat_of_mem h, eraseDups_of_nodup m.nodup_variables]
  · rw [variables_register_of_not_mem h, eraseDups_concat_of_not_mem h, eraseDups_of_nodup m.nodup_variables]

theorem variables_foldl_register (m : Numbering) (xs : List Var) :
    (xs.foldl (fun m x => (m.register x).2) m).variables = (m.variables ++ xs).eraseDups := by
  induction xs generalizing m with
  | nil => rw [List.foldl_nil, List.append_nil, eraseDups_of_nodup m.nodup_variables]
  | cons x xs ih =>
    rw [List.foldl_cons, ih, variables_register, eraseDups_eraseDups_append, List.append_assoc, List.singleton_append]

theorem variables_ofVars (xs : List Var) : (ofVars xs).variables = xs.eraseDups := variables_foldl_register empty xs

/-! ### The search for a name -/

theorem numbered_inj (h : numbered stem i = numbered stem j) : i = j := by
  have names : stem ++ i.repr = stem ++ j.repr := congrArg Var.name h
  rw [String.append_right_inj] at names
  exact Nat.repr_inj.mp names

theorem not_mem_of_firstFree? (h : m.firstFree? stem fuel k = some i) : numbered stem i ∉ m.variables := by
  induction fuel generalizing k with
  | zero => cases h
  | succ fuel ih =>
    rw [firstFree?] at h
    split at h
    · exact ih h
    · rename_i hk
      cases h
      exact fun hmem => hk (contains_iff.mpr hmem)

theorem mem_of_firstFree?_eq_none (h : m.firstFree? stem fuel k = none) (hi : i < fuel) :
    numbered stem (k + i) ∈ m.variables := by
  induction fuel generalizing k i with
  | zero => exact absurd hi (Nat.not_lt_zero i)
  | succ fuel ih =>
    rw [firstFree?] at h
    split at h
    · rename_i hk
      cases i with
      | zero => exact contains_iff.mp hk
      | succ i =>
        have next := ih h (Nat.lt_of_succ_lt_succ hi)
        rwa [show k + 1 + i = k + (i + 1) by omega] at next
    · cases h

/-- The search has fuel for one name more than there are variables. -/
theorem firstFree?_ne_none (m : Numbering) (stem : String) (k : Nat) : m.firstFree? stem (m.count + 1) k ≠ none := by
  intro h
  have names : ((List.range (m.count + 1)).map fun i => numbered stem (k + i)).Nodup := by
    refine List.Nodup.map (fun i j hij => ?_) List.nodup_range
    have := numbered_inj hij
    omega
  have registered : ((List.range (m.count + 1)).map fun i => numbered stem (k + i)) ⊆ m.variables := by
    intro x hx
    obtain ⟨i, hi, rfl⟩ := List.mem_map.mp hx
    exact mem_of_firstFree?_eq_none h (List.mem_range.mp hi)
  have := (names.subperm registered).length_le
  rw [List.length_map, List.length_range, count] at this
  omega

/-- The name that is handed out is the one that the search finds, and the counter stands behind it. -/
theorem exists_firstFree?_fresh (stem : String) (m : Numbering) :
    ∃ i, m.firstFree? stem (m.count + 1) m.counter = some i ∧ (m.fresh stem).1 = numbered stem i ∧
      (m.fresh stem).2.counter = i + 1 := by
  obtain ⟨i, hi⟩ := Option.ne_none_iff_exists'.mp (firstFree?_ne_none m stem m.counter)
  refine ⟨i, hi, ?_⟩
  unfold fresh
  dsimp only
  rw [hi, Option.getD_some]
  exact ⟨rfl, rfl⟩

theorem fresh_not_mem (stem : String) (m : Numbering) : (m.fresh stem).1 ∉ m.variables := by
  obtain ⟨i, hi, hfresh, -⟩ := exists_firstFree?_fresh stem m
  rw [hfresh]
  exact not_mem_of_firstFree? hi

theorem variables_fresh (stem : String) (m : Numbering) :
    (m.fresh stem).2.variables = m.variables ++ [(m.fresh stem).1] :=
  variables_register_of_not_mem (fresh_not_mem stem m)

theorem index?_fresh (stem : String) (m : Numbering) :
    (m.fresh stem).2.index? (m.fresh stem).1 = some (m.count + 1) := by
  rw [index?_iff_var?, var?, variables_fresh, count, List.getElem?_concat_length]

/-- The search for a name without a bound, from the counter `k` on: it ends at the counter `i`, in its last one of a
    number of rounds. Each round looks at one name, and goes on with the next counter if the name is registered. -/
inductive Searches (m : Numbering) (stem : String) : Nat → Nat → Nat → Prop
  | ends {k : Nat} : m.contains (numbered stem k) = false → Searches m stem k k 1
  | goesOn {k i rounds : Nat} : m.contains (numbered stem k) = true → Searches m stem (k + 1) i rounds →
      Searches m stem k i (rounds + 1)

theorem exists_searches (h : m.firstFree? stem fuel k = some i) : ∃ rounds ≤ fuel, m.Searches stem k i rounds := by
  induction fuel generalizing k with
  | zero => cases h
  | succ fuel ih =>
    rw [firstFree?] at h
    split at h
    · rename_i hk
      obtain ⟨rounds, hle, search⟩ := ih h
      exact ⟨rounds + 1, Nat.succ_le_succ hle, .goesOn hk search⟩
    · rename_i hk
      cases h
      exact ⟨1, Nat.succ_le_succ (Nat.zero_le fuel), .ends (Bool.eq_false_iff.mpr hk)⟩

theorem Searches.add_rounds {rounds : Nat} (h : m.Searches stem k i rounds) : k + rounds = i + 1 := by
  induction h with
  | ends => rfl
  | goesOn _ _ ih => omega

/-- The search passes over registered names only. -/
theorem Searches.isLeast {rounds : Nat} (h : m.Searches stem k i rounds) :
    IsLeast {l | k ≤ l ∧ m.contains (numbered stem l) = false} i := by
  induction h with
  | ends hk => exact ⟨⟨Nat.le_refl _, hk⟩, fun l hl => hl.1⟩
  | @goesOn k i rounds hk _ ih =>
    obtain ⟨⟨hi, free⟩, least⟩ := ih
    refine ⟨⟨Nat.le_of_succ_le hi, free⟩, fun l hl => least ⟨Nat.lt_of_le_of_ne hl.1 ?_, hl.2⟩⟩
    rintro rfl
    exact absurd hk (by rw [hl.2]; decide)

theorem exists_searches_fresh (stem : String) (m : Numbering) :
    ∃ i rounds, m.Searches stem m.counter i rounds ∧ rounds ≤ m.count + 1 ∧ (m.fresh stem).1 = numbered stem i ∧
      (m.fresh stem).2.counter = i + 1 := by
  obtain ⟨i, hi, hfresh, hcounter⟩ := exists_firstFree?_fresh stem m
  obtain ⟨rounds, hle, search⟩ := exists_searches hi
  exact ⟨i, rounds, search, hle, hfresh, hcounter⟩

/-! ### Sources that keep a numbering -/

/-- Whether a source hands out the names of the numbering that it keeps, and registers them there. -/
def DrawnBy {σ : Type} [NameSource σ] (numbering : σ → Numbering) : Prop :=
  ∀ stem s, Prod.map id numbering (NameSource.fresh stem s) = (numbering s).fresh stem

theorem drawnBy_id : DrawnBy (id : Numbering → Numbering) := fun _ _ => rfl

theorem DrawnBy.variables_fresh {σ : Type} [NameSource σ] {numbering : σ → Numbering} (h : DrawnBy numbering)
    (stem : String) (s : σ) : (numbering (NameSource.fresh stem s).2).variables =
      (numbering s).variables ++ [(NameSource.fresh stem s).1] := by
  have fresh := Numbering.variables_fresh stem (numbering s)
  rwa [← h stem s] at fresh

end NormalForms.Numbering
