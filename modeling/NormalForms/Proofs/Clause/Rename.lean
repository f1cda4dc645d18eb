import NormalForms.Proofs.Clause.Size
import NormalForms.Proofs.StableSort

/-!
Renamings of literals. Nothing that is done with clauses and clause sets looks at names or polarities, except for which
literals are the same and which are complementary: every operation on renamed clauses has the renamed result,
with the clauses in the same order. -/

namespace NormalForms

/-- A map of literals that keeps distinct literals distinct and complementary ones complementary: it renames the
    variables and may exchange the polarities of some. -/
structure Renaming where
  map : Literal → Literal
  injective : Function.Injective map
  map_complement : ∀ l, map l.complement = (map l).complement

/-- The renaming that takes every literal to its complement. -/
def Renaming.flip : Renaming where
  map := Literal.complement
  injective := Function.Involutive.injective Literal.complement_complement
  map_complement _ := rfl

/-- The renaming by a map of variables that keeps distinct ones distinct, with the polarity of some variables
    exchanged. -/
def Renaming.ofVars (ρ : Var → Var) (hρ : Function.Injective ρ) (flipped : Var → Bool) : Renaming where
  map l := ⟨l.negated != flipped l.var, ρ l.var⟩
  injective := by
    rintro ⟨b, x⟩ ⟨c, y⟩ h
    obtain ⟨signs, names⟩ := Literal.mk.inj h
    obtain rfl : x = y := hρ names
    simpa using signs
  map_complement l := by simp [Literal.complement]

variable {φ : Renaming}

/-! ### Clauses -/

namespace Clause

variable {c d : Clause} {l : Literal}

/-- The clause of the renamed literals. -/
def rename (φ : Renaming) (c : Clause) : Clause := ofList (c.literals.map φ.map)

theorem mem_rename : l ∈ c.rename φ ↔ ∃ m ∈ c, φ.map m = l := by
  rw [rename, mem_ofList, List.mem_map]
  rfl

@[simp]
theorem map_mem_rename : φ.map l ∈ c.rename φ ↔ l ∈ c := by
  rw [mem_rename]
  constructor
  · rintro ⟨m, hm, h⟩
    rwa [← φ.injective h]
  · exact fun h => ⟨l, h, rfl⟩

theorem rename_injective (φ : Renaming) : Function.Injective (rename φ) := by
  intro c d h
  exact ext fun l => by rw [← map_mem_rename (φ := φ), h, map_mem_rename]

@[simp]
theorem size_rename (φ : Renaming) (c : Clause) : (c.rename φ).size = c.size := by
  rw [rename, size_ofList_eq_iff.mpr (c.nodup_literals.map φ.injective), List.length_map]
  rfl

theorem rename_empty (φ : Renaming) : empty.rename φ = empty := rfl

theorem rename_union (φ : Renaming) (c d : Clause) : (c.union d).rename φ = (c.rename φ).union (d.rename φ) := by
  refine ext fun l => ?_
  simp only [mem_union, mem_rename, or_and_right, exists_or]

theorem clashes_rename (φ : Renaming) (c d : Clause) : (c.rename φ).clashes (d.rename φ) = c.clashes d := by
  rw [Bool.eq_iff_iff, clashes_iff, clashes_iff]
  constructor
  · rintro ⟨l, hl, hl'⟩
    obtain ⟨m, hm, rfl⟩ := mem_rename.mp hl
    rw [← φ.map_complement, map_mem_rename] at hl'
    exact ⟨m, hm, hl'⟩
  · rintro ⟨l, hl, hl'⟩
    refine ⟨φ.map l, map_mem_rename.mpr hl, ?_⟩
    rwa [← φ.map_complement, map_mem_rename]

theorem subsumes_rename (φ : Renaming) (c d : Clause) : (c.rename φ).subsumes (d.rename φ) = c.subsumes d := by
  rw [Bool.eq_iff_iff, subsumes_iff, subsumes_iff]
  constructor
  · exact fun h l hl => map_mem_rename.mp (h _ (map_mem_rename.mpr hl))
  · intro h l hl
    obtain ⟨m, hm, rfl⟩ := mem_rename.mp hl
    exact map_mem_rename.mpr (h m hm)

end Clause

/-! ### Clause sets -/

namespace ClauseSet

variable {S T : ClauseSet} {Ss Ts : List ClauseSet} {c : Clause} {cs : List Clause}

/-- Whether the clauses of `T` are those of `S`, renamed and in the same order. -/
def Renames (φ : Renaming) (S T : ClauseSet) : Prop := T.clauses = S.clauses.map (Clause.rename φ)

theorem renames_empty (φ : Renaming) : empty.Renames φ empty := rfl

theorem renames_single (φ : Renaming) (c : Clause) : (single c).Renames φ (single (c.rename φ)) := rfl

theorem unsubsumed_map (φ : Renaming) (cs kept : List Clause) :
    (cs.map (Clause.rename φ)).foldl keepUnsubsumed (kept.map (Clause.rename φ)) =
      (cs.foldl keepUnsubsumed kept).map (Clause.rename φ) := by
  induction cs generalizing kept with
  | nil => rfl
  | cons c cs ih =>
    have step : keepUnsubsumed (kept.map (Clause.rename φ)) (c.rename φ) =
        (keepUnsubsumed kept c).map (Clause.rename φ) := by
      simp only [keepUnsubsumed, List.any_map, Function.comp_def, Clause.subsumes_rename]
      split
      · rfl
      · rw [List.map_append, List.map_singleton]
    rw [List.map_cons, List.foldl_cons, step, ih, List.foldl_cons]

namespace Renames

theorem contains_eq (h : S.Renames φ T) (c : Clause) : T.contains (c.rename φ) = S.contains c := by
  rw [Bool.eq_iff_iff, contains_iff, contains_iff, mem_def, h, List.mem_map_of_injective (Clause.rename_injective φ)]
  rfl

theorem size_eq (h : S.Renames φ T) : S.size = T.size := by rw [size, size, h, List.length_map]

theorem literalCount_eq (h : S.Renames φ T) : T.literalCount = S.literalCount := by
  rw [ClauseSet.literalCount_eq, ClauseSet.literalCount_eq, h, Clause.totalSize, List.map_map]
  exact congrArg List.sum (List.map_congr_left fun c _ => Clause.size_rename φ c)

theorem insert (h : S.Renames φ T) (c : Clause) : (S.insert c).Renames φ (T.insert (c.rename φ)) := by
  have present := h.contains_eq c
  by_cases hc : c ∈ S
  · have hT : c.rename φ ∈ T := by rwa [← contains_iff, present, contains_iff]
    rwa [insert_of_mem hc, insert_of_mem hT]
  · have hT : c.rename φ ∉ T := by rwa [← contains_iff, present, contains_iff]
    rw [Renames, clauses_insert_of_not_mem hc, clauses_insert_of_not_mem hT, h, List.map_append, List.map_singleton]

theorem extend (h : S.Renames φ T) (cs : List Clause) :
    (S.extend cs).Renames φ (T.extend (cs.map (Clause.rename φ))) := by
  induction cs generalizing S T with
  | nil => exact h
  | cons c cs ih => exact ih (h.insert c)

theorem ofList (h : S.Renames φ T) : (ofList S.clauses).Renames φ (ofList T.clauses) := by
  rw [h]
  exact (renames_empty φ).extend S.clauses

theorem removeSubsumed (h : S.Renames φ T) : S.removeSubsumed.Renames φ T.removeSubsumed := by
  have sorted : sortOn Clause.size T.clauses = (sortOn Clause.size S.clauses).map (Clause.rename φ) := by
    rw [h]
    exact sortOn_map _ (fun c => (Clause.size_rename φ c).symm) S.clauses
  show unsubsumed (sortOn Clause.size T.clauses) = (unsubsumed (sortOn Clause.size S.clauses)).map _
  rw [sorted]
  exact unsubsumed_map φ _ []

theorem foldl_extend (h : S.Renames φ T) (hs : List.Forall₂ (Renames φ) Ss Ts) :
    (Ss.foldl (fun S T => S.extend T.clauses) S).Renames φ (Ts.foldl (fun S T => S.extend T.clauses) T) := by
  induction hs generalizing S T with
  | nil => exact h
  | cons hST hs ih =>
    refine ih ?_
    dsimp only
    rw [hST]
    exact h.extend _

end Renames
end ClauseSet
end NormalForms
