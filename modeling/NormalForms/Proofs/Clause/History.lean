import NormalForms.Proofs.Clause.Legible
import NormalForms.Proofs.Clause.Minimal

/-!
Histories of clause sets. A clause set holds its clauses twice, in a list and in an index, and most operations decide by
the index what becomes of the list. The same history is told with a list alone, where membership, repetition and
subsumption are looked up in the list itself. Main statement: after every history both stores of the set hold what
that one list does, so that what is answered from the index is true of the list. -/

namespace NormalForms.ClauseSet

/-- An operation on a clause set. Some of them put a new set in the place of the old one. -/
inductive Op
  | insert (c : Clause)
  | extend (cs : List Clause)
  | collect (cs : List Clause)
  | single (c : Clause)
  | removeSubsumed
  | read (form : Junction) (f : Formula)

/-- The set after an operation. A formula that cannot be read leaves the set as it was. -/
def after (S : ClauseSet) : Op → ClauseSet
  | .insert c => S.insert c
  | .extend cs => S.extend cs
  | .collect cs => ofList cs
  | .single c => .single c
  | .removeSubsumed => S.removeSubsumed
  | .read form f => (ofFormula? form f).getD S

/-- The set after a history, from the empty set on. -/
def run (ops : List Op) : ClauseSet := ops.foldl after empty

/-- What an operation makes of a list of distinct clauses. -/
def Op.list (cs : List Clause) : Op → List Clause
  | insert c => (cs ++ [c]).eraseDups
  | extend ds => (cs ++ ds).eraseDups
  | collect ds => ds.eraseDups
  | single c => [c]
  | removeSubsumed => sortOn Clause.size (Clause.minimal cs)
  | read form f => if f.isLegible form then ((f.writtenClauses form).map Clause.ofList).eraseDups else cs

/-- The list of distinct clauses after a history, from the empty list on. -/
def listed (ops : List Op) : List Clause := ops.foldl Op.list []

variable {S T : ClauseSet} {c : Clause}

theorem clauses_after (S : ClauseSet) (op : Op) : (S.after op).clauses = op.list S.clauses := by
  cases op with
  | insert c => exact S.clauses_insert c
  | extend cs => exact S.clauses_extend cs
  | collect cs => exact clauses_ofList cs
  | single c => rfl
  | removeSubsumed => exact S.clauses_removeSubsumed
  | read form f =>
    rw [after, Op.list, ofFormula?_eq]
    split
    · exact clauses_ofList _
    · rfl

theorem clauses_foldl_after (S : ClauseSet) (ops : List Op) : (ops.foldl after S).clauses = ops.foldl Op.list S.clauses := by
  induction ops generalizing S with
  | nil => rfl
  | cons op ops ih => rw [List.foldl_cons, List.foldl_cons, ih, clauses_after]

theorem clauses_run (ops : List Op) : (run ops).clauses = listed ops := clauses_foldl_after empty ops

theorem clauses_add (S : ClauseSet) (c : Clause) :
    (S.add c).2.clauses = if c ∈ S.clauses then S.clauses else S.clauses ++ [c] := by
  split
  · rename_i hc
    exact congrArg clauses (insert_of_mem hc)
  · rename_i hc
    exact clauses_insert_of_not_mem hc

theorem add_eq_true_iff : (S.add c).1 = true ↔ c ∉ S.clauses := by
  rw [add_fst, Bool.not_eq_true', ← Bool.not_eq_true, contains_iff, mem_def]

theorem sameClauses_iff_perm : S.sameClauses T = true ↔ S.clauses.Perm T.clauses :=
  sameClauses_iff.trans (List.perm_ext_iff_of_nodup S.nodup T.nodup).symm

/-- After every history the list of the set is the one that the history makes without an index, no clause stands in it
    twice, and the index holds the same clauses. So a clause is added, behind the others, exactly if the list lacks
    it; one that has just been dropped as subsumed is not found any more and can be added again; and two sets have the
    same clauses exactly if their lists are permutations of each other. -/
theorem list_and_index_agree_after_run (ops ops' : List Op) :
    (run ops).clauses = listed ops ∧ (listed ops).Nodup ∧ (∀ c, c ∈ (run ops).index ↔ c ∈ listed ops) ∧
      (∀ c, (((run ops).add c).1 = true ↔ c ∉ listed ops) ∧
        ((run ops).add c).2.clauses = if c ∈ listed ops then listed ops else listed ops ++ [c]) ∧
      (∀ c ∈ listed ops, c ∉ (run ops).removeSubsumed.clauses →
        (run ops).removeSubsumed.contains c = false ∧ ((run ops).removeSubsumed.add c).1 = true ∧
          ((run ops).removeSubsumed.add c).2.clauses = (run ops).removeSubsumed.clauses ++ [c]) ∧
      ((run ops).sameClauses (run ops') = true ↔ ∀ c, c ∈ (run ops).index ↔ c ∈ (run ops').index) ∧
      ((run ops).sameClauses (run ops') = true ↔ (listed ops).Perm (listed ops')) := by
  rw [← clauses_run, ← clauses_run]
  refine ⟨rfl, (run ops).nodup, (run ops).mem_index, fun c => ⟨add_eq_true_iff, clauses_add _ c⟩, fun c _ hc => ?_, ?_,
    sameClauses_iff_perm⟩
  · refine ⟨?_, add_eq_true_iff.mpr hc, (clauses_add _ c).trans (if_neg hc)⟩
    rwa [← Bool.not_eq_true, contains_iff]
  · simp only [sameClauses_iff, mem_index, mem_def]

/-- The clause of `a` and `b` is dropped for the clause of `a` alone, and can be added again behind the others. -/
theorem list_and_index_agree_after_run_of_dropped :
    let a := Clause.ofList [.pos ⟨"a"⟩]
    let ab := Clause.ofList [.pos ⟨"a"⟩, .pos ⟨"b"⟩]
    let c := Clause.ofList [.neg ⟨"c"⟩]
    let ops : List Op := [.collect [ab, c, ab], .insert a]
    ab ∈ listed ops ∧ (run ops).removeSubsumed.clauses = [c, a] ∧ (run ops).removeSubsumed.contains ab = false ∧
      ((run ops).removeSubsumed.add ab).1 = true ∧ ((run ops).removeSubsumed.add ab).2.clauses = [c, a, ab] := by
  intro a ab c ops
  have present : ab ∈ listed ops := by decide
  have left : (run ops).removeSubsumed.clauses = [c, a] := by decide
  have dropped : ab ∉ (run ops).removeSubsumed.clauses := by
    rw [left]
    decide
  obtain ⟨-, -, -, -, again, -⟩ := list_and_index_agree_after_run ops []
  obtain ⟨absent, added, clauses⟩ := again ab present dropped
  rw [left] at clauses
  exact ⟨present, left, absent, added, clauses⟩

end NormalForms.ClauseSet
