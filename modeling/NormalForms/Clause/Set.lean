import NormalForms.Clause.Basic
import NormalForms.StableSort

/-!
Clause sets: distinct clauses in the order of insertion, beside an ordered index of the same clauses
that answers membership. The list and the index are kept in step by the type: every operation below
rebuilds or extends both.

`removeSubsumed` keeps the minimal clauses and orders them by their number of literals. -/

namespace NormalForms

/-- Distinct clauses in the order of insertion, with an index of them. -/
structure ClauseSet where
  clauses : List Clause
  index : Std.TreeSet Clause compare
  nodup : clauses.Nodup
  mem_index : ∀ c, c ∈ index ↔ c ∈ clauses

namespace ClauseSet

instance : Membership Clause ClauseSet := ⟨fun S c => c ∈ S.clauses⟩

theorem mem_def {c : Clause} {S : ClauseSet} : c ∈ S ↔ c ∈ S.clauses := Iff.rfl

/-- Whether `c` is in the set, by the index. -/
def contains (S : ClauseSet) (c : Clause) : Bool := S.index.contains c

@[simp]
theorem contains_iff {S : ClauseSet} {c : Clause} : S.contains c = true ↔ c ∈ S := by
  rw [contains, Std.TreeSet.contains_iff_mem, S.mem_index, mem_def]

def size (S : ClauseSet) : Nat := S.clauses.length

def literalCount (S : ClauseSet) : Nat := S.clauses.foldl (fun k c => k + c.size) 0

/-! ### Insertion -/

def empty : ClauseSet where
  clauses := []
  index := ∅
  nodup := .nil
  mem_index := by simp

instance : Inhabited ClauseSet := ⟨empty⟩

/-- Puts a clause that is absent behind the others. -/
def push (S : ClauseSet) (c : Clause) (h : c ∉ S.clauses) : ClauseSet where
  clauses := S.clauses ++ [c]
  index := S.index.insert c
  nodup := by
    rw [List.nodup_append]
    refine ⟨S.nodup, by simp, fun a ha b hb => ?_⟩
    rintro rfl
    exact h (List.mem_singleton.mp hb ▸ ha)
  mem_index := by
    intro d
    rw [Std.TreeSet.mem_insert, S.mem_index, Std.LawfulEqOrd.compare_eq_iff_eq, List.mem_append,
      List.mem_singleton]
    constructor
    · rintro (rfl | h)
      · exact .inr rfl
      · exact .inl h
    · rintro (h | rfl)
      · exact .inr h
      · exact .inl rfl

/-- Adds a clause unless it is present, and tells whether it was added. -/
def add (S : ClauseSet) (c : Clause) : Bool × ClauseSet :=
  if h : S.contains c = true then (false, S)
  else (true, S.push c fun hc => h (contains_iff.mpr hc))

def insert (S : ClauseSet) (c : Clause) : ClauseSet := (S.add c).2

def extend (S : ClauseSet) (cs : List Clause) : ClauseSet := cs.foldl insert S

/-- The set of the clauses in a list, in the order of their first occurrences. -/
def ofList (cs : List Clause) : ClauseSet := empty.extend cs

def single (c : Clause) : ClauseSet := ofList [c]

@[simp]
theorem add_fst (S : ClauseSet) (c : Clause) : (S.add c).1 = !S.contains c := by
  unfold add
  split <;> simp_all

theorem insert_of_mem {S : ClauseSet} {c : Clause} (h : c ∈ S) : S.insert c = S := by
  simp [insert, add, h]

theorem clauses_insert_of_not_mem {S : ClauseSet} {c : Clause} (h : c ∉ S) :
    (S.insert c).clauses = S.clauses ++ [c] := by
  simp [insert, add, h, push]

/-! ### Subsumption -/

/-- Keeps `c` behind `kept` unless a clause among them subsumes it. -/
def keepUnsubsumed (kept : List Clause) (c : Clause) : List Clause :=
  if kept.any fun k => k.subsumes c then kept else kept ++ [c]

/-- The clauses that no clause kept before them subsumes. -/
def unsubsumed (cs : List Clause) : List Clause := cs.foldl keepUnsubsumed []

theorem keepUnsubsumed_nodup {kept : List Clause} {c : Clause} (h : kept.Nodup) :
    (keepUnsubsumed kept c).Nodup := by
  unfold keepUnsubsumed
  split
  · exact h
  · rename_i hc
    rw [List.nodup_append]
    refine ⟨h, by simp, fun a ha b hb => ?_⟩
    rintro rfl
    obtain rfl := List.mem_singleton.mp hb
    exact hc (List.any_eq_true.mpr ⟨a, ha, a.subsumes_refl⟩)

theorem unsubsumed_nodup (cs : List Clause) : (unsubsumed cs).Nodup := by
  suffices keep : ∀ kept : List Clause, kept.Nodup → (cs.foldl keepUnsubsumed kept).Nodup from keep [] .nil
  induction cs with
  | nil => exact fun _ h => h
  | cons c cs ih => exact fun kept h => ih _ (keepUnsubsumed_nodup h)

/-- Drops every clause that another clause of the set subsumes, and orders the rest by the number
    of literals. Clauses of one length keep their order. -/
def removeSubsumed (S : ClauseSet) : ClauseSet where
  clauses := unsubsumed (sortOn Clause.size S.clauses)
  index := Std.TreeSet.ofList (unsubsumed (sortOn Clause.size S.clauses)) compare
  nodup := unsubsumed_nodup _
  mem_index := by simp [Std.TreeSet.mem_ofList]

/-! ### Comparison -/

/-- Whether both sets have the same clauses in the same order. -/
instance : BEq ClauseSet := ⟨fun S T => S.clauses == T.clauses⟩

def sameClauses (S T : ClauseSet) : Bool := S.clauses.all T.contains && T.clauses.all S.contains

/-! ### Logic -/

/-- The variables, in the order of their first occurrences. -/
def «variables» (S : ClauseSet) : List Var :=
  (S.clauses.flatMap fun c => c.literals.map Literal.var).eraseDups

/-- The truth value of the set as the clauses of a `j` normal form. -/
def eval (j : Junction) (v : Assignment) (S : ClauseSet) : Bool :=
  j.across S.clauses fun c => c.eval j.dual v

def render (S : ClauseSet) : String :=
  "\x7b" ++ ", ".intercalate (S.clauses.map Clause.render) ++ "\x7d"

end ClauseSet
end NormalForms
