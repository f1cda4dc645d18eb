import NormalForms.Names.Source
import Std.Data.TreeMap.Lemmas

/-!
Numberings of variables. Variables are numbered from 1 in the order in which they are registered, and
keep their numbers. The list of variables answers which variable has a number, and an ordered index
beside it which number a variable has; the type keeps the two in step.

A numbering is a source of names: it makes a name of the stem and a counter, which all stems share,
and passes over names that are registered. -/

namespace NormalForms

/-- Variables in the order of their numbers, with an index of the numbers. -/
structure Numbering where
  «variables» : List Var
  index : Std.TreeMap Var Nat compare
  counter : Nat
  index_iff : ∀ x i, index[x]? = some i ↔ 0 < i ∧ «variables»[i - 1]? = some x

namespace Numbering

def empty : Numbering where
  «variables» := []
  index := ∅
  counter := 0
  index_iff := by simp

instance : Inhabited Numbering := ⟨empty⟩

def count (m : Numbering) : Nat := m.variables.length

def index? (m : Numbering) (x : Var) : Option Nat := m.index[x]?

def var? (m : Numbering) : Nat → Option Var
  | 0 => none
  | i + 1 => m.variables[i]?

def contains (m : Numbering) (x : Var) : Bool := (m.index? x).isSome

theorem mem_of_index? {m : Numbering} {x : Var} {i : Nat} (h : m.index? x = some i) : x ∈ m.variables :=
  List.mem_of_getElem? ((m.index_iff x i).mp h).2

theorem index?_eq_none_iff {m : Numbering} {x : Var} : m.index? x = none ↔ x ∉ m.variables := by
  constructor
  · intro h hx
    obtain ⟨i, hi, rfl⟩ := List.getElem_of_mem hx
    have := (m.index_iff m.variables[i] (i + 1)).mpr ⟨Nat.succ_pos i, by simp⟩
    rw [index?, this] at h
    cases h
  · intro h
    cases hi : m.index? x with
    | none => rfl
    | some i => exact absurd (mem_of_index? hi) h

/-- Registers a variable that has no number. -/
def push (m : Numbering) (x : Var) (h : m.index? x = none) : Numbering where
  «variables» := m.variables ++ [x]
  index := m.index.insert x (m.count + 1)
  counter := m.counter
  index_iff := by
    intro y i
    have absent := index?_eq_none_iff.mp h
    rw [Std.TreeMap.getElem?_insert]
    split
    · rename_i e
      obtain rfl := Std.LawfulEqOrd.eq_of_compare e
      constructor
      · rintro ⟨⟩
        simp [count]
      · rintro ⟨hi, hx⟩
        rw [List.getElem?_append] at hx
        split at hx
        · exact absurd (List.mem_of_getElem? hx) absent
        · rename_i hlen
          obtain ⟨hlt, -⟩ := List.getElem?_eq_some_iff.mp hx
          simp only [List.length_singleton] at hlt
          rw [count]
          congr 1
          omega
    · rename_i ne
      rw [m.index_iff, List.getElem?_append]
      split
      · rfl
      · rename_i hlen
        rw [List.getElem?_eq_none (Nat.not_lt.mp hlen)]
        refine ⟨fun h => (nomatch h.2), fun h => ?_⟩
        have := List.mem_singleton.mp (List.mem_of_getElem? h.2)
        exact absurd (this ▸ Std.ReflCmp.compare_self) ne

/-- Registers a variable, unless it is registered, and gives its number. -/
def register (m : Numbering) (x : Var) : Nat × Numbering :=
  match h : m.index? x with
  | some i => (i, m)
  | none => (m.count + 1, m.push x h)

/-- The numbering of the variables in a list, in the order of their first occurrences. -/
def ofVars (xs : List Var) : Numbering := xs.foldl (fun m x => (m.register x).2) empty

/-! ### Fresh names -/

def numbered (stem : String) (k : Nat) : Var := ⟨stem ++ toString k⟩

/-- The least number from `k` on that makes an unregistered name, if it is among the first `fuel`. -/
def firstFree? (m : Numbering) (stem : String) : Nat → Nat → Option Nat
  | 0, _ => none
  | fuel + 1, k => if m.contains (numbered stem k) then m.firstFree? stem fuel (k + 1) else some k

/-- Registers the first unregistered name from the counter on, and moves the counter behind it. One
    name more than there are variables cannot all be registered, so the search finds one. -/
def fresh (stem : String) (m : Numbering) : Var × Numbering :=
  let k := (m.firstFree? stem (m.count + 1) m.counter).getD m.counter
  let x := numbered stem k
  (x, { (m.register x).2 with counter := k + 1 })

instance : NameSource Numbering where
  fresh := fresh

end Numbering
end NormalForms
