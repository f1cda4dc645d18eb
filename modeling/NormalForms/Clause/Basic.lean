import NormalForms.Junction
import NormalForms.Literal

/-!
Clauses: finite sets of literals, kept as strictly ascending lists. Whether a clause stands for the
disjunction or the conjunction of its literals is decided by the normal form it is part of. -/

namespace NormalForms

structure Clause where
  literals : List Literal
  ascending : literals.Pairwise fun l m => compare l m = .lt

deriving instance DecidableEq for Clause

namespace Clause

/-! ### Order and membership -/

instance : Ord Clause := ⟨compareOn literals⟩

instance : Std.TransOrd Clause := inferInstanceAs (Std.TransCmp (compareOn literals))

instance : Std.LawfulEqOrd Clause where
  eq_of_compare {c d} h := by
    cases c
    cases d
    congr
    exact Std.LawfulEqOrd.eq_of_compare (α := List Literal) h

instance : Membership Literal Clause := ⟨fun c l => l ∈ c.literals⟩

theorem mem_def {l : Literal} {c : Clause} : l ∈ c ↔ l ∈ c.literals := Iff.rfl

def contains (c : Clause) (l : Literal) : Bool := c.literals.contains l

@[simp]
theorem contains_iff {c : Clause} {l : Literal} : c.contains l = true ↔ l ∈ c := by
  simp [contains, mem_def]

def size (c : Clause) : Nat := c.literals.length

/-! ### Insertion -/

def empty : Clause := ⟨[], .nil⟩

instance : Inhabited Clause := ⟨empty⟩

/-- Puts `l` into its place among ascending literals, unless it is there. -/
def insertLiteral (l : Literal) : List Literal → List Literal
  | [] => [l]
  | m :: ms =>
    match compare l m with
    | .lt => l :: m :: ms
    | .eq => m :: ms
    | .gt => m :: insertLiteral l ms

theorem mem_insertLiteral {l x : Literal} {ms : List Literal} :
    x ∈ insertLiteral l ms ↔ x = l ∨ x ∈ ms := by
  induction ms with
  | nil => simp [insertLiteral]
  | cons m ms ih =>
    simp only [insertLiteral]
    split
    · simp
    · rename_i h
      rw [Std.LawfulEqOrd.eq_of_compare h]
      simp
    · simp only [List.mem_cons, ih]
      constructor
      · rintro (h | h | h)
        · exact .inr (.inl h)
        · exact .inl h
        · exact .inr (.inr h)
      · rintro (h | h | h)
        · exact .inr (.inl h)
        · exact .inl h
        · exact .inr (.inr h)

theorem insertLiteral_ascending {l : Literal} {ms : List Literal}
    (h : ms.Pairwise fun a b => compare a b = .lt) :
    (insertLiteral l ms).Pairwise fun a b => compare a b = .lt := by
  induction ms with
  | nil => simp [insertLiteral]
  | cons m ms ih =>
    obtain ⟨hm, hms⟩ := List.pairwise_cons.mp h
    simp only [insertLiteral]
    split
    · rename_i hl
      refine List.pairwise_cons.mpr ⟨fun x hx => ?_, h⟩
      rcases List.mem_cons.mp hx with rfl | hx
      · exact hl
      · exact Std.TransCmp.lt_trans hl (hm x hx)
    · exact h
    · rename_i hl
      refine List.pairwise_cons.mpr ⟨fun x hx => ?_, ih hms⟩
      rcases mem_insertLiteral.mp hx with rfl | hx
      · exact Std.OrientedCmp.lt_of_gt hl
      · exact hm x hx

def insert (c : Clause) (l : Literal) : Clause :=
  ⟨insertLiteral l c.literals, insertLiteral_ascending c.ascending⟩

def insertMany (c : Clause) (ls : List Literal) : Clause := ls.foldl insert c

/-- The clause of the literals in a list, in which they may repeat. -/
def ofList (ls : List Literal) : Clause := empty.insertMany ls

def single (l : Literal) : Clause := empty.insert l

def union (c d : Clause) : Clause := c.insertMany d.literals

@[simp]
theorem mem_insert {c : Clause} {l x : Literal} : x ∈ c.insert l ↔ x = l ∨ x ∈ c := mem_insertLiteral

@[simp]
theorem not_mem_empty {x : Literal} : ¬x ∈ empty := by simp [mem_def, empty]

@[simp]
theorem mem_insertMany {c : Clause} {ls : List Literal} {x : Literal} :
    x ∈ c.insertMany ls ↔ x ∈ c ∨ x ∈ ls := by
  induction ls generalizing c with
  | nil => simp [insertMany]
  | cons l ls ih =>
    have step : c.insertMany (l :: ls) = (c.insert l).insertMany ls := rfl
    rw [step, ih, mem_insert, List.mem_cons]
    constructor
    · rintro ((h | h) | h)
      · exact .inr (.inl h)
      · exact .inl h
      · exact .inr (.inr h)
    · rintro (h | h | h)
      · exact .inl (.inr h)
      · exact .inl (.inl h)
      · exact .inr h

@[simp]
theorem mem_ofList {ls : List Literal} {x : Literal} : x ∈ ofList ls ↔ x ∈ ls := by simp [ofList]

@[simp]
theorem mem_single {l x : Literal} : x ∈ single l ↔ x = l := by simp [single]

@[simp]
theorem mem_union {c d : Clause} {x : Literal} : x ∈ c.union d ↔ x ∈ c ∨ x ∈ d := by
  simp [union, mem_def (c := d)]

theorem ext {c d : Clause} (h : ∀ l, l ∈ c ↔ l ∈ d) : c = d := by
  obtain ⟨ls, hls⟩ := c
  obtain ⟨ms, hms⟩ := d
  congr
  simp only [mem_def] at h
  induction ls generalizing ms with
  | nil =>
    cases ms with
    | nil => rfl
    | cons m ms => exact absurd ((h m).mpr (List.mem_cons_self ..)) (by simp)
  | cons l ls ih =>
    cases ms with
    | nil => exact absurd ((h l).mp (List.mem_cons_self ..)) (by simp)
    | cons m ms =>
      obtain ⟨hl, hls'⟩ := List.pairwise_cons.mp hls
      obtain ⟨hm, hms'⟩ := List.pairwise_cons.mp hms
      -- The least literals agree: each is in the other list, and cannot lie strictly above its head.
      have heads : l = m := by
        rcases List.mem_cons.mp ((h l).mp (List.mem_cons_self ..)) with e | hlm
        · exact e
        · rcases List.mem_cons.mp ((h m).mpr (List.mem_cons_self ..)) with e | hml
          · exact e.symm
          · have := Std.TransCmp.lt_trans (hl m hml) (hm l hlm)
            simp at this
      subst heads
      refine congrArg (l :: ·) (ih hls' ms hms' fun x => ?_)
      have hx := h x
      simp only [List.mem_cons] at hx
      constructor
      · intro hxl
        rcases hx.mp (.inr hxl) with rfl | hxm
        · have := hl x hxl
          simp at this
        · exact hxm
      · intro hxm
        rcases hx.mpr (.inr hxm) with rfl | hxl
        · have := hm x hxm
          simp at this
        · exact hxl

/-! ### Logic -/

/-- Whether a variable occurs in both polarities. -/
def isTautology (c : Clause) : Bool := c.literals.any fun l => !l.negated && c.contains l.complement

def subsumes (c d : Clause) : Bool := c.literals.all d.contains

/-- Whether a literal of `c` has its complement in `d`. -/
def clashes (c d : Clause) : Bool := c.literals.any fun l => d.contains l.complement

def «variables» (c : Clause) : List Var := (c.literals.map Literal.var).eraseDups

def eval (j : Junction) (v : Assignment) (c : Clause) : Bool := j.across c.literals fun l => l.eval v

def render (c : Clause) : String :=
  "[" ++ ", ".intercalate (c.literals.map fun l => l.render .ascii) ++ "]"

theorem subsumes_iff {c d : Clause} : c.subsumes d = true ↔ ∀ l ∈ c, l ∈ d := by
  simp [subsumes, mem_def]

theorem subsumes_refl (c : Clause) : c.subsumes c = true := subsumes_iff.mpr fun _ h => h

end Clause
end NormalForms
