import NormalForms.Formula.Render

/-!
Formulas in negation normal form: constants, literals, conjunctions and disjunctions. The normal
form is a type of its own, which has no other trees; `toFormula` embeds it in the formulas, and
`ofFormula?` reads it back. -/

namespace NormalForms

inductive Nnf
  | const (value : Bool)
  | lit (l : Literal)
  | nary (j : Junction) (args : List Nnf)

namespace Nnf

instance : Inhabited Nnf := ⟨const true⟩

/-- What holds of each normal form whose arguments it holds of holds of all normal forms. -/
@[elab_as_elim, induction_eliminator]
theorem induction {motive : Nnf → Prop} (const : ∀ b, motive (const b)) (lit : ∀ l, motive (lit l))
    (nary : ∀ j args, (∀ n ∈ args, motive n) → motive (nary j args)) (n : Nnf) : motive n :=
  @Nnf.rec motive (fun ns => ∀ n ∈ ns, motive n) const lit nary (fun _ h => nomatch h)
    (fun _ _ hn hns => List.forall_mem_cons.mpr ⟨hn, hns⟩) n

/-! ### Equality -/

mutual

def beq : Nnf → Nnf → Bool
  | const a, const b => a == b
  | lit l, lit m => l == m
  | nary i ms, nary j ns => i == j && beqList ms ns
  | _, _ => false

def beqList : List Nnf → List Nnf → Bool
  | [], [] => true
  | m :: ms, n :: ns => beq m n && beqList ms ns
  | _, _ => false

end

mutual

theorem beq_iff : ∀ m n : Nnf, beq m n = true ↔ m = n
  | const _, n => by cases n <;> simp [beq]
  | lit _, n => by cases n <;> simp [beq]
  | nary _ ms, n => by cases n <;> simp [beq, beqList_iff ms]

theorem beqList_iff : ∀ ms ns : List Nnf, beqList ms ns = true ↔ ms = ns
  | [], ns => by cases ns <;> simp [beqList]
  | m :: ms, ns => by cases ns <;> simp [beqList, beq_iff m, beqList_iff ms]

end

instance : DecidableEq Nnf := fun m n => decidable_of_iff (beq m n = true) (beq_iff m n)

/-! ### Shape -/

mutual

def size : Nnf → Nat
  | const _ | lit _ => 1
  | nary _ args => sizeList args + 1

def sizeList : List Nnf → Nat
  | [] => 0
  | n :: ns => n.size + sizeList ns

end

mutual

/-- The variables of all literals, from left to right. -/
def occurrences : Nnf → List Var
  | const _ => []
  | lit l => [l.var]
  | nary _ args => occurrencesList args

def occurrencesList : List Nnf → List Var
  | [] => []
  | n :: ns => n.occurrences ++ occurrencesList ns

end

/-- The variables, in the order of their first occurrences. -/
def «variables» (n : Nnf) : List Var := n.occurrences.eraseDups

/-- The arguments of the normal form, if it is a `j` of them. -/
def args? (j : Junction) : Nnf → Option (List Nnf)
  | nary i args => if i = j then some args else none
  | _ => none

/-! ### Meaning -/

mutual

def eval (v : Assignment) : Nnf → Bool
  | const b => b
  | lit l => l.eval v
  | nary j args => evalList v j args

def evalList (v : Assignment) (j : Junction) : List Nnf → Bool
  | [] => j.unit
  | n :: ns => if n.eval v = j.unit then evalList v j ns else !j.unit

end

mutual

def toFormula : Nnf → Formula
  | const b => .const b
  | lit l => .lit l
  | nary j args => .nary j (toFormulaList args)

def toFormulaList : List Nnf → List Formula
  | [] => []
  | n :: ns => n.toFormula :: toFormulaList ns

end

mutual

/-- A formula made of constants, variables, literals, conjunctions and disjunctions as the normal
    form of the same shape. A variable stands for its positive literal. -/
def ofFormula? : Formula → Option Nnf
  | .const b => some (const b)
  | .var x => some (lit (.pos x))
  | .lit l => some (lit l)
  | .nary j args => (ofFormulaList? args).map (nary j)
  | .not _ | .implies .. | .iff .. | .card .. | .quant .. => none

def ofFormulaList? : List Formula → Option (List Nnf)
  | [] => some []
  | f :: fs =>
    match ofFormula? f, ofFormulaList? fs with
    | some n, some ns => some (n :: ns)
    | _, _ => none

end

def render (s : Symbols) (n : Nnf) : String := n.toFormula.render s

def display (n : Nnf) : String := n.render .unicode

@[simp]
theorem occurrencesList_eq (ns : List Nnf) : occurrencesList ns = ns.flatMap occurrences := by
  induction ns with
  | nil => rfl
  | cons n ns ih => simp [occurrencesList, ih]

@[simp]
theorem evalList_eq (v : Assignment) (j : Junction) (ns : List Nnf) :
    evalList v j ns = j.across ns fun n => n.eval v := by
  induction ns with
  | nil => rw [evalList, Junction.across_nil]
  | cons n ns ih => rw [evalList, Junction.across_cons, ih]

@[simp]
theorem toFormulaList_eq (ns : List Nnf) : toFormulaList ns = ns.map toFormula := by
  induction ns with
  | nil => rfl
  | cons n ns ih => simp [toFormulaList, ih]

theorem size_pos (n : Nnf) : 0 < n.size := by cases n <;> simp [size]

end Nnf
end NormalForms
