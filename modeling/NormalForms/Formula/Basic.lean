import NormalForms.Cardinality
import NormalForms.Junction
import NormalForms.Literal

/-!
Formulas of propositional logic with cardinality constraints. Quantified formulas belong to the type,
so that first-order input can be represented; evaluation and the normal forms reject them.

Recursion on a formula goes through its lists of arguments, so each function comes with a twin on
lists, and most twins with a lemma that says what they compute with `List.map`, `flatMap` or `all`.
Proofs by induction use `Formula.induction`, which gives the hypothesis for every member of a list. -/

namespace NormalForms

inductive Quantifier
  | existential
  | universal
deriving DecidableEq, Ord, Repr

/-- A formula. A variable and the positive literal of it are different formulas. -/
inductive Formula
  | const (value : Bool)
  | var (x : Var)
  | lit (l : Literal)
  | not (f : Formula)
  | nary (j : Junction) (args : List Formula)
  | implies (premise consequence : Formula)
  | iff (left right : Formula)
  | card (c : Cardinality) (args : List Formula)
  | quant (q : Quantifier) (xs : List Var) (body : Formula)

namespace Formula

instance : Inhabited Formula := ⟨const true⟩

abbrev all (args : List Formula) : Formula := nary .conj args

abbrev any (args : List Formula) : Formula := nary .disj args

/-! ### Induction -/

/-- What holds of each formula whose immediate subformulas it holds of holds of all formulas. -/
@[elab_as_elim, induction_eliminator]
theorem induction {motive : Formula → Prop} (const : ∀ b, motive (const b)) (var : ∀ x, motive (var x))
    (lit : ∀ l, motive (lit l)) (not : ∀ f, motive f → motive (not f))
    (nary : ∀ j args, (∀ f ∈ args, motive f) → motive (nary j args))
    (implies : ∀ p c, motive p → motive c → motive (implies p c))
    (iff : ∀ l r, motive l → motive r → motive (iff l r))
    (card : ∀ c args, (∀ f ∈ args, motive f) → motive (card c args))
    (quant : ∀ q xs f, motive f → motive (quant q xs f)) (f : Formula) : motive f :=
  @Formula.rec motive (fun fs => ∀ f ∈ fs, motive f) const var lit not nary implies iff card quant
    (fun _ h => nomatch h) (fun _ _ hf hfs => List.forall_mem_cons.mpr ⟨hf, hfs⟩) f

/-! ### Equality -/

mutual

def beq : Formula → Formula → Bool
  | const a, const b => a == b
  | var x, var y => x == y
  | lit l, lit m => l == m
  | not f, not g => beq f g
  | nary i fs, nary j gs => i == j && beqList fs gs
  | implies p c, implies q d => beq p q && beq c d
  | iff l r, iff m s => beq l m && beq r s
  | card c fs, card d gs => c == d && beqList fs gs
  | quant q xs f, quant r ys g => q == r && xs == ys && beq f g
  | _, _ => false

def beqList : List Formula → List Formula → Bool
  | [], [] => true
  | f :: fs, g :: gs => beq f g && beqList fs gs
  | _, _ => false

end

mutual

theorem beq_iff : ∀ f g : Formula, beq f g = true ↔ f = g
  | const _, g => by cases g <;> simp [beq]
  | var _, g => by cases g <;> simp [beq]
  | lit _, g => by cases g <;> simp [beq]
  | not f, g => by cases g <;> simp [beq, beq_iff f]
  | nary _ fs, g => by cases g <;> simp [beq, beqList_iff fs]
  | implies p c, g => by cases g <;> simp [beq, beq_iff p, beq_iff c]
  | iff l r, g => by cases g <;> simp [beq, beq_iff l, beq_iff r]
  | card _ fs, g => by cases g <;> simp [beq, beqList_iff fs]
  | quant _ _ f, g => by cases g <;> simp [beq, beq_iff f, and_assoc]

theorem beqList_iff : ∀ fs gs : List Formula, beqList fs gs = true ↔ fs = gs
  | [], gs => by cases gs <;> simp [beqList]
  | f :: fs, gs => by cases gs <;> simp [beqList, beq_iff f, beqList_iff fs]

end

instance : DecidableEq Formula := fun f g => decidable_of_iff (beq f g = true) (beq_iff f g)

/-! ### Shape -/

def children : Formula → List Formula
  | const _ | var _ | lit _ => []
  | not f => [f]
  | nary _ args => args
  | implies p c => [p, c]
  | iff l r => [l, r]
  | card _ args => args
  | quant _ _ f => [f]

mutual

def size : Formula → Nat
  | const _ | var _ | lit _ => 1
  | not f => f.size + 1
  | nary _ args => sizeList args + 1
  | implies p c => p.size + c.size + 1
  | iff l r => l.size + r.size + 1
  | card _ args => sizeList args + 1
  | quant _ _ f => f.size + 1

def sizeList : List Formula → Nat
  | [] => 0
  | f :: fs => f.size + sizeList fs

end

mutual

/-- The number of nodes on the longest path to a leaf. -/
def depth : Formula → Nat
  | const _ | var _ | lit _ => 1
  | not f => f.depth + 1
  | nary _ args => depthList args + 1
  | implies p c => max p.depth c.depth + 1
  | iff l r => max l.depth r.depth + 1
  | card _ args => depthList args + 1
  | quant _ _ f => f.depth + 1

def depthList : List Formula → Nat
  | [] => 0
  | f :: fs => max f.depth (depthList fs)

end

/-- The formula as a literal, if it is a variable or a literal. -/
def asLiteral? : Formula → Option Literal
  | var x => some (.pos x)
  | lit l => some l
  | _ => none

/-- The arguments of the formula, if it is a `j` of them. -/
def args? (j : Junction) : Formula → Option (List Formula)
  | nary i args => if i = j then some args else none
  | _ => none

def kind : Formula → String
  | const true => "true"
  | const false => "false"
  | var _ => "variable"
  | lit _ => "literal"
  | not _ => "not"
  | nary .conj _ => "and"
  | nary .disj _ => "or"
  | implies .. => "implies"
  | iff .. => "iff"
  | card c _ => c.word
  | quant .existential .. => "exists"
  | quant .universal .. => "forall"

theorem size_pos (f : Formula) : 0 < f.size := by cases f <;> simp [size]

end Formula
end NormalForms
