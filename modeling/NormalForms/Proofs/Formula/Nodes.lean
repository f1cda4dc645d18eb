import NormalForms.Proofs.Nnf.OfFormula

/-!
The nodes of a formula from the root down and from left to right, and where its negation normal form fails. A
formula is malformed by the first of its nodes that is ill-formed. Without one, writing it in the basis stops at the
first quantified node; and what is written in the basis holds no node at which pushing the negations could stop. -/

namespace NormalForms

namespace Formula

/-! ### Nodes -/

mutual

/-- The formula and its subformulas, each before those below it and those to the right of it. -/
def nodes : Formula → List Formula
  | const b => [const b]
  | var x => [var x]
  | lit l => [lit l]
  | not f => not f :: f.nodes
  | nary j args => nary j args :: nodesList args
  | implies p c => implies p c :: (p.nodes ++ c.nodes)
  | iff l r => iff l r :: (l.nodes ++ r.nodes)
  | card c args => card c args :: nodesList args
  | quant q xs f => quant q xs f :: f.nodes

/-- The nodes of all formulas of a list, from left to right. -/
def nodesList : List Formula → List Formula
  | [] => []
  | f :: fs => f.nodes ++ nodesList fs

end

theorem nodesList_eq_flatMap (fs : List Formula) : nodesList fs = fs.flatMap nodes := by
  induction fs with
  | nil => rfl
  | cons f fs ih => rw [nodesList, ih, List.flatMap_cons]

/-- What is wrong with the root: a range that contains no number, or a quantifier that binds nothing. -/
def violation? : Formula → Option Defect
  | card (.between lower upper) _ => if upper < lower then some (.badBounds lower upper) else none
  | quant q xs f => if xs.isEmpty then some (.emptyQuantifier (quant q xs f)) else none
  | const _ | var _ | lit _ | not _ | nary .. | implies .. | iff .. | card .. => none

/-- Whether the root is a quantifier. -/
def isQuantified : Formula → Bool
  | quant .. => true
  | const _ | var _ | lit _ | not _ | nary .. | implies .. | iff .. | card .. => false

variable {f g p c : Formula} {fs gs : List Formula} {d : Defect}

/-! ### Violations -/

theorem listDefect?_nodesList (ih : ∀ f ∈ fs, f.defect? = f.nodes.findSome? violation?) :
    listDefect? fs = (nodesList fs).findSome? violation? := by
  induction fs with
  | nil => rfl
  | cons f fs ihs =>
    rw [listDefect?, nodesList, List.findSome?_append, ih f List.mem_cons_self,
      ihs fun g hg => ih g (List.mem_cons_of_mem f hg)]

/-- The defect of a formula is the first violation among its nodes. -/
theorem defect?_eq (f : Formula) : f.defect? = f.nodes.findSome? violation? := by
  induction f with
  | const b => rfl
  | var x => rfl
  | lit l => rfl
  | not f ih => exact ih
  | nary j args ih => exact listDefect?_nodesList ih
  | implies p c ihp ihc =>
    rw [defect?, ihp, ihc, ← List.findSome?_append]
    rfl
  | iff l r ihl ihr =>
    rw [defect?, ihl, ihr, ← List.findSome?_append]
    rfl
  | card c args ih =>
    have root : (card c args).violation? = c.defect? := by cases c <;> rfl
    rw [defect?, listDefect?_nodesList ih, nodes, List.findSome?_cons, root]
    cases c.defect? <;> rfl
  | quant q xs f ih =>
    rw [defect?, nodes, List.findSome?_cons, violation?, ih]
    split <;> rfl

theorem validate_eq_error_iff : f.validate = .error d ↔ f.nodes.findSome? violation? = some d := by
  rw [validate, defect?_eq]
  cases f.nodes.findSome? violation? <;> simp

theorem validate_eq_ok_iff : f.validate = .ok () ↔ f.nodes.findSome? violation? = none := by
  rw [validate, defect?_eq]
  cases f.nodes.findSome? violation? <;> simp

/-! ### Quantified nodes -/

/-- Whether a stage stops at a formula that it does not support, or has a result if there is none. -/
def StopsAt {α : Type} (r : Except Failure α) : Option Formula → Prop
  | some q => r = .error (.unsupported q)
  | none => ∃ a, r = .ok a

section
variable {α β : Type} {r : Except Failure α} {next : α → Except Failure β} {at? at?' : Option Formula}

theorem stopsAt_pure (a : α) : StopsAt (pure a) none := ⟨a, rfl⟩

theorem StopsAt.bind (h : StopsAt r at?) (hnext : ∀ a, StopsAt (next a) at?') : StopsAt (r >>= next) (at?.or at?') := by
  cases at? with
  | some q =>
    rw [show r = .error (.unsupported q) from h]
    rfl
  | none =>
    obtain ⟨a, rfl⟩ := h
    exact hnext a

theorem StopsAt.map (h : StopsAt r at?) (f : α → β) : StopsAt (r.map f) at? := by
  cases at? with
  | some q =>
    rw [show r = .error (.unsupported q) from h]
    rfl
  | none =>
    obtain ⟨a, rfl⟩ := h
    exact ⟨f a, rfl⟩

theorem StopsAt.eq_error_iff {failure : Failure} (h : StopsAt r at?) :
    r = .error failure ↔ ∃ q, at? = some q ∧ failure = .unsupported q := by
  cases at? with
  | some q =>
    rw [show r = .error (.unsupported q) from h]
    exact ⟨fun hr => ⟨q, rfl, (Except.error.inj hr).symm⟩, by rintro ⟨_, ⟨⟩, rfl⟩; rfl⟩
  | none =>
    obtain ⟨a, rfl⟩ := h
    exact ⟨nofun, nofun⟩

end

/-- Subformulas are written in the basis up to the first quantified node. -/
theorem toBasisRecList_stopsAt (ih : ∀ f ∈ fs, StopsAt f.toBasisRec (f.nodes.find? isQuantified)) :
    StopsAt (toBasisRecList fs) ((nodesList fs).find? isQuantified) := by
  induction fs with
  | nil => exact stopsAt_pure []
  | cons f fs ihs =>
    rw [toBasisRecList, nodesList, List.find?_append, ← Option.or_none (o := (nodesList fs).find? isQuantified)]
    have rest := ihs fun g hg => ih g (List.mem_cons_of_mem f hg)
    exact (ih f List.mem_cons_self).bind fun g => rest.bind fun gs => stopsAt_pure _

theorem toBasisRec_stopsAt (f : Formula) : StopsAt f.toBasisRec (f.nodes.find? isQuantified) := by
  have two : ∀ {l r : Formula} (node : Formula → Formula → Formula),
      StopsAt l.toBasisRec (l.nodes.find? isQuantified) → StopsAt r.toBasisRec (r.nodes.find? isQuantified) →
      StopsAt (do let l ← l.toBasisRec; let r ← r.toBasisRec; return node l r)
        ((l.nodes ++ r.nodes).find? isQuantified) := by
    intro l r node hl hr
    rw [List.find?_append, ← Option.or_none (o := r.nodes.find? isQuantified)]
    exact hl.bind fun _ => hr.bind fun _ => stopsAt_pure _
  induction f with
  | const b => exact stopsAt_pure _
  | var x => exact stopsAt_pure _
  | lit l => exact stopsAt_pure _
  | not f ih =>
    rw [toBasisRec, nodes, List.find?_cons_of_neg (by simp [isQuantified]), ← Option.or_none (o := f.nodes.find? _)]
    exact ih.bind fun g => stopsAt_pure _
  | nary j args ih =>
    rw [toBasisRec, nodes, List.find?_cons_of_neg (by simp [isQuantified]), ← Option.or_none (o := List.find? _ _)]
    exact (toBasisRecList_stopsAt ih).bind fun gs => stopsAt_pure _
  | implies p c ihp ihc => exact two basisImplies ihp ihc
  | iff l r ihl ihr => exact two basisIff ihl ihr
  | card c args ih =>
    rw [toBasisRec, nodes, List.find?_cons_of_neg (by simp [isQuantified]), ← Option.or_none (o := List.find? _ _)]
    exact (toBasisRecList_stopsAt ih).bind fun gs => stopsAt_pure _
  | quant q xs f => rfl

/-! ### Formulas in the basis -/

/-- Whether negations can be pushed inwards, under any number of negations. -/
def Pushable (f : Formula) : Prop := ∀ negated, ∃ n, Nnf.ofBasisRec negated f = .ok n

theorem pushable_const (b : Bool) : (const b).Pushable := fun _ => ⟨_, rfl⟩

theorem pushable_not (h : f.Pushable) : (not f).Pushable := fun negated => h (!negated)

theorem pushable_nary (j : Junction) (h : ∀ f ∈ fs, f.Pushable) : (nary j fs).Pushable := by
  intro negated
  have args : ∃ ns, Nnf.ofBasisRecList negated fs = .ok ns := by
    induction fs with
    | nil => exact ⟨[], rfl⟩
    | cons f fs ih =>
      obtain ⟨n, hn⟩ := h f List.mem_cons_self negated
      obtain ⟨ns, hns⟩ := ih fun g hg => h g (List.mem_cons_of_mem f hg)
      refine ⟨n :: ns, ?_⟩
      rw [Nnf.ofBasisRecList, hn, hns]
      rfl
  obtain ⟨ns, hns⟩ := args
  refine ⟨.nary (j.under negated) ns, ?_⟩
  rw [Nnf.ofBasisRec, hns]
  rfl

theorem pushable_pair (j : Junction) (hf : f.Pushable) (hg : g.Pushable) : (nary j [f, g]).Pushable :=
  pushable_nary j (by simp [hf, hg])

theorem pushable_basisImplies (hp : p.Pushable) (hc : c.Pushable) : (basisImplies p c).Pushable :=
  pushable_pair .disj (pushable_not hp) hc

theorem pushable_basisAtLeast (k : Nat) (h : ∀ f ∈ fs, f.Pushable) : (basisAtLeast k fs).Pushable := by
  unfold basisAtLeast
  split
  · exact pushable_const _
  · split
    · exact pushable_const _
    · refine pushable_nary .conj (List.forall_mem_map.mpr fun chosen hchosen => ?_)
      exact pushable_nary .disj fun f hf => h f (mem_of_mem_choices hchosen hf)

theorem pushable_basisAtMost (k : Nat) (h : ∀ f ∈ fs, f.Pushable) : (basisAtMost k fs).Pushable := by
  unfold basisAtMost
  split
  · exact pushable_const _
  · refine pushable_nary .conj (List.forall_mem_map.mpr fun chosen hchosen => ?_)
    refine pushable_nary .disj (List.forall_mem_map.mpr fun f hf => ?_)
    exact pushable_not (h f (mem_of_mem_choices hchosen hf))

theorem pushable_basisCard (c : Cardinality) (h : ∀ f ∈ fs, f.Pushable) : (basisCard c fs).Pushable := by
  cases c with
  | atLeast k => exact pushable_basisAtLeast k h
  | atMost k => exact pushable_basisAtMost k h
  | between lower upper => exact pushable_pair .conj (pushable_basisAtLeast lower h) (pushable_basisAtMost upper h)
  | choose k => exact pushable_pair .conj (pushable_basisAtLeast k h) (pushable_basisAtMost k h)

/-- Negations can be pushed inwards in what is written in the basis. -/
theorem pushable_toBasisRec (h : f.toBasisRec = .ok g) : g.Pushable := by
  have members : ∀ {fs gs : List Formula}, List.Forall₂ (fun _ g => g.Pushable) fs gs → ∀ g ∈ gs, g.Pushable := by
    intro fs gs h
    induction h with
    | nil => exact fun g hg => absurd hg List.not_mem_nil
    | cons hg _ ih => exact List.forall_mem_cons.mpr ⟨hg, ih⟩
  refine toBasisRec_induction ?const ?var ?lit ?not ?nary ?implies ?iff ?card h
  case const => exact pushable_const
  case var => exact fun _ _ => ⟨_, rfl⟩
  case lit => exact fun _ _ => ⟨_, rfl⟩
  case not => exact fun _ _ => pushable_not
  case nary => exact fun j _ _ h => pushable_nary j (members h)
  case implies => exact fun _ _ _ _ => pushable_basisImplies
  case iff => exact fun _ _ _ _ hl hr => pushable_pair .conj (pushable_basisImplies hl hr) (pushable_basisImplies hr hl)
  case card => exact fun c _ _ h => pushable_basisCard c (members h)

/-! ### The negation normal form -/

theorem nnf_of_violation (h : f.nodes.findSome? violation? = some d) : f.nnf = .error (.malformed d) := by
  rw [nnf, defect?_eq, h]

theorem nnf_of_no_violation (h : f.nodes.findSome? violation? = none) :
    StopsAt f.nnf (f.nodes.find? isQuantified) := by
  have stops := toBasisRec_stopsAt f
  rw [nnf, defect?_eq, h]
  dsimp only
  rw [toBasis_eq]
  cases hq : f.nodes.find? isQuantified with
  | some q =>
    rw [hq] at stops
    rw [show f.toBasisRec = .error (.unsupported q) from stops]
    rfl
  | none =>
    rw [hq] at stops
    obtain ⟨g, hg⟩ := stops
    obtain ⟨n, hn⟩ := pushable_toBasisRec hg false
    refine ⟨n.simplify, ?_⟩
    rw [hg]
    show (Nnf.ofBasis g >>= fun n => pure n.simplify) = _
    rw [Nnf.ofBasis_eq, hn]
    rfl

end Formula
end NormalForms
