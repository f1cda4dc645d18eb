import NormalForms.Formula.Basis
import NormalForms.Formula.Variables
import NormalForms.Proofs.Choices
import NormalForms.Proofs.Formula.Eval
import NormalForms.Proofs.Traversal

/-!
The basis of negation, conjunction and disjunction. Writing a formula in the basis keeps its truth value
and brings in no variable. For cardinality constraints this is a count of choices: among `n` arguments
there is a choice of `n - k + 1` false ones exactly if fewer than `k` are true. -/

namespace NormalForms.Formula

open Traversal (Computes ComputesAll)

/-! ### The traversal -/

theorem size_eq (f : Formula) : f.size = sizeList f.children + 1 := by
  cases f <;> simp [size, sizeList, children]

theorem toBasis_computesAll {fs : List Formula}
    (h : ∀ f ∈ fs, basisTraversal.Computes f () (2 * f.size) f.toBasisRec ()) :
    basisTraversal.ComputesAll fs () (2 * sizeList fs) (toBasisRecList fs) () := by
  induction fs with
  | nil => exact .nil
  | cons f fs ih =>
    have tail := ih fun g hg => h g (List.mem_cons_of_mem f hg)
    rw [sizeList, Nat.mul_add]
    exact .cons_bind (h f List.mem_cons_self) tail

/-- A node with subformulas is written in the basis after them. -/
theorem toBasis_descend {f : Formula} (h : ∀ g ∈ f.children, basisTraversal.Computes g () (2 * g.size) g.toBasisRec ())
    (he : basisTraversal.enter f () = .descend f f.children)
    (hr : f.toBasisRec = toBasisRecList f.children >>= fun gs => (basisTraversal.leave f gs ()).1) :
    basisTraversal.Computes f () (2 * f.size) f.toBasisRec () := by
  rw [size_eq, hr, Nat.mul_add]
  exact .descend_bind he (toBasis_computesAll h) fun gs _ => rfl

theorem toBasis_computes (f : Formula) : basisTraversal.Computes f () (2 * f.size) f.toBasisRec () := by
  induction f with
  | const b => exact (Computes.done rfl).mono (by simp [size])
  | var x => exact (Computes.done rfl).mono (by simp [size])
  | lit l => exact (Computes.done rfl).mono (by simp [size])
  | not f ih =>
    refine toBasis_descend (by simpa [children] using ih) rfl ?_
    rw [toBasisRec, children, toBasisRecList, toBasisRecList]
    cases f.toBasisRec <;> rfl
  | nary j args ih =>
    refine toBasis_descend ih rfl ?_
    rw [toBasisRec, children]
    cases toBasisRecList args <;> rfl
  | implies p c ihp ihc =>
    refine toBasis_descend (by simp [children, ihp, ihc]) rfl ?_
    rw [toBasisRec, children, toBasisRecList, toBasisRecList, toBasisRecList]
    cases p.toBasisRec <;> cases c.toBasisRec <;> rfl
  | iff l r ihl ihr =>
    refine toBasis_descend (by simp [children, ihl, ihr]) rfl ?_
    rw [toBasisRec, children, toBasisRecList, toBasisRecList, toBasisRecList]
    cases l.toBasisRec <;> cases r.toBasisRec <;> rfl
  | card c args ih =>
    refine toBasis_descend ih rfl ?_
    rw [toBasisRec, children]
    cases toBasisRecList args <;> rfl
  | quant q xs f ih => exact (Computes.fail rfl).mono (by simp [size]; omega)

theorem toBasis_eq (f : Formula) : f.toBasis = f.toBasisRec := by
  rw [toBasis, Traversal.traverse_eq (toBasis_computes f)]
  exact Traversal.toExcept_of _ _

/-! ### Truth values -/

section
variable {v : Assignment} {f g : Formula} {fs gs : List Formula} {b : Bool} {bs : List Bool}

theorem eval_basisImplies {c : Bool} (hf : f.eval v = .ok b) (hg : g.eval v = .ok c) :
    (basisImplies f g).eval v = .ok (!b || c) := by
  rw [basisImplies, eval_nary .disj (.cons (eval_not hf) (.cons hg .nil))]
  simp [Junction.across]

theorem eval_basisIff {c : Bool} (hf : f.eval v = .ok b) (hg : g.eval v = .ok c) :
    (basisIff f g).eval v = .ok (b == c) := by
  rw [basisIff, eval_nary .conj (.cons (eval_basisImplies hf hg) (.cons (eval_basisImplies hg hf) .nil))]
  cases b <;> cases c <;> rfl

theorem count_true_add (bs : List Bool) : bs.count true + bs.countP (!·) = bs.length := by
  rw [List.length_eq_countP_add_countP (· == true), List.count_eq_countP]
  congr 1
  exact List.countP_congr fun b _ => by cases b <;> simp

/-- Every choice of `n` of the values has a true one if and only if fewer than `n` are false. -/
theorem all_choices_any (n : Nat) (bs : List Bool) :
    ((choices n bs).all fun cs => cs.any id) = decide (bs.countP (!·) < n) := by
  have some := exists_choice_iff (!·) n bs
  rw [Bool.eq_iff_iff, decide_eq_true_iff, ← Nat.not_le, ← some]
  simp

/-- Every choice of `n` of the values has a false one if and only if fewer than `n` are true. -/
theorem all_choices_any_not (n : Nat) (bs : List Bool) :
    ((choices n bs).all fun cs => (cs.map (!·)).any id) = decide (bs.count true < n) := by
  have some := exists_choice_iff (· == true) n bs
  rw [Bool.eq_iff_iff, decide_eq_true_iff, ← Nat.not_le, List.count_eq_countP, ← some]
  simp

theorem values_not (h : Values v fs bs) : Values v (fs.map not) (bs.map (!·)) :=
  values_map₂ h fun _ _ hf => eval_not hf

theorem eval_basisAtLeast (k : Nat) (h : Values v fs bs) :
    (basisAtLeast k fs).eval v = .ok (decide (k ≤ bs.count true)) := by
  have hlen := h.length_eq
  have hsum := count_true_add bs
  unfold basisAtLeast
  split
  · rename_i hk
    simp [eval, hk]
  · split
    · rename_i hk hlt
      have : ¬k ≤ bs.count true := by omega
      simp [eval, this]
    · rename_i hk hlt
      have hcs : Values v ((choices (coverSize fs.length k) fs).map any)
          ((choices (coverSize fs.length k) bs).map fun cs => cs.any id) :=
        values_map₂ (forall₂_choices h _) fun _ _ hc => eval_nary .disj hc
      have hiff : bs.countP (!·) < coverSize fs.length k ↔ k ≤ bs.count true := by
        rw [coverSize]
        omega
      rw [eval_nary .conj hcs, Junction.across_map, Junction.across]
      simp only [id]
      rw [← decide_eq_decide.mpr hiff, ← all_choices_any]

theorem eval_basisAtMost (k : Nat) (h : Values v fs bs) :
    (basisAtMost k fs).eval v = .ok (decide (bs.count true ≤ k)) := by
  have hlen := h.length_eq
  have hsum := count_true_add bs
  unfold basisAtMost
  split
  · rename_i hk
    have : bs.count true ≤ k := by omega
    simp [eval, this]
  · have hcs : Values v ((choices (excessSize k) fs).map fun chosen => any (chosen.map not))
        ((choices (excessSize k) bs).map fun cs => (cs.map (!·)).any id) :=
      values_map₂ (forall₂_choices h _) fun _ _ hc => eval_nary .disj (values_not hc)
    rw [eval_nary .conj hcs, Junction.across_map, Junction.across]
    have hiff : bs.count true < excessSize k ↔ bs.count true ≤ k := Nat.lt_succ_iff
    simp only [id]
    rw [← decide_eq_decide.mpr hiff, ← all_choices_any_not]

theorem eval_basisCard (c : Cardinality) (h : Values v fs bs) :
    (basisCard c fs).eval v = .ok (c.holds (bs.count true)) := by
  cases c with
  | atLeast k => exact eval_basisAtLeast k h
  | atMost k => exact eval_basisAtMost k h
  | between lower upper =>
    rw [basisCard, eval_nary .conj (.cons (eval_basisAtLeast lower h) (.cons (eval_basisAtMost upper h) .nil))]
    simp [Junction.across, Cardinality.holds]
  | choose k =>
    rw [basisCard, eval_nary .conj (.cons (eval_basisAtLeast k h) (.cons (eval_basisAtMost k h) .nil))]
    simp only [Junction.across, Cardinality.holds, List.all_cons, List.all_nil, id, Bool.and_true]
    congr 1
    rw [Bool.eq_iff_iff]
    simp only [Bool.and_eq_true, decide_eq_true_iff, beq_iff_eq]
    omega

end

/-! ### Formulas as wholes -/

theorem bind_eq_ok {ε α β : Type} {r : Except ε α} {f : α → Except ε β} {b : β} (h : r >>= f = .ok b) :
    ∃ a, r = .ok a ∧ f a = .ok b := by
  cases r with
  | error e => cases h
  | ok a => exact ⟨a, rfl, h⟩

theorem forall₂_of_toBasisRecList {R : Formula → Formula → Prop} {fs gs : List Formula}
    (ih : ∀ f ∈ fs, ∀ g, f.toBasisRec = .ok g → R f g) (h : toBasisRecList fs = .ok gs) : List.Forall₂ R fs gs := by
  induction fs generalizing gs with
  | nil =>
    cases h
    exact .nil
  | cons f fs ihs =>
    rw [toBasisRecList] at h
    obtain ⟨g, hg, h⟩ := bind_eq_ok h
    obtain ⟨hs, hhs, h⟩ := bind_eq_ok h
    cases h
    exact .cons (ih f List.mem_cons_self g hg) (ihs (fun f' hf' => ih f' (List.mem_cons_of_mem f hf')) hhs)

/-- What relates each formula to what it becomes in the basis, if it relates the arguments to what they become, relates
    all formulas that can be written in the basis to the result. -/
@[elab_as_elim]
theorem toBasisRec_induction {motive : Formula → Formula → Prop} (const : ∀ b, motive (const b) (const b))
    (var : ∀ x, motive (var x) (var x)) (lit : ∀ l, motive (lit l) (lit l))
    (not : ∀ f g, motive f g → motive (not f) (not g))
    (nary : ∀ j fs gs, List.Forall₂ motive fs gs → motive (nary j fs) (nary j gs))
    (implies : ∀ p c p' c', motive p p' → motive c c' → motive (implies p c) (basisImplies p' c'))
    (iff : ∀ l r l' r', motive l l' → motive r r' → motive (iff l r) (basisIff l' r'))
    (card : ∀ c fs gs, List.Forall₂ motive fs gs → motive (card c fs) (basisCard c gs)) {f g : Formula}
    (h : f.toBasisRec = .ok g) : motive f g := by
  induction f generalizing g with
  | const b =>
    cases h
    exact const b
  | var x =>
    cases h
    exact var x
  | lit l =>
    cases h
    exact lit l
  | not f ih =>
    rw [toBasisRec] at h
    obtain ⟨f', hf, h⟩ := bind_eq_ok h
    cases h
    exact not f f' (ih hf)
  | nary j args ih =>
    rw [toBasisRec] at h
    obtain ⟨gs, hgs, h⟩ := bind_eq_ok h
    cases h
    exact nary j args gs (forall₂_of_toBasisRecList (fun f hf g hg => ih f hf hg) hgs)
  | implies p c ihp ihc =>
    rw [toBasisRec] at h
    obtain ⟨p', hp, h⟩ := bind_eq_ok h
    obtain ⟨c', hc, h⟩ := bind_eq_ok h
    cases h
    exact implies p c p' c' (ihp hp) (ihc hc)
  | iff l r ihl ihr =>
    rw [toBasisRec] at h
    obtain ⟨l', hl, h⟩ := bind_eq_ok h
    obtain ⟨r', hr, h⟩ := bind_eq_ok h
    cases h
    exact iff l r l' r' (ihl hl) (ihr hr)
  | card c args ih =>
    rw [toBasisRec] at h
    obtain ⟨gs, hgs, h⟩ := bind_eq_ok h
    cases h
    exact card c args gs (forall₂_of_toBasisRecList (fun f hf g hg => ih f hf hg) hgs)
  | quant q xs f ih => cases h

theorem exists_values {v : Assignment} {fs gs : List Formula}
    (h : List.Forall₂ (fun f g => ∃ b, f.eval v = .ok b ∧ g.eval v = .ok b) fs gs) :
    ∃ bs, Values v fs bs ∧ Values v gs bs := by
  induction h with
  | nil => exact ⟨[], .nil, .nil⟩
  | cons hfg _ ih =>
    obtain ⟨b, hf, hg⟩ := hfg
    obtain ⟨bs, hfs, hgs⟩ := ih
    exact ⟨b :: bs, .cons hf hfs, .cons hg hgs⟩

/-- A formula that can be written in the basis has a truth value, and keeps it there. -/
theorem eval_toBasisRec {v : Assignment} {f g : Formula} (h : f.toBasisRec = .ok g) :
    ∃ b, f.eval v = .ok b ∧ g.eval v = .ok b := by
  refine toBasisRec_induction ?const ?var ?lit ?not ?nary ?implies ?iff ?card h
  case const => exact fun b => ⟨b, rfl, rfl⟩
  case var => exact fun x => ⟨v x, rfl, rfl⟩
  case lit => exact fun l => ⟨l.eval v, rfl, rfl⟩
  case not =>
    rintro f g ⟨b, hf, hg⟩
    exact ⟨!b, eval_not hf, eval_not hg⟩
  case nary =>
    intro j fs gs h
    obtain ⟨bs, hfs, hgs⟩ := exists_values h
    exact ⟨j.across bs id, eval_nary j hfs, eval_nary j hgs⟩
  case implies =>
    rintro p c p' c' ⟨a, hp, hp'⟩ ⟨b, hc, hc'⟩
    exact ⟨!a || b, eval_implies hp hc, eval_basisImplies hp' hc'⟩
  case iff =>
    rintro l r l' r' ⟨a, hl, hl'⟩ ⟨b, hr, hr'⟩
    exact ⟨a == b, eval_iff hl hr, eval_basisIff hl' hr'⟩
  case card =>
    intro c fs gs h
    obtain ⟨bs, hfs, hgs⟩ := exists_values h
    exact ⟨c.holds (bs.count true), eval_card c hfs, eval_basisCard c hgs⟩

/-! ### Variables -/

/-- The free occurrences, where nothing is bound. -/
abbrev occurrences (f : Formula) : List Var := freeOccurrences [] f

theorem mem_variables {f : Formula} {x : Var} : x ∈ f.variables ↔ x ∈ f.occurrences := List.mem_eraseDups

theorem occurrences_nary (j : Junction) (fs : List Formula) :
    (nary j fs).occurrences = fs.flatMap occurrences := by
  rw [occurrences, freeOccurrences, freeOccurrencesList_eq]

theorem mem_occurrences_any_choices {x : Var} {n : Nat} {fs : List Formula} {p : Formula → Formula}
    (hp : ∀ f, (p f).occurrences = f.occurrences)
    (h : x ∈ (all ((choices n fs).map fun cs => any (cs.map p))).occurrences) : ∃ f ∈ fs, x ∈ f.occurrences := by
  rw [all, occurrences_nary, List.flatMap_map, List.mem_flatMap] at h
  obtain ⟨cs, hcs, hx⟩ := h
  rw [any, occurrences_nary, List.flatMap_map, List.mem_flatMap] at hx
  obtain ⟨f, hf, hx⟩ := hx
  exact ⟨f, mem_of_mem_choices hcs hf, hp f ▸ hx⟩

theorem mem_occurrences_basisAtLeast {x : Var} {k : Nat} {fs : List Formula}
    (h : x ∈ (basisAtLeast k fs).occurrences) : ∃ f ∈ fs, x ∈ f.occurrences := by
  unfold basisAtLeast at h
  split at h
  · simp [occurrences, freeOccurrences] at h
  · split at h
    · simp [occurrences, freeOccurrences] at h
    · exact mem_occurrences_any_choices (p := id) (fun _ => rfl) (by simpa using h)

theorem mem_occurrences_basisAtMost {x : Var} {k : Nat} {fs : List Formula}
    (h : x ∈ (basisAtMost k fs).occurrences) : ∃ f ∈ fs, x ∈ f.occurrences := by
  unfold basisAtMost at h
  split at h
  · simp [occurrences, freeOccurrences] at h
  · exact mem_occurrences_any_choices (fun f => by simp [occurrences, freeOccurrences]) h

theorem mem_occurrences_basisCard {x : Var} {c : Cardinality} {fs : List Formula}
    (h : x ∈ (basisCard c fs).occurrences) : ∃ f ∈ fs, x ∈ f.occurrences := by
  have both : ∀ {k l : Nat}, x ∈ (all [basisAtLeast k fs, basisAtMost l fs]).occurrences →
      ∃ f ∈ fs, x ∈ f.occurrences := by
    intro k l h
    rw [all, occurrences_nary] at h
    simp only [List.flatMap_cons, List.flatMap_nil, List.append_nil, List.mem_append] at h
    exact h.elim mem_occurrences_basisAtLeast mem_occurrences_basisAtMost
  cases c with
  | atLeast k => exact mem_occurrences_basisAtLeast h
  | atMost k => exact mem_occurrences_basisAtMost h
  | between lower upper => exact both h
  | choose k => exact both h

/-- A property of members of one list that leads to a property of the members of another one in their places. -/
theorem exists_mem_of_forall₂ {α β : Type} {P : α → Prop} {Q : β → Prop} {as : List α} {bs : List β}
    (h : List.Forall₂ (fun a b => Q b → P a) as bs) (hb : ∃ b ∈ bs, Q b) : ∃ a ∈ as, P a := by
  induction h with
  | nil => simp at hb
  | @cons a b as bs hab _ ih =>
    obtain ⟨b', hb', hQ⟩ := hb
    rcases List.mem_cons.mp hb' with rfl | hb'
    · exact ⟨a, List.mem_cons_self, hab hQ⟩
    · obtain ⟨a', ha', hP⟩ := ih ⟨b', hb', hQ⟩
      exact ⟨a', List.mem_cons_of_mem a ha', hP⟩

/-- Writing a formula in the basis brings in no variable. -/
theorem mem_occurrences_toBasisRec {x : Var} {f g : Formula} (h : f.toBasisRec = .ok g)
    (hx : x ∈ g.occurrences) : x ∈ f.occurrences := by
  revert hx
  refine toBasisRec_induction ?const ?var ?lit ?not ?nary ?implies ?iff ?card h
  case const => exact fun _ => id
  case var => exact fun _ => id
  case lit => exact fun _ => id
  case not => exact fun f g hfg => hfg
  case nary =>
    intro j fs gs h hx
    rw [occurrences_nary, List.mem_flatMap] at hx ⊢
    exact exists_mem_of_forall₂ h hx
  case implies =>
    intro p c p' c' hp hc hx
    simp only [occurrences, basisImplies, freeOccurrences, freeOccurrencesList, List.mem_append, List.append_nil] at hx ⊢
    exact hx.imp hp hc
  case iff =>
    intro l r l' r' hl hr hx
    simp only [occurrences, basisIff, basisImplies, freeOccurrences, freeOccurrencesList, List.mem_append,
      List.append_nil] at hx ⊢
    rcases hx with (hx | hx) | hx | hx
    · exact .inl (hl hx)
    · exact .inr (hr hx)
    · exact .inr (hr hx)
    · exact .inl (hl hx)
  case card =>
    intro c fs gs h hx
    rw [occurrences, freeOccurrences, freeOccurrencesList_eq, List.mem_flatMap]
    exact exists_mem_of_forall₂ h (mem_occurrences_basisCard hx)

end NormalForms.Formula
