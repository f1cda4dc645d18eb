import NormalForms.Proofs.Nnf.Reading
import NormalForms.Proofs.Nnf.Simplified

/-!
Simplified normal forms as canonical ones. Simplification makes no normal form larger, and it leaves a simplified one
as it is: the arguments of a junction in it contribute themselves and are all kept. So the simplified normal forms are
the fixed points of simplification, which one pass from the leaves to the root reaches. Embedded in the formulas they
are also the fixed points of the way through the basis. -/

namespace NormalForms

namespace Nnf

variable {j : Junction} {n : Nnf} {args ns : List Nnf}

/-! ### Size -/

theorem size_ofArgs_le (j : Junction) (ns : List Nnf) : (ofArgs j ns).size ≤ sizeList ns + 1 := by
  match ns with
  | [] => exact Nat.le_refl 1
  | [n] => exact Nat.le_succ n.size
  | n :: m :: ns => exact Nat.le_refl _

theorem sizeList_spliced_le (j : Junction) (n : Nnf) : sizeList (spliced j n) ≤ n.size := by
  cases n with
  | const b => exact Nat.zero_le _
  | lit l => exact Nat.le_refl 1
  | nary i args =>
    rw [spliced]
    split
    · exact Nat.le_succ (sizeList args)
    · exact Nat.le_refl _

theorem sizeList_flatMap_spliced_le (j : Junction) (args : List Nnf) :
    sizeList (args.flatMap (spliced j)) ≤ sizeList args := by
  induction args with
  | nil => exact Nat.le_refl _
  | cons n ns ih =>
    rw [List.flatMap_cons, sizeList_append, sizeList]
    exact Nat.add_le_add (sizeList_spliced_le j n) ih

theorem size_merge_le (j : Junction) (args : List Nnf) : (merge j args).size ≤ sizeList args + 1 := by
  rw [merge_eq]
  split
  · exact Nat.le_add_left 1 _
  · have kept := sizeList_le_of_sublist (eraseDups_sublist (args.flatMap (spliced j)))
    calc
      (ofArgs j (args.flatMap (spliced j)).eraseDups).size
        ≤ sizeList (args.flatMap (spliced j)).eraseDups + 1 := size_ofArgs_le j _
      _ ≤ sizeList (args.flatMap (spliced j)) + 1 := Nat.succ_le_succ kept
      _ ≤ sizeList args + 1 := Nat.succ_le_succ (sizeList_flatMap_spliced_le j args)

theorem sizeList_map_le {f : Nnf → Nnf} (h : ∀ n ∈ ns, (f n).size ≤ n.size) : sizeList (ns.map f) ≤ sizeList ns := by
  induction ns with
  | nil => exact Nat.le_refl _
  | cons n ns ih =>
    rw [List.map_cons, sizeList, sizeList]
    exact Nat.add_le_add (h n List.mem_cons_self) (ih fun m hm => h m (List.mem_cons_of_mem n hm))

theorem size_simplify_le (n : Nnf) : n.simplify.size ≤ n.size := by
  rw [simplify_eq]
  induction n with
  | const b => exact Nat.le_refl _
  | lit l => exact Nat.le_refl _
  | nary j args ih =>
    rw [simplifyRec, simplifyRecList_eq, size]
    exact Nat.le_trans (size_merge_le j _) (Nat.succ_le_succ (sizeList_map_le ih))

/-! ### Fixed points -/

theorem Simplified.of_mem (h : (nary j args).Simplified) (hn : n ∈ args) : n.Simplified where
  reduced := h.reduced.of_mem hn
  absorbed := innerConstants_of_constants (constants_of_mem h.absorbed hn)

/-- What is neither a constant nor a `j` contributes itself to a `j`. -/
theorem spliced_eq_singleton (hconstants : n.constants = []) (hn : ∀ ms, n ≠ nary j ms) : spliced j n = [n] := by
  cases n with
  | const b => cases hconstants
  | lit l => rfl
  | nary i args =>
    rw [spliced, if_neg]
    rintro rfl
    exact hn args rfl

theorem ofArgs_of_plural (h : 2 ≤ ns.length) : ofArgs j ns = nary j ns := by
  match ns with
  | n :: m :: ns => rfl

/-- Arguments of which a `j` is needed as it is, and which hold no constants, are merged to the `j` of them. -/
theorem merge_of_irredundant (h : Irredundant j args) (hconstants : ∀ n ∈ args, n.constants = []) :
    merge j args = nary j args := by
  have undecided : ¬args.contains (const !j.unit) = true := by
    rw [List.contains_iff_mem]
    exact fun hmem => nomatch hconstants _ hmem
  have themselves : args.flatMap (spliced j) = args := calc
    args.flatMap (spliced j) = args.flatMap fun n => [n] :=
      List.flatMap_congr fun n hn => spliced_eq_singleton (hconstants n hn) fun ms hms => h.flat ms (hms ▸ hn)
    _ = args := List.flatMap_singleton' args
  rw [merge_eq, if_neg undecided, themselves, eraseDups_of_nodup h.distinct, ofArgs_of_plural h.plural]

theorem simplify_of_simplified (h : n.Simplified) : n.simplify = n := by
  rw [simplify_eq]
  induction n with
  | const b => rfl
  | lit l => rfl
  | nary j args ih =>
    have arguments : args.map simplifyRec = args.map id := List.map_congr_left fun n hn => ih n hn (h.of_mem hn)
    rw [simplifyRec, simplifyRecList_eq, arguments, List.map_id]
    exact merge_of_irredundant h.reduced.irredundant fun n hn => constants_of_mem h.absorbed hn

/-- The simplification of a normal form has its truth value under every assignment, is simplified, has no more nodes
    and no other variables. It is the normal form itself if and only if that is simplified already; so a second
    simplification changes nothing. -/
theorem simplify_reaches_fixed_point (n : Nnf) :
    (∀ v, n.simplify.eval v = n.eval v) ∧ n.simplify.Simplified ∧ n.simplify.size ≤ n.size ∧
      n.simplify.variables ⊆ n.variables ∧ (n.simplify = n ↔ n.Simplified) ∧ n.simplify.simplify = n.simplify := by
  have simplified := n.simplified_simplify
  refine ⟨fun v => n.eval_simplify v, simplified, n.size_simplify_le, fun x hx => ?_, ⟨fun h => ?_, ?_⟩, ?_⟩
  · exact mem_variables.mpr (mem_occurrences_simplify (mem_variables.mp hx))
  · rwa [h] at simplified
  · exact simplify_of_simplified
  · exact simplify_of_simplified simplified

end Nnf

/-! ### The way through the formulas -/

theorem Formula.toNnf_eq_ok {f g : Formula} (h : f.toNnf = .ok g) : ∃ n, f.nnf = .ok n ∧ n.toFormula = g := by
  rw [toNnf] at h
  rcases hn : f.nnf with failure | n
  · rw [hn] at h
    cases h
  · rw [hn] at h
    exact ⟨n, rfl, Except.ok.inj h⟩

/-- A normal form, taken as a formula, has its simplification for negation normal form. So the negation normal form of
    a formula, taken as a formula, is its own negation normal form. -/
theorem Formula.toNnf_fixes_normal_forms :
    (∀ n : Nnf, n.toFormula.nnf = .ok n.simplify) ∧ ∀ f g : Formula, f.toNnf = .ok g → g.toNnf = .ok g := by
  refine ⟨Nnf.nnf_toFormula, fun f g h => ?_⟩
  obtain ⟨n, hn, rfl⟩ := toNnf_eq_ok h
  rw [toNnf, n.nnf_toFormula, Nnf.simplify_of_simplified (simplified_of_nnf hn)]
  rfl

/-- A negated equivalence between a variable that is counted twice and the negation of another one. -/
theorem Formula.toNnf_fixes_normal_forms_of_choice :
    let f := not (iff (card (.choose 2) [var ⟨"a"⟩, var ⟨"a"⟩]) (not (var ⟨"b"⟩)))
    let g := any [all [lit (.pos ⟨"a"⟩), lit (.pos ⟨"b"⟩)], all [lit (.neg ⟨"b"⟩), lit (.neg ⟨"a"⟩)]]
    f.toNnf = .ok g ∧ g.toNnf = .ok g := by
  intro f g
  have hg : f.toNnf = .ok g := rfl
  exact ⟨hg, toNnf_fixes_normal_forms.2 f g hg⟩

end NormalForms
