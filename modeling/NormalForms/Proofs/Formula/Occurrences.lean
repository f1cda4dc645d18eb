import NormalForms.Formula.Variables
import NormalForms.Proofs.Distinct

/-!
Free occurrences, one by one. The place of a node is the path to it from the root, by positions among the children. A
variable occurs free at the place of a node that is the variable or a literal of it, unless a quantifier on the path
binds it. The walk that collects the variables meets the free occurrences in the order of their places, from left to
right, so what it collects first is what occurs first. -/

namespace NormalForms.Formula

variable {f : Formula} {gs : List Formula} {l : Literal} {x : Var} {p : List Nat}

/-! ### Nodes and their children -/

/-- The variables that the root binds. -/
def binders : Formula → List Var
  | quant _ xs _ => xs
  | const _ | var _ | lit _ | not _ | nary .. | implies .. | iff .. | card .. => []

/-- What holds of variables and literals, and of each other formula whose children it holds of, holds of all formulas. -/
@[elab_as_elim]
theorem induction_children {motive : Formula → Prop} (atom : ∀ f l, f.asLiteral? = some l → motive f)
    (node : ∀ f, f.asLiteral? = none → (∀ g ∈ f.children, motive g) → motive f) (f : Formula) : motive f := by
  induction f with
  | const b => exact node _ rfl fun _ h => absurd h List.not_mem_nil
  | var x => exact atom _ _ rfl
  | lit l => exact atom _ _ rfl
  | not f ih => exact node _ rfl (List.forall_mem_singleton.mpr ih)
  | nary j args ih => exact node _ rfl ih
  | implies p c ihp ihc => exact node _ rfl (List.forall_mem_cons.mpr ⟨ihp, List.forall_mem_singleton.mpr ihc⟩)
  | iff l r ihl ihr => exact node _ rfl (List.forall_mem_cons.mpr ⟨ihl, List.forall_mem_singleton.mpr ihr⟩)
  | card c args ih => exact node _ rfl ih
  | quant q xs f ih => exact node _ rfl (List.forall_mem_singleton.mpr ih)

theorem eq_of_asLiteral? (h : f.asLiteral? = some l) : f = var l.var ∨ f = lit l := by
  cases f with
  | var x =>
    cases h
    exact .inl rfl
  | lit m =>
    cases h
    exact .inr rfl
  | _ => cases h

theorem children_of_asLiteral? (h : f.asLiteral? = some l) : f.children = [] := by
  rcases eq_of_asLiteral? h with rfl | rfl <;> rfl

theorem freeOccurrences_of_asLiteral? (bound : List Var) (h : f.asLiteral? = some l) :
    freeOccurrences bound f = if bound.contains l.var then [] else [l.var] := by
  rcases eq_of_asLiteral? h with rfl | rfl <;> rfl

theorem freeOccurrences_of_node (bound : List Var) (h : f.asLiteral? = none) :
    freeOccurrences bound f = f.children.flatMap (freeOccurrences (bound ++ f.binders)) := by
  cases f with
  | var x => cases h
  | lit l => cases h
  | _ => simp [freeOccurrences, children, binders]

/-- The occurrences that are free under bound variables are the others among those that are free without. -/
theorem freeOccurrences_eq_filter (bound : List Var) (f : Formula) :
    freeOccurrences bound f = (freeOccurrences [] f).filter fun x => !bound.contains x := by
  induction f using induction_children generalizing bound with
  | atom f l h =>
    rw [freeOccurrences_of_asLiteral? bound h, freeOccurrences_of_asLiteral? [] h]
    by_cases hb : l.var ∈ bound <;> simp [hb]
  | node f h ih =>
    rw [freeOccurrences_of_node bound h, freeOccurrences_of_node [] h, List.filter_flatMap]
    refine List.flatMap_congr fun g hg => ?_
    rw [ih g hg (bound ++ f.binders), ih g hg ([] ++ f.binders), List.filter_filter]
    simp

/-! ### Places -/

/-- Whether `x` occurs free in the formula at a place. -/
inductive FreeAt : Formula → List Nat → Var → Prop
  | root {f : Formula} {l : Literal} : f.asLiteral? = some l → FreeAt f [] l.var
  | child {f g : Formula} {i : Nat} {p : List Nat} {x : Var} : f.children[i]? = some g → x ∉ f.binders →
      FreeAt g p x → FreeAt f (i :: p) x

/-- Whether `ps` are the places of the free occurrences, each with its variable, in the order of the places and of
    the walk. -/
structure Located (f : Formula) (ps : List (List Nat × Var)) : Prop where
  occurrences : ps.map Prod.snd = freeOccurrences [] f
  ordered : ps.Pairwise fun a b => a.1 < b.1
  mem_iff : ∀ p x, (p, x) ∈ ps ↔ f.FreeAt p x

theorem freeAt_iff_of_asLiteral? (h : f.asLiteral? = some l) : f.FreeAt p x ↔ p = [] ∧ x = l.var := by
  constructor
  · rintro (hl | ⟨hg, -, -⟩)
    · rw [h] at hl
      cases hl
      exact ⟨rfl, rfl⟩
    · rw [children_of_asLiteral? h] at hg
      cases hg
  · rintro ⟨rfl, rfl⟩
    exact .root h

theorem freeAt_iff_of_node (h : f.asLiteral? = none) :
    f.FreeAt p x ↔ x ∉ f.binders ∧ ∃ i g q, f.children[i]? = some g ∧ p = i :: q ∧ g.FreeAt q x := by
  constructor
  · rintro (hl | ⟨hg, hx, hp⟩)
    · rw [h] at hl
      cases hl
    · exact ⟨hx, _, _, _, hg, rfl, hp⟩
  · rintro ⟨hx, i, g, q, hg, rfl, hp⟩
    exact .child hg hx hp

/-- The children from position `k` on: the places in each begin with its position, so all places in a child come before
    those in the later ones. -/
theorem exists_located_children (h : ∀ g ∈ gs, ∃ ps, g.Located ps) (k : Nat) :
    ∃ ps : List (List Nat × Var), ps.map Prod.snd = gs.flatMap (freeOccurrences []) ∧
      (ps.Pairwise fun a b => a.1 < b.1) ∧
      ∀ p x, (p, x) ∈ ps ↔ ∃ i g q, gs[i]? = some g ∧ p = (k + i) :: q ∧ g.FreeAt q x := by
  induction gs generalizing k with
  | nil => exact ⟨[], rfl, .nil, fun p x => by simp⟩
  | cons g gs ih =>
    obtain ⟨qs, first⟩ := h g List.mem_cons_self
    obtain ⟨ps, occurrences, ordered, mem⟩ := ih (fun g' hg' => h g' (List.mem_cons_of_mem g hg')) (k + 1)
    refine ⟨qs.map (fun a => (k :: a.1, a.2)) ++ ps, ?_, ?_, fun p x => ?_⟩
    · rw [List.map_append, List.map_map, List.flatMap_cons, ← first.occurrences, occurrences]
      rfl
    · rw [List.pairwise_append, List.pairwise_map]
      refine ⟨first.ordered.imp fun hab => List.cons_lt_cons_iff.mpr (.inr ⟨rfl, hab⟩), ordered, fun a ha b hb => ?_⟩
      obtain ⟨a, -, rfl⟩ := List.mem_map.mp ha
      obtain ⟨i, g', q, -, hb, -⟩ := (mem b.1 b.2).mp hb
      rw [hb]
      exact List.cons_lt_cons_iff.mpr (.inl (by omega))
    · rw [List.mem_append, mem, List.mem_map]
      constructor
      · rintro (⟨⟨q, y⟩, hq, heq⟩ | ⟨i, g', q, hg', rfl, hq⟩)
        · cases heq
          exact ⟨0, g, q, rfl, rfl, (first.mem_iff q y).mp hq⟩
        · exact ⟨i + 1, g', q, hg', by rw [Nat.add_right_comm, Nat.add_assoc], hq⟩
      · rintro ⟨i, g', q, hg', rfl, hq⟩
        cases i with
        | zero =>
          cases hg'
          exact .inl ⟨(q, x), (first.mem_iff q x).mpr hq, rfl⟩
        | succ i => exact .inr ⟨i, g', q, hg', by rw [Nat.add_right_comm, Nat.add_assoc], hq⟩

theorem exists_located (f : Formula) : ∃ ps, f.Located ps := by
  induction f using induction_children with
  | atom f l h =>
    refine ⟨[([], l.var)], ?_, List.pairwise_singleton _ _, fun p x => ?_⟩
    · rw [freeOccurrences_of_asLiteral? [] h]
      rfl
    · rw [List.mem_singleton, Prod.mk.injEq, freeAt_iff_of_asLiteral? h]
  | node f h ih =>
    obtain ⟨ps, occurrences, ordered, mem⟩ := exists_located_children ih 0
    refine ⟨ps.filter fun a => !f.binders.contains a.2, ?_, ordered.filter _, fun p x => ?_⟩
    · have filtered : (ps.filter fun a => !f.binders.contains a.2).map Prod.snd =
          (ps.map Prod.snd).filter fun x => !f.binders.contains x := by
        rw [List.filter_map]
        rfl
      rw [filtered, occurrences, freeOccurrences_of_node [] h, List.filter_flatMap]
      exact List.flatMap_congr fun g _ => (freeOccurrences_eq_filter _ g).symm
    · rw [List.mem_filter, mem, freeAt_iff_of_node h, and_comm]
      simp

/-! ### The variables -/

theorem mem_variables_iff_freeAt : x ∈ f.variables ↔ ∃ p, f.FreeAt p x := by
  obtain ⟨ps, located⟩ := f.exists_located
  rw [«variables», List.mem_eraseDups, ← located.occurrences, List.mem_map]
  constructor
  · rintro ⟨⟨p, y⟩, hp, rfl⟩
    exact ⟨p, (located.mem_iff p y).mp hp⟩
  · rintro ⟨p, hp⟩
    exact ⟨(p, x), (located.mem_iff p x).mpr hp, rfl⟩

/-- Each variable has a free occurrence before all free occurrences of those that are listed after it. -/
theorem variables_ordered (f : Formula) :
    f.variables.Pairwise fun x y => ∃ p, f.FreeAt p x ∧ ∀ q, f.FreeAt q y → p < q := by
  obtain ⟨ps, located⟩ := f.exists_located
  rw [«variables»]
  refine ((nodup_eraseDups _).and (pairwise_eraseDups (freeOccurrences [] f))).imp ?_
  rintro x y ⟨hxy, before, after, hsplit, hy⟩
  rw [← located.occurrences] at hsplit
  obtain ⟨ps₁, ps₂, rfl, rfl, htail⟩ := List.map_eq_append_iff.mp hsplit
  obtain ⟨⟨p, x⟩, ps₃, rfl, rfl, -⟩ := List.map_eq_cons_iff.mp htail
  refine ⟨p, (located.mem_iff p x).mp (List.mem_append_right _ List.mem_cons_self), fun q hq => ?_⟩
  rcases List.mem_append.mp ((located.mem_iff q y).mpr hq) with hq | hq
  · exact absurd (List.mem_map.mpr ⟨(q, y), hq, rfl⟩) hy
  · rcases List.mem_cons.mp hq with heq | hq
    · cases heq
      exact absurd rfl hxy
    · exact (List.pairwise_cons.mp (List.pairwise_append.mp located.ordered).2.1).1 (q, y) hq

end NormalForms.Formula
