import NormalForms.Proofs.Formula.Nodes
import NormalForms.Proofs.Symbols

/-!
What the renderings of a formula show of it. A literal is written like a variable or its negation, a junction without
arguments like a constant, and one of a single argument like the argument; nothing else is written like
anything else. -/

namespace NormalForms
namespace Formula

/-! ### Names -/

/-- The names at the root, free and bound. -/
def rootNames : Formula → List Var
  | var x => [x]
  | lit l => [l.var]
  | quant _ xs _ => xs
  | const _ | not _ | nary .. | implies .. | iff .. | card .. => []

/-- The names of variables in the formula, free and bound. -/
def names (f : Formula) : List Var := f.nodes.flatMap rootNames

theorem nodes_subset_of_mem_children {f g : Formula} (hg : g ∈ f.children) : g.nodes ⊆ f.nodes := by
  intro h hh
  cases f <;> simp only [children, List.mem_cons, List.not_mem_nil, or_false] at hg <;>
    simp only [nodes, nodesList_eq_flatMap, List.mem_cons, List.mem_append, List.mem_flatMap]
  case not => exact .inr (hg ▸ hh)
  case nary => exact .inr ⟨g, hg, hh⟩
  case implies =>
    rcases hg with rfl | rfl
    · exact .inr (.inl hh)
    · exact .inr (.inr hh)
  case iff =>
    rcases hg with rfl | rfl
    · exact .inr (.inl hh)
    · exact .inr (.inr hh)
  case card => exact .inr ⟨g, hg, hh⟩
  case quant => exact .inr (hg ▸ hh)

theorem names_subset_of_mem_children {f g : Formula} (hg : g ∈ f.children) : g.names ⊆ f.names := by
  intro x hx
  obtain ⟨h, hh, hx⟩ := List.mem_flatMap.mp hx
  exact List.mem_flatMap.mpr ⟨h, nodes_subset_of_mem_children hg hh, hx⟩

/-! ### The formula that is shown -/

mutual

/-- The formula with negated variables for literals, constants for junctions without arguments and the arguments for
    junctions of one argument, at every depth. -/
def shown : Formula → Formula
  | const b => const b
  | var x => var x
  | lit l => if l.negated then not (var l.var) else var l.var
  | not f => not f.shown
  | nary j [] => const j.unit
  | nary _ [f] => f.shown
  | nary j (f :: g :: fs) => nary j (shownList (f :: g :: fs))
  | implies p c => implies p.shown c.shown
  | iff l r => iff l.shown r.shown
  | card c args => card c (shownList args)
  | quant q xs f => quant q xs f.shown

def shownList : List Formula → List Formula
  | [] => []
  | f :: fs => f.shown :: shownList fs

end

@[simp]
theorem shownList_eq (fs : List Formula) : shownList fs = fs.map shown := by
  induction fs with
  | nil => rfl
  | cons f fs ih => rw [shownList, ih, List.map_cons]

/-- A formula is written like the formula that is shown of it, as a whole and as an argument. -/
theorem render_shown (s : Symbols) (f : Formula) : f.shown.render s = f.render s ∧ f.shown.isTight = f.isTight := by
  induction f with
  | const b => exact ⟨rfl, rfl⟩
  | var x => exact ⟨rfl, rfl⟩
  | lit l =>
    rw [shown, render, Literal.render]
    cases l.negated with
    | false => exact ⟨rfl, rfl⟩
    | true => exact ⟨rfl, rfl⟩
  | not f ih => simp [shown, render, isTight, ih]
  | nary j args ih =>
    match args, ih with
    | [], _ => exact ⟨rfl, rfl⟩
    | [f], ih => exact ih f List.mem_cons_self
    | f :: g :: fs, ih =>
      have operands : renderOperands s ((f :: g :: fs).map shown) = renderOperands s (f :: g :: fs) := by
        rw [renderOperands_eq, renderOperands_eq, List.map_map]
        exact List.map_congr_left fun h hh => by simp [ih h hh]
      refine ⟨?_, rfl⟩
      rw [shown, shownList_eq, List.map_cons, List.map_cons, render, render]
      exact congrArg _ operands
  | implies p c ihp ihc => simp [shown, render, isTight, ihp, ihc]
  | iff l r ihl ihr => simp [shown, render, isTight, ihl, ihr]
  | card c args ih =>
    have args : renderList s (args.map shown) = renderList s args := by
      rw [renderList_eq, renderList_eq, List.map_map]
      exact List.map_congr_left fun h hh => (ih h hh).1
    refine ⟨?_, rfl⟩
    rw [shown, shownList_eq, render, args, render]
  | quant q xs f ih => simp [shown, render, isTight, ih]

/-- Formulas as they are shown, with words for names. -/
inductive Readable : Formula → Prop
  | const (b : Bool) : Readable (const b)
  | var {x : Var} : x.isWord = true → Readable (var x)
  | not {f : Formula} : Readable f → Readable (not f)
  | nary (j : Junction) {f g : Formula} {fs : List Formula} : (∀ h ∈ f :: g :: fs, Readable h) →
      Readable (nary j (f :: g :: fs))
  | implies {p c : Formula} : Readable p → Readable c → Readable (implies p c)
  | iff {l r : Formula} : Readable l → Readable r → Readable (iff l r)
  | card (c : Cardinality) {args : List Formula} : (∀ h ∈ args, Readable h) → Readable (card c args)
  | quant (q : Quantifier) {xs : List Var} {f : Formula} : (∀ x ∈ xs, x.isWord = true) → Readable f →
      Readable (quant q xs f)

theorem readable_shown {f : Formula} (h : ∀ x ∈ f.names, x.isWord = true) : f.shown.Readable := by
  have below : ∀ {f g : Formula}, (∀ x ∈ f.names, x.isWord = true) → g ∈ f.children → ∀ x ∈ g.names, x.isWord = true :=
    fun h hg x hx => h x (names_subset_of_mem_children hg hx)
  induction f with
  | const b => exact .const b
  | var x => exact .var (h x (List.mem_singleton_self x))
  | lit l =>
    have word : l.var.isWord = true := h l.var (List.mem_singleton_self l.var)
    rw [shown]
    split
    · exact .not (.var word)
    · exact .var word
  | not f ih => exact .not (ih (below h (by simp [children])))
  | nary j args ih =>
    rcases args with _ | ⟨f, _ | ⟨g, fs⟩⟩
    · exact .const j.unit
    · exact ih f (by simp) (below h (by simp [children]))
    · rw [shown, shownList_eq]
      exact .nary j (List.forall_mem_map.mpr fun k hk => ih k hk (below h hk))
  | implies p c ihp ihc =>
    exact .implies (ihp (below h (by simp [children]))) (ihc (below h (by simp [children])))
  | iff l r ihl ihr => exact .iff (ihl (below h (by simp [children]))) (ihr (below h (by simp [children])))
  | card c args ih =>
    rw [shown, shownList_eq]
    exact .card c (List.forall_mem_map.mpr fun k hk => ih k hk (below h hk))
  | quant q xs f ih =>
    have bound : ∀ x ∈ xs, x.isWord = true := fun x hx => h x (List.mem_append_left _ hx)
    exact .quant q bound (ih (below h (by simp [children])))

end Formula
end NormalForms
