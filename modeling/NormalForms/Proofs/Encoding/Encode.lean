import NormalForms.Encoder
import NormalForms.Proofs.Encoding.Layers
import NormalForms.Proofs.Names.Numbering
import NormalForms.Proofs.Traversal

/-!
Encoding of a normal form. A literal stands for the normal form if encoding succeeds, and without constants it does
succeed. Whether it succeeds or fails midway, it does nothing to the encoder but define junctions of the normal form,
with literals that stand for their arguments, so it keeps what such definitions keep (`KeptBy`). The traversal computes
the recursion `encodeRec`, in which a junction is looked up once: what is not defined when it is entered is not defined
when it is left. -/

namespace NormalForms.Encoder

open Traversal (Computes ComputesAll)

/-! ### Definitions found -/

section
variable {σ : Type} {e : Encoder σ} {n : Nnf}

/-- The formulas that have a definition, in the order of the definitions. -/
def formulas (e : Encoder σ) : List Nnf := e.definitions.map Definition.formula

theorem find?_eq_some {d : Definition} (h : e.find? n = some d) : d ∈ e.definitions ∧ d.formula = n := by
  have found := List.find?_some h
  simp only [Bool.and_eq_true, beq_iff_eq] at found
  exact ⟨List.mem_of_find?_eq_some h, found.2⟩

theorem mem_formulas_of_find? {d : Definition} (h : e.find? n = some d) : n ∈ e.formulas := by
  obtain ⟨hd, rfl⟩ := find?_eq_some h
  exact List.mem_map_of_mem hd

theorem find?_eq_none_iff : e.find? n = none ↔ n ∉ e.formulas := by
  simp only [find?, List.find?_eq_none, Bool.and_eq_true, beq_iff_eq, not_and, formulas, List.mem_map, not_exists]
  exact forall₂_congr fun d _ => ⟨fun h hn => h (by rw [d.size_eq, hn]) hn, fun h _ => h⟩

end

section
variable {σ : Type} [NameSource σ] {n : Nnf} {ns : List Nnf}

theorem formulas_define (e : Encoder σ) (j : Junction) (n : Nnf) (ls : List Literal) :
    (e.define j n ls).2.formulas = e.formulas ++ [n] := by
  rw [formulas, define, List.map_append]
  rfl

/-! ### Literals for normal forms -/

theorem encodeRecList_cons_ok {e e' : Encoder σ} {ls : List Literal} (h : encodeRecList (n :: ns) e = (.ok ls, e')) :
    ∃ l ls' later, ls = l :: ls' ∧ encodeRec n e = (.ok l, later) ∧ encodeRecList ns later = (.ok ls', e') := by
  rw [encodeRecList] at h
  rcases hn : encodeRec n e with ⟨failure | l, later⟩
  · rw [hn] at h
    cases h
  · rw [hn] at h
    dsimp only at h
    rcases hns : encodeRecList ns later with ⟨failure | ls', last⟩
    · rw [hns] at h
      cases h
    · rw [hns] at h
      cases h
      exact ⟨l, ls', later, rfl, rfl, hns⟩

/-- A junction has a literal because it is defined already, or because its arguments have literals and it is
    defined now. -/
theorem encodeRec_nary_ok {e e' : Encoder σ} {j : Junction} {args : List Nnf} {l : Literal}
    (h : encodeRec (.nary j args) e = (.ok l, e')) :
    (∃ d, e.find? (.nary j args) = some d ∧ l = .pos d.name ∧ e' = e) ∨
      e.find? (.nary j args) = none ∧ ∃ ls later, encodeRecList args e = (.ok ls, later) ∧
        later.define j (.nary j args) ls = (l, e') := by
  rw [encodeRec] at h
  cases hfind : e.find? (.nary j args) with
  | some d =>
    rw [hfind] at h
    cases h
    exact .inl ⟨d, rfl, rfl, rfl⟩
  | none =>
    rw [hfind] at h
    dsimp only at h
    rcases hargs : encodeRecList args e with ⟨failure | ls, later⟩
    · rw [hargs] at h
      cases h
    · rw [hargs] at h
      cases h
      exact .inr ⟨rfl, ls, later, rfl, rfl⟩

theorem stands_define {e : Encoder σ} {j : Junction} {args : List Nnf} {ls : List Literal} :
    Stands (e.define j (.nary j args) ls).2.definitions (.nary j args) (e.define j (.nary j args) ls).1 :=
  ⟨_, List.mem_append_right _ (List.mem_singleton_self _), rfl, rfl⟩

theorem stands_encodeRecList {e e' : Encoder σ} {ls : List Literal}
    (h : ∀ n ∈ ns, ∀ (e e' : Encoder σ) l, encodeRec n e = (.ok l, e') →
      e.definitions <+: e'.definitions ∧ Stands e'.definitions n l)
    (hns : encodeRecList ns e = (.ok ls, e')) :
    e.definitions <+: e'.definitions ∧ List.Forall₂ (Stands e'.definitions) ns ls := by
  induction ns generalizing e ls with
  | nil =>
    cases hns
    exact ⟨List.prefix_refl _, .nil⟩
  | cons n ns ih =>
    obtain ⟨l, ls', later, rfl, hn, hrest⟩ := encodeRecList_cons_ok hns
    obtain ⟨first, stands⟩ := h n List.mem_cons_self e later l hn
    obtain ⟨rest, stands'⟩ := ih (fun m hm => h m (List.mem_cons_of_mem n hm)) hrest
    exact ⟨first.trans rest, .cons (stands.mono rest.subset) stands'⟩

/-- Encoding that succeeds adds definitions, and its literal stands for the normal form. -/
theorem stands_encodeRec {e e' : Encoder σ} {l : Literal} (h : encodeRec n e = (.ok l, e')) :
    e.definitions <+: e'.definitions ∧ Stands e'.definitions n l := by
  induction n generalizing e e' l with
  | const b => cases h
  | lit m =>
    cases h
    exact ⟨List.prefix_refl _, rfl⟩
  | nary j args ih =>
    rcases encodeRec_nary_ok h with ⟨d, hfind, rfl, rfl⟩ | ⟨-, ls, later, hargs, hdefine⟩
    · obtain ⟨hd, hformula⟩ := find?_eq_some hfind
      exact ⟨List.prefix_refl _, d, hd, hformula, rfl⟩
    · obtain ⟨kept, -⟩ := stands_encodeRecList (fun n hn e e' l h => ih n hn h) hargs
      obtain rfl : (later.define j (.nary j args) ls).2 = e' := congrArg Prod.snd hdefine
      obtain rfl : (later.define j (.nary j args) ls).1 = l := congrArg Prod.fst hdefine
      exact ⟨kept.trans (List.prefix_append _ _), stands_define⟩

theorem forall₂_stands {e e' : Encoder σ} {ls : List Literal} (h : encodeRecList ns e = (.ok ls, e')) :
    List.Forall₂ (Stands e'.definitions) ns ls :=
  (stands_encodeRecList (fun _ _ _ _ _ h => stands_encodeRec h) h).2

theorem encodeRecList_ok (h : ∀ n ∈ ns, ∀ e : Encoder σ, ∃ l e', encodeRec n e = (.ok l, e')) (e : Encoder σ) :
    ∃ ls e', encodeRecList ns e = (.ok ls, e') := by
  induction ns generalizing e with
  | nil => exact ⟨[], e, rfl⟩
  | cons n ns ih =>
    obtain ⟨l, e', hn⟩ := h n List.mem_cons_self e
    obtain ⟨ls, e'', hns⟩ := ih (fun m hm => h m (List.mem_cons_of_mem n hm)) e'
    refine ⟨l :: ls, e'', ?_⟩
    rw [encodeRecList, hn]
    dsimp only
    rw [hns]

/-- Without constants, encoding succeeds. -/
theorem encodeRec_ok (h : n.constants = []) (e : Encoder σ) : ∃ l e', encodeRec n e = (.ok l, e') := by
  induction n generalizing e with
  | const b => cases h
  | lit l => exact ⟨l, e, rfl⟩
  | nary j args ih =>
    rw [encodeRec]
    cases e.find? (.nary j args) with
    | some d => exact ⟨.pos d.name, e, rfl⟩
    | none =>
      obtain ⟨ls, e', hargs⟩ := encodeRecList_ok (fun n hn => ih n hn (Nnf.constants_of_mem (j := j) h hn)) e
      dsimp only
      rw [hargs]
      exact ⟨_, _, rfl⟩

/-! ### What definitions keep -/

/-- Whether `P` is kept where one of the junctions `js` is defined, with literals that stand for its arguments. -/
def KeptBy (P : Encoder σ → Prop) (js : List Nnf) : Prop :=
  ∀ e j args ls, Nnf.nary j args ∈ js → List.Forall₂ (Stands e.definitions) args ls → P e →
    P (e.define j (.nary j args) ls).2

section
variable {P : Encoder σ → Prop} {e : Encoder σ} {is js : List Nnf}

theorem KeptBy.mono (h : KeptBy P js) (hsub : is ⊆ js) : KeptBy P is :=
  fun e j args ls hmem => h e j args ls (hsub hmem)

theorem KeptBy.of_define (h : ∀ e j n ls, P e → P (define e j n ls).2) : KeptBy P js :=
  fun e j args ls _ _ => h e j (.nary j args) ls

theorem encodeRecList_keeps_of_forall (h : ∀ n ∈ ns, ∀ e, P e → P (encodeRec n e).2) (he : P e) :
    P (encodeRecList ns e).2 := by
  induction ns generalizing e with
  | nil => exact he
  | cons n ns ih =>
    have first := h n List.mem_cons_self e he
    have rest := ih (fun m hm => h m (List.mem_cons_of_mem n hm)) first
    rw [encodeRecList]
    rcases hn : encodeRec n e with ⟨failure | l, e'⟩
    · rwa [hn] at first
    · rw [hn] at rest
      dsimp only
      rcases hns : encodeRecList ns e' with ⟨failure | ls, e''⟩
      · rwa [hns] at rest
      · rwa [hns] at rest

/-- What the definitions of its junctions keep, encoding a normal form keeps, also where it fails. -/
theorem encodeRec_keeps (keeps : KeptBy P n.junctions) (he : P e) : P (encodeRec n e).2 := by
  induction n generalizing e with
  | const b => exact he
  | lit l => exact he
  | nary j args ih =>
    have below : ∀ n ∈ args, KeptBy P n.junctions := fun n hn =>
      keeps.mono fun m hm => List.mem_cons_of_mem _ (Nnf.junctions_subset_of_mem hn hm)
    rw [encodeRec]
    cases e.find? (.nary j args) with
    | some d => exact he
    | none =>
      have children := encodeRecList_keeps_of_forall (fun n hn e he => ih n hn (below n hn) he) he
      dsimp only
      rcases hargs : encodeRecList args e with ⟨failure | ls, later⟩
      · rwa [hargs] at children
      · rw [hargs] at children
        exact keeps later j args ls (Nnf.nary_mem_junctions j args) (forall₂_stands hargs) children

theorem encodeRecList_keeps (keeps : KeptBy P (Nnf.junctionsList ns)) (he : P e) : P (encodeRecList ns e).2 :=
  encodeRecList_keeps_of_forall (fun _ hn _ => encodeRec_keeps (keeps.mono (Nnf.junctions_subset_of_mem hn))) he

end

theorem prefix_define {start : Encoder σ} (e : Encoder σ) (j : Junction) (n : Nnf) (ls : List Literal)
    (h : start.definitions <+: e.definitions) : start.definitions <+: (e.define j n ls).2.definitions :=
  h.trans (List.prefix_append _ _)

theorem formulas_keptBy (known js : List Nnf) : KeptBy (fun e : Encoder σ => e.formulas ⊆ known ++ js) js := by
  intro e j args ls hmem _ he
  rw [formulas_define]
  exact List.append_subset.mpr ⟨he, List.cons_subset.mpr ⟨List.mem_append_right known hmem, List.nil_subset _⟩⟩

/-- A junction that is not defined when it is entered is not defined when it is left: what is defined between is
    below it. -/
theorem find?_encodeRecList {e : Encoder σ} {j : Junction} {args : List Nnf} (h : e.find? (.nary j args) = none) :
    (encodeRecList args e).2.find? (.nary j args) = none := by
  rw [find?_eq_none_iff] at h ⊢
  have defined : (encodeRecList args e).2.formulas ⊆ e.formulas ++ Nnf.junctionsList args :=
    encodeRecList_keeps (formulas_keptBy e.formulas _) (List.subset_append_left _ _)
  intro hm
  rcases List.mem_append.mp (defined hm) with hm | hm
  · exact h hm
  · exact Nnf.nary_not_mem_junctionsList j args hm

/-! ### The traversal -/

theorem encode_computesAll
    (h : ∀ n ∈ ns, ∀ e : Encoder σ, traversal.Computes n e (2 * n.size) (encodeRec n e).1 (encodeRec n e).2)
    (e : Encoder σ) :
    traversal.ComputesAll ns e (2 * Nnf.sizeList ns) (encodeRecList ns e).1 (encodeRecList ns e).2 := by
  refine .of_forall (fun ns => 2 * Nnf.sizeList ns) rfl (fun n ns => ?_) (fun _ => rfl) (fun n ns s => ?_) h e
  · rw [Nnf.sizeList, Nat.mul_add]
  · rw [encodeRecList]
    rcases encodeRec n s with ⟨_ | a, s'⟩
    · rfl
    · dsimp only
      rcases encodeRecList ns s' with ⟨_ | as, s''⟩ <;> rfl

theorem encode_computes (n : Nnf) (e : Encoder σ) :
    traversal.Computes n e (2 * n.size) (encodeRec n e).1 (encodeRec n e).2 := by
  induction n generalizing e with
  | const b => exact (Computes.fail rfl).mono (by simp [Nnf.size])
  | lit l => exact (Computes.done rfl).mono (by simp [Nnf.size])
  | nary j args ih =>
    rw [encodeRec]
    cases hfind : e.find? (.nary j args) with
    | some d => exact (Computes.done (by simp [traversal, hfind])).mono (by have := (Nnf.nary j args).size_pos; omega)
    | none =>
      have enter : traversal.enter (.nary j args) e = .descend (j, .nary j args) args := by simp [traversal, hfind]
      have children := encode_computesAll ih e
      have absent := find?_encodeRecList hfind
      rw [Nnf.size, Nat.mul_add]
      dsimp only
      rcases hargs : encodeRecList args e with ⟨_ | ls, e'⟩
      · rw [hargs] at children
        exact .descend_error enter children
      · rw [hargs] at children absent
        exact .descend enter children (by simp [traversal, absent])

theorem encode_eq (e : Encoder σ) (n : Nnf) : e.encode n = encodeRec n e := by
  rw [encode, Traversal.traverse_eq (encode_computes n e)]
  simp

theorem encodeAll_eq (e : Encoder σ) (ns : List Nnf) : e.encodeAll ns = encodeRecList ns e := by
  induction ns generalizing e with
  | nil => rfl
  | cons n ns ih =>
    rw [encodeAll, encodeRecList, encode_eq]
    rcases encodeRec n e with ⟨_ | l, e'⟩
    · rfl
    · dsimp only
      rw [ih]

/-! ### Assertions -/

/-- The clauses that assert a `j` of arguments that literals stand for. -/
def assertedBy : Junction → List Literal → List Clause
  | .conj, ls => ls.map .single
  | .disj, ls => [.ofList ls]

/-- Asserting a junction takes no more of the encoder than encoding its arguments. -/
theorem assertion_nary (e : Encoder σ) (j : Junction) (args : List Nnf) :
    e.assertion (.nary j args) = ((encodeRecList args e).1.map (assertedBy j), (encodeRecList args e).2) := by
  rw [assertion, encodeAll_eq]
  rcases encodeRecList args e with ⟨failure | ls, later⟩
  · rfl
  · cases j <;> rfl

theorem assertion_nary_ok {e : Encoder σ} {j : Junction} {args : List Nnf} {cs : List Clause}
    (h : (e.assertion (.nary j args)).1 = .ok cs) :
    ∃ ls, encodeRecList args e = (.ok ls, (e.assertion (.nary j args)).2) ∧ cs = assertedBy j ls := by
  rw [assertion_nary] at h ⊢
  rcases hargs : encodeRecList args e with ⟨failure | ls, later⟩
  · rw [hargs] at h
    cases h
  · rw [hargs] at h
    cases h
    exact ⟨ls, rfl, rfl⟩

theorem assertion_keeps {P : Encoder σ → Prop} {e : Encoder σ} (keeps : KeptBy P n.innerJunctions) (he : P e) :
    P (e.assertion n).2 := by
  cases n with
  | const b => cases b <;> exact he
  | lit l => exact he
  | nary j args =>
    rw [assertion_nary]
    exact encodeRecList_keeps keeps he

end

/-! ### Growth -/

/-- An encoder that began with the variables `known` registered, and whose definitions are layers over the
    variables of `base`, which are among them. -/
structure Consistent (known base : List Var) (e : Encoder Numbering) : Prop where
  base_subset : base ⊆ known
  registered : e.source.variables = known ++ e.definitions.map Definition.name
  fresh : ∀ d ∈ e.definitions, d.name ∉ known
  layered : Layered base e.definitions

/-- A later consistent encoder, with all definitions of the earlier one. -/
structure Grows (known base : List Var) (e e' : Encoder Numbering) : Prop where
  consistent : e'.Consistent known base
  definitions : e.definitions <+: e'.definitions

variable {known base : List Var} {e e' e'' : Encoder Numbering} {ns args : List Nnf} {j : Junction} {ls : List Literal}

theorem Consistent.grows (h : e.Consistent known base) : Grows known base e e := ⟨h, List.prefix_refl _⟩

theorem Grows.trans (h : Grows known base e e') (h' : Grows known base e' e'') : Grows known base e e'' :=
  ⟨h'.consistent, h.definitions.trans h'.definitions⟩

theorem Grows.subset (h : Grows known base e e') : e.definitions ⊆ e'.definitions := h.definitions.subset

/-- A definition of literals that stand for the arguments is one on top of the others. -/
theorem grows_define (h : e.Consistent known base) (hn : ∀ x ∈ (Nnf.nary j args).occurrences, x ∈ base)
    (hargs : List.Forall₂ (Stands e.definitions) args ls) : Grows known base e (e.define j (.nary j args) ls).2 := by
  have unused := Numbering.fresh_not_mem e.stem e.source
  have registered := Numbering.variables_fresh e.stem e.source
  rw [h.registered] at unused registered
  refine ⟨⟨h.base_subset, ?_, ?_, ?_⟩, List.prefix_append _ _⟩
  · rw [define, List.map_append, ← List.append_assoc]
    exact registered
  · intro d hd
    rcases List.mem_append.mp hd with hd | hd
    · exact h.fresh d hd
    · rw [List.mem_singleton.mp hd]
      exact fun hknown => unused (List.mem_append_left _ hknown)
  · refine .snoc h.layered ⟨fun hname => unused ?_, hn, j, args, ls, rfl, hargs, rfl⟩
    rcases List.mem_append.mp hname with hname | hname
    · exact List.mem_append_left _ (h.base_subset hname)
    · exact List.mem_append_right known hname

theorem grows_keptBy (hns : ∀ n ∈ ns, ∀ x ∈ n.occurrences, x ∈ base) : KeptBy (Grows known base e) ns :=
  fun _ _ _ _ hmem hargs he => he.trans (grows_define he.consistent (hns _ hmem) hargs)

end NormalForms.Encoder
