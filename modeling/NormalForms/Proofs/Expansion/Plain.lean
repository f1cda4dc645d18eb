import NormalForms.Proofs.Expansion.Coverage

/-!
The distributive laws alone. A plain expansion joins and combines the clauses of the arguments at every node, and
passes over nothing, drops nothing and keeps the order of the arguments; its clauses may contain complementary
literals, and may repeat. Main statement: the clauses of an expansion are the minimal ones among those of the plain
expansion that have no complementary literals. So dropping subsumed clauses and passing over complementary ones
makes no difference below other nodes, because a clause that is covered early stays covered. -/

namespace NormalForms

/-! ### Unions -/

namespace Clause

/-- The unions of one clause of every list, in all ways. -/
def allUnions : List (List Clause) → List Clause
  | [] => [.empty]
  | cs :: rest => cs.flatMap fun c => (allUnions rest).map c.union

variable {c : Clause} {cs : List Clause} {css : List (List Clause)}

theorem mem_allUnions_cons : c ∈ allUnions (cs :: css) ↔ ∃ d ∈ cs, ∃ e ∈ allUnions css, d.union e = c := by
  simp only [allUnions, List.mem_flatMap, List.mem_map]

/-- A union is part of a clause exactly if all clauses that it is made of are. -/
theorem exists_mem_allUnions_subsumes_iff :
    (∃ d ∈ allUnions css, d.subsumes c = true) ↔ ∀ cs ∈ css, ∃ d ∈ cs, d.subsumes c = true := by
  induction css with
  | nil => simp [allUnions, subsumes_iff]
  | cons cs css ih =>
    rw [List.forall_mem_cons, ← ih]
    simp only [mem_allUnions_cons]
    constructor
    · rintro ⟨-, ⟨d, hd, e, he, rfl⟩, hc⟩
      obtain ⟨hdc, hec⟩ := union_subsumes_iff.mp hc
      exact ⟨⟨d, hd, hdc⟩, e, he, hec⟩
    · rintro ⟨⟨d, hd, hdc⟩, e, he, hec⟩
      exact ⟨d.union e, ⟨d, hd, e, he, rfl⟩, union_subsumes_iff.mpr ⟨hdc, hec⟩⟩

end Clause

/-! ### Expansions -/

namespace Nnf

mutual

/-- The clauses of a normal form in the `form` normal form by the distributive laws alone. -/
def plainExpansion (form : Junction) : Nnf → List Clause
  | const b => if b = form.unit then [] else [.empty]
  | lit l => [.single l]
  | nary i args =>
    if i = form then (plainExpansionList form args).flatten else Clause.allUnions (plainExpansionList form args)

/-- The clauses of each normal form of a list. -/
def plainExpansionList (form : Junction) : List Nnf → List (List Clause)
  | [] => []
  | n :: ns => n.plainExpansion form :: plainExpansionList form ns

end

variable {form : Junction} {c : Clause} {n : Nnf}

@[simp]
theorem plainExpansionList_eq (form : Junction) (ns : List Nnf) :
    plainExpansionList form ns = ns.map (plainExpansion form) := by
  induction ns with
  | nil => rfl
  | cons n ns ih => simp [plainExpansionList, ih]

/-- A plain expansion covers every clause, also one with complementary literals, exactly if the normal form does not
    have the value of the unit where the literals of the clause count for nothing. -/
theorem covered_plainExpansion :
    (∃ d ∈ n.plainExpansion form, d.subsumes c = true) ↔ n.value (c.valuation form) ≠ form.unit := by
  induction n with
  | const b =>
    rw [plainExpansion, value]
    split
    · simp_all
    · rename_i hb
      refine iff_of_true ⟨.empty, List.mem_singleton_self _, ?_⟩ hb
      exact Clause.subsumes_iff.mpr fun l hl => absurd hl Clause.not_mem_empty
  | lit l =>
    rw [plainExpansion, value, Clause.valuation_ne_unit_iff]
    simp [Clause.subsumes_iff]
  | nary i args ih =>
    rw [plainExpansion, value_nary, plainExpansionList_eq]
    split
    · rename_i hi
      rw [hi, Ne, Junction.across_eq_unit_iff]
      simp only [List.mem_flatten, List.mem_map, exists_exists_and_eq_and, Classical.not_forall, exists_prop]
      constructor
      · rintro ⟨d, ⟨n, hn, hd⟩, hdc⟩
        exact ⟨n, hn, (ih n hn).mp ⟨d, hd, hdc⟩⟩
      · rintro ⟨n, hn, hv⟩
        obtain ⟨d, hd, hdc⟩ := (ih n hn).mpr hv
        exact ⟨d, ⟨n, hn, hd⟩, hdc⟩
    · rename_i hi
      rw [Clause.exists_mem_allUnions_subsumes_iff, Junction.eq_dual_of_ne hi, Ne, Junction.across_dual_eq_unit_iff,
        List.forall_mem_map]
      simp only [not_exists, not_and]
      exact forall₂_congr ih

theorem mem_expansion_iff : c ∈ n.expansion form ↔ c.IsMinimal (· ∈ n.plainExpansion form) := by
  rw [← Clause.isMinimal_covered_iff]
  refine (irredundant_expansion form n).mem_iff_isMinimal (fun d hd => not_isTautology_of_mem_expansion hd) ?_
  intro d hd
  rw [covered_plainExpansion, covers_expansion hd]

end Nnf

theorem Nnf.expansion_ascending (form : Junction) (n : Nnf) :
    (n.expansion form).clauses.Pairwise fun c d => c.size ≤ d.size := by
  cases n with
  | const b =>
    rw [expansion, ClauseSet.ofConst]
    split
    · exact .nil
    · exact List.pairwise_singleton _ _
  | lit l => exact List.pairwise_singleton _ _
  | nary i args =>
    rw [expansion]
    split <;> exact ClauseSet.removeSubsumed_ascending _

/-- Without a limit there are clauses of every normal form. They are the minimal ones among those of the plain
    expansion that have no complementary literals, and they ascend by their number of literals. -/
theorem Expander.clauses_minimal_in_plainExpansion (form : Junction) (literals : Nat) (n : Nnf) :
    ∃ S, (clauses { form, literals } n).1 = .ok S ∧
      (∀ c, c ∈ S ↔ c.IsMinimal (· ∈ n.plainExpansion form)) ∧
      S.clauses.Pairwise fun c d => c.size ≤ d.size :=
  ⟨n.expansion form, clauses_fst rfl n, fun _ => Nnf.mem_expansion_iff, n.expansion_ascending form⟩

end NormalForms
