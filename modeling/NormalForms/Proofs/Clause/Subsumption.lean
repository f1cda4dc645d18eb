import NormalForms.Proofs.Clause.Set
import NormalForms.Proofs.StableSort

/-!
Subsumption. What a clause set says of a clause is whether one of its own clauses subsumes it. Dropping subsumed
clauses keeps this and leaves no clause that subsumes another, and two such sets that cover each other have the
same clauses. -/

namespace NormalForms

namespace Clause

variable {c d e : Clause}

theorem subsumes_trans (hcd : c.subsumes d = true) (hde : d.subsumes e = true) : c.subsumes e = true := by
  rw [subsumes_iff] at hcd hde ⊢
  exact fun l hl => hde l (hcd l hl)

theorem subsumes_antisymm (hcd : c.subsumes d = true) (hdc : d.subsumes c = true) : c = d :=
  ext fun l => ⟨subsumes_iff.mp hcd l, subsumes_iff.mp hdc l⟩

theorem not_isTautology_of_subsumes (h : c.subsumes d = true) (hd : d.isTautology = false) : c.isTautology = false := by
  rw [isTautology_eq_false_iff] at hd ⊢
  rw [subsumes_iff] at h
  exact fun l hl hl' => hd l (h l hl) (h _ hl')

theorem union_subsumes_iff : (c.union d).subsumes e = true ↔ c.subsumes e = true ∧ d.subsumes e = true := by
  simp only [subsumes_iff, mem_union, or_imp, forall_and]

/-- A clause that subsumes one with no more literals is that clause. -/
theorem eq_of_subsumes_of_size_le (h : c.subsumes d = true) (hsize : d.size ≤ c.size) : c = d := by
  have among : c.literals.Subperm d.literals := c.nodup_literals.subperm fun l hl => subsumes_iff.mp h l hl
  have perm := among.perm_of_length_le hsize
  exact ext fun l => perm.mem_iff

/-- Whether a clause without complementary literals has a property that no clause properly contained in it has. -/
structure IsMinimal (P : Clause → Prop) (c : Clause) : Prop where
  proper : c.isTautology = false
  holds : P c
  minimal : ∀ d, P d → d.subsumes c = true → d = c

/-- The minimal clauses that some clause of a list subsumes are the minimal clauses of the list. -/
theorem isMinimal_covered_iff {cs : List Clause} :
    c.IsMinimal (fun c => ∃ d ∈ cs, d.subsumes c = true) ↔ c.IsMinimal (· ∈ cs) := by
  constructor
  · rintro ⟨proper, ⟨e, he, hec⟩, minimal⟩
    refine ⟨proper, minimal e ⟨e, he, e.subsumes_refl⟩ hec ▸ he, fun d hd hdc => ?_⟩
    exact minimal d ⟨d, hd, d.subsumes_refl⟩ hdc
  · rintro ⟨proper, hc, minimal⟩
    refine ⟨proper, ⟨c, hc, c.subsumes_refl⟩, ?_⟩
    rintro d ⟨e, he, hed⟩ hdc
    have same : e = c := minimal e he (subsumes_trans hed hdc)
    exact subsumes_antisymm hdc (same ▸ hed)

end Clause

namespace ClauseSet

variable {S T : ClauseSet} {c d : Clause} {cs kept : List Clause}

/-- Whether a clause of the set subsumes `c`. -/
def Covers (S : ClauseSet) (c : Clause) : Prop := ∃ d ∈ S, d.subsumes c = true

/-- Whether no clause of the set subsumes another. -/
def Irredundant (S : ClauseSet) : Prop := ∀ c ∈ S, ∀ d ∈ S, c.subsumes d = true → c = d

theorem covers_of_mem (h : c ∈ S) : S.Covers c := ⟨c, h, c.subsumes_refl⟩

theorem covers_congr (h : ∀ d, d ∈ S ↔ d ∈ T) : S.Covers c ↔ T.Covers c := exists_congr fun d => and_congr_left' (h d)

@[simp]
theorem not_covers_empty : ¬empty.Covers c := fun ⟨_, h, _⟩ => not_mem_empty h

@[simp]
theorem covers_single : (single d).Covers c ↔ d.subsumes c = true := by simp [Covers]

theorem covers_removeSubsumed : S.removeSubsumed.Covers c ↔ S.Covers c := by
  constructor
  · rintro ⟨d, hd, hdc⟩
    exact ⟨d, mem_of_mem_removeSubsumed hd, hdc⟩
  · rintro ⟨d, hd, hdc⟩
    obtain ⟨k, hk, hkd⟩ := exists_subsumes_of_mem hd
    exact ⟨k, hk, Clause.subsumes_trans hkd hdc⟩

/-! ### Sets without subsumed clauses -/

theorem irredundant_empty : empty.Irredundant := fun _ hc => absurd hc not_mem_empty

theorem irredundant_single (c : Clause) : (single c).Irredundant := by
  intro d hd e he _
  rw [mem_single.mp hd, mem_single.mp he]

/-- Among clauses that come in by their size, none that is kept is subsumed by a later one: it would be no larger
    than the later one, so it would be the same clause. -/
theorem irredundant_foldl (ascending : cs.Pairwise fun c d => c.size ≤ d.size)
    (smaller : ∀ k ∈ kept, ∀ c ∈ cs, k.size ≤ c.size)
    (irredundant : ∀ c ∈ kept, ∀ d ∈ kept, c.subsumes d = true → c = d) :
    ∀ c ∈ cs.foldl keepUnsubsumed kept, ∀ d ∈ cs.foldl keepUnsubsumed kept, c.subsumes d = true → c = d := by
  induction cs generalizing kept with
  | nil => exact irredundant
  | cons c cs ih =>
    obtain ⟨hc, hcs⟩ := List.pairwise_cons.mp ascending
    rw [List.foldl_cons]
    by_cases hsub : (kept.any fun k => k.subsumes c) = true
    · rw [keepUnsubsumed, if_pos hsub]
      exact ih hcs (fun k hk d hd => smaller k hk d (List.mem_cons_of_mem c hd)) irredundant
    · rw [keepUnsubsumed, if_neg hsub]
      have apart : ∀ k ∈ kept, ¬k.subsumes c = true := by simpa using hsub
      refine ih hcs (fun k hk d hd => ?_) fun k hk d hd hkd => ?_
      · rcases List.mem_append.mp hk with hk | hk
        · exact smaller k hk d (List.mem_cons_of_mem c hd)
        · rw [List.mem_singleton.mp hk]
          exact hc d hd
      · rcases List.mem_append.mp hk with hk | hk <;> rcases List.mem_append.mp hd with hd | hd
        · exact irredundant k hk d hd hkd
        · rw [List.mem_singleton.mp hd] at hkd
          exact absurd hkd (apart k hk)
        · rw [List.mem_singleton.mp hk] at hkd ⊢
          exact Clause.eq_of_subsumes_of_size_le hkd (smaller d hd c List.mem_cons_self)
        · rw [List.mem_singleton.mp hk, List.mem_singleton.mp hd]

theorem irredundant_removeSubsumed (S : ClauseSet) : S.removeSubsumed.Irredundant :=
  irredundant_foldl (sortOn_ascending Clause.size S.clauses) (fun _ hk => absurd hk List.not_mem_nil)
    fun _ hk => absurd hk List.not_mem_nil

theorem removeSubsumed_sublist (S : ClauseSet) : S.removeSubsumed.clauses.Sublist (sortOn Clause.size S.clauses) :=
  sublist_foldl_keepUnsubsumed [] _

theorem removeSubsumed_ascending (S : ClauseSet) :
    S.removeSubsumed.clauses.Pairwise fun c d => c.size ≤ d.size :=
  (sortOn_ascending Clause.size S.clauses).sublist S.removeSubsumed_sublist

/-- A clause of one set contains one of the other, and that one contains a clause of the first, which can only be
    the clause itself. -/
theorem Irredundant.mem_of_covers (hS : S.Irredundant) (hc : c ∈ S) (hcover : T.Covers c) (h : ∀ d ∈ T, S.Covers d) :
    c ∈ T := by
  obtain ⟨d, hd, hdc⟩ := hcover
  obtain ⟨e, he, hed⟩ := h d hd
  have same : e = c := hS e he c hc (Clause.subsumes_trans hed hdc)
  rw [same] at hed
  rwa [Clause.subsumes_antisymm hed hdc]

/-- Proper clauses, none of which subsumes another, are the minimal ones among the clauses that they cover. -/
theorem Irredundant.mem_iff_isMinimal {P : Clause → Prop} (hS : S.Irredundant)
    (proper : ∀ c ∈ S, c.isTautology = false) (hP : ∀ c, c.isTautology = false → (P c ↔ S.Covers c)) :
    c ∈ S ↔ c.IsMinimal P := by
  constructor
  · intro hc
    refine ⟨proper c hc, (hP c (proper c hc)).mpr (covers_of_mem hc), fun d hd hdc => ?_⟩
    obtain ⟨e, he, hed⟩ := (hP d (Clause.not_isTautology_of_subsumes hdc (proper c hc))).mp hd
    have same : e = c := hS e he c hc (Clause.subsumes_trans hed hdc)
    exact Clause.subsumes_antisymm hdc (same ▸ hed)
  · rintro ⟨hproper, hc, minimal⟩
    obtain ⟨e, he, hec⟩ := (hP c hproper).mp hc
    have same : e = c := minimal e ((hP e (proper e he)).mpr (covers_of_mem he)) hec
    exact same ▸ he

theorem sameClauses_iff : S.sameClauses T = true ↔ ∀ c, c ∈ S ↔ c ∈ T := by
  rw [sameClauses, Bool.and_eq_true, List.all_eq_true, List.all_eq_true]
  simp only [contains_iff, ← mem_def]
  exact ⟨fun h c => ⟨h.1 c, h.2 c⟩, fun h => ⟨fun c => (h c).mp, fun c => (h c).mpr⟩⟩

/-- Sets without subsumed clauses that cover each other have the same clauses. -/
theorem sameClauses_of_covers (hS : S.Irredundant) (hT : T.Irredundant) (hcovers : ∀ c ∈ S, T.Covers c)
    (hcovered : ∀ c ∈ T, S.Covers c) : S.sameClauses T = true :=
  sameClauses_iff.mpr fun c =>
    ⟨fun hc => hS.mem_of_covers hc (hcovers c hc) hcovered, fun hc => hT.mem_of_covers hc (hcovered c hc) hcovers⟩

end ClauseSet
end NormalForms
