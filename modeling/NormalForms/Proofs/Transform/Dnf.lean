import NormalForms.Proofs.Transform.Parts

/-!
Disjunctive normal forms. The transformation has one result, the clauses of all parts without a limit; a
limit decides only whether it is reached. Main statement: the result is equivalent to the formula, or the
transformation is refused, and the latter exactly when a part counts more literals than the limit. -/

namespace NormalForms

theorem Fallback.takeAll_refuse (limit : Nat) (ns : List Nnf) :
    (refuse limit).takeAll ns () = if ns = [] then (.ok [], ()) else (.error (.limitExceeded limit), ()) := by
  cases ns <;> rfl

theorem overflowing_eq_nil_iff {form : Junction} {limit : Option Nat} {ns : List Nnf} :
    overflowing form limit ns = [] ↔ ∀ L, limit = some L → ∀ n ∈ ns, n.charge form ≤ L := by
  cases limit <;> simp [overflowing, Expander.overflows, List.filter_eq_nil_iff]

theorem exists_limit_of_overflowing {form : Junction} {limit : Option Nat} {ns : List Nnf}
    (h : overflowing form limit ns ≠ []) : ∃ L, limit = some L := by
  rw [Ne, overflowing_eq_nil_iff] at h
  simp only [Classical.not_forall] at h
  obtain ⟨L, hL, -⟩ := h
  exact ⟨L, hL⟩

namespace Formula

variable {f : Formula} {n : Nnf} {o : Options}

/-- The disjunctive normal form without a limit. -/
def unlimitedDnf (f : Formula) (n : Nnf) : Formula :=
  if f.takesFastPath .disj then f.fastForm .disj
  else (ClauseSet.empty.extendWithin .disj none (n.parts .disj)).toFormula .disj

/-- Past the fast path, parts that exceed the limit decide for a refusal. -/
theorem dnf_of_not_takesFastPath (ho : o.token = none) (hfast : f.takesFastPath .disj = false) (hn : f.nnf = .ok n) :
    (f.dnf o).result = if overflowing .disj o.limit (n.parts .disj) = []
      then .ok ((ClauseSet.empty.extendWithin .disj o.limit (n.parts .disj)).toFormula .disj)
      else .error (.limitExceeded (o.limit.getD 0)) := by
  rw [dnf, (transform_of_not_takesFastPath (.refuse (o.limit.getD 0)) () ho hfast hn).1, Fallback.takeAll_refuse]
  split <;> rfl

theorem dnf_refused (ho : o.token = none) (hn : f.nnf = .ok n) {L : Nat} (hfast : f.takesFastPath .disj = false)
    (hL : o.limit = some L) {m : Nnf} (hm : m ∈ n.parts .disj) (hlt : L < m.charge .disj) :
    (f.dnf o).result = .error (.limitExceeded L) := by
  have hover : overflowing .disj o.limit (n.parts .disj) ≠ [] := fun h =>
    Nat.not_le.mpr hlt (overflowing_eq_nil_iff.mp h L hL m hm)
  rw [dnf_of_not_takesFastPath ho hfast hn, if_neg hover, hL]
  rfl

/-- On the fast path, and where all parts stay within the limit, the limit makes no difference. -/
theorem dnf_ok (ho : o.token = none) (hn : f.nnf = .ok n)
    (within : f.takesFastPath .disj = false → ∀ L, o.limit = some L → ∀ m ∈ n.parts .disj, m.charge .disj ≤ L) :
    (f.dnf o).result = .ok (f.unlimitedDnf n) := by
  rw [unlimitedDnf]
  cases hfast : f.takesFastPath .disj with
  | true =>
    rw [dnf, (transform_of_takesFastPath hfast).1]
    rfl
  | false =>
    have hover := overflowing_eq_nil_iff.mpr (within hfast)
    rw [dnf_of_not_takesFastPath ho hfast hn, if_pos hover, ClauseSet.extendWithin_of_not_overflowing hover]
    rfl

theorem eval_unlimitedDnf (hn : f.nnf = .ok n) (v : Assignment) : (f.unlimitedDnf n).eval v = f.eval v := by
  unfold unlimitedDnf
  split
  · exact eval_fastForm .disj v f
  · rw [ClauseSet.eval_toFormula, eval_of_nnf hn, ← Nnf.eval_parts .disj]
    congr 1
    apply Junction.eq_of_unit_iff .disj
    rw [ClauseSet.eval_extendWithin_eq_unit_iff, Junction.across_eq_unit_iff]
    exact forall₂_congr fun m _ => ⟨fun h => h rfl, fun h _ => h⟩

theorem mem_variables_unlimitedDnf (hn : f.nnf = .ok n) {x : Var} (hx : x ∈ (f.unlimitedDnf n).variables) :
    x ∈ f.variables := by
  unfold unlimitedDnf at hx
  split at hx
  · exact mem_variables_fastForm.mp hx
  · obtain ⟨c, hc, l, hl, rfl⟩ := ClauseSet.mem_variables_toFormula.mp hx
    obtain ⟨m, hm, hlm⟩ := ClauseSet.exists_part_of_mem_extendWithin hc hl
    exact mem_variables_of_nnf hn (Nnf.mem_occurrences_of_mem_parts hm hlm)

/-- The disjunctive normal form is equivalent to the formula and has no new variable, or it is refused. It is
    refused exactly when the formula is not returned at once and the expansion of a part, without a limit,
    counts more literals than the limit. A result stays the same for every larger limit and without one. -/
theorem dnf_equivalent_or_refused (ho : o.token = none) (hn : f.nnf = .ok n) :
    ((∃ r, (f.dnf o).result = .ok r ∧ (∀ x ∈ r.variables, x ∈ f.variables) ∧ ∀ v, r.eval v = f.eval v) ∨
        ∃ L, o.limit = some L ∧ (f.dnf o).result = .error (.limitExceeded L)) ∧
      (∀ L, (f.dnf o).result = .error (.limitExceeded L) ↔
        o.limit = some L ∧ f.takesFastPath .disj = false ∧
          ∃ m ∈ n.parts .disj, L < (Expander.clauses { form := .disj } m).2.literals) ∧
      ∀ r, (f.dnf o).result = .ok r →
        (f.dnf { o with limit := none }).result = .ok r ∧
          ∀ L L', o.limit = some L → L ≤ L' → (f.dnf { o with limit := some L' }).result = .ok r := by
  by_cases within : f.takesFastPath .disj = false → ∀ L, o.limit = some L → ∀ m ∈ n.parts .disj, m.charge .disj ≤ L
  · rw [dnf_ok ho hn within]
    refine ⟨.inl ⟨_, rfl, fun x hx => mem_variables_unlimitedDnf hn hx, eval_unlimitedDnf hn⟩, fun L => ⟨?_, ?_⟩, ?_⟩
    · exact fun h => nomatch h
    · rintro ⟨hL, hfast, m, hm, hlt⟩
      rw [Expander.literals_clauses] at hlt
      exact absurd (within hfast L hL m hm) (Nat.not_le.mpr hlt)
    · rintro r hr
      cases hr
      refine ⟨dnf_ok ho hn fun _ L hL => (nomatch hL), fun L L' hL hle => dnf_ok ho hn fun hfast K hK m hm => ?_⟩
      cases hK
      exact Nat.le_trans (within hfast L hL m hm) hle
  · simp only [Classical.not_forall, Nat.not_le] at within
    obtain ⟨hfast, L, hL, m, hm, hlt⟩ := within
    rw [dnf_refused ho hn hfast hL hm hlt]
    refine ⟨.inr ⟨L, hL, rfl⟩, fun L' => ⟨?_, ?_⟩, fun r hr => nomatch hr⟩
    · intro h
      cases h
      exact ⟨hL, hfast, m, hm, by rwa [Expander.literals_clauses]⟩
    · rintro ⟨hL', -, -⟩
      rw [hL] at hL'
      cases hL'
      rfl

/-- The equivalence of two variables counts four literals: it is refused at the limit 3, and at the limit 4 it
    has the result that it has without a limit. -/
theorem dnf_of_equivalence :
    let f := iff (var ⟨"a"⟩) (var ⟨"b"⟩)
    let n := Nnf.nary .conj [.nary .disj [.lit (.neg ⟨"a"⟩), .lit (.pos ⟨"b"⟩)],
      .nary .disj [.lit (.neg ⟨"b"⟩), .lit (.pos ⟨"a"⟩)]]
    f.nnf = .ok n ∧
      (f.dnf { limit := some 3 }).result = .error (.limitExceeded 3) ∧
      ∃ r, (f.dnf { limit := some 4 }).result = .ok r ∧ (∀ v, r.eval v = f.eval v) ∧ (f.dnf {}).result = .ok r := by
  intro f n
  have hn : f.nnf = .ok n := rfl
  have three := dnf_equivalent_or_refused (o := { limit := some 3 }) rfl hn
  have four := dnf_equivalent_or_refused (o := { limit := some 4 }) rfl hn
  refine ⟨hn, (three.2.1 3).mpr ⟨rfl, by decide, n, List.mem_singleton_self n, by decide⟩, ?_⟩
  rcases four.1 with ⟨r, hr, -, heval⟩ | ⟨L, hL, hr⟩
  · exact ⟨r, hr, heval, (four.2.2 r hr).1⟩
  · obtain ⟨-, -, m, hm, hlt⟩ := (four.2.1 L).mp hr
    rw [List.mem_singleton.mp hm] at hlt
    cases hL
    exact absurd hlt (by decide)

end Formula
end NormalForms
