import NormalForms.Proofs.Formula.Basis

/-!
Cardinality constraints whose bounds are words of 64 bits. The sizes of the choices come from one subtraction and one
addition of words, behind comparisons of the bound with the number of arguments. Main statement: behind these
comparisons the words neither wrap nor leave the numbers from one to that of the arguments, so computing with words gives
the formulas that computing with numbers gives; and these say exactly what the bounds say. -/

namespace NormalForms.Formula

/-! ### Words -/

/-- The sum of two words, unless it is too large for a word. -/
def addWord? (a b : UInt64) : Option UInt64 :=
  if BitVec.uaddOverflow a.toBitVec b.toBitVec then none else some (a + b)

/-- The difference of two words, unless it is negative. -/
def subWord? (a b : UInt64) : Option UInt64 :=
  if BitVec.usubOverflow a.toBitVec b.toBitVec then none else some (a - b)

theorem addWord?_eq {a b : UInt64} (h : a.toNat + b.toNat < UInt64.size) :
    ∃ c, addWord? a b = some c ∧ c.toNat = a.toNat + b.toNat := by
  have fits : BitVec.uaddOverflow a.toBitVec b.toBitVec = false :=
    decide_eq_false (Nat.not_le.mpr h)
  refine ⟨a + b, by rw [addWord?, fits]; rfl, ?_⟩
  rw [UInt64.toNat_add, Nat.mod_eq_of_lt h]

theorem subWord?_eq {a b : UInt64} (h : b ≤ a) : ∃ c, subWord? a b = some c ∧ c.toNat = a.toNat - b.toNat := by
  have fits : BitVec.usubOverflow a.toBitVec b.toBitVec = false :=
    decide_eq_false (Nat.not_lt.mpr (UInt64.le_iff_toNat_le.mp h))
  exact ⟨a - b, by rw [subWord?, fits]; rfl, UInt64.toNat_sub_of_le a b h⟩

/-! ### Sizes of choices -/

/-- The size of the choices that need a true one, computed with words. -/
def coverWord? (n k : UInt64) : Option UInt64 := do addWord? (← subWord? n k) 1

/-- The size of the choices that need a false one, computed with words. -/
def excessWord? (k : UInt64) : Option UInt64 := addWord? k 1

/-- The size that `basisAtLeast` asks for behind its comparisons: at least one, and no more than there are
    arguments. -/
theorem coverWord?_eq {n k : UInt64} (hk : k ≠ 0) (hn : ¬n < k) :
    ∃ size, coverWord? n k = some size ∧ size.toNat = coverSize n.toNat k.toNat ∧ 1 ≤ size.toNat ∧
      size.toNat ≤ n.toNat := by
  have hle : k ≤ n := UInt64.not_lt.mp hn
  have hle' : k.toNat ≤ n.toNat := UInt64.le_iff_toNat_le.mp hle
  have hpos : 0 < k.toNat := Nat.pos_of_ne_zero fun h => hk (UInt64.toNat_inj.mp h)
  have hlt := n.toNat_lt
  obtain ⟨difference, hdifference, heq⟩ := subWord?_eq hle
  have fits : difference.toNat + UInt64.toNat 1 < UInt64.size := by
    rw [heq, UInt64.toNat_one, UInt64.size]
    omega
  obtain ⟨size, hsize, hvalue⟩ := addWord?_eq fits
  rw [heq, UInt64.toNat_one] at hvalue
  refine ⟨size, by rw [coverWord?, hdifference]; exact hsize, hvalue, ?_, ?_⟩ <;> omega

/-- The size that `basisAtMost` asks for behind its comparison: at least one, and no more than there are arguments. -/
theorem excessWord?_eq {n k : UInt64} (hn : ¬n ≤ k) :
    ∃ size, excessWord? k = some size ∧ size.toNat = excessSize k.toNat ∧ 1 ≤ size.toNat ∧ size.toNat ≤ n.toNat := by
  have hlt : k.toNat < n.toNat := UInt64.lt_iff_toNat_lt.mp (UInt64.not_le.mp hn)
  have hn' := n.toNat_lt
  have fits : k.toNat + UInt64.toNat 1 < UInt64.size := by
    rw [UInt64.toNat_one, UInt64.size]
    omega
  obtain ⟨size, hsize, hvalue⟩ := addWord?_eq fits
  rw [UInt64.toNat_one] at hvalue
  refine ⟨size, hsize, hvalue, ?_, ?_⟩ <;> omega

/-! ### Expansions -/

/-- That at least `k` of the arguments are true, if the words do not wrap. -/
def basisAtLeastWord? (k : UInt64) (args : List Formula) : Option Formula :=
  let n := UInt64.ofNat args.length
  if k = 0 then some (const true)
  else if n < k then some (const false)
  else (coverWord? n k).map fun size => all ((choices size.toNat args).map any)

/-- That at most `k` of the arguments are true, if the words do not wrap. -/
def basisAtMostWord? (k : UInt64) (args : List Formula) : Option Formula :=
  let n := UInt64.ofNat args.length
  if n ≤ k then some (const true)
  else (excessWord? k).map fun size => all ((choices size.toNat args).map fun chosen => any (chosen.map not))

section
variable {k : UInt64} {args : List Formula} {v : Assignment}

theorem basisAtLeastWord?_eq (hlen : args.length < UInt64.size) :
    basisAtLeastWord? k args = some (basisAtLeast k.toNat args) := by
  have hn : (UInt64.ofNat args.length).toNat = args.length := UInt64.toNat_ofNat_of_lt' hlen
  have hzero : k.toNat = 0 ↔ k = 0 := UInt64.toNat_inj (b := 0)
  rw [basisAtLeastWord?, basisAtLeast]
  by_cases hk : k = 0
  · rw [if_pos hk, if_pos (hzero.mpr hk)]
  · rw [if_neg hk, if_neg fun h => hk (hzero.mp h)]
    by_cases hlt : UInt64.ofNat args.length < k
    · rw [if_pos hlt, if_pos (hn ▸ UInt64.lt_iff_toNat_lt.mp hlt)]
    · obtain ⟨size, hsize, hvalue, -, -⟩ := coverWord?_eq hk hlt
      rw [if_neg hlt, if_neg fun h => hlt (UInt64.lt_iff_toNat_lt.mpr (hn.symm ▸ h)), hsize, Option.map_some, hvalue, hn]

theorem basisAtMostWord?_eq (hlen : args.length < UInt64.size) :
    basisAtMostWord? k args = some (basisAtMost k.toNat args) := by
  have hn : (UInt64.ofNat args.length).toNat = args.length := UInt64.toNat_ofNat_of_lt' hlen
  rw [basisAtMostWord?, basisAtMost]
  by_cases hle : UInt64.ofNat args.length ≤ k
  · rw [if_pos hle, if_pos (hn ▸ UInt64.le_iff_toNat_le.mp hle)]
  · obtain ⟨size, hsize, hvalue, -, -⟩ := excessWord?_eq hle
    rw [if_neg hle, if_neg fun h => hle (UInt64.le_iff_toNat_le.mpr (hn.symm ▸ h)), hsize, Option.map_some, hvalue]

/-- The number of arguments that are true, each place on its own. -/
def countArgs (v : Assignment) (args : List Formula) : Nat := args.countP fun f => f.eval v = .ok true

theorem exists_values_of_forall (h : ∀ f ∈ args, ∃ b, f.eval v = .ok b) :
    ∃ bs, Values v args bs ∧ bs.count true = countArgs v args := by
  induction args with
  | nil => exact ⟨[], .nil, rfl⟩
  | cons f args ih =>
    obtain ⟨⟨b, hb⟩, hargs⟩ := List.forall_mem_cons.mp h
    obtain ⟨bs, hbs, hcount⟩ := ih hargs
    refine ⟨b :: bs, .cons hb hbs, ?_⟩
    rw [countArgs, List.countP_cons, ← countArgs, hb, List.count_cons, hcount]
    cases b <;> rfl

/-- Arguments that are written in the basis have truth values. -/
theorem forall_exists_of_toBasisRecList {fs : List Formula} (h : toBasisRecList fs = .ok args) (v : Assignment) :
    ∀ f ∈ args, ∃ b, f.eval v = .ok b := by
  have related : List.Forall₂ (fun _ g => ∃ b, g.eval v = .ok b) fs args :=
    forall₂_of_toBasisRecList (fun _ _ _ hg => (eval_toBasisRec hg).imp fun _ hb => hb.2) h
  have flipped : List.Forall₂ (fun g _ => (∃ b, g.eval v = .ok b) ∧ True) args fs :=
    related.flip.imp fun _ _ hg => ⟨hg, trivial⟩
  exact ((List.forall₂_and_left _ _).mp flipped).1

/-- A bound that is any word, and no more arguments than a word can count. The words that the sizes of the choices are
    computed with do not wrap, and the sizes go from one to the number of arguments. Computed with words or with numbers,
    the formulas are the same, and they are true exactly if at least, or at most, as many arguments are true as the bound
    says. This is so under every assignment for which the arguments have truth values, and arguments that are written in
    the basis always have them. -/
theorem cardinality_exact_on_words (k : UInt64) (args : List Formula) (hlen : args.length < UInt64.size) :
    let n := UInt64.ofNat args.length
    (k ≠ 0 → ¬n < k → ∃ size, coverWord? n k = some size ∧ size.toNat = args.length - k.toNat + 1 ∧
      1 ≤ size.toNat ∧ size.toNat ≤ args.length) ∧
    (¬n ≤ k → ∃ size, excessWord? k = some size ∧ size.toNat = k.toNat + 1 ∧
      1 ≤ size.toNat ∧ size.toNat ≤ args.length) ∧
    basisAtLeastWord? k args = some (basisAtLeast k.toNat args) ∧
    basisAtMostWord? k args = some (basisAtMost k.toNat args) ∧
    (∀ v, (∀ f ∈ args, ∃ b, f.eval v = .ok b) →
      (basisAtLeast k.toNat args).eval v = .ok (decide (k.toNat ≤ countArgs v args)) ∧
      (basisAtMost k.toNat args).eval v = .ok (decide (countArgs v args ≤ k.toNat))) ∧
    ∀ fs, toBasisRecList fs = .ok args → ∀ v, ∀ f ∈ args, ∃ b, f.eval v = .ok b := by
  intro n
  have hn : n.toNat = args.length := UInt64.toNat_ofNat_of_lt' hlen
  refine ⟨fun hk hlt => ?_, fun hle => ?_, basisAtLeastWord?_eq hlen, basisAtMostWord?_eq hlen, fun v h => ?_,
    fun fs hfs => forall_exists_of_toBasisRecList hfs⟩
  · rw [← hn]
    exact coverWord?_eq hk hlt
  · rw [← hn]
    exact excessWord?_eq hle
  · obtain ⟨bs, hbs, hcount⟩ := exists_values_of_forall h
    rw [← hcount]
    exact ⟨eval_basisAtLeast k.toNat hbs, eval_basisAtMost k.toNat hbs⟩

/-- An argument that is given twice counts twice, so two of these three are true, and each choice of two has a true one.
    No number of arguments reaches the largest word. -/
theorem cardinality_exact_on_words_of_repetition :
    let x (name : String) : Formula := .var ⟨name⟩
    let args := [x "a", x "a", not (x "b")]
    let v : Assignment := fun _ => true
    args.length < UInt64.size ∧ toBasisRecList args = .ok args ∧ countArgs v args = 2 ∧
      (∃ size, coverWord? 3 2 = some size ∧ size.toNat = 2) ∧ (∃ size, excessWord? 1 = some size ∧ size.toNat = 2) ∧
      (basisAtLeast 2 args).eval v = .ok true ∧ (basisAtMost 1 args).eval v = .ok false ∧
      basisAtLeastWord? 18446744073709551615 args = some (const false) := by
  intro x args v
  have hlen : args.length < UInt64.size := by decide
  have basis : toBasisRecList args = .ok args := rfl
  obtain ⟨cover, -, -, -, two, values⟩ := cardinality_exact_on_words 2 args hlen
  obtain ⟨-, excess, -, -, one, -⟩ := cardinality_exact_on_words 1 args hlen
  obtain ⟨-, -, largest, -⟩ := cardinality_exact_on_words 18446744073709551615 args hlen
  obtain ⟨size, hsize, hvalue, -, -⟩ := cover (by decide) (by decide)
  obtain ⟨size', hsize', hvalue', -, -⟩ := excess (by decide)
  have hargs := values args basis v
  exact ⟨hlen, basis, rfl, ⟨size, hsize, hvalue⟩, ⟨size', hsize', hvalue'⟩, (two v hargs).1, (one v hargs).2, largest⟩

end
end NormalForms.Formula
