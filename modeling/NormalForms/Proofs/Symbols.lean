import NormalForms.Formula.Render
import NormalForms.Proofs.Text

/-!
Symbols that can be told apart. The first character of a rendering belongs to a word, to a sign or to a parenthesis, and
in both alphabets it shows to which. No two signs of a kind are the same, signs that stand before a blank hold none, and
constants are words that are no names. -/

namespace NormalForms

/-- Whether the name is a word of letters, digits and underscores, and not one for a constant. -/
def Var.isWord (x : Var) : Bool :=
  x.name != "" && x.name != "true" && x.name != "false" && x.name.toList.all fun c => c.isAlphanum || c == '_'

theorem Var.name_ne_empty {x : Var} (h : x.isWord = true) : x.name ≠ "" := by
  simp only [isWord, Bool.and_eq_true, bne_iff_ne] at h
  exact h.1.1.1

theorem Var.eq_of_name_eq {x y : Var} (h : x.name = y.name) : x = y := by
  cases x
  cases y
  exact congrArg mk h

/-- A connective that is written between its arguments. -/
inductive Connector
  | junction (j : Junction)
  | implication
  | equivalence
deriving DecidableEq

/-- What the first character of a text belongs to. -/
inductive Lead
  | word
  | bracket
  | negation
  | quantifier
  | other
deriving DecidableEq

namespace Symbols

def sign (s : Symbols) : Connector → String
  | .junction j => s.junction j
  | .implication => s.implication
  | .equivalence => s.equivalence

/-- Whether the character occurs in words, which are names, constants and the words for constraints. -/
def isWordChar (s : Symbols) (c : Char) : Bool :=
  c.isAlphanum || c == '_' || s.truth.toList.contains c || s.falsehood.toList.contains c

def lead (s : Symbols) (c : Char) : Lead :=
  if s.isWordChar c then .word
  else if c = '(' then .bracket
  else if s.negation.toList.contains c then .negation
  else if s.existential.toList.contains c || s.universal.toList.contains c then .quantifier
  else .other

/-- Whether the first character of a text belongs to `k`. -/
def Leads (s : Symbols) (k : Lead) (u : List Char) : Prop := ∃ c v, u = c :: v ∧ s.lead c = k

/-- The characters that end a word or close a list. -/
def punctuation : List Char := [' ', ')', ',', '.', '[', ']']

/-- Whether the symbols are told from each other, from names and from punctuation. -/
structure Clear (s : Symbols) : Prop where
  constant_ne_empty : ∀ b, s.constant b ≠ ""
  constant_eq : ∀ {b b'}, s.constant b = s.constant b' → b = b'
  constant_not_name : ∀ b, Var.isWord ⟨s.constant b⟩ = false
  negation : s.Leads .negation s.negation.toList
  quantifier : ∀ q, s.Leads .quantifier (s.quantifier q).toList
  quantifier_eq : ∀ {q q'}, s.quantifier q = s.quantifier q' → q = q'
  quantifier_blank : ∀ q, ' ' ∉ (s.quantifier q).toList
  sign_eq : ∀ {k k'}, s.sign k = s.sign k' → k = k'
  sign_blank : ∀ k, ' ' ∉ (s.sign k).toList
  bracket : s.lead '(' = .bracket
  lead_punctuation : punctuation.all fun c => s.lead c = .other

theorem clear_ascii : ascii.Clear where
  constant_ne_empty := by decide
  constant_eq := by decide
  constant_not_name := by decide
  negation := ⟨'~', [], rfl, rfl⟩
  quantifier
    | .existential => ⟨'?', [], rfl, rfl⟩
    | .universal => ⟨'!', [], rfl, rfl⟩
  quantifier_eq := by rintro (_ | _) (_ | _) <;> decide
  quantifier_blank := by rintro (_ | _) <;> decide
  sign_eq := by rintro ((_ | _) | _ | _) ((_ | _) | _ | _) <;> decide
  sign_blank := by rintro ((_ | _) | _ | _) <;> decide
  bracket := by decide
  lead_punctuation := by decide

theorem clear_unicode : unicode.Clear where
  constant_ne_empty := by decide
  constant_eq := by decide
  constant_not_name := by decide
  negation := ⟨'¬', [], rfl, rfl⟩
  quantifier
    | .existential => ⟨'∃', [], rfl, rfl⟩
    | .universal => ⟨'∀', [], rfl, rfl⟩
  quantifier_eq := by rintro (_ | _) (_ | _) <;> decide
  quantifier_blank := by rintro (_ | _) <;> decide
  sign_eq := by rintro ((_ | _) | _ | _) ((_ | _) | _ | _) <;> decide
  sign_blank := by rintro ((_ | _) | _ | _) <;> decide
  bracket := by decide
  lead_punctuation := by decide

variable {s : Symbols} {k k' : Lead} {u : List Char} {c : Char}

theorem Leads.append (h : s.Leads k u) (r : List Char) : s.Leads k (u ++ r) := by
  obtain ⟨c, v, rfl, hc⟩ := h
  exact ⟨c, v ++ r, rfl, hc⟩

theorem Leads.unique (h : s.Leads k u) (h' : s.Leads k' u) : k = k' := by
  obtain ⟨c, v, rfl, rfl⟩ := h
  obtain ⟨d, w, heq, rfl⟩ := h'
  rw [(List.cons.inj heq).1]

theorem Leads.opens (h : s.Leads k u) (hc : s.lead c ≠ k) : Opens c u := by
  obtain ⟨d, v, rfl, rfl⟩ := h
  exact ⟨d, v, rfl, fun hd => hc (hd ▸ rfl)⟩

theorem leads_word (hne : u ≠ []) (hu : ∀ c ∈ u, s.isWordChar c = true) : s.Leads .word u := by
  cases u with
  | nil => exact absurd rfl hne
  | cons c v => exact ⟨c, v, rfl, by rw [lead, hu c List.mem_cons_self]; rfl⟩

theorem Clear.lead_eq_other (hs : s.Clear) (hc : c ∈ punctuation) : s.lead c = .other := by
  simpa using List.all_eq_true.mp hs.lead_punctuation c hc

theorem Clear.not_isWordChar (hs : s.Clear) (hc : c ∈ punctuation) : ¬s.isWordChar c = true := by
  intro hword
  have other := hs.lead_eq_other hc
  rw [lead, if_pos hword] at other
  cases other

theorem isWordChar_constant (b : Bool) : ∀ c ∈ (s.constant b).toList, s.isWordChar c = true := by
  intro c hc
  cases b with
  | false => simp [isWordChar, show c ∈ s.falsehood.toList from hc]
  | true => simp [isWordChar, show c ∈ s.truth.toList from hc]

theorem isWordChar_name {x : Var} (hx : x.isWord = true) : ∀ c ∈ x.name.toList, s.isWordChar c = true := by
  simp only [Var.isWord, Bool.and_eq_true, List.all_eq_true] at hx
  intro c hc
  simp [isWordChar, hx.2 c hc]

end Symbols
end NormalForms
