import NormalForms.Proofs.Formula.Shown

/-!
Renderings are read in one way only. The first character of an argument tells an atom or a cardinality constraint, a
negation and an argument in parentheses apart, and the first character of a whole formula also a quantified one. An
argument ends before a blank, a closing parenthesis or a comma, and a whole formula, which may hold blanks of its own,
before the others of them; so what comes behind a first argument is a chain of signs and further arguments.
Main statement: two formulas have the same rendering exactly if the same formula is shown of them. -/

namespace NormalForms

/-! ### Cardinality constraints -/

namespace Cardinality

/-- A number in decimal digits. -/
abbrev digits (n : Nat) : List Char := n.repr.toList

def bounds : Cardinality → List Nat
  | atLeast k | atMost k | choose k => [k]
  | between lower upper => [lower, upper]

theorem eq_of_word_bounds {c d : Cardinality} (hword : c.word = d.word) (hbounds : c.bounds = d.bounds) : c = d := by
  cases c <;> cases d <;> simp_all [word, bounds]

theorem toList_render (c : Cardinality) :
    c.render.toList = c.word.toList ++ '[' :: commaList ']' digits c.bounds := by
  cases c <;> simp [render, bounds, commaList]

end Cardinality

namespace Formula

open Cardinality (digits)

variable {s : Symbols} {f g : Formula} {r t : List Char}

/-! ### Texts -/

/-- The formula, written as a whole. -/
def text (s : Symbols) (f : Formula) : List Char := (f.render s).toList

/-- The formula, written as an argument. -/
def operand (s : Symbols) (f : Formula) : List Char := (parenthesize f.isTight (f.render s)).toList

theorem operand_of_tight (h : f.isTight = true) : operand s f = text s f := by
  rw [operand, h]
  rfl

theorem operand_of_not_tight (h : f.isTight = false) : operand s f = ['('] ++ text s f ++ [')'] := by
  rw [operand, h, parenthesize]
  simp [text]

theorem text_not (s : Symbols) (f : Formula) : text s (not f) = s.negation.toList ++ operand s f := by
  rw [text, render, String.toList_append]
  rfl

theorem text_quant (s : Symbols) (q : Quantifier) (xs : List Var) (f : Formula) : text s (quant q xs f) =
    (s.quantifier q).toList ++ ' ' :: (commaList '.' (fun x : Var => x.name.toList) xs ++ ' ' :: operand s f) := by
  simp [text, render, operand, commaList, Function.comp_def]

/-- The part of an atom or a cardinality constraint before the first bracket. -/
def leadingWord (s : Symbols) : Formula → List Char
  | const b => (s.constant b).toList
  | var x => x.name.toList
  | card c _ => c.word.toList
  | lit _ | not _ | nary .. | implies .. | iff .. | quant .. => []

/-- What is behind that part. -/
def behindWord (s : Symbols) : Formula → List Char
  | card c args => '[' :: (commaList ']' digits c.bounds ++ '(' :: commaList ')' (text s) args)
  | const _ | var _ | lit _ | not _ | nary .. | implies .. | iff .. | quant .. => []

theorem text_card (s : Symbols) (c : Cardinality) (args : List Formula) :
    text s (card c args) = leadingWord s (card c args) ++ behindWord s (card c args) := by
  simp only [leadingWord, behindWord, commaList, funext (text.eq_1 s)]
  simp [render, Cardinality.toList_render, commaList, Function.comp_def]

/-! ### Chains -/

/-- The first argument of a connective that is written between its arguments, and the signs and arguments behind it.
    Any other formula stands first, and nothing behind it. -/
def chain : Formula → Formula × List (Connector × Formula)
  | nary j (f :: g :: fs) => (f, (g :: fs).map fun h => (.junction j, h))
  | implies p c => (p, [(.implication, c)])
  | iff l r => (l, [(.equivalence, r)])
  | f => (f, [])

/-- The formula with a chain. -/
def ofChain : Formula × List (Connector × Formula) → Formula
  | (f, []) => f
  | (f, (.junction j, g) :: rest) => nary j (f :: g :: rest.map Prod.snd)
  | (f, (.implication, g) :: _) => implies f g
  | (f, (.equivalence, g) :: _) => iff f g

/-- A sign and the argument behind it. -/
def link (s : Symbols) (l : Connector × Formula) : List Char :=
  (' ' :: (s.sign l.1).toList) ++ ' ' :: operand s l.2

theorem ofChain_chain (hf : f.Readable) : ofChain f.chain = f := by
  cases hf with
  | nary j _ => simp [chain, ofChain]
  | _ => rfl

theorem readable_chain (hf : f.Readable) : f.chain.1.Readable ∧ ∀ l ∈ f.chain.2, l.2.Readable := by
  cases hf with
  | nary j h =>
    rw [List.forall_mem_cons] at h
    exact ⟨h.1, List.forall_mem_map.mpr h.2⟩
  | implies hp hc => exact ⟨hp, List.forall_mem_singleton.mpr hc⟩
  | iff hl hr => exact ⟨hl, List.forall_mem_singleton.mpr hr⟩
  | const b => exact ⟨.const b, List.forall_mem_nil _⟩
  | var hx => exact ⟨.var hx, List.forall_mem_nil _⟩
  | not h => exact ⟨.not h, List.forall_mem_nil _⟩
  | card c h => exact ⟨.card c h, List.forall_mem_nil _⟩
  | quant q hxs h => exact ⟨.quant q hxs h, List.forall_mem_nil _⟩

/-- A formula that is not quantified is written as its chain. -/
theorem text_eq_chain (hf : f.Readable) (hq : f.isQuantified = false) :
    text s f = operand s f.chain.1 ++ f.chain.2.flatMap (link s) := by
  cases hf with
  | nary j h =>
    rw [text, render, renderOperands_eq, String.toList_intercalate, List.map_map, List.map_cons,
      intercalate_cons_eq_flatMap, chain, List.flatMap_map, List.flatMap_map]
    refine congrArg _ (List.flatMap_congr fun g _ => ?_)
    simp [link, operand, Symbols.sign]
  | implies hp hc => simp [text, render, chain, link, operand, Symbols.sign]
  | iff hl hr => simp [text, render, chain, link, operand, Symbols.sign]
  | quant q hxs h => cases hq
  | _ => exact (List.append_nil _).symm

/-! ### First characters -/

/-- What the first character of the formula belongs to, where it is written as an argument. -/
def lead : Formula → Lead
  | const _ | var _ | lit _ | card .. => .word
  | not _ => .negation
  | nary .. | implies .. | iff .. | quant .. => .bracket

theorem isTight_eq_false_iff (hf : f.Readable) : f.isTight = false ↔ f.lead = .bracket := by
  cases hf <;> simp [isTight, lead]

theorem isWordChar_leadingWord (hf : f.Readable) : ∀ c ∈ leadingWord s f, s.isWordChar c = true := by
  cases hf with
  | const b => exact Symbols.isWordChar_constant b
  | var hx => exact Symbols.isWordChar_name hx
  | card c h =>
    have letters : ∀ a ∈ c.word.toList, a.isAlphanum = true := by cases c <;> simp [Cardinality.word]
    exact fun a ha => by simp [Symbols.isWordChar, letters a ha]
  | _ => exact List.forall_mem_nil _

theorem leadingWord_ne_nil (hs : s.Clear) (hf : f.Readable) (h : f.lead = .word) : leadingWord s f ≠ [] := by
  cases hf with
  | const b => simpa [leadingWord] using hs.constant_ne_empty b
  | var hx => simpa [leadingWord] using Var.name_ne_empty hx
  | card c _ => cases c <;> simp [leadingWord, Cardinality.word]
  | _ => cases h

theorem operand_eq_leadingWord (hf : f.Readable) (h : f.lead = .word) :
    operand s f = leadingWord s f ++ behindWord s f := by
  cases hf with
  | const b => exact (List.append_nil _).symm
  | var hx => exact (List.append_nil _).symm
  | card c _ => exact text_card s c _
  | _ => cases h

theorem leads_operand (hs : s.Clear) (hf : f.Readable) : s.Leads f.lead (operand s f) := by
  cases hlead : f.lead with
  | word =>
    rw [operand_eq_leadingWord hf hlead]
    exact (Symbols.leads_word (leadingWord_ne_nil hs hf hlead) (isWordChar_leadingWord hf)).append _
  | negation =>
    cases hf with
    | not hf =>
      rw [operand_of_tight rfl, text_not]
      exact hs.negation.append _
    | _ => cases hlead
  | bracket =>
    rw [operand_of_not_tight ((isTight_eq_false_iff hf).mpr hlead)]
    exact ⟨'(', _, rfl, hs.bracket⟩
  | quantifier => cases f <;> cases hlead
  | other => cases f <;> cases hlead

theorem lead_eq (hs : s.Clear) (hf : f.Readable) (hg : g.Readable) (h : operand s f ++ r = operand s g ++ t) :
    f.lead = g.lead := by
  have begins := (leads_operand hs hf).append r
  rw [h] at begins
  exact begins.unique ((leads_operand hs hg).append t)

/-- The first character of a whole formula tells whether it is quantified, and does not close a list. -/
theorem exists_leads_text (hs : s.Clear) (hf : f.Readable) :
    ∃ k, s.Leads k (text s f) ∧ k ≠ .other ∧ (k = .quantifier ↔ f.isQuantified = true) := by
  cases hq : f.isQuantified with
  | false =>
    refine ⟨f.chain.1.lead, ?_, ?_⟩
    · rw [text_eq_chain hf hq]
      exact (leads_operand hs (readable_chain hf).1).append _
    · cases f.chain.1 <;> simp [lead]
  | true =>
    cases hf with
    | quant q _ _ =>
      rw [text_quant]
      exact ⟨.quantifier, (hs.quantifier q).append _, by simp⟩
    | _ => cases hq

theorem isQuantified_eq (hs : s.Clear) (hf : f.Readable) (hg : g.Readable) (h : text s f ++ r = text s g ++ t) :
    f.isQuantified = g.isQuantified := by
  obtain ⟨k, hk, -, hfq⟩ := exists_leads_text hs hf
  obtain ⟨k', hk', -, hgq⟩ := exists_leads_text hs hg
  have begins := hk.append r
  rw [h] at begins
  rw [Bool.eq_iff_iff, ← hfq, ← hgq, begins.unique (hk'.append t)]

/-! ### Reading -/

/-- Whether the formula, written as a whole, is told from all others before a closing parenthesis or a comma. -/
def ReadsWhole (s : Symbols) (f : Formula) : Prop := ∀ g : Formula, g.Readable → Reads [')', ','] (text s) f g

/-- Whether the formula, written as an argument, is told from all others also before a blank. -/
def ReadsOperand (s : Symbols) (f : Formula) : Prop := ∀ g : Formula, g.Readable → Reads [' ', ')', ','] (operand s) f g

theorem reads_link (hs : s.Clear) {k k' : Connector} (hf : ReadsOperand s f) (hg : g.Readable) :
    Reads [' ', ')', ','] (link s) (k, f) (k', g) := by
  have signs : Reads [' '] (fun k => ' ' :: (s.sign k).toList) k k' := by
    have bare : Reads [' '] (fun k => (s.sign k).toList) k k' :=
      .of_all (p := (· ≠ ' ')) (fun c hc heq => hs.sign_blank k (heq ▸ hc)) (fun c hc heq => hs.sign_blank k' (heq ▸ hc))
        (by simp)
        fun h => hs.sign_eq (String.toList_inj.mp h)
    exact bare.behind [' ']
  have blank : ∀ u r, StartsIn [' '] ((' ' :: u) ++ r) := fun _ _ => startsIn_cons.mpr List.mem_cons_self
  exact signs.append ((hf g hg).behind [' ']) (fun _ _ => blank _ _) (fun _ _ => blank _ _)

/-- A formula that is not quantified is told from all others if the arguments in its chain are. -/
theorem readsWhole_of_chain (hs : s.Clear) (hf : f.Readable) (hq : f.isQuantified = false)
    (first : ReadsOperand s f.chain.1) (rest : ∀ l ∈ f.chain.2, ReadsOperand s l.2) : ReadsWhole s f := by
  intro g hg r t hr ht h
  have hgq : g.isQuantified = false := (isQuantified_eq hs hf hg h).symm.trans hq
  obtain ⟨hfirst, hrest⟩ := readable_chain hg
  have marked : ∀ ls : List (Connector × Formula), ∀ l ∈ ls, ∃ u, link s l = ' ' :: u := fun _ _ _ => ⟨_, rfl⟩
  have links : Reads [')', ','] (List.flatMap (link s)) f.chain.2 g.chain.2 :=
    reads_flatMap (by decide) (marked _) (marked _) fun l hl l' hl' => reads_link hs (rest l hl) (hrest l' hl')
  have chains := (first _ hfirst).append links (fun r => startsIn_flatMap (marked _)) (fun r => startsIn_flatMap (marked _))
  rw [text_eq_chain hf hq, text_eq_chain hg hgq] at h
  obtain ⟨hchain, rfl⟩ := chains r t hr ht h
  have hchain : f.chain = g.chain := hchain
  exact ⟨by rw [← ofChain_chain hf, hchain, ofChain_chain hg], rfl⟩

theorem readsOperand_of_not_tight (hs : s.Clear) (hf : f.Readable) (h : f.isTight = false) (whole : ReadsWhole s f) :
    ReadsOperand s f := by
  intro g hg r t hr ht heq
  have hgt : g.isTight = false := by
    rw [isTight_eq_false_iff hg, ← lead_eq hs hf hg heq, ← isTight_eq_false_iff hf, h]
  rw [operand_of_not_tight h, operand_of_not_tight hgt] at heq
  exact (whole g hg).between ['('] [')'] (fun _ => startsIn_cons.mpr List.mem_cons_self) r t hr ht heq

theorem readsOperand_not (hs : s.Clear) (hf : f.Readable) (h : ReadsOperand s f) : ReadsOperand s (not f) := by
  intro g hg r t hr ht heq
  have hlead : Lead.negation = g.lead := lead_eq hs (.not hf) hg heq
  cases hg with
  | not hg =>
    rw [operand_of_tight rfl, operand_of_tight rfl, text_not, text_not] at heq
    obtain ⟨rfl, rfl⟩ := (h _ hg).behind _ r t hr ht heq
    exact ⟨rfl, rfl⟩
  | _ => cases hlead

/-- Two arguments that begin with words begin with the same word. -/
theorem leadingWord_eq (hs : s.Clear) (hf : f.Readable) (hg : g.Readable) (hword : f.lead = .word)
    (hr : StartsIn [' ', ')', ','] r) (ht : StartsIn [' ', ')', ','] t) (h : operand s f ++ r = operand s g ++ t) :
    g.lead = .word ∧ leadingWord s f = leadingWord s g ∧ behindWord s f ++ r = behindWord s g ++ t := by
  have hgword : g.lead = .word := (lead_eq hs hf hg h).symm.trans hword
  have ended : ∀ (f : Formula) {r : List Char}, StartsIn [' ', ')', ','] r →
      StartsIn [' ', ')', ',', '['] (behindWord s f ++ r) := by
    intro f r hr
    cases f with
    | card c args => exact startsIn_cons.mpr (by simp)
    | _ => exact hr.mono (by simp)
  have stops : [' ', ')', ',', '['] ⊆ Symbols.punctuation := by simp [Symbols.punctuation]
  rw [operand_eq_leadingWord hf hword, operand_eq_leadingWord hg hgword, List.append_assoc, List.append_assoc] at h
  exact ⟨hgword, append_inj_of_all (isWordChar_leadingWord hf) (isWordChar_leadingWord hg) (ended f hr) (ended g ht)
    (fun c hc => hs.not_isWordChar (stops hc)) h⟩

/-- Whether the formula is written in a single word. -/
def isAtom : Formula → Bool
  | const _ | var _ => true
  | lit _ | not _ | nary .. | implies .. | iff .. | card .. | quant .. => false

/-- Constants and variables are told by their words. -/
theorem eq_of_leadingWord_eq (hs : s.Clear) (hf : f.Readable) (hg : g.Readable) (hatom : f.isAtom = true)
    (hatom' : g.isAtom = true) (h : leadingWord s f = leadingWord s g) : f = g := by
  have apart : ∀ {b : Bool} {x : Var}, x.isWord = true → s.constant b ≠ x.name := by
    intro b x hx heq
    have hno := hs.constant_not_name b
    rw [heq, hx] at hno
    cases hno
  cases hf with
  | const b =>
    cases hg with
    | const b' => rw [hs.constant_eq (String.toList_inj.mp h)]
    | var hx => exact absurd (String.toList_inj.mp h) (apart hx)
    | _ => cases hatom'
  | @var x hx =>
    cases hg with
    | const b => exact absurd (String.toList_inj.mp h).symm (apart hx)
    | @var y _ =>
      exact congrArg var (Var.eq_of_name_eq (String.toList_inj.mp h))
    | _ => cases hatom'
  | _ => cases hatom

/-- Behind the word of a cardinality constraint there is a bracket. -/
theorem isAtom_of_ended (hword : f.lead = .word) (hf : f.Readable) (h : StartsIn [' ', ')', ','] (behindWord s f ++ r)) :
    f.isAtom = true := by
  cases hf with
  | const b => rfl
  | var hx => rfl
  | card c _ => exact absurd (startsIn_cons.mp h) (by decide)
  | _ => cases hword

theorem behindWord_of_isAtom (h : f.isAtom = true) : behindWord s f = [] := by
  cases f <;> first | rfl | cases h

theorem readsOperand_atom (hs : s.Clear) (hf : f.Readable) (hword : f.lead = .word) (hatom : f.isAtom = true) :
    ReadsOperand s f := by
  intro g hg r t hr ht h
  obtain ⟨hgword, hwords, hbehind⟩ := leadingWord_eq hs hf hg hword hr ht h
  rw [behindWord_of_isAtom hatom, List.nil_append] at hbehind
  have hgatom : g.isAtom = true := isAtom_of_ended hgword hg (hbehind ▸ hr)
  rw [behindWord_of_isAtom hgatom, List.nil_append] at hbehind
  exact ⟨eq_of_leadingWord_eq hs hf hg hatom hgatom hwords, hbehind⟩

theorem readsOperand_card (hs : s.Clear) (c : Cardinality) {args : List Formula} (hargs : ∀ f ∈ args, f.Readable)
    (h : ∀ f ∈ args, ReadsWhole s f) : ReadsOperand s (card c args) := by
  have opens : ∀ {f : Formula}, f.Readable → Opens ')' (text s f) := by
    intro f hf
    obtain ⟨k, hk, hother, -⟩ := exists_leads_text hs hf
    exact hk.opens fun hclose => hother (hclose.symm.trans (hs.lead_eq_other (by decide)))
  intro g hg r t hr ht heq
  obtain ⟨hgword, hwords, hbehind⟩ := leadingWord_eq hs (.card c hargs) hg rfl hr ht heq
  have bracket : ¬StartsIn [' ', ')', ','] (behindWord s (card c args) ++ r) := fun ended =>
    Bool.false_ne_true (isAtom_of_ended rfl (.card c hargs) ended)
  rw [hbehind] at bracket
  cases hg with
  | const b => exact absurd ht bracket
  | var hx => exact absurd ht bracket
  | @card d args' hargs' =>
    simp only [behindWord, List.cons_append, List.append_assoc, List.cons.injEq, true_and] at hbehind
    have numbers : Reads ['('] (commaList ']' digits) c.bounds d.bounds :=
      reads_commaList (by decide) (fun n _ => opens_decimal (by decide) n) (fun n _ => opens_decimal (by decide) n)
        fun m _ n _ => reads_decimal (by simp) m n
    have formulas : Reads [' ', ')', ','] (commaList ')' (text s)) args args' :=
      reads_commaList (by decide) (fun f hf => opens (hargs f hf)) (fun f hf => opens (hargs' f hf))
        fun f hf g hg => (h f hf g (hargs' g hg)).mono (by simp)
    obtain ⟨hbounds, rest⟩ := numbers _ _ (startsIn_cons.mpr (by simp)) (startsIn_cons.mpr (by simp)) hbehind
    obtain ⟨rfl, rfl⟩ := formulas r t hr ht (List.cons.inj rest).2
    obtain rfl := Cardinality.eq_of_word_bounds (String.toList_inj.mp hwords) hbounds
    exact ⟨rfl, rfl⟩
  | _ => cases hgword

theorem readsWhole_quant (hs : s.Clear) (q : Quantifier) {xs : List Var} (hxs : ∀ x ∈ xs, x.isWord = true)
    (hf : f.Readable) (h : ReadsOperand s f) : ReadsWhole s (quant q xs f) := by
  have opens : ∀ {x : Var}, x.isWord = true → Opens '.' x.name.toList := fun hx =>
    opens_of_all (by simpa using Var.name_ne_empty hx) (Symbols.isWordChar_name hx) (hs.not_isWordChar (by decide))
  have stops : [',', '.'] ⊆ Symbols.punctuation := by simp [Symbols.punctuation]
  have names : ∀ {x y : Var}, x.isWord = true → y.isWord = true → Reads [',', '.'] (fun x : Var => x.name.toList) x y :=
    fun hx hy => .of_all (Symbols.isWordChar_name hx) (Symbols.isWordChar_name hy)
      (fun c hc => hs.not_isWordChar (stops hc)) fun h => Var.eq_of_name_eq (String.toList_inj.mp h)
  intro g hg r t hr ht heq
  have hquant : true = g.isQuantified := isQuantified_eq hs (.quant q hxs hf) hg heq
  cases hg with
  | @quant p ys g hys hg =>
    rw [text_quant, text_quant] at heq
    simp only [List.append_assoc, List.cons_append] at heq
    have blank : ∀ u : List Char, StartsIn [' '] (' ' :: u) := fun _ => startsIn_cons.mpr List.mem_cons_self
    obtain ⟨hq, rest⟩ := append_inj_of_all (p := (· ≠ ' ')) (fun c hc heq => hs.quantifier_blank q (heq ▸ hc))
      (fun c hc heq => hs.quantifier_blank p (heq ▸ hc)) (blank _) (blank _) (by simp) heq
    have bound : Reads [' '] (commaList '.' fun x : Var => x.name.toList) xs ys :=
      reads_commaList (by decide) (fun x hx => opens (hxs x hx)) (fun y hy => opens (hys y hy))
        fun x hx y hy => names (hxs x hx) (hys y hy)
    obtain ⟨rfl, body⟩ := bound _ _ (blank _) (blank _) (List.cons.inj rest).2
    obtain ⟨rfl, rfl⟩ := h g hg r t (hr.mono (by simp)) (ht.mono (by simp)) (List.cons.inj body).2
    exact ⟨by rw [hs.quantifier_eq (String.toList_inj.mp hq)], rfl⟩
  | _ => cases hquant

/-- A formula is told from all others, as an argument and as a whole. -/
theorem reads (hs : s.Clear) (hf : f.Readable) : ReadsOperand s f ∧ ReadsWhole s f := by
  -- What is tight is read as an argument first, and what is not as a whole.
  have tight : ∀ {f : Formula}, f.Readable → f.chain = (f, []) → f.isQuantified = false → ReadsOperand s f →
      ReadsOperand s f ∧ ReadsWhole s f := by
    intro f hf hchain hq h
    refine ⟨h, readsWhole_of_chain hs hf hq ?_ ?_⟩
    · rwa [hchain]
    · rw [hchain]
      exact List.forall_mem_nil _
  have loose : ∀ {f : Formula}, f.Readable → f.isTight = false → ReadsWhole s f → ReadsOperand s f ∧ ReadsWhole s f :=
    fun hf h whole => ⟨readsOperand_of_not_tight hs hf h whole, whole⟩
  induction hf with
  | const b => exact tight (.const b) rfl rfl (readsOperand_atom hs (.const b) rfl rfl)
  | var hx => exact tight (.var hx) rfl rfl (readsOperand_atom hs (.var hx) rfl rfl)
  | not hf ih => exact tight (.not hf) rfl rfl (readsOperand_not hs hf ih.1)
  | @nary j f g fs h ih =>
    have links : ∀ l ∈ (nary j (f :: g :: fs)).chain.2, ReadsOperand s l.2 :=
      List.forall_mem_map.mpr fun k hk => (ih k (List.mem_cons_of_mem f hk)).1
    exact loose (.nary j h) rfl (readsWhole_of_chain hs (.nary j h) rfl (ih f List.mem_cons_self).1 links)
  | implies hp hc ihp ihc =>
    exact loose (.implies hp hc) rfl
      (readsWhole_of_chain hs (.implies hp hc) rfl ihp.1 (List.forall_mem_singleton.mpr ihc.1))
  | iff hl hr ihl ihr =>
    exact loose (.iff hl hr) rfl
      (readsWhole_of_chain hs (.iff hl hr) rfl ihl.1 (List.forall_mem_singleton.mpr ihr.1))
  | card c h ih => exact tight (.card c h) rfl rfl (readsOperand_card hs c h fun f hf => (ih f hf).2)
  | quant q hxs hf ih => exact loose (.quant q hxs hf) rfl (readsWhole_quant hs q hxs hf ih.1)

/-- Formulas over words are written alike exactly if the same formula is shown of them. -/
theorem render_eq_iff (hs : s.Clear) (hf : ∀ x ∈ f.names, x.isWord = true) (hg : ∀ x ∈ g.names, x.isWord = true) :
    f.render s = g.render s ↔ f.shown = g.shown := by
  rw [← (render_shown s f).1, ← (render_shown s g).1]
  refine ⟨fun h => ?_, fun h => by rw [h]⟩
  exact ((reads hs (readable_shown hf)).2 g.shown (readable_shown hg)).eq_of_text_eq (congrArg String.toList h)

/-- Formulas over words have the same rendering, in the one alphabet or the other, exactly if they are the same
    formula after all literals are written as variables and negations, junctions without arguments as constants,
    and junctions of one argument as the argument. -/
theorem renderings_unambiguous (hf : ∀ x ∈ f.names, x.isWord = true) (hg : ∀ x ∈ g.names, x.isWord = true) :
    (f.render .ascii = g.render .ascii ↔ f.shown = g.shown) ∧ (f.display = g.display ↔ f.shown = g.shown) :=
  ⟨render_eq_iff Symbols.clear_ascii hf hg, render_eq_iff Symbols.clear_unicode hf hg⟩

/-- A constraint on a quantified formula and a variable, and one on a formula with both variables bound: a comma
    closes an argument in the one rendering and goes on with the bound variables in the other. -/
theorem renderings_unambiguous_of_commas :
    let a : Formula := .var ⟨"a"⟩
    let f : Formula := .card (.choose 1) [.quant .existential [⟨"x"⟩] (.any [a]), .lit (.neg ⟨"y"⟩)]
    let g : Formula := .card (.choose 1) [.quant .existential [⟨"x"⟩] a, .not (.var ⟨"y"⟩)]
    let h : Formula := .card (.choose 1) [.quant .existential [⟨"x"⟩, ⟨"y"⟩] a]
    (∀ k ∈ [f, g, h], ∀ x ∈ k.names, x.isWord = true) ∧ f.render .ascii = g.render .ascii ∧ f.display ≠ h.display := by
  intro a f g h
  have words : ∀ k ∈ [f, g, h], ∀ x ∈ k.names, x.isWord = true := by decide
  have hf := words f (by simp)
  have same : f.shown = g.shown := by decide
  have other : f.shown ≠ h.shown := by decide
  exact ⟨words, (renderings_unambiguous hf (words g (by simp))).1.mpr same,
    fun heq => other ((renderings_unambiguous hf (words h (by simp))).2.mp heq)⟩

end Formula
end NormalForms
