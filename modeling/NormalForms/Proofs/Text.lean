import Mathlib.Data.List.Basic
import Std.Data.String.ToNat

/-!
Texts that can be told apart where more text follows. What follows begins with one of a few characters, by which
the text before it ends. A text in characters of one kind ends before the first character of another kind; and texts
that are put together of such texts end where their last part does. -/

namespace NormalForms

variable {α β : Type} {text : α → List Char} {text' : β → List Char} {a b : α} {as bs : List α}
  {stops more u v r t : List Char} {close mark : Char}

/-- Whether a text is empty or begins with one of the characters. -/
def StartsIn (stops r : List Char) : Prop := ∀ c ∈ r.head?, c ∈ stops

theorem startsIn_nil (stops : List Char) : StartsIn stops [] := fun _ h => nomatch h

theorem startsIn_cons : StartsIn stops (mark :: r) ↔ mark ∈ stops := by simp [StartsIn]

theorem StartsIn.mono (h : StartsIn stops r) (hsub : stops ⊆ more) : StartsIn more r := fun c hc => hsub (h c hc)

/-- A text in characters of one kind ends before the first character of another kind. -/
theorem append_inj_of_all {p : Char → Prop} (hu : ∀ c ∈ u, p c) (hv : ∀ c ∈ v, p c) (hr : StartsIn stops r)
    (ht : StartsIn stops t) (hstops : ∀ c ∈ stops, ¬p c) (h : u ++ r = v ++ t) : u = v ∧ r = t := by
  induction u generalizing v with
  | nil =>
    cases v with
    | nil => exact ⟨rfl, h⟩
    | cons d v =>
      obtain rfl : r = d :: (v ++ t) := h
      exact absurd (hv d List.mem_cons_self) (hstops d (startsIn_cons.mp hr))
  | cons c u ih =>
    cases v with
    | nil =>
      obtain rfl : t = c :: (u ++ r) := h.symm
      exact absurd (hu c List.mem_cons_self) (hstops c (startsIn_cons.mp ht))
    | cons d v =>
      obtain ⟨rfl, rest⟩ := List.cons.inj h
      obtain ⟨rfl, rfl⟩ := ih (fun c hc => hu c (List.mem_cons_of_mem _ hc))
        (fun c hc => hv c (List.mem_cons_of_mem _ hc)) rest
      exact ⟨rfl, rfl⟩

/-! ### Reading -/

/-- Whether the texts of `a` and `b` show what they are texts of and where they end, each of them before a text that is
    empty or begins with one of the characters `stops`. -/
def Reads (stops : List Char) (text : α → List Char) (a b : α) : Prop :=
  ∀ r t, StartsIn stops r → StartsIn stops t → text a ++ r = text b ++ t → a = b ∧ r = t

namespace Reads

theorem mono (h : Reads more text a b) (hsub : stops ⊆ more) : Reads stops text a b :=
  fun r t hr ht => h r t (hr.mono hsub) (ht.mono hsub)

theorem eq_of_text_eq (h : Reads stops text a b) (heq : text a = text b) : a = b :=
  (h [] [] (startsIn_nil _) (startsIn_nil _) (by rw [heq])).1

theorem of_all {p : Char → Prop} (ha : ∀ c ∈ text a, p c) (hb : ∀ c ∈ text b, p c) (hstops : ∀ c ∈ stops, ¬p c)
    (inj : text a = text b → a = b) : Reads stops text a b := by
  intro r t hr ht h
  obtain ⟨heq, rfl⟩ := append_inj_of_all ha hb hr ht hstops h
  exact ⟨inj heq, rfl⟩

/-- A text between fixed texts, of which the one behind it begins with a character that ends it. -/
theorem between (h : Reads stops text a b) (before after : List Char) (hafter : ∀ r, StartsIn stops (after ++ r)) :
    Reads more (fun a => before ++ text a ++ after) a b := by
  intro r t _ _ heq
  simp only [List.append_assoc, List.append_cancel_left_eq] at heq
  obtain ⟨rfl, rest⟩ := h _ _ (hafter r) (hafter t) heq
  exact ⟨rfl, List.append_cancel_left rest⟩

/-- A text behind a fixed text. -/
theorem behind (h : Reads stops text a b) (before : List Char) : Reads stops (fun a => before ++ text a) a b := by
  intro r t hr ht heq
  simp only [List.append_assoc, List.append_cancel_left_eq] at heq
  exact h r t hr ht heq

/-- Two texts one behind the other, of which the second does not let the first go on. -/
theorem append {c d : β} (h : Reads stops text a b) (h' : Reads more text' c d)
    (hc : ∀ r, StartsIn more r → StartsIn stops (text' c ++ r))
    (hd : ∀ r, StartsIn more r → StartsIn stops (text' d ++ r)) :
    Reads more (fun p : α × β => text p.1 ++ text' p.2) (a, c) (b, d) := by
  intro r t hr ht heq
  simp only [List.append_assoc] at heq
  obtain ⟨rfl, rest⟩ := h _ _ (hc r hr) (hd t ht) heq
  obtain ⟨rfl, rfl⟩ := h' r t hr ht rest
  exact ⟨rfl, rfl⟩

end Reads

/-! ### Lists -/

/-- Texts one behind the other that begin with a mark: what comes behind them or behind one of them is ended by the
    mark or a stop. -/
theorem startsIn_flatMap (marked : ∀ a ∈ as, ∃ u, text a = mark :: u) (hr : StartsIn stops r) :
    StartsIn (mark :: stops) (as.flatMap text ++ r) := by
  cases as with
  | nil => exact hr.mono (List.subset_cons_self mark stops)
  | cons a as =>
    obtain ⟨u, hu⟩ := marked a List.mem_cons_self
    rw [List.flatMap_cons, hu]
    exact startsIn_cons.mpr List.mem_cons_self

/-- Any number of texts that begin with a mark, before one that does not. -/
theorem reads_flatMap (hmark : mark ∉ stops) (has : ∀ a ∈ as, ∃ u, text a = mark :: u)
    (hbs : ∀ b ∈ bs, ∃ u, text b = mark :: u) (h : ∀ a ∈ as, ∀ b ∈ bs, Reads (mark :: stops) text a b) :
    Reads stops (List.flatMap text) as bs := by
  have ended : ∀ {a : α} {as : List α} {r t : List Char}, (∃ u, text a = mark :: u) → StartsIn stops r →
      r ≠ (a :: as).flatMap text ++ t := by
    rintro a as r t ⟨u, hu⟩ hr rfl
    rw [List.flatMap_cons, hu] at hr
    exact hmark (startsIn_cons.mp hr)
  intro r t hr ht heq
  induction as generalizing bs with
  | nil =>
    cases bs with
    | nil => exact ⟨rfl, heq⟩
    | cons b bs => exact absurd heq (ended (hbs b List.mem_cons_self) hr)
  | cons a as ih =>
    cases bs with
    | nil => exact absurd heq.symm (ended (has a List.mem_cons_self) ht)
    | cons b bs =>
      rw [List.forall_mem_cons] at has hbs
      rw [List.flatMap_cons, List.flatMap_cons, List.append_assoc, List.append_assoc] at heq
      obtain ⟨rfl, rest⟩ := h a List.mem_cons_self b List.mem_cons_self _ _ (startsIn_flatMap has.2 hr)
        (startsIn_flatMap hbs.2 ht) heq
      obtain ⟨rfl, rfl⟩ := ih has.2 hbs.2
        (fun a ha b hb => h a (List.mem_cons_of_mem _ ha) b (List.mem_cons_of_mem _ hb)) rest
      exact ⟨rfl, rfl⟩

theorem intercalate_cons_eq_flatMap (sep u : List Char) (us : List (List Char)) :
    sep.intercalate (u :: us) = u ++ us.flatMap (sep ++ ·) := by
  induction us generalizing u with
  | nil => simp
  | cons v us ih => rw [List.intercalate_cons_cons, ih, List.flatMap_cons, List.append_assoc, List.append_assoc]

/-- The texts of a list with commas between them and a character that closes the list. -/
def commaList (close : Char) (text : α → List Char) (as : List α) : List Char :=
  [',', ' '].intercalate (as.map text) ++ [close]

theorem commaList_cons (close : Char) (text : α → List Char) (a : α) (as : List α) :
    commaList close text (a :: as) = text a ++ ((as.flatMap fun a => [',', ' '] ++ text a) ++ [close]) := by
  rw [commaList, List.map_cons, intercalate_cons_eq_flatMap, List.flatMap_map, List.append_assoc]

/-- Whether a text begins with a character other than `close`. -/
def Opens (close : Char) (u : List Char) : Prop := ∃ c v, u = c :: v ∧ c ≠ close

theorem opens_of_all {p : Char → Prop} (hne : u ≠ []) (hu : ∀ c ∈ u, p c) (hclose : ¬p close) : Opens close u := by
  cases u with
  | nil => exact absurd rfl hne
  | cons c v => exact ⟨c, v, rfl, fun h => hclose (h ▸ hu c List.mem_cons_self)⟩

/-- A list of texts that do not begin with the character by which the list is closed. -/
theorem reads_commaList (hclose : close ≠ ',') (has : ∀ a ∈ as, Opens close (text a))
    (hbs : ∀ b ∈ bs, Opens close (text b)) (h : ∀ a ∈ as, ∀ b ∈ bs, Reads [',', close] text a b) :
    Reads stops (commaList close text) as bs := by
  have closed : ∀ {a : α} {as : List α} {r t : List Char}, Opens close (text a) →
      close :: r ≠ commaList close text (a :: as) ++ t := by
    rintro a as r t ⟨c, v, hc, hne⟩ heq
    rw [commaList_cons, hc] at heq
    exact hne (List.cons.inj heq).1.symm
  intro r t _ _ heq
  cases as with
  | nil =>
    cases bs with
    | nil => exact ⟨rfl, (List.cons.inj heq).2⟩
    | cons b bs => exact absurd heq (closed (hbs b List.mem_cons_self))
  | cons a as =>
    cases bs with
    | nil => exact absurd heq.symm (closed (has a List.mem_cons_self))
    | cons b bs =>
      have marked : ∀ cs : List α, ∀ c ∈ cs, ∃ u, [',', ' '] ++ text c = ',' :: u := fun _ _ _ => ⟨_, rfl⟩
      have ended : ∀ r, StartsIn [close] ([close] ++ r) := fun _ => startsIn_cons.mpr List.mem_cons_self
      simp only [commaList_cons, List.append_assoc] at heq
      obtain ⟨rfl, rest⟩ := h a List.mem_cons_self b List.mem_cons_self _ _ (startsIn_flatMap (marked as) (ended r))
        (startsIn_flatMap (marked bs) (ended t)) heq
      have others : Reads [close] (List.flatMap fun a => [',', ' '] ++ text a) as bs :=
        reads_flatMap (by simpa using hclose.symm) (marked as) (marked bs)
          fun a ha b hb => (h a (List.mem_cons_of_mem _ ha) b (List.mem_cons_of_mem _ hb)).behind _
      obtain ⟨rfl, last⟩ := others _ _ (ended r) (ended t) rest
      exact ⟨rfl, (List.cons.inj last).2⟩

/-! ### Numbers -/

theorem isDigit_of_mem_decimal {n : Nat} {c : Char} (hc : c ∈ n.repr.toList) : c.isDigit = true := by
  rw [Nat.repr_eq_ofList_toDigits, String.toList_ofList] at hc
  exact Nat.isDigit_of_mem_toDigits (by decide) (by decide) hc

/-- A decimal number ends before anything but a digit. -/
theorem reads_decimal (hstops : ∀ c ∈ stops, ¬c.isDigit) (m n : Nat) : Reads stops (fun n : Nat => n.repr.toList) m n :=
  .of_all (fun _ => isDigit_of_mem_decimal) (fun _ => isDigit_of_mem_decimal) hstops
    fun h => Nat.repr_inj.mp (String.toList_inj.mp h)

theorem opens_decimal (hclose : ¬close.isDigit) (n : Nat) : Opens close n.repr.toList := by
  refine opens_of_all (fun h => ?_) (fun _ => isDigit_of_mem_decimal) hclose
  rw [Nat.repr_eq_ofList_toDigits, String.toList_ofList] at h
  exact Nat.toDigits_ne_nil h

end NormalForms
