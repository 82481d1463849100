import Mathlib.Computability.Language

/-!
# Grep — the matcher

`match`, `matchhere` and `matchstar` of grep.c over strings as lists of
bytes, the terminator being the end of the list. Over them stands what a
pattern means: a list of items, each with its language. The matcher decides
whether the text has a part in the product of the languages.
-/

namespace Xv6.Grep

open scoped Computability

/-! ## The code -/

def caret : UInt8 := 94
def dollar : UInt8 := 36
def dot : UInt8 := 46
def star : UInt8 := 42

/-- `matchstar`, over what `matchhere` does with the rest of the pattern. -/
def matchstarLoop (here : List UInt8 → Bool) (c : UInt8) : List UInt8 → Bool
  | [] => here []
  | t :: text => here (t :: text) || (t == c || c == dot) && matchstarLoop here c text

/-- The last test of `matchhere`: the text goes on with a byte for `c`, and
then as `here` says. -/
def matchone (here : List UInt8 → Bool) (c : UInt8) : List UInt8 → Bool
  | [] => false
  | t :: text => (c == dot || c == t) && here text

/-- `matchhere`: search for `re` at the beginning of the text. -/
def matchhere : (re text : List UInt8) → Bool
  | [], _ => true
  -- here `re[1]` is the terminator, and what is left of the pattern is empty
  | [c], text => if c = dollar then text == [] else matchone (fun _ => true) c text
  | c :: d :: re, text =>
      if d = star then matchstarLoop (matchhere re) c text else matchone (matchhere (d :: re)) c text

/-- `matchstar`: search for `c*re` at the beginning of the text. -/
def matchstar (c : UInt8) (re text : List UInt8) : Bool := matchstarLoop (matchhere re) c text

/-- The loop of `match`, which looks at the empty rest too. -/
def matchLoop (re : List UInt8) : List UInt8 → Bool
  | [] => matchhere re []
  | t :: text => matchhere re (t :: text) || matchLoop re text

/-- `match`. -/
def matchText (re text : List UInt8) : Bool :=
  if re.head? = some caret then matchhere re.tail text else matchLoop re text

/-! ## What a pattern means -/

/-- The parts of a pattern. -/
inductive Item where
  | repeated (c : UInt8)
  | atEnd
  | once (c : UInt8)
deriving Repr, DecidableEq

/-- The items of a pattern, in the order of the cases of `matchhere`: a
star first, then a final dollar. -/
def items : List UInt8 → List Item
  | [] => []
  | [c] => if c = dollar then [.atEnd] else [.once c]
  | c :: d :: re => if d = star then .repeated c :: items re else .once c :: items (d :: re)

/-- The bytes a character of a pattern stands for. -/
def Fits (c b : UInt8) : Prop := c = dot ∨ c = b

/-- One byte that fits. -/
def letter (c : UInt8) : Language UInt8 := {w | ∃ b, Fits c b ∧ w = [b]}

/-- The language of an item. The end of the text is no part of it. -/
def Item.lang : Item → Language UInt8
  | .repeated c => (letter c)∗
  | .atEnd => 1
  | .once c => letter c

/-- **The language of a pattern**. -/
def lang (is : List Item) : Language UInt8 := (is.map Item.lang).prod

/-- The text begins with a word of the pattern, and is nothing else where
the pattern says that it ends there. -/
def Begins (is : List Item) (text : List UInt8) : Prop :=
  ∃ word rest, text = word ++ rest ∧ word ∈ lang is ∧ (.atEnd ∈ is → rest = [])

/-! ## Words -/

theorem mem_letter_kstar {c : UInt8} {w : List UInt8} :
    w ∈ (letter c)∗ ↔ ∀ b ∈ w, Fits c b := by
  rw [Language.mem_kstar]
  constructor
  · rintro ⟨words, rfl, hwords⟩ b hb
    obtain ⟨word, hword, hb⟩ := List.mem_flatten.mp hb
    obtain ⟨b', hfit, rfl⟩ := hwords word hword
    obtain rfl := List.mem_singleton.mp hb
    exact hfit
  · intro h
    refine ⟨w.map fun b => [b], ?_, ?_⟩
    · induction w with
      | nil => rfl
      | cons b w ih =>
          rw [List.map_cons, List.flatten_cons, ← ih fun b' hb' => h b' (List.mem_cons_of_mem _ hb')]
          rfl
    · intro word hword
      obtain ⟨b, hb, rfl⟩ := List.mem_map.mp hword
      exact ⟨b, h b hb, rfl⟩

theorem begins_nil (text : List UInt8) : Begins [] text :=
  ⟨[], text, rfl, Language.nil_mem_one, fun h => absurd h List.not_mem_nil⟩

/-- A text begins with an item and then others if it begins with a word of
the one and goes on with the others. -/
theorem begins_cons {i : Item} (hi : i ≠ .atEnd) (is : List Item) (text : List UInt8) :
    Begins (i :: is) text ↔ ∃ word rest, text = word ++ rest ∧ word ∈ i.lang ∧ Begins is rest := by
  have hend : Item.atEnd ∈ i :: is ↔ Item.atEnd ∈ is := by
    rw [List.mem_cons, or_iff_right hi.symm]
  constructor
  · rintro ⟨word, rest, rfl, hword, hrest⟩
    rw [lang, List.map_cons, List.prod_cons] at hword
    obtain ⟨u, hu, v, hv, rfl⟩ := Language.mem_mul.mp hword
    exact ⟨u, v ++ rest, List.append_assoc u v rest, hu, v, rest, rfl, hv,
      fun h => hrest (hend.mpr h)⟩
  · rintro ⟨u, text, rfl, hu, v, rest, rfl, hv, hrest⟩
    refine ⟨u ++ v, rest, (List.append_assoc u v rest).symm, ?_, fun h => hrest (hend.mp h)⟩
    rw [lang, List.map_cons, List.prod_cons]
    exact Language.mem_mul.mpr ⟨u, hu, v, hv, rfl⟩

theorem begins_atEnd (text : List UInt8) : Begins [.atEnd] text ↔ text = [] := by
  constructor
  · rintro ⟨word, rest, rfl, hword, hrest⟩
    rw [hrest (List.mem_singleton_self _), List.append_nil]
    rw [lang, List.map_singleton, List.prod_singleton] at hword
    exact hword
  · rintro rfl
    exact ⟨[], [], rfl, by rw [lang, List.map_singleton, List.prod_singleton]; exact rfl,
      fun _ => rfl⟩

theorem begins_once (c : UInt8) (is : List Item) (text : List UInt8) :
    Begins (.once c :: is) text ↔ ∃ t rest, text = t :: rest ∧ Fits c t ∧ Begins is rest := by
  rw [begins_cons (by simp)]
  constructor
  · rintro ⟨_, rest, rfl, ⟨t, hfit, rfl⟩, hrest⟩
    exact ⟨t, rest, rfl, hfit, hrest⟩
  · rintro ⟨t, rest, rfl, hfit, hrest⟩
    exact ⟨[t], rest, rfl, ⟨t, hfit, rfl⟩, hrest⟩

/-! ## The matcher -/

theorem fits_iff (c b : UInt8) : (c == dot || c == b) = true ↔ Fits c b := by
  rw [Bool.or_eq_true, beq_iff_eq, beq_iff_eq, Fits]

/-- The loop of `matchstar`: the rest of the pattern is tried after every
run of bytes that fit. -/
theorem matchstarLoop_iff (here : List UInt8 → Bool) (c : UInt8) (text : List UInt8) :
    matchstarLoop here c text = true ↔
      ∃ word rest, text = word ++ rest ∧ (∀ b ∈ word, Fits c b) ∧ here rest = true := by
  induction text with
  | nil =>
      constructor
      · intro h
        exact ⟨[], [], rfl, fun b hb => absurd hb List.not_mem_nil, h⟩
      · rintro ⟨word, rest, heq, _, h⟩
        obtain ⟨rfl, rfl⟩ := List.append_eq_nil_iff.mp heq.symm
        exact h
  | cons t text ih =>
      have hfits : (t == c || c == dot) = true ↔ Fits c t := by
        rw [Bool.or_comm, ← fits_iff, BEq.comm (a := t)]
      rw [matchstarLoop, Bool.or_eq_true, Bool.and_eq_true, hfits, ih]
      constructor
      · rintro (h | ⟨hfit, word, rest, rfl, hword, h⟩)
        · exact ⟨[], t :: text, rfl, fun b hb => absurd hb List.not_mem_nil, h⟩
        · exact ⟨t :: word, rest, rfl, List.forall_mem_cons.mpr ⟨hfit, hword⟩, h⟩
      · rintro ⟨word, rest, heq, hword, h⟩
        cases word with
        | nil =>
            rw [List.nil_append] at heq
            exact .inl (heq ▸ h)
        | cons b word =>
            obtain ⟨rfl, rfl⟩ := List.cons.inj heq
            obtain ⟨hfit, hword⟩ := List.forall_mem_cons.mp hword
            exact .inr ⟨hfit, word, rest, rfl, hword, h⟩

theorem matchone_iff (here : List UInt8 → Bool) (c : UInt8) (text : List UInt8) :
    matchone here c text = true ↔
      ∃ t rest, text = t :: rest ∧ Fits c t ∧ here rest = true := by
  cases text with
  | nil => simp [matchone]
  | cons t text =>
      rw [matchone, Bool.and_eq_true, fits_iff]
      constructor
      · rintro ⟨hfit, hrest⟩
        exact ⟨t, text, rfl, hfit, hrest⟩
      · rintro ⟨t', rest, heq, hfit, hrest⟩
        obtain ⟨rfl, rfl⟩ := List.cons.inj heq
        exact ⟨hfit, hrest⟩

/-- **`matchhere`** decides whether the text begins as the pattern says. -/
theorem matchhere_iff (re text : List UInt8) :
    matchhere re text = true ↔ Begins (items re) text := by
  induction re using items.induct generalizing text with
  | case1 =>
      rw [matchhere, items]
      exact iff_of_true rfl (begins_nil text)
  | case2 =>
      rw [matchhere, items, if_pos rfl, if_pos rfl, begins_atEnd, beq_iff_eq]
  | case3 c hc =>
      rw [matchhere, items, if_neg hc, if_neg hc, matchone_iff, begins_once]
      simp only [begins_nil]
  | case4 c re ih =>
      rw [matchhere, items, if_pos rfl, if_pos rfl, matchstarLoop_iff, begins_cons (by simp)]
      constructor
      · rintro ⟨word, rest, htext, hword, hrest⟩
        exact ⟨word, rest, htext, mem_letter_kstar.mpr hword, (ih rest).mp hrest⟩
      · rintro ⟨word, rest, htext, hword, hrest⟩
        exact ⟨word, rest, htext, mem_letter_kstar.mp hword, (ih rest).mpr hrest⟩
  | case5 c d re hd ih =>
      rw [matchhere, items, if_neg hd, if_neg hd, matchone_iff, begins_once]
      simp only [ih]

theorem matchLoop_iff (re text : List UInt8) :
    matchLoop re text = true ↔ ∃ before rest, text = before ++ rest ∧ matchhere re rest = true := by
  induction text with
  | nil =>
      constructor
      · intro h
        exact ⟨[], [], rfl, h⟩
      · rintro ⟨before, rest, heq, h⟩
        obtain ⟨rfl, rfl⟩ := List.append_eq_nil_iff.mp heq.symm
        exact h
  | cons t text ih =>
      rw [matchLoop, Bool.or_eq_true, ih]
      constructor
      · rintro (h | ⟨before, rest, rfl, h⟩)
        · exact ⟨[], t :: text, rfl, h⟩
        · exact ⟨t :: before, rest, rfl, h⟩
      · rintro ⟨before, rest, heq, h⟩
        cases before with
        | nil =>
            rw [List.nil_append] at heq
            exact .inl (heq ▸ h)
        | cons b before =>
            obtain ⟨rfl, rfl⟩ := List.cons.inj heq
            exact .inr ⟨before, rest, rfl, h⟩

/-- The pattern without the caret that may stand before it. -/
def body (re : List UInt8) : List UInt8 := if re.head? = some caret then re.tail else re

/-- **The matcher**: a pattern matches a text if and only if the text has a
part in the language of the pattern, which begins the text where a caret
stands first and ends it where a dollar stands last. -/
theorem match_iff (re text : List UInt8) :
    matchText re text = true ↔
      ∃ before word rest, text = before ++ word ++ rest ∧ word ∈ lang (items (body re)) ∧
        (re.head? = some caret → before = []) ∧ (.atEnd ∈ items (body re) → rest = []) := by
  rw [matchText, body]
  by_cases hcaret : re.head? = some caret
  · rw [if_pos hcaret, if_pos hcaret, matchhere_iff]
    constructor
    · rintro ⟨word, rest, htext, hword, hrest⟩
      exact ⟨[], word, rest, htext, hword, fun _ => rfl, hrest⟩
    · rintro ⟨before, word, rest, htext, hword, hbefore, hrest⟩
      rw [hbefore hcaret, List.nil_append] at htext
      exact ⟨word, rest, htext, hword, hrest⟩
  · rw [if_neg hcaret, if_neg hcaret, matchLoop_iff]
    constructor
    · rintro ⟨before, tail, htext, h⟩
      obtain ⟨word, rest, rfl, hword, hrest⟩ := (matchhere_iff re tail).mp h
      exact ⟨before, word, rest, by rw [htext, List.append_assoc], hword, fun h => absurd h hcaret,
        hrest⟩
    · rintro ⟨before, word, rest, htext, hword, _, hrest⟩
      exact ⟨before, word ++ rest, by rw [htext, List.append_assoc],
        (matchhere_iff re _).mpr ⟨word, rest, rfl, hword, hrest⟩⟩

end Xv6.Grep
