import Xv6.Sh.Grammar

/-!
# Sh — what `gettoken` and `peek` see

The pointer always stands before some sequence of tokens. `peek` looks at
the first one and `gettoken` takes it away; the parser's proofs use these
two rules and never look at characters.
-/

namespace Xv6.Sh

open Lib

/-- The text between the two pointers. -/
def Span.text (w : Span) : List Char := w.q.take (w.q.length - w.eq.length)

theorem Span.text_of_append {w : Span} {s : List Char} (h : w.q = s ++ w.eq) : w.text = s := by
  rw [text, h, List.length_append, Nat.add_sub_cancel, List.take_left]

/-! ## Characters -/

theorem not_isSpace_of_mem_symbols : ∀ c ∈ symbols, isSpace c = false := by
  have hall : symbols.all (fun c => !isSpace c) = true := by decide
  intro c hc
  simpa using List.all_eq_true.mp hall c hc

theorem not_isSpace_of_isWord {c : Char} (h : isWord c = true) : isSpace c = false := by
  rw [isWord, Bool.and_eq_true] at h
  simpa [isSpace] using h.1

theorem not_mem_symbols_of_isWord {c : Char} (h : isWord c = true) : c ∉ symbols := by
  rw [isWord, Bool.and_eq_true] at h
  simpa using h.2

theorem Token.symbol_mem {t : Token} {c : Char} (h : t.symbol = some c) : c ∈ symbols := by
  cases t <;> cases h <;> decide

theorem Token.symbol_of_single {t : Token} {c : Char} (h : t.single = some c) :
    t.symbol = some c := by
  cases t <;> first | exact h | cases h

/-! ## The scanner -/

/-- White space before a token does not matter. -/
theorem Lexes.skip {s : List Char} {ts : List Token} (h : Lexes s ts) :
    Lexes (s.dropWhile isSpace) ts := by
  induction h with
  | nil => exact .nil
  | space hc h ih =>
      rw [List.dropWhile_cons_of_pos hc]
      exact ih
  | symbol ht hs h ih =>
      have hc := not_isSpace_of_mem_symbols _ (Token.symbol_mem (Token.symbol_of_single ht))
      rw [List.dropWhile_cons_of_neg (Bool.eq_false_iff.mp hc)]
      exact .symbol ht hs h
  | plus h ih => exact .plus h
  | @word w s ts hne hw hs h ih =>
      obtain ⟨c, w, rfl⟩ := List.exists_cons_of_ne_nil hne
      have hc := not_isSpace_of_isWord (hw c List.mem_cons_self)
      rw [List.cons_append, List.dropWhile_cons_of_neg (Bool.eq_false_iff.mp hc)]
      exact .word hne hw hs h

/-- What the scanner makes of a text whose first token is `t`. -/
structure Scanned (s : List Char) (t : Token) (ts : List Token) : Prop where
  code : (scan s).1 = t.code
  rest : Lexes (scan s).2 ts
  text : ∀ w, t = .word w → s = w ++ (scan s).2

theorem scan_symbol {t : Token} {c : Char} {s : List Char} (ht : t.single = some c)
    (hs : c = '>' → s.head? ≠ some '>') : scan (c :: s) = (t.code, s) := by
  cases t <;> cases ht
  case greater => simp [scan, hs rfl, Token.code]
  all_goals rfl

theorem scan_word {w s : List Char} (hne : w ≠ []) (hw : ∀ c ∈ w, isWord c = true)
    (hs : ∀ c, s.head? = some c → isWord c = false) : scan (w ++ s) = (.word, s) := by
  obtain ⟨c, w, rfl⟩ := List.exists_cons_of_ne_nil hne
  have hc : c ∉ symbols := not_mem_symbols_of_isWord (hw c List.mem_cons_self)
  have hdrop : (c :: (w ++ s)).dropWhile isWord = s := by
    rw [← List.cons_append, List.dropWhile_append_of_pos hw]
    cases s with
    | nil => rfl
    | cons d s => exact List.dropWhile_cons_of_neg (Bool.eq_false_iff.mp (hs d rfl))
  simp only [symbols, List.mem_cons, List.not_mem_nil, or_false, not_or] at hc
  simp only [List.cons_append, scan, hc, if_false, hdrop]

/-- **One token.** Where no white space is left, the scanner returns the first
token and stops before the others. -/
theorem Lexes.scan {s : List Char} {t : Token} {ts : List Token} (h : Lexes s (t :: ts))
    (hs : ∀ c, s.head? = some c → isSpace c = false) : Scanned s t ts := by
  generalize hall : t :: ts = all at h
  cases h with
  | nil => cases hall
  | space hc h => rw [hs _ rfl] at hc; cases hc
  | symbol ht hgt h =>
      cases hall
      have hscan := scan_symbol ht hgt
      refine ⟨by rw [hscan], by rw [hscan]; exact h, ?_⟩
      rintro w rfl
      cases ht
  | plus h =>
      cases hall
      exact ⟨rfl, h, by rintro w ⟨⟩⟩
  | word hne hw hend h =>
      cases hall
      have hscan := scan_word hne hw hend
      refine ⟨by rw [hscan]; rfl, by rw [hscan]; exact h, ?_⟩
      rintro w ⟨⟩
      rw [hscan]

/-- The first character of the text is the symbol of its first token. -/
theorem Lexes.symbol_head {s : List Char} {t : Token} {ts : List Token} (h : Lexes s (t :: ts))
    (hs : ∀ c, s.head? = some c → isSpace c = false) :
    (∃ c, s.head? = some c ∧ t.symbol = some c) ∨
      ∃ c, s.head? = some c ∧ t.symbol = none ∧ c ∉ symbols := by
  generalize hall : t :: ts = all at h
  cases h with
  | nil => cases hall
  | space hc h => rw [hs _ rfl] at hc; cases hc
  | symbol ht hs h =>
      cases hall
      exact .inl ⟨_, rfl, Token.symbol_of_single ht⟩
  | plus h =>
      cases hall
      exact .inl ⟨_, rfl, rfl⟩
  | word hne hw hs h =>
      cases hall
      obtain ⟨c, w, rfl⟩ := List.exists_cons_of_ne_nil hne
      exact .inr ⟨c, rfl, rfl, not_mem_symbols_of_isWord (hw c List.mem_cons_self)⟩

theorem Lexes.eq_nil {s : List Char} (h : Lexes s [])
    (hs : ∀ c, s.head? = some c → isSpace c = false) : s = [] := by
  generalize hall : ([] : List Token) = all at h
  cases h with
  | nil => rfl
  | space hc h => rw [hs _ rfl] at hc; cases hc
  | symbol => cases hall
  | plus => cases hall
  | word => cases hall

theorem head_dropWhile_isSpace {s : List Char} (c : Char)
    (h : (s.dropWhile isSpace).head? = some c) : isSpace c = false := by
  have hc := List.head?_dropWhile_not isSpace s
  rw [h] at hc
  exact hc

/-! ## The two rules -/

/-- The first of the tokens starts with one of the symbols. -/
def starts (toks : List Char) (ts : List Token) : Bool :=
  (ts.head?.bind Token.symbol).any toks.contains

variable {E : Stop → Prop} {s : List Char} {ts : List Token}

/-- `peek` tells whether the first token starts with one of the symbols. -/
theorem peek_spec {toks : List Char} (htoks : toks.all symbols.contains = true)
    (h : Lexes s ts) :
    Ensures (peek toks) s E fun b t => Lexes t ts ∧ b = starts toks ts := by
  simp only [peek, ensures_bind, ensures_get, ensures_set, ensures_pure]
  refine ⟨h.skip, ?_⟩
  cases ts with
  | nil =>
      rw [h.skip.eq_nil head_dropWhile_isSpace]
      rfl
  | cons t ts =>
      rcases h.skip.symbol_head head_dropWhile_isSpace with ⟨c, hc, ht⟩ | ⟨c, hc, ht, hn⟩
      · simp [hc, starts, ht]
      · have hnot : c ∉ toks := fun hmem =>
          hn (List.contains_iff_mem.mp (List.all_eq_true.mp htoks c hmem))
        simp [hc, starts, ht, hnot]

/-- `gettoken` takes the first token away. -/
theorem gettoken_spec {t : Token} (h : Lexes s (t :: ts)) :
    Ensures gettoken s E fun r s' =>
      Lexes s' ts ∧ r.1 = t.code ∧ ∀ w, t = .word w → r.2.text = w := by
  have hscan := h.skip.scan head_dropWhile_isSpace
  simp only [gettoken, ensures_bind, ensures_get, ensures_set, ensures_pure]
  refine ⟨hscan.rest.skip, hscan.code, ?_⟩
  intro w hw
  exact Span.text_of_append (hscan.text w hw)

theorem gettoken_nil (h : Lexes s []) :
    Ensures gettoken s E fun r s' => Lexes s' [] ∧ r.1 = .nul := by
  have hs := h.skip.eq_nil head_dropWhile_isSpace
  simp only [gettoken, ensures_bind, ensures_get, ensures_set, ensures_pure, hs]
  exact ⟨.nil, rfl⟩

/-! ## Strings of the line -/

/-- A span of the line that is a word: its characters are, the one after it
is not. -/
structure Span.InLine (line : List Char) (w : Span) : Prop where
  suffix : w.q <:+ line
  split : w.q = w.text ++ w.eq
  word : ∀ c ∈ w.text, isWord c = true
  next : ∀ c, w.eq.head? = some c → isWord c = false

theorem Span.inLine_scan {line s : List Char} (hs : s <:+ line)
    (hspace : ∀ c, s.head? = some c → isSpace c = false) (hword : (scan s).1 = .word) :
    Span.InLine line ⟨s, (scan s).2⟩ := by
  have hdrop : (scan s).2 = s.dropWhile isWord := by
    cases s with
    | nil => cases hword
    | cons c s =>
        simp only [scan] at hword ⊢
        repeat' split at hword
        all_goals try cases hword
        simp only [*, if_false]
  have hsplit : s = s.takeWhile isWord ++ (scan s).2 := by
    rw [hdrop, List.takeWhile_append_dropWhile]
  have htext : Span.text ⟨s, (scan s).2⟩ = s.takeWhile isWord := Span.text_of_append hsplit
  refine ⟨hs, ?_, ?_, ?_⟩
  · rw [htext]
    exact hsplit
  · rw [htext]
    intro c hc
    exact List.mem_takeWhile_imp hc
  · intro c hc
    rw [hdrop] at hc
    exact head_dropWhile_isWord hc

theorem peek_suffix {line : List Char} {toks : List Char} (h : s <:+ line) :
    Ensures (peek toks) s E fun _ t => t <:+ line := by
  simp only [peek, ensures_bind, ensures_get, ensures_set, ensures_pure]
  exact (List.dropWhile_suffix _).trans h

theorem scan_suffix (s : List Char) : (scan s).2 <:+ s := by
  cases s with
  | nil => exact List.suffix_refl _
  | cons c s =>
      have hs : s <:+ c :: s := List.suffix_cons c s
      simp only [scan]
      repeat' split
      all_goals first
        | exact hs
        | exact (List.tail_suffix s).trans hs
        | exact List.dropWhile_suffix _

/-- The strings that `gettoken` hands out are words of the line. -/
theorem gettoken_suffix {line : List Char} (h : s <:+ line) :
    Ensures gettoken s E fun r t => t <:+ line ∧ (r.1 = .word → r.2.InLine line) := by
  have hq : s.dropWhile isSpace <:+ line := (List.dropWhile_suffix _).trans h
  simp only [gettoken, ensures_bind, ensures_get, ensures_set, ensures_pure]
  refine ⟨(List.dropWhile_suffix _).trans ((scan_suffix _).trans hq), ?_⟩
  intro hword
  exact Span.inLine_scan hq head_dropWhile_isSpace hword

end Xv6.Sh
