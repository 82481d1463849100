import Xv6.Sh.Sound

/-!
# Sh — every line is accepted

The other direction. A derivation says which tokens each function is to
take; what comes after them has to be something the function stops at.
With that, each function takes its tokens and returns the command of the
derivation.
-/

namespace Xv6.Sh

open Lib

/-- The run returns, the tokens `vs` are left, and the command is `c`. -/
def Accepts (m : ParseM (Cmd Span)) (s : List Char) (vs : List Token)
    (c : Cmd (List Char)) : Prop :=
  Ensures m s (fun _ => False) fun cmd s' => Lexes s' vs ∧ cmd.map Span.text = c

variable {s : List Char} {us vs : List Token}

/-! ## What may follow -/

/-- A command ends before these tokens. -/
def Ends (vs : List Token) : Prop :=
  ∀ t, vs.head? = some t → t = .bar ∨ t = .rparen ∨ t = .amp ∨ t = .semi

/-- A line ends before these tokens. -/
def Closes (vs : List Token) : Prop := ∀ t, vs.head? = some t → t = .rparen

theorem Closes.ends (h : Closes vs) : Ends vs :=
  fun t ht => .inr (.inl (h t ht))

theorem Ends.starts_redir (h : Ends vs) : starts ['<', '>'] vs = false := by
  cases vs with
  | nil => rfl
  | cons t vs =>
      rcases h t rfl with rfl | rfl | rfl | rfl <;> rfl

theorem Ends.starts_lparen (h : Ends vs) : starts ['('] vs = false := by
  cases vs with
  | nil => rfl
  | cons t vs =>
      rcases h t rfl with rfl | rfl | rfl | rfl <;> rfl

theorem Closes.not_starts (h : Closes vs) {c : Char} (hc : c ≠ ')') :
    starts [c] vs = false := by
  cases vs with
  | nil => rfl
  | cons t vs =>
      rw [h t rfl]
      have hne : ')' ≠ c := Ne.symm hc
      simp [starts, Token.symbol, hne]

theorem ends_amps (n : Nat) (h : Ends vs) : Ends (List.replicate n .amp ++ vs) := by
  cases n with
  | zero => exact h
  | succ n =>
      rintro t ⟨⟩
      exact .inr (.inr (.inl rfl))

theorem Token.symbol_of_redirects {t : Token} {r : Nat × Nat} (h : t.redirects = some r) :
    ∃ c ∈ ['<', '>'], t.symbol = some c := by
  cases t <;> cases h <;> simp [Token.symbol]

/-- After redirections and before words there is no redirection and no block. -/
theorem Words.not_starts {ws : List (List Char)} {rs : List Redir} (h : Words us ws rs)
    {toks : List Char} (hvs : starts toks vs = false) : starts toks (us ++ vs) = false := by
  cases h with
  | nil => exact hvs
  | cons h h' => rfl

theorem Redirs.not_starts_lparen {rs : List Redir} (h : Redirs us rs)
    (hvs : starts ['('] vs = false) : starts ['('] (us ++ vs) = false := by
  cases h with
  | nil => exact hvs
  | @cons t _ _ _ _ _ ht h =>
      cases t <;> first | rfl | cases ht

/-! ## The loops -/

theorem parseredirs_complete {n : Nat} {rs : List Redir} (h : Redirs us rs) (cmd : Cmd Span)
    (hs : Lexes s (us ++ vs)) (hvs : starts ['<', '>'] vs = false)
    (hn : (us ++ vs).length < n) :
    Accepts (parseredirs n cmd) s vs (wrap (cmd.map Span.text) rs) := by
  induction h generalizing n s cmd with
  | nil =>
      cases n with
      | zero => omega
      | succ n =>
          unfold Accepts
          rw [parseredirs, ensures_bind]
          refine (peek_spec (by decide) hs).next ?_
          rintro b s₁ ⟨h₁, rfl⟩
          rw [List.nil_append, hvs]
          exact ⟨h₁, rfl⟩
  | @cons t mode fd f ts rs ht h ih =>
      cases n with
      | zero => omega
      | succ n =>
          obtain ⟨c, hc, hsym⟩ := Token.symbol_of_redirects ht
          have hstarts : starts ['<', '>'] (t :: .word f :: ts ++ vs) = true := by
            simpa [starts, hsym] using hc
          unfold Accepts
          rw [parseredirs, ensures_bind]
          refine (peek_spec (by decide) hs).next ?_
          rintro b s₁ ⟨h₁, rfl⟩
          simp only [hstarts, if_true, ensures_bind]
          refine (gettoken_spec h₁).next ?_
          rintro ⟨tok, span⟩ s₂ ⟨h₂, htok, _⟩
          refine (gettoken_spec h₂).next ?_
          rintro ⟨next, file⟩ s₃ ⟨h₃, hnext, htext⟩
          have hlen : (ts ++ vs).length < n := by
            simp only [List.cons_append, List.length_cons] at hn
            omega
          have hrest := ih (.redir cmd file mode fd) h₃ hlen
          rw [Cmd.map, htext f rfl] at hrest
          have hword : next = .word := hnext
          simp only [hword, ne_eq, not_true_eq_false, if_false]
          cases t <;> cases ht <;> cases htok
          all_goals exact hrest

theorem parseargs_complete {n : Nat} {ws : List (List Char)} {rs' : List Redir}
    (h : Words us ws rs') (argv : List Span) {ret : Cmd Span} {rs : List Redir}
    (hret : ret.map Span.text = wrap (.exec (argv.map Span.text)) rs)
    (hargv : argv.length + ws.length ≤ MAXARGS - 1) (hs : Lexes s (us ++ vs)) (hvs : Ends vs)
    (hn : (us ++ vs).length < n) :
    Accepts (parseargs n argv ret) s vs
      (wrap (.exec (argv.map Span.text ++ ws)) (rs ++ rs')) := by
  induction h generalizing n s argv ret rs with
  | nil =>
      cases n with
      | zero => omega
      | succ n =>
          rw [List.append_nil, List.append_nil]
          unfold Accepts
          rw [parseargs, ensures_bind]
          refine (peek_spec (by decide) hs).next ?_
          rintro b s₁ ⟨h₁, rfl⟩
          rw [List.nil_append] at h₁ ⊢
          cases vs with
          | nil =>
              have hstarts : starts ['|', ')', '&', ';'] [] = false := rfl
              simp only [hstarts, Bool.false_eq_true, if_false, ensures_bind]
              refine (gettoken_nil h₁).next ?_
              rintro ⟨tok, word⟩ s₂ ⟨h₂, htok⟩
              simp only at htok
              subst htok
              exact ⟨h₂, hret⟩
          | cons t vs =>
              have hstarts : starts ['|', ')', '&', ';'] (t :: vs) = true := by
                rcases hvs t rfl with rfl | rfl | rfl | rfl <;> rfl
              rw [hstarts]
              exact ⟨h₁, hret⟩
  | @cons w ts us ws rs₁ rs₂ h h' ih =>
      cases n with
      | zero => omega
      | succ n =>
          have hassoc : .word w :: ts ++ us ++ vs = .word w :: (ts ++ (us ++ vs)) := by
            rw [List.cons_append, List.cons_append, List.append_assoc]
          rw [hassoc] at hs hn
          rw [List.length_cons] at hargv hn
          have hmax : ¬ MAXARGS ≤ argv.length + 1 := by
            rw [MAXARGS] at hargv ⊢
            omega
          unfold Accepts
          rw [parseargs, ensures_bind]
          refine (peek_spec (by decide) hs).next ?_
          rintro b s₁ ⟨h₁, rfl⟩
          have hstarts : starts ['|', ')', '&', ';'] (.word w :: (ts ++ (us ++ vs))) = false :=
            rfl
          simp only [hstarts, Bool.false_eq_true, if_false, ensures_bind]
          refine (gettoken_spec h₁).next ?_
          rintro ⟨tok, word⟩ s₂ ⟨h₂, htok, htext⟩
          have hword : tok = .word := htok
          have hw : word.text = w := htext w rfl
          simp only [hword, reduceCtorEq, if_false, ne_eq, not_true_eq_false]
          rw [List.length_append, List.length_singleton]
          simp only [hmax, if_false, ensures_bind]
          have hfollow : starts ['<', '>'] (us ++ vs) = false := h'.not_starts hvs.starts_redir
          refine (parseredirs_complete (n := n) h (ret.setArgv (argv ++ [word])) h₂ hfollow
            (by omega)).next ?_
          rintro ret' s₃ ⟨h₃, hret'⟩
          rw [setArgv_map, hret, setArgv_wrap, Cmd.setArgv, ← wrap_append] at hret'
          have hcount : (argv ++ [word]).length + ws.length ≤ MAXARGS - 1 := by
            rw [List.length_append, List.length_singleton]
            omega
          have hlen : (us ++ vs).length < n := by
            rw [List.length_append] at hn
            omega
          have hrest := ih (argv ++ [word]) hret' hcount h₃ hlen
          rw [List.map_append, List.map_singleton, hw, List.append_assoc, List.append_assoc,
            List.singleton_append] at hrest
          exact hrest

theorem parsebacks_complete {n k : Nat} (cmd : Cmd Span)
    (hs : Lexes s (List.replicate k .amp ++ vs)) (hvs : starts ['&'] vs = false)
    (hn : k < n) : Accepts (parsebacks n cmd) s vs (backs k (cmd.map Span.text)) := by
  induction k generalizing n s cmd with
  | zero =>
      cases n with
      | zero => omega
      | succ n =>
          unfold Accepts
          rw [parsebacks, ensures_bind]
          refine (peek_spec (by decide) hs).next ?_
          rintro b s₁ ⟨h₁, rfl⟩
          rw [List.replicate_zero, List.nil_append, hvs]
          exact ⟨h₁, rfl⟩
  | succ k ih =>
      cases n with
      | zero => omega
      | succ n =>
          unfold Accepts
          rw [parsebacks, ensures_bind]
          refine (peek_spec (by decide) hs).next ?_
          rintro b s₁ ⟨h₁, rfl⟩
          have hstarts : starts ['&'] (List.replicate (k + 1) .amp ++ vs) = true := rfl
          rw [hstarts]
          simp only [if_true, ensures_bind]
          refine (gettoken_spec h₁).next ?_
          rintro r s₂ ⟨h₂, _⟩
          exact ih (.back cmd) h₂ (by omega)

/-! ## The four functions -/

/-- `parseline`, `parsepipe` and `parseexec` with the depth `n`. -/
structure Complete (n : Nat) : Prop where
  line : ∀ s us vs c, Line us c → Lexes s (us ++ vs) → Closes vs →
    4 * (us ++ vs).length + 4 ≤ n → Accepts (parseline n) s vs c
  pipe : ∀ s us vs c, Pipe us c → Lexes s (us ++ vs) → Ends vs → starts ['|'] vs = false →
    4 * (us ++ vs).length + 3 ≤ n → Accepts (parsepipe n) s vs c
  exec : ∀ s us vs c, Exec us c → Lexes s (us ++ vs) → Ends vs →
    4 * (us ++ vs).length + 2 ≤ n → Accepts (parseexec n) s vs c
  block : ∀ s us ws vs c rs, Line us c → Redirs ws rs →
    Lexes s (.lparen :: us ++ .rparen :: ws ++ vs) → Ends vs →
    4 * (.lparen :: us ++ .rparen :: ws ++ vs).length + 1 ≤ n →
    Accepts (parseblock n) s vs (wrap c rs)

variable {c : Cmd (List Char)}

theorem starts_amps (n : Nat) (hvs : starts ['|'] vs = false) :
    starts ['|'] (List.replicate n .amp ++ vs) = false := by
  cases n with
  | zero => exact hvs
  | succ n => rfl

theorem Complete.parseline {n : Nat} (ih : Complete n) (h : Line us c)
    (hs : Lexes s (us ++ vs)) (hvs : Closes vs) (hn : 4 * (us ++ vs).length + 4 ≤ n + 1) :
    Accepts (parseline (n + 1)) s vs c := by
  unfold Accepts
  rw [Sh.parseline, ensures_bind]
  cases h with
  | @last ts cmd k h =>
      rw [List.append_assoc] at hs hn
      have hends : Ends (List.replicate k .amp ++ vs) := ends_amps k hvs.ends
      have hbar := starts_amps k (hvs.not_starts (c := '|') (by decide))
      refine (ih.pipe s ts _ cmd h hs hends hbar (by omega)).next ?_
      rintro cmd' s₁ ⟨h₁, hcmd'⟩
      have hk : k < n := by
        simp only [List.length_append, List.length_replicate] at hn
        omega
      rw [ensures_bind]
      refine (parsebacks_complete cmd' h₁ (hvs.not_starts (by decide)) hk).next ?_
      rintro cmd'' s₂ ⟨h₂, hcmd''⟩
      rw [ensures_bind]
      refine (peek_spec (by decide) h₂).next ?_
      rintro b s₃ ⟨h₃, rfl⟩
      rw [hvs.not_starts (by decide), hcmd'] at *
      exact ⟨h₃, hcmd''⟩
  | @seq ts us cmd right k h h' =>
      have hassoc : ts ++ (List.replicate k .amp ++ .semi :: us) ++ vs =
          ts ++ (List.replicate k .amp ++ .semi :: (us ++ vs)) := by
        simp only [List.append_assoc, List.cons_append]
      rw [hassoc] at hs hn
      have hsemi : Ends (.semi :: (us ++ vs)) := by
        rintro t ⟨⟩
        exact .inr (.inr (.inr rfl))
      have hbar := starts_amps k (show starts ['|'] (.semi :: (us ++ vs)) = false from rfl)
      refine (ih.pipe s ts _ cmd h hs (ends_amps k hsemi) hbar (by omega)).next ?_
      rintro cmd' s₁ ⟨h₁, hcmd'⟩
      simp only [List.length_append, List.length_replicate, List.length_cons] at hn
      rw [ensures_bind]
      refine (parsebacks_complete (n := n) cmd' h₁ rfl (by omega)).next ?_
      rintro cmd'' s₂ ⟨h₂, hcmd''⟩
      rw [ensures_bind]
      refine (peek_spec (by decide) h₂).next ?_
      rintro b s₃ ⟨h₃, rfl⟩
      have hstarts : starts [';'] (.semi :: (us ++ vs)) = true := rfl
      rw [hstarts]
      simp only [if_true, ensures_bind]
      refine (gettoken_spec h₃).next ?_
      rintro r s₄ ⟨h₄, _⟩
      have hlen : 4 * (us ++ vs).length + 4 ≤ n := by
        rw [List.length_append]
        omega
      refine (ih.line s₄ us vs right h' h₄ hvs hlen).next ?_
      rintro right' s' ⟨hs', hright'⟩
      refine ⟨hs', ?_⟩
      rw [Cmd.map, hcmd'', hcmd', hright']

theorem Complete.parsepipe {n : Nat} (ih : Complete n) (h : Pipe us c)
    (hs : Lexes s (us ++ vs)) (hvs : Ends vs) (hbar : starts ['|'] vs = false)
    (hn : 4 * (us ++ vs).length + 3 ≤ n + 1) : Accepts (parsepipe (n + 1)) s vs c := by
  unfold Accepts
  rw [Sh.parsepipe, ensures_bind]
  cases h with
  | last h =>
      refine (ih.exec s us vs c h hs hvs (by omega)).next ?_
      rintro cmd s₁ ⟨h₁, hcmd⟩
      rw [ensures_bind]
      refine (peek_spec (by decide) h₁).next ?_
      rintro b s₂ ⟨h₂, rfl⟩
      rw [hbar]
      exact ⟨h₂, hcmd⟩
  | @bar ts us cmd right h h' =>
      rw [List.append_assoc, List.cons_append] at hs hn
      have hends : Ends (.bar :: (us ++ vs)) := by
        rintro t ⟨⟩
        exact .inl rfl
      refine (ih.exec s ts _ cmd h hs hends (by omega)).next ?_
      rintro cmd' s₁ ⟨h₁, hcmd'⟩
      rw [ensures_bind]
      refine (peek_spec (by decide) h₁).next ?_
      rintro b s₂ ⟨h₂, rfl⟩
      have hstarts : starts ['|'] (.bar :: (us ++ vs)) = true := rfl
      rw [hstarts]
      simp only [if_true, ensures_bind]
      refine (gettoken_spec h₂).next ?_
      rintro r s₃ ⟨h₃, _⟩
      have hlen : 4 * (us ++ vs).length + 3 ≤ n := by
        simp only [List.length_append, List.length_cons] at hn ⊢
        omega
      refine (ih.pipe s₃ us vs right h' h₃ hvs hbar hlen).next ?_
      rintro right' s' ⟨hs', hright'⟩
      refine ⟨hs', ?_⟩
      rw [Cmd.map, hcmd', hright']

theorem Complete.parseexec {n : Nat} (ih : Complete n) (h : Exec us c)
    (hs : Lexes s (us ++ vs)) (hvs : Ends vs) (hn : 4 * (us ++ vs).length + 2 ≤ n + 1) :
    Accepts (parseexec (n + 1)) s vs c := by
  unfold Accepts
  rw [Sh.parseexec, ensures_bind]
  refine (peek_spec (by decide) hs).next ?_
  rintro b s₁ ⟨h₁, rfl⟩
  cases h with
  | @block ts ws cmd rs h h' =>
      exact ih.block s₁ ts ws vs cmd rs h h' h₁ hvs (by omega)
  | @simple ts us ws rs rs' h h' hargs =>
      rw [List.append_assoc] at h₁ hn ⊢
      have hparen : starts ['('] (ts ++ (us ++ vs)) = false :=
        h.not_starts_lparen (h'.not_starts hvs.starts_lparen)
      rw [hparen]
      simp only [Bool.false_eq_true, if_false, ensures_bind]
      have hfollow : starts ['<', '>'] (us ++ vs) = false := h'.not_starts hvs.starts_redir
      refine (parseredirs_complete h (.exec []) h₁ hfollow (by omega)).next ?_
      rintro ret s₂ ⟨h₂, hret⟩
      have hlen : (us ++ vs).length < n := by
        rw [List.length_append] at hn
        omega
      exact parseargs_complete h' [] hret (by simpa using hargs) h₂ hvs hlen

theorem Complete.parseblock {n : Nat} (ih : Complete n) {ws : List Token} {rs : List Redir}
    (h : Line us c) (hrs : Redirs ws rs)
    (hs : Lexes s (.lparen :: us ++ .rparen :: ws ++ vs)) (hvs : Ends vs)
    (hn : 4 * (.lparen :: us ++ .rparen :: ws ++ vs).length + 1 ≤ n + 1) :
    Accepts (parseblock (n + 1)) s vs (wrap c rs) := by
  have hassoc : .lparen :: us ++ .rparen :: ws ++ vs =
      .lparen :: (us ++ .rparen :: (ws ++ vs)) := by
    simp only [List.cons_append, List.append_assoc]
  rw [hassoc] at hs hn
  rw [List.length_cons] at hn
  unfold Accepts
  rw [Sh.parseblock, ensures_bind]
  refine (peek_spec (by decide) hs).next ?_
  rintro b s₁ ⟨h₁, rfl⟩
  have hopen : starts ['('] (.lparen :: (us ++ .rparen :: (ws ++ vs))) = true := rfl
  rw [hopen]
  simp only [Bool.not_true, Bool.false_eq_true, if_false, ensures_bind]
  refine (gettoken_spec h₁).next ?_
  rintro r s₂ ⟨h₂, _⟩
  have hcloses : Closes (.rparen :: (ws ++ vs)) := by
    rintro t ⟨⟩
    rfl
  refine (ih.line s₂ us _ c h h₂ hcloses (by omega)).next ?_
  rintro cmd s₃ ⟨h₃, hcmd⟩
  refine (peek_spec (by decide) h₃).next ?_
  rintro b s₄ ⟨h₄, rfl⟩
  have hclose : starts [')'] (.rparen :: (ws ++ vs)) = true := rfl
  rw [hclose]
  simp only [Bool.not_true, Bool.false_eq_true, if_false, ensures_bind]
  refine (gettoken_spec h₄).next ?_
  rintro r s₅ ⟨h₅, _⟩
  have hlen : (ws ++ vs).length < n := by
    simp only [List.length_append, List.length_cons] at hn ⊢
    omega
  rw [← hcmd]
  exact parseredirs_complete hrs cmd h₅ hvs.starts_redir hlen

/-- **Completeness**, for every depth. -/
theorem complete (n : Nat) : Complete n := by
  induction n with
  | zero => exact ⟨by omega, by omega, by omega, by omega⟩
  | succ n ih =>
      exact ⟨fun _ _ _ _ => ih.parseline, fun _ _ _ _ => ih.parsepipe,
        fun _ _ _ _ => ih.parseexec, fun _ _ _ _ _ _ => ih.parseblock⟩

end Xv6.Sh
