import Xv6.Sh.Scan

/-!
# Sh — what the parser accepts is a line

From a pointer before the tokens `ts`, each function of the parser either
panics or takes some of the tokens away and returns the command they stand
for. The bound on the depth is counted against the tokens that are left:
four calls, from `parseline` to `parseblock`, stand between two of them.
-/

namespace Xv6.Sh

open Lib

/-- The run does not reach the bound; when it returns, the tokens it took and
the command are in `D`. -/
def Yields (m : ParseM (Cmd Span)) (s : List Char) (ts : List Token)
    (D : List Token → Cmd (List Char) → Prop) : Prop :=
  Ensures m s (· ≠ .depth) fun cmd s' =>
    ∃ us vs, ts = us ++ vs ∧ Lexes s' vs ∧ D us (cmd.map Span.text)

variable {s : List Char} {ts : List Token}

theorem ensures_panic {α : Type} {msg : String} {s : List Char} {Q : α → List Char → Prop} :
    Ensures (panic msg : ParseM α) s (· ≠ .depth) Q := by
  rw [panic, ensures_throw]
  intro h
  cases h

/-- The tokens are not all taken when `peek` sees one of them. -/
theorem exists_of_starts {toks : List Char} (h : starts toks ts = true) :
    ∃ t us, ts = t :: us ∧ ∃ c ∈ toks, t.symbol = some c := by
  cases ts with
  | nil => cases h
  | cons t us =>
      refine ⟨t, us, rfl, ?_⟩
      cases hc : t.symbol with
      | none => simp [starts, hc] at h
      | some c =>
          refine ⟨c, ?_, rfl⟩
          simpa [starts, hc] using h

theorem Token.eq_of_symbol {t : Token} {c : Char} (h : t.symbol = some c) (hc : c ≠ '>') :
    t.single = some c := by
  cases t <;> first | exact h | (cases h; exact absurd rfl hc)

theorem Token.single_inj {t u : Token} {c : Char} (ht : t.single = some c)
    (hu : u.single = some c) : t = u := by
  cases t <;> cases ht <;> cases u <;> first | rfl | simp [single, symbol] at hu

theorem exists_of_starts_single {t : Token} {c : Char} (hc : c ≠ '>') (ht : t.single = some c)
    (h : starts [c] ts = true) : ∃ us, ts = t :: us := by
  obtain ⟨u, us, rfl, d, hd, hu⟩ := exists_of_starts h
  rw [List.mem_singleton] at hd
  subst hd
  rw [Token.single_inj ht (Token.eq_of_symbol hu hc)]
  exact ⟨us, rfl⟩

/-! ## Redirections -/

/-- After `peek` has seen `<` or `>`, the token is one of the three. -/
theorem Token.redirects_of_symbol {t : Token} {c : Char} (hc : c ∈ ['<', '>'])
    (h : t.symbol = some c) :
    t = .less ∨ t = .greater ∨ t = .plus := by
  cases t <;> cases h <;> simp_all

theorem gettoken_word (h : Lexes s ts) :
    Ensures gettoken s (· ≠ .depth) fun r s' => r.1 = .word →
      ∃ w us, ts = .word w :: us ∧ Lexes s' us ∧ r.2.text = w := by
  cases ts with
  | nil =>
      refine (gettoken_nil h).next ?_
      rintro r t ⟨_, hr⟩ hword
      rw [hr] at hword
      cases hword
  | cons t ts =>
      refine (gettoken_spec h).next ?_
      rintro r t' ⟨hs, hr, htext⟩ hword
      rw [hr] at hword
      cases t <;> cases hword
      exact ⟨_, ts, rfl, hs, htext _ rfl⟩

theorem parseredirs_sound {n : Nat} (cmd : Cmd Span) (h : Lexes s ts) (hn : ts.length < n) :
    Yields (parseredirs n cmd) s ts fun us c =>
      ∃ rs, Redirs us rs ∧ c = wrap (cmd.map Span.text) rs := by
  induction n generalizing s ts cmd with
  | zero => omega
  | succ n ih =>
      unfold Yields
      rw [parseredirs, ensures_bind]
      refine (peek_spec (by decide) h).next ?_
      rintro b s₁ ⟨h₁, rfl⟩
      cases hb : starts ['<', '>'] ts with
      | false => exact ⟨[], ts, rfl, h₁, [], .nil, rfl⟩
      | true =>
          obtain ⟨t, us, rfl, c, hc, ht⟩ := exists_of_starts hb
          simp only [if_true, ensures_bind]
          refine (gettoken_spec h₁).next ?_
          rintro ⟨tok, span⟩ s₂ ⟨h₂, htok, _⟩
          refine (gettoken_word h₂).next ?_
          rintro ⟨next, file⟩ s₃ hnext
          by_cases hword : next = .word
          · obtain ⟨w, vs, rfl, h₃, hw⟩ := hnext hword
            have hlen : vs.length < n := by
              simp only [List.length_cons] at hn
              omega
            -- one redirection more, then the rest of the loop
            have hrest : ∀ mode fd, t.redirects = some (mode, fd) →
                Yields (parseredirs n (.redir cmd file mode fd)) s₃ (t :: .word w :: vs)
                  fun us c => ∃ rs, Redirs us rs ∧ c = wrap (cmd.map Span.text) rs := by
              intro mode fd hmode
              refine (ih (.redir cmd file mode fd) h₃ hlen).next ?_
              rintro cmd' s' ⟨us, ws, rfl, hs', rs, hrs, hcmd'⟩
              refine ⟨t :: .word w :: us, ws, rfl, hs', ⟨w, mode, fd⟩ :: rs, .cons hmode hrs, ?_⟩
              rw [hcmd', Cmd.map, hw, wrap_cons]
            simp only [hword, ne_eq, not_true_eq_false, if_false]
            rcases Token.redirects_of_symbol hc ht with rfl | rfl | rfl
            all_goals
              cases htok
              exact hrest _ _ rfl
          · simp only [ne_eq, hword, not_false_eq_true, if_true]
            exact ensures_panic

/-! ## Words -/

theorem setArgv_map (argv : List Span) (cmd : Cmd Span) :
    (cmd.setArgv argv).map Span.text = (cmd.map Span.text).setArgv (argv.map Span.text) := by
  induction cmd with
  | redir cmd file mode fd ih => simp only [Cmd.setArgv, Cmd.map, ih]
  | _ => rfl

/-- **The loop over the words.** `rs` are the redirections so far; they stand
around the `execcmd` whose words are `argv`. -/
theorem parseargs_sound {n : Nat} (argv : List Span) {ret : Cmd Span} {rs : List Redir}
    (hret : ret.map Span.text = wrap (.exec (argv.map Span.text)) rs)
    (hargv : argv.length ≤ MAXARGS - 1) (h : Lexes s ts) (hn : ts.length < n) :
    Yields (parseargs n argv ret) s ts fun us c => ∃ ws rs',
      Words us ws rs' ∧ argv.length + ws.length ≤ MAXARGS - 1 ∧
        c = wrap (.exec (argv.map Span.text ++ ws)) (rs ++ rs') := by
  induction n generalizing s ts argv ret rs with
  | zero => omega
  | succ n ih =>
      -- the loop may end here, with no word more
      have hdone : ∀ s', Lexes s' ts → ∃ us vs, ts = us ++ vs ∧ Lexes s' vs ∧ ∃ ws rs',
          Words us ws rs' ∧ argv.length + ws.length ≤ MAXARGS - 1 ∧
            ret.map Span.text = wrap (.exec (argv.map Span.text ++ ws)) (rs ++ rs') := by
        intro s' hs'
        refine ⟨[], ts, rfl, hs', [], [], .nil, hargv, ?_⟩
        rw [List.append_nil, List.append_nil, hret]
      unfold Yields
      rw [parseargs, ensures_bind]
      refine (peek_spec (by decide) h).next ?_
      rintro b s₁ ⟨h₁, rfl⟩
      cases hb : starts ['|', ')', '&', ';'] ts with
      | true => exact hdone s₁ h₁
      | false =>
          simp only [Bool.false_eq_true, if_false, ensures_bind]
          cases ts with
          | nil =>
              refine (gettoken_nil h₁).next ?_
              rintro ⟨tok, word⟩ s₂ ⟨h₂, htok⟩
              simp only at htok
              subst htok
              exact hdone s₂ h₂
          | cons t ts =>
              refine (gettoken_spec h₁).next ?_
              rintro ⟨tok, word⟩ s₂ ⟨h₂, htok, htext⟩
              simp only at htok htext
              subst htok
              cases t with
              | word w =>
                  have hw : word.text = w := htext w rfl
                  simp only [Token.code, reduceCtorEq, if_false, ne_eq, not_true_eq_false]
                  rw [List.length_append, List.length_singleton]
                  by_cases hmax : MAXARGS ≤ argv.length + 1
                  · simp only [hmax, if_true]
                    exact ensures_panic
                  · have hlen : ts.length < n := by
                      rw [List.length_cons] at hn
                      omega
                    simp only [hmax, if_false, ensures_bind]
                    refine (parseredirs_sound (ret.setArgv (argv ++ [word])) h₂ hlen).next ?_
                    rintro ret' s₃ ⟨us, vs, rfl, h₃, rs₁, hrs₁, hret'⟩
                    rw [setArgv_map, hret, setArgv_wrap, Cmd.setArgv, ← wrap_append] at hret'
                    have hlen' : vs.length < n := by
                      rw [List.length_append] at hlen
                      omega
                    have hargv' : (argv ++ [word]).length ≤ MAXARGS - 1 := by
                      rw [List.length_append, List.length_singleton]
                      omega
                    refine (ih _ hret' hargv' h₃ hlen').next ?_
                    rintro cmd s' ⟨us', vs', rfl, hs', ws, rs₂, hws, hcount, hcmd⟩
                    refine ⟨.word w :: us ++ us', vs', ?_, hs', w :: ws, rs₁ ++ rs₂,
                      .cons hrs₁ hws, ?_, ?_⟩
                    · rw [List.cons_append, List.cons_append, List.append_assoc]
                    · rw [List.length_append, List.length_singleton] at hcount
                      rw [List.length_cons]
                      omega
                    · rw [hcmd, List.map_append, List.map_singleton, hw, List.append_assoc,
                        List.append_assoc, List.singleton_append]
              | _ =>
                  simp only [Token.code, reduceCtorEq, if_false, ne_eq, not_false_eq_true,
                    if_true]
                  exact ensures_panic

/-! ## The four functions -/

theorem parsebacks_sound {n : Nat} (cmd : Cmd Span) (h : Lexes s ts) (hn : ts.length < n) :
    Yields (parsebacks n cmd) s ts fun us c =>
      ∃ k, us = List.replicate k .amp ∧ c = backs k (cmd.map Span.text) := by
  induction n generalizing s ts cmd with
  | zero => omega
  | succ n ih =>
      unfold Yields
      rw [parsebacks, ensures_bind]
      refine (peek_spec (by decide) h).next ?_
      rintro b s₁ ⟨h₁, rfl⟩
      cases hb : starts ['&'] ts with
      | false => exact ⟨[], ts, rfl, h₁, 0, rfl, rfl⟩
      | true =>
          obtain ⟨us, rfl⟩ := exists_of_starts_single (t := .amp) (by decide) rfl hb
          simp only [if_true, ensures_bind]
          refine (gettoken_spec h₁).next ?_
          rintro r s₂ ⟨h₂, _⟩
          refine (ih (.back cmd) h₂ (by rw [List.length_cons] at hn; omega)).next ?_
          rintro cmd' s' ⟨us', vs, rfl, hs', k, rfl, hcmd'⟩
          exact ⟨List.replicate (k + 1) .amp, vs, rfl, hs', k + 1, rfl, hcmd'⟩

/-- `parseline`, `parsepipe`, `parseexec` and `parseblock` with the depth `n`. -/
structure Sound (n : Nat) : Prop where
  line : ∀ s ts, Lexes s ts → 4 * ts.length + 4 ≤ n → Yields (parseline n) s ts Line
  pipe : ∀ s ts, Lexes s ts → 4 * ts.length + 3 ≤ n → Yields (parsepipe n) s ts Pipe
  exec : ∀ s ts, Lexes s ts → 4 * ts.length + 2 ≤ n → Yields (parseexec n) s ts Exec
  block : ∀ s ts, Lexes s ts → 4 * ts.length + 1 ≤ n → Yields (parseblock n) s ts Exec

theorem Sound.parseline {n : Nat} (ih : Sound n) (h : Lexes s ts)
    (hn : 4 * ts.length + 4 ≤ n + 1) : Yields (parseline (n + 1)) s ts Line := by
  unfold Yields
  rw [Sh.parseline, ensures_bind]
  refine (ih.pipe s ts h (by omega)).next ?_
  rintro cmd s₁ ⟨us, vs, rfl, h₁, hcmd⟩
  rw [List.length_append] at hn
  rw [ensures_bind]
  refine (parsebacks_sound cmd h₁ (by omega)).next ?_
  rintro cmd' s₂ ⟨us', vs', rfl, h₂, k, rfl, hcmd'⟩
  rw [List.length_append] at hn
  rw [ensures_bind]
  refine (peek_spec (by decide) h₂).next ?_
  rintro b s₃ ⟨h₃, rfl⟩
  cases hb : starts [';'] vs' with
  | false =>
      refine ⟨us ++ List.replicate k .amp, vs', by rw [List.append_assoc], h₃, ?_⟩
      rw [hcmd']
      exact .last k hcmd
  | true =>
      obtain ⟨ws, rfl⟩ := exists_of_starts_single (t := .semi) (by decide) rfl hb
      simp only [if_true, ensures_bind]
      refine (gettoken_spec h₃).next ?_
      rintro r s₄ ⟨h₄, _⟩
      refine (ih.line s₄ ws h₄ (by rw [List.length_cons] at hn; omega)).next ?_
      rintro right s' ⟨us', vs, rfl, hs', hright⟩
      refine ⟨us ++ (List.replicate k .amp ++ .semi :: us'), vs, ?_, hs', ?_⟩
      · rw [List.append_assoc, List.append_assoc, List.cons_append]
      · rw [Cmd.map, hcmd']
        exact .seq k hcmd hright

theorem Sound.parsepipe {n : Nat} (ih : Sound n) (h : Lexes s ts)
    (hn : 4 * ts.length + 3 ≤ n + 1) : Yields (parsepipe (n + 1)) s ts Pipe := by
  unfold Yields
  rw [Sh.parsepipe, ensures_bind]
  refine (ih.exec s ts h (by omega)).next ?_
  rintro cmd s₁ ⟨us, vs, rfl, h₁, hcmd⟩
  rw [List.length_append] at hn
  rw [ensures_bind]
  refine (peek_spec (by decide) h₁).next ?_
  rintro b s₂ ⟨h₂, rfl⟩
  cases hb : starts ['|'] vs with
  | false => exact ⟨us, vs, rfl, h₂, .last hcmd⟩
  | true =>
      obtain ⟨ws, rfl⟩ := exists_of_starts_single (t := .bar) (by decide) rfl hb
      simp only [if_true, ensures_bind]
      refine (gettoken_spec h₂).next ?_
      rintro r s₃ ⟨h₃, _⟩
      refine (ih.pipe s₃ ws h₃ (by rw [List.length_cons] at hn; omega)).next ?_
      rintro right s' ⟨us', vs', rfl, hs', hright⟩
      refine ⟨us ++ .bar :: us', vs', by rw [List.append_assoc, List.cons_append], hs', ?_⟩
      exact .bar hcmd hright

theorem Sound.parseexec {n : Nat} (ih : Sound n) (h : Lexes s ts)
    (hn : 4 * ts.length + 2 ≤ n + 1) : Yields (parseexec (n + 1)) s ts Exec := by
  unfold Yields
  rw [Sh.parseexec, ensures_bind]
  refine (peek_spec (by decide) h).next ?_
  rintro b s₁ ⟨h₁, rfl⟩
  cases hb : starts ['('] ts with
  | true => exact ih.block s₁ ts h₁ (by omega)
  | false =>
      simp only [Bool.false_eq_true, if_false, ensures_bind]
      refine (parseredirs_sound (.exec []) h₁ (by omega)).next ?_
      rintro ret s₂ ⟨us, vs, rfl, h₂, rs, hrs, hret⟩
      rw [List.length_append] at hn
      refine (parseargs_sound [] hret (Nat.zero_le _) h₂ (by omega)).next ?_
      rintro cmd s' ⟨us', vs', rfl, hs', ws, rs', hws, hcount, hcmd⟩
      refine ⟨us ++ us', vs', by rw [List.append_assoc], hs', ?_⟩
      rw [hcmd]
      exact .simple hrs hws (by simpa using hcount)

theorem Sound.parseblock {n : Nat} (ih : Sound n) (h : Lexes s ts)
    (hn : 4 * ts.length + 1 ≤ n + 1) : Yields (parseblock (n + 1)) s ts Exec := by
  unfold Yields
  rw [Sh.parseblock, ensures_bind]
  refine (peek_spec (by decide) h).next ?_
  rintro b s₁ ⟨h₁, rfl⟩
  cases hb : starts ['('] ts with
  | false => exact ensures_panic
  | true =>
      obtain ⟨us, rfl⟩ := exists_of_starts_single (t := .lparen) (by decide) rfl hb
      rw [List.length_cons] at hn
      simp only [Bool.not_true, Bool.false_eq_true, if_false, ensures_bind]
      refine (gettoken_spec h₁).next ?_
      rintro r s₂ ⟨h₂, _⟩
      refine (ih.line s₂ us h₂ (by omega)).next ?_
      rintro cmd s₃ ⟨us, vs, rfl, h₃, hcmd⟩
      rw [List.length_append] at hn
      refine (peek_spec (by decide) h₃).next ?_
      rintro b s₄ ⟨h₄, rfl⟩
      cases hb : starts [')'] vs with
      | false => exact ensures_panic
      | true =>
          obtain ⟨ws, rfl⟩ := exists_of_starts_single (t := .rparen) (by decide) rfl hb
          rw [List.length_cons] at hn
          simp only [Bool.not_true, Bool.false_eq_true, if_false, ensures_bind]
          refine (gettoken_spec h₄).next ?_
          rintro r s₅ ⟨h₅, _⟩
          refine (parseredirs_sound cmd h₅ (by omega)).next ?_
          rintro cmd' s' ⟨us', vs', rfl, hs', rs, hrs, hcmd'⟩
          refine ⟨.lparen :: us ++ .rparen :: us', vs', ?_, hs', ?_⟩
          · simp only [List.cons_append, List.append_assoc]
          · rw [hcmd']
            exact .block hcmd hrs

/-- **Soundness**, for every depth. -/
theorem sound (n : Nat) : Sound n := by
  induction n with
  | zero => exact ⟨by omega, by omega, by omega, by omega⟩
  | succ n ih =>
      exact ⟨fun _ _ => ih.parseline, fun _ _ => ih.parsepipe, fun _ _ => ih.parseexec,
        fun _ _ => ih.parseblock⟩

end Xv6.Sh
