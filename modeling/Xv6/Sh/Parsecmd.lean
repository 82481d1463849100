import Xv6.Sh.Complete

/-!
# Sh — `parsecmd` accepts the grammar

The strings of the command are pointers into the line until `nulterminate`
writes a NUL after each of them. No such NUL falls into a word, because the
character after a word is not one of a word; so every string is then the
text of its token.
-/

namespace Xv6.Sh

open Lib

/-! ## The strings of a command -/

/-- The strings, in the order in which `nulterminate` comes to them. -/
def Cmd.strings {α : Type} : Cmd α → List α
  | .exec argv => argv
  | .redir cmd file _ _ => cmd.strings ++ [file]
  | .pipe left right => left.strings ++ right.strings
  | .list left right => left.strings ++ right.strings
  | .back cmd => cmd.strings

theorem Cmd.map_congr {α β : Type} {f g : α → β} (cmd : Cmd α)
    (h : ∀ w ∈ cmd.strings, f w = g w) : cmd.map f = cmd.map g := by
  induction cmd with
  | exec argv =>
      rw [map, map]
      congr 1
      exact List.map_congr_left h
  | redir cmd file mode fd ih =>
      simp only [strings, List.mem_append, List.mem_singleton] at h
      rw [map, map, ih fun w hw => h w (.inl hw), h file (.inr rfl)]
  | pipe left right ihl ihr =>
      simp only [strings, List.mem_append] at h
      rw [map, map, ihl fun w hw => h w (.inl hw), ihr fun w hw => h w (.inr hw)]
  | list left right ihl ihr =>
      simp only [strings, List.mem_append] at h
      rw [map, map, ihl fun w hw => h w (.inl hw), ihr fun w hw => h w (.inr hw)]
  | back cmd ih => rw [map, map, ih h]

theorem Cmd.mem_strings_setArgv {α : Type} {argv : List α} {cmd : Cmd α} {w : α}
    (h : w ∈ (cmd.setArgv argv).strings) : w ∈ argv ∨ w ∈ cmd.strings := by
  induction cmd with
  | exec _ => exact .inl h
  | redir cmd file mode fd ih =>
      simp only [setArgv, strings, List.mem_append, List.mem_singleton] at h ⊢
      rcases h with h | h
      · rcases ih h with h | h
        · exact .inl h
        · exact .inr (.inl h)
      · exact .inr (.inr h)
  | _ => exact .inr h

/-- All strings of the command are words of the line. -/
def Cmd.InLine (line : List Char) (cmd : Cmd Span) : Prop := ∀ w ∈ cmd.strings, w.InLine line

/-- The run stays in the line, and so do the strings of what it returns. -/
def Stays (line : List Char) (m : ParseM (Cmd Span)) (s : List Char) : Prop :=
  Ensures m s (fun _ => True) fun cmd t => t <:+ line ∧ cmd.InLine line

variable {line s : List Char} {cmd : Cmd Span}

theorem Cmd.InLine.redir {file : Span} (h : cmd.InLine line) (hfile : file.InLine line)
    (mode fd : Nat) : Cmd.InLine line (.redir cmd file mode fd) := by
  intro w hw
  rcases List.mem_append.mp hw with hw | hw
  · exact h w hw
  · rw [List.mem_singleton.mp hw]
    exact hfile

theorem Cmd.InLine.append {left right : Cmd Span} (h : left.InLine line)
    (h' : right.InLine line) : ∀ w ∈ left.strings ++ right.strings, w.InLine line := by
  intro w hw
  rcases List.mem_append.mp hw with hw | hw
  · exact h w hw
  · exact h' w hw

theorem parseredirs_stays (n : Nat) (hs : s <:+ line) (h : cmd.InLine line) :
    Stays line (parseredirs n cmd) s := by
  induction n generalizing s cmd with
  | zero => trivial
  | succ n ih =>
      unfold Stays
      rw [parseredirs, ensures_bind]
      refine (peek_suffix hs).next ?_
      rintro b s₁ h₁
      cases b with
      | false => exact ⟨h₁, h⟩
      | true =>
          simp only [if_true, ensures_bind]
          refine (gettoken_suffix h₁).next ?_
          rintro ⟨tok, span⟩ s₂ ⟨h₂, _⟩
          refine (gettoken_suffix h₂).next ?_
          rintro ⟨next, file⟩ s₃ ⟨h₃, hfile⟩
          by_cases hword : next = .word
          · simp only [hword, ne_eq, not_true_eq_false, if_false]
            have hfile := hfile hword
            cases tok with
            | less => exact ih h₃ (h.redir hfile _ _)
            | greater => exact ih h₃ (h.redir hfile _ _)
            | plus => exact ih h₃ (h.redir hfile _ _)
            | _ => exact ih h₃ h
          · simp only [ne_eq, hword, not_false_eq_true, if_true]
            trivial

theorem parseargs_stays (n : Nat) {argv : List Span} (hs : s <:+ line) (h : cmd.InLine line)
    (hargv : ∀ w ∈ argv, w.InLine line) : Stays line (parseargs n argv cmd) s := by
  induction n generalizing s argv cmd with
  | zero => trivial
  | succ n ih =>
      unfold Stays
      rw [parseargs, ensures_bind]
      refine (peek_suffix hs).next ?_
      rintro b s₁ h₁
      cases b with
      | true => exact ⟨h₁, h⟩
      | false =>
          simp only [Bool.false_eq_true, if_false, ensures_bind]
          refine (gettoken_suffix h₁).next ?_
          rintro ⟨tok, word⟩ s₂ ⟨h₂, hword⟩
          cases tok with
          | nul => exact ⟨h₂, h⟩
          | word =>
              simp only [reduceCtorEq, if_false, ne_eq, not_true_eq_false]
              have hargv' : ∀ w ∈ argv ++ [word], w.InLine line := by
                intro w hw
                rcases List.mem_append.mp hw with hw | hw
                · exact hargv w hw
                · rw [List.mem_singleton.mp hw]
                  exact hword rfl
              split
              · trivial
              · rw [ensures_bind]
                have hset : (cmd.setArgv (argv ++ [word])).InLine line := by
                  intro w hw
                  rcases Cmd.mem_strings_setArgv hw with hw | hw
                  · exact hargv' w hw
                  · exact h w hw
                refine (parseredirs_stays n h₂ hset).next ?_
                rintro cmd' s₃ ⟨h₃, hcmd'⟩
                exact ih h₃ hcmd' hargv'
          | _ =>
              simp only [reduceCtorEq, if_false, ne_eq, not_false_eq_true, if_true]
              trivial

theorem parsebacks_stays (n : Nat) (hs : s <:+ line) (h : cmd.InLine line) :
    Stays line (parsebacks n cmd) s := by
  induction n generalizing s cmd with
  | zero => trivial
  | succ n ih =>
      unfold Stays
      rw [parsebacks, ensures_bind]
      refine (peek_suffix hs).next ?_
      rintro b s₁ h₁
      cases b with
      | false => exact ⟨h₁, h⟩
      | true =>
          simp only [if_true, ensures_bind]
          refine (gettoken_suffix h₁).next ?_
          rintro r s₂ ⟨h₂, _⟩
          have hback : Cmd.InLine line (.back cmd) := h
          exact ih h₂ hback

/-- The four functions with the depth `n`. -/
structure AllStay (line : List Char) (n : Nat) : Prop where
  parseline : ∀ s, s <:+ line → Stays line (Sh.parseline n) s
  parsepipe : ∀ s, s <:+ line → Stays line (Sh.parsepipe n) s
  parseexec : ∀ s, s <:+ line → Stays line (Sh.parseexec n) s
  parseblock : ∀ s, s <:+ line → Stays line (Sh.parseblock n) s

theorem AllStay.parseline_succ {n : Nat} (ih : AllStay line n) (hs : s <:+ line) :
    Stays line (Sh.parseline (n + 1)) s := by
  unfold Stays
  rw [Sh.parseline, ensures_bind]
  refine (ih.parsepipe s hs).next ?_
  rintro cmd s₁ ⟨h₁, hcmd⟩
  rw [ensures_bind]
  refine (parsebacks_stays n h₁ hcmd).next ?_
  rintro cmd' s₂ ⟨h₂, hcmd'⟩
  rw [ensures_bind]
  refine (peek_suffix h₂).next ?_
  rintro b s₃ h₃
  cases b with
  | false => exact ⟨h₃, hcmd'⟩
  | true =>
      simp only [if_true, ensures_bind]
      refine (gettoken_suffix h₃).next ?_
      rintro r s₄ ⟨h₄, _⟩
      refine (ih.parseline s₄ h₄).next ?_
      rintro right s' ⟨hs', hright⟩
      exact ⟨hs', hcmd'.append hright⟩

theorem AllStay.parsepipe_succ {n : Nat} (ih : AllStay line n) (hs : s <:+ line) :
    Stays line (Sh.parsepipe (n + 1)) s := by
  unfold Stays
  rw [Sh.parsepipe, ensures_bind]
  refine (ih.parseexec s hs).next ?_
  rintro cmd s₁ ⟨h₁, hcmd⟩
  rw [ensures_bind]
  refine (peek_suffix h₁).next ?_
  rintro b s₂ h₂
  cases b with
  | false => exact ⟨h₂, hcmd⟩
  | true =>
      simp only [if_true, ensures_bind]
      refine (gettoken_suffix h₂).next ?_
      rintro r s₃ ⟨h₃, _⟩
      refine (ih.parsepipe s₃ h₃).next ?_
      rintro right s' ⟨hs', hright⟩
      exact ⟨hs', hcmd.append hright⟩

theorem AllStay.parseexec_succ {n : Nat} (ih : AllStay line n) (hs : s <:+ line) :
    Stays line (Sh.parseexec (n + 1)) s := by
  unfold Stays
  rw [Sh.parseexec, ensures_bind]
  refine (peek_suffix hs).next ?_
  rintro b s₁ h₁
  cases b with
  | true => exact ih.parseblock s₁ h₁
  | false =>
      have hnil : ∀ w ∈ ([] : List Span), w.InLine line := by
        intro w hw
        cases hw
      have hexec : Cmd.InLine line (.exec []) := hnil
      simp only [Bool.false_eq_true, if_false, ensures_bind]
      refine (parseredirs_stays n h₁ hexec).next ?_
      rintro ret s₂ ⟨h₂, hret⟩
      exact parseargs_stays n h₂ hret hnil

theorem AllStay.parseblock_succ {n : Nat} (ih : AllStay line n) (hs : s <:+ line) :
    Stays line (Sh.parseblock (n + 1)) s := by
  unfold Stays
  rw [Sh.parseblock, ensures_bind]
  refine (peek_suffix hs).next ?_
  rintro b s₁ h₁
  cases b with
  | false => trivial
  | true =>
      simp only [Bool.not_true, Bool.false_eq_true, if_false, ensures_bind]
      refine (gettoken_suffix h₁).next ?_
      rintro r s₂ ⟨h₂, _⟩
      refine (ih.parseline s₂ h₂).next ?_
      rintro cmd s₃ ⟨h₃, hcmd⟩
      refine (peek_suffix h₃).next ?_
      rintro b s₄ h₄
      cases b with
      | false => trivial
      | true =>
          simp only [Bool.not_true, Bool.false_eq_true, if_false, ensures_bind]
          refine (gettoken_suffix h₄).next ?_
          rintro r s₅ ⟨h₅, _⟩
          exact parseredirs_stays n h₅ hcmd

theorem allStay (line : List Char) (n : Nat) : AllStay line n := by
  induction n with
  | zero => exact ⟨fun _ _ => trivial, fun _ _ => trivial, fun _ _ => trivial, fun _ _ => trivial⟩
  | succ n ih =>
      exact ⟨fun _ => ih.parseline_succ, fun _ => ih.parsepipe_succ, fun _ => ih.parseexec_succ,
        fun _ => ih.parseblock_succ⟩

/-! ## `nulterminate` -/

/-- `nulterminate` writes a NUL at the end of each string. -/
theorem nulterminate_eq_foldl (line : List Char) (cmd : Cmd Span) (buf : List Char) :
    nulterminate line cmd buf =
      cmd.strings.foldl (fun buf w => buf.set (index line w.eq) '\x00') buf := by
  induction cmd generalizing buf with
  | exec argv => rfl
  | redir cmd file mode fd ih =>
      rw [nulterminate, ih, Cmd.strings, List.foldl_append, List.foldl_cons, List.foldl_nil]
  | pipe left right ihl ihr | list left right ihl ihr =>
      rw [nulterminate, ihl, ihr, Cmd.strings, List.foldl_append]
  | back cmd ih => exact ih buf

theorem getElem?_foldl_set_of_not {ws : List Span} {buf : List Char} {i : Nat}
    (h : ∀ w ∈ ws, index line w.eq ≠ i) :
    (ws.foldl (fun buf w => buf.set (index line w.eq) '\x00') buf)[i]? = buf[i]? := by
  induction ws generalizing buf with
  | nil => rfl
  | cons w ws ih =>
      rw [List.foldl_cons, ih fun v hv => h v (List.mem_cons_of_mem w hv),
        List.getElem?_set_ne (h w List.mem_cons_self)]

theorem getElem?_foldl_set_nul {ws : List Span} {buf : List Char} {i : Nat}
    (hlt : i < buf.length)
    (h : (∃ w ∈ ws, index line w.eq = i) ∨ buf[i]? = some '\x00') :
    (ws.foldl (fun buf w => buf.set (index line w.eq) '\x00') buf)[i]? = some '\x00' := by
  induction ws generalizing buf with
  | nil =>
      rcases h with ⟨w, hw, _⟩ | h
      · cases hw
      · exact h
  | cons v ws ih =>
      rw [List.foldl_cons]
      apply ih
      · rwa [List.length_set]
      · by_cases hv : index line v.eq = i
        · right
          rw [hv, List.getElem?_set_self hlt]
        · rw [List.getElem?_set_ne hv]
          rcases h with ⟨w, hw, heq⟩ | h
          · rcases List.mem_cons.mp hw with rfl | hw
            · exact absurd heq hv
            · exact .inl ⟨w, hw, heq⟩
          · exact .inr h

/-- A C string is read up to its NUL. -/
theorem takeWhile_eq_of_getElem? {l w : List Char} (hw : '\x00' ∉ w)
    (h : ∀ j, j < w.length → l[j]? = w[j]?) (hend : l[w.length]? = some '\x00') :
    l.takeWhile (· ≠ '\x00') = w := by
  induction w generalizing l with
  | nil =>
      cases l with
      | nil => rfl
      | cons c l =>
          cases hend
          rfl
  | cons d w ih =>
      cases l with
      | nil => cases h 0 (Nat.succ_pos _)
      | cons c l =>
          obtain rfl : c = d := Option.some.inj (h 0 (Nat.succ_pos _))
          have hc : c ≠ '\x00' := fun hc => hw (hc ▸ List.mem_cons_self)
          rw [List.takeWhile_cons_of_pos (by simpa using hc), ih]
          · exact fun hmem => hw (List.mem_cons_of_mem c hmem)
          · intro j hj
            exact h (j + 1) (Nat.succ_lt_succ hj)
          · exact hend

/-- The line, from the index of a pointer on. -/
theorem getElem?_index {t : List Char} (h : t <:+ line) (j : Nat) :
    (line)[index line t + j]? = t[j]? := by
  obtain ⟨pre, rfl⟩ := h
  have hidx : index (pre ++ t) t = pre.length := by
    rw [index, List.length_append, Nat.add_sub_cancel]
  rw [hidx, List.getElem?_append_right (Nat.le_add_right _ _), Nat.add_sub_cancel_left]

theorem Span.InLine.eq_suffix {w : Span} (h : w.InLine line) : w.eq <:+ line :=
  (h.split ▸ List.suffix_append w.text w.eq : w.eq <:+ w.q).trans h.suffix

/-- The end of a word is as far from its start as it is long. -/
theorem Span.InLine.index_eq {w : Span} (h : w.InLine line) :
    index line w.eq = index line w.q + w.text.length := by
  have hlen : w.q.length = w.text.length + w.eq.length := by
    have := congrArg List.length h.split
    rwa [List.length_append] at this
  have hle := h.suffix.length_le
  rw [index, index]
  omega

/-- **No NUL falls into a word**: where one is written, no character of a word
stands. -/
theorem Span.InLine.index_ne {v w : Span} (hv : v.InLine line) (hw : w.InLine line) {j : Nat}
    (hj : j < w.text.length) : index line v.eq ≠ index line w.q + j := by
  intro heq
  have hq : w.q[j]? = some (w.text[j]) := by
    rw [hw.split, List.getElem?_append_left hj, List.getElem?_eq_getElem hj]
  have hhead : v.eq.head? = some (w.text[j]) := by
    rw [← hq, List.head?_eq_getElem?, ← getElem?_index hv.eq_suffix 0,
      ← getElem?_index hw.suffix j, ← heq, Nat.add_zero]
  have hword := hw.word _ (List.getElem_mem hj)
  rw [hv.next _ hhead] at hword
  cases hword

/-- **The strings after `nulterminate`** are the texts of the words. -/
theorem string_nulterminate (hline : '\x00' ∉ line) (h : cmd.InLine line) {w : Span}
    (hw : w ∈ cmd.strings) :
    string line (nulterminate line cmd (line ++ ['\x00'])) w = w.text := by
  have hwl := h w hw
  have hidx := hwl.index_eq
  rw [string, nulterminate_eq_foldl]
  apply takeWhile_eq_of_getElem?
  · intro hmem
    have hq : '\x00' ∈ w.q := by
      rw [hwl.split]
      exact List.mem_append_left _ hmem
    exact hline (hwl.suffix.subset hq)
  · intro j hj
    have hq : w.q[j]? = w.text[j]? := by
      rw [hwl.split, List.getElem?_append_left hj]
    have hin : index line w.q + j < line.length := by
      have hle := hwl.eq_suffix.length_le
      rw [index] at hidx
      omega
    rw [List.getElem?_drop, getElem?_foldl_set_of_not fun v hv => (h v hv).index_ne hwl hj,
      List.getElem?_append_left hin, getElem?_index hwl.suffix, hq]
  · rw [List.getElem?_drop, ← hidx]
    apply getElem?_foldl_set_nul
    · rw [List.length_append, List.length_singleton, index]
      omega
    · exact .inl ⟨w, hw, rfl⟩

/-! ## `parsecmd` -/

theorem Lexes.length_le {ts : List Token} (h : Lexes s ts) : ts.length ≤ s.length := by
  induction h with
  | nil => exact Nat.le_refl _
  | space hc h ih => exact Nat.le_succ_of_le ih
  | symbol ht hs h ih => exact Nat.succ_le_succ ih
  | plus h ih => exact Nat.succ_le_succ (Nat.le_succ_of_le ih)
  | @word w s ts hne hw hs h ih =>
      have hpos := List.length_pos_iff.mpr hne
      rw [List.length_append, List.length_cons]
      omega

/-- The line that a C string holds. -/
abbrev cline (s : List Char) : List Char := s.takeWhile (· ≠ '\x00')

theorem nul_notMem_cline (s : List Char) : '\x00' ∉ cline s := by
  intro h
  simpa using List.mem_takeWhile_imp h

variable {cmd : Cmd Span} {rest : List Char}

theorem parsecmd_of_error {e : Stop} (h : parseline (depth (cline s)) (cline s) = .error e) :
    parsecmd s = .error e := by
  simp only [parsecmd, StateT.run, h, bind, Except.bind]

/-- What `parsecmd` does after `parseline`. -/
theorem parsecmd_of_ok (h : parseline (depth (cline s)) (cline s) = .ok (cmd, rest)) :
    parsecmd s = if rest.dropWhile isSpace = [] then .ok (cmd.map Span.text)
      else .error (.panic "syntax") := by
  have hin : cmd.InLine (cline s) :=
    (((allStay (cline s) _).parseline _ (List.suffix_refl _)).of_ok h).2
  have hmap : cmd.map (string (cline s)
      (nulterminate (cline s) cmd (cline s ++ ['\x00']))) = cmd.map Span.text :=
    cmd.map_congr fun w hw => string_nulterminate (nul_notMem_cline s) hin hw
  simp only [parsecmd, StateT.run, h, bind, Except.bind, ne_eq, pure, Except.pure, hmap]
  by_cases hrest : rest.dropWhile isSpace = []
  · simp only [hrest, not_true_eq_false, if_false, if_true]
  · simp only [hrest, not_false_eq_true, if_true, if_false]
    rfl

theorem dropWhile_isSpace_iff {vs : List Token} (h : Lexes rest vs) :
    rest.dropWhile isSpace = [] ↔ vs = [] := by
  constructor
  · intro hrest
    have hskip := h.skip
    rw [hrest] at hskip
    have hlen := hskip.length_le
    exact List.length_eq_zero_iff.mp (Nat.le_zero.mp hlen)
  · rintro rfl
    exact h.skip.eq_nil head_dropWhile_isSpace

/-- **The shell's parser accepts its grammar**, and returns the command of the
derivation. It always returns or panics. -/
theorem parsecmd_iff_line (s : List Char) :
    parsecmd s ≠ .error .depth ∧
      ∀ cmd, parsecmd s = .ok cmd ↔ ∃ ts, Lexes (cline s) ts ∧ Line ts cmd := by
  have hdepth : ∀ ts, Lexes (cline s) ts → 4 * ts.length + 4 ≤ depth (cline s) := by
    intro ts hts
    have := hts.length_le
    rw [depth]
    omega
  -- a derivation makes the parser take all tokens
  have hcomplete : ∀ cmd ts, Lexes (cline s) ts → Line ts cmd → parsecmd s = .ok cmd := by
    intro cmd ts hts hline
    have haccept := (complete (depth (cline s))).line (cline s) ts [] cmd hline
      (by rwa [List.append_nil]) (fun _ ht => by cases ht)
      (by rw [List.append_nil]; exact hdepth ts hts)
    obtain ⟨cmd', rest, hrun, hrest, hcmd'⟩ := haccept.exists_ok
    rw [parsecmd_of_ok hrun, if_pos ((dropWhile_isSpace_iff hrest).mpr rfl), hcmd']
  obtain ⟨ts, hts⟩ := exists_lexes (cline s)
  have hsound := (sound (depth (cline s))).line (cline s) ts hts (hdepth ts hts)
  cases hrun : parseline (depth (cline s)) (cline s) with
  | error e =>
      have he := hsound.of_error hrun
      have hparse := parsecmd_of_error hrun
      refine ⟨by rw [hparse]; exact fun h => he (Except.error.inj h), ?_⟩
      intro cmd
      constructor
      · intro h
        rw [hparse] at h
        cases h
      · rintro ⟨us, hus, hline⟩
        exact hcomplete cmd us hus hline
  | ok r =>
      obtain ⟨cmd', rest⟩ := r
      obtain ⟨us, vs, rfl, hrest, hline⟩ := hsound.of_ok hrun
      have hparse := parsecmd_of_ok hrun
      constructor
      · rw [hparse]
        split
        · exact fun h => by cases h
        · exact fun h => by cases h
      · intro cmd
        constructor
        · intro h
          rw [hparse] at h
          split at h
          · rename_i hnil
            obtain rfl := (dropWhile_isSpace_iff hrest).mp hnil
            cases h
            rw [List.append_nil] at hts
            exact ⟨us, hts, hline⟩
          · cases h
        · rintro ⟨us', hus', hline'⟩
          exact hcomplete cmd us' hus' hline'

example : parsecmd "a<b|(c;d&)>e".toList =
    .ok (.pipe (.redir (.exec [['a']]) ['b'] 0 0)
      (.redir (.list (.exec [['c']]) (.back (.exec [['d']]))) ['e'] 513 1)) := by
  decide +kernel

end Xv6.Sh
