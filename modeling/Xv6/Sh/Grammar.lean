import Mathlib.Data.List.TakeWhile
import Xv6.Sh.Parser

/-!
# Sh — the grammar of the shell

What the parser is for, in terms of its own. `Lexes s ts` says which tokens
a text is made of, `Line ts cmd` that a sequence of tokens is a line and
which command it stands for.

    line  → pipe '&'* [';' line]
    pipe  → exec ['|' pipe]
    exec  → '(' line ')' redir* | redir* (word redir*)*
    redir → ('<' | '>' | '>>') word
-/

namespace Xv6.Sh

open Lib

/-! ## Tokens of a text -/

inductive Token
  | bar
  | lparen
  | rparen
  | semi
  | amp
  | less
  | greater
  | plus
  | word (w : List Char)
  deriving DecidableEq

namespace Token

/-- What `gettoken` returns for the token. -/
def code : Token → Tok
  | bar => .bar
  | lparen => .lparen
  | rparen => .rparen
  | semi => .semi
  | amp => .amp
  | less => .less
  | greater => .greater
  | plus => .plus
  | word _ => .word

/-- The symbol that the token starts with. -/
def symbol : Token → Option Char
  | bar => some '|'
  | lparen => some '('
  | rparen => some ')'
  | semi => some ';'
  | amp => some '&'
  | less => some '<'
  | greater => some '>'
  | plus => some '>'
  | word _ => none

/-- The tokens of one character, with that character. -/
def single : Token → Option Char
  | plus => none
  | t => t.symbol

/-- The mode and the descriptor of a redirection. -/
def redirects : Token → Option (Nat × Nat)
  | less => some (O_RDONLY, 0)
  | greater => some (O_WRONLY ||| O_CREATE, 1)
  | plus => some (O_WRONLY ||| O_CREATE, 1)
  | _ => none

end Token

/-- **The tokens of a text.** White space separates them where nothing else
does: `>` is not followed by another `>`, a word goes as far as it can. -/
inductive Lexes : List Char → List Token → Prop
  | nil : Lexes [] []
  | space {c : Char} {s : List Char} {ts : List Token} (hc : isSpace c = true)
      (h : Lexes s ts) : Lexes (c :: s) ts
  | symbol {t : Token} {c : Char} {s : List Char} {ts : List Token}
      (ht : t.single = some c) (hs : c = '>' → s.head? ≠ some '>')
      (h : Lexes s ts) : Lexes (c :: s) (t :: ts)
  | plus {s : List Char} {ts : List Token} (h : Lexes s ts) :
      Lexes ('>' :: '>' :: s) (.plus :: ts)
  | word {w s : List Char} {ts : List Token} (hne : w ≠ [])
      (hw : ∀ c ∈ w, isWord c = true) (hs : ∀ c, s.head? = some c → isWord c = false)
      (h : Lexes s ts) : Lexes (w ++ s) (.word w :: ts)

/-! ## The grammar -/

structure Redir where
  file : List Char
  mode : Nat
  fd : Nat

/-- `redir*`. -/
inductive Redirs : List Token → List Redir → Prop
  | nil : Redirs [] []
  | cons {t : Token} {mode fd : Nat} {f : List Char} {ts : List Token} {rs : List Redir}
      (ht : t.redirects = some (mode, fd)) (h : Redirs ts rs) :
      Redirs (t :: .word f :: ts) (⟨f, mode, fd⟩ :: rs)

/-- `(word redir*)*`. -/
inductive Words : List Token → List (List Char) → List Redir → Prop
  | nil : Words [] [] []
  | cons {w : List Char} {ts us : List Token} {ws : List (List Char)} {rs rs' : List Redir}
      (h : Redirs ts rs) (h' : Words us ws rs') :
      Words (.word w :: ts ++ us) (w :: ws) (rs ++ rs')

/-- A command with redirections around it, the last one outermost. -/
def wrap (cmd : Cmd (List Char)) (rs : List Redir) : Cmd (List Char) :=
  rs.foldl (fun cmd r => .redir cmd r.file r.mode r.fd) cmd

/-- A command that `n` ampersands follow. -/
def backs : Nat → Cmd (List Char) → Cmd (List Char)
  | 0, cmd => cmd
  | n + 1, cmd => backs n (.back cmd)

mutual

inductive Line : List Token → Cmd (List Char) → Prop
  | last {ts : List Token} {cmd : Cmd (List Char)} (n : Nat) (h : Pipe ts cmd) :
      Line (ts ++ List.replicate n .amp) (backs n cmd)
  | seq {ts us : List Token} {cmd right : Cmd (List Char)} (n : Nat) (h : Pipe ts cmd)
      (h' : Line us right) :
      Line (ts ++ (List.replicate n .amp ++ .semi :: us)) (.list (backs n cmd) right)

inductive Pipe : List Token → Cmd (List Char) → Prop
  | last {ts : List Token} {cmd : Cmd (List Char)} (h : Exec ts cmd) : Pipe ts cmd
  | bar {ts us : List Token} {cmd right : Cmd (List Char)} (h : Exec ts cmd)
      (h' : Pipe us right) : Pipe (ts ++ .bar :: us) (.pipe cmd right)

inductive Exec : List Token → Cmd (List Char) → Prop
  | block {ts us : List Token} {cmd : Cmd (List Char)} {rs : List Redir} (h : Line ts cmd)
      (h' : Redirs us rs) : Exec (.lparen :: ts ++ .rparen :: us) (wrap cmd rs)
  | simple {ts us : List Token} {ws : List (List Char)} {rs rs' : List Redir}
      (h : Redirs ts rs) (h' : Words us ws rs') (hargs : ws.length ≤ MAXARGS - 1) :
      Exec (ts ++ us) (wrap (.exec ws) (rs ++ rs'))

end

@[simp] theorem wrap_nil (cmd : Cmd (List Char)) : wrap cmd [] = cmd := rfl

@[simp] theorem wrap_cons (cmd : Cmd (List Char)) (r : Redir) (rs : List Redir) :
    wrap cmd (r :: rs) = wrap (.redir cmd r.file r.mode r.fd) rs := rfl

theorem wrap_append (cmd : Cmd (List Char)) (rs rs' : List Redir) :
    wrap cmd (rs ++ rs') = wrap (wrap cmd rs) rs' :=
  List.foldl_append

/-- Words are stored inside the redirections that came before them. -/
theorem setArgv_wrap (ws : List (List Char)) (cmd : Cmd (List Char)) (rs : List Redir) :
    (wrap cmd rs).setArgv ws = wrap (cmd.setArgv ws) rs := by
  induction rs generalizing cmd with
  | nil => rfl
  | cons r rs ih => rw [wrap_cons, wrap_cons, ih, Cmd.setArgv]

/-! ## Every text has tokens -/

theorem isWord_eq_false {c : Char} (h : isWord c = false) :
    isSpace c = true ∨ c ∈ symbols := by
  rw [isWord, Bool.and_eq_false_iff] at h
  rcases h with h | h
  · left
    simpa [isSpace] using h
  · right
    simpa using h

/-- A symbol starts a token, of one character or of two. -/
theorem exists_symbol {c : Char} (h : c ∈ symbols) : ∃ t : Token, t.single = some c := by
  simp only [symbols, List.mem_cons, List.not_mem_nil, or_false] at h
  rcases h with rfl | rfl | rfl | rfl | rfl | rfl | rfl
  · exact ⟨.less, rfl⟩
  · exact ⟨.bar, rfl⟩
  · exact ⟨.greater, rfl⟩
  · exact ⟨.amp, rfl⟩
  · exact ⟨.semi, rfl⟩
  · exact ⟨.lparen, rfl⟩
  · exact ⟨.rparen, rfl⟩

theorem head_dropWhile_isWord {s : List Char} {c : Char}
    (h : (s.dropWhile isWord).head? = some c) : isWord c = false := by
  have hc := List.head?_dropWhile_not isWord s
  rw [h] at hc
  exact hc

theorem exists_lexes (s : List Char) : ∃ ts, Lexes s ts := by
  -- on the length: a word and `>>` take more than one character
  induction hn : s.length using Nat.strongRecOn generalizing s with
  | ind n ih =>
      subst hn
      cases s with
      | nil => exact ⟨[], .nil⟩
      | cons c s =>
          have ihs : ∃ ts, Lexes s ts := ih s.length (by simp) s rfl
          obtain ⟨ts, hts⟩ := ihs
          by_cases hw : isWord c = true
          · have hlen : ((c :: s).dropWhile isWord).length < (c :: s).length := by
              rw [List.dropWhile_cons_of_pos hw]
              exact Nat.lt_succ_of_le (List.length_dropWhile_le _ _)
            obtain ⟨us, hus⟩ := ih _ hlen _ rfl
            have h : Lexes ((c :: s).takeWhile isWord ++ (c :: s).dropWhile isWord)
                (.word ((c :: s).takeWhile isWord) :: us) := by
              apply Lexes.word
              · rw [List.takeWhile_cons_of_pos hw]
                exact List.cons_ne_nil _ _
              · intro d hd
                exact List.mem_takeWhile_imp hd
              · intro d hd
                exact head_dropWhile_isWord hd
              · exact hus
            rw [List.takeWhile_append_dropWhile] at h
            exact ⟨_, h⟩
          · rcases isWord_eq_false (Bool.eq_false_iff.mpr hw) with hc | hc
            · exact ⟨ts, .space hc hts⟩
            · obtain ⟨t, ht⟩ := exists_symbol hc
              by_cases hs : c = '>' → s.head? ≠ some '>'
              · exact ⟨t :: ts, .symbol ht hs hts⟩
              · rw [Classical.not_imp, not_not] at hs
                obtain ⟨rfl, hs⟩ := hs
                obtain ⟨s', rfl⟩ := List.head?_eq_some_iff.mp hs
                obtain ⟨us, hus⟩ := ih s'.length (by simp only [List.length_cons]; omega) s' rfl
                exact ⟨.plus :: us, .plus hus⟩

end Xv6.Sh
