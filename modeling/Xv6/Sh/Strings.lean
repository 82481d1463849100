import Xv6.Sh.Parsecmd

/-!
# Sh — commands own their strings

`nulterminate` writes into the line the parser worked on. What it leaves is
a tree whose strings end where their tokens ended: every terminator falls on
a character that is in no word, and every `argv` has room for its null
pointer.
-/

namespace Xv6.Sh

open Lib

/-! ## `argv` has an end -/

/-- Every `argv` of the tree has a null pointer, at the index after its last
string, within its `MAXARGS` slots. -/
def Cmd.Terminated {α : Type} : Cmd α → Prop
  | .exec argv => argv.length < MAXARGS
  | .redir cmd _ _ _ => cmd.Terminated
  | .pipe left right => left.Terminated ∧ right.Terminated
  | .list left right => left.Terminated ∧ right.Terminated
  | .back cmd => cmd.Terminated

theorem Cmd.terminated_map {α β : Type} (f : α → β) (cmd : Cmd α) :
    (cmd.map f).Terminated ↔ cmd.Terminated := by
  induction cmd with
  | exec argv => rw [map, Terminated, Terminated, List.length_map]
  | redir cmd file mode fd ih => exact ih
  | pipe left right ihl ihr => exact and_congr ihl ihr
  | list left right ihl ihr => exact and_congr ihl ihr
  | back cmd ih => exact ih

theorem terminated_wrap {cmd : Cmd (List Char)} (h : cmd.Terminated) (rs : List Redir) :
    (wrap cmd rs).Terminated := by
  induction rs generalizing cmd with
  | nil => exact h
  | cons r rs ih =>
      rw [wrap_cons]
      exact ih h

theorem terminated_backs {cmd : Cmd (List Char)} (h : cmd.Terminated) (n : Nat) :
    (backs n cmd).Terminated := by
  induction n generalizing cmd with
  | zero => exact h
  | succ n ih => exact ih h

/-- The grammar has no more words than there are slots. -/
theorem Line.terminated {ts : List Token} {cmd : Cmd (List Char)} (h : Line ts cmd) :
    cmd.Terminated := by
  refine @Line.rec (fun _ cmd _ => cmd.Terminated) (fun _ cmd _ => cmd.Terminated)
    (fun _ cmd _ => cmd.Terminated) ?_ ?_ ?_ ?_ ?_ ?_ ts cmd h
  · intro ts cmd n _ ih
    exact terminated_backs ih n
  · intro ts us cmd right n _ _ ih ih'
    exact ⟨terminated_backs ih n, ih'⟩
  · intro ts cmd _ ih
    exact ih
  · intro ts us cmd right _ _ ih ih'
    exact ⟨ih, ih'⟩
  · intro ts us cmd rs _ _ ih
    exact terminated_wrap ih rs
  · intro ts us ws rs rs' _ _ hargs
    refine terminated_wrap ?_ (rs ++ rs')
    have hlt : MAXARGS - 1 < MAXARGS := by decide
    exact Nat.lt_of_le_of_lt hargs hlt

/-! ## What the parser returns -/

/-- **A tree owns its strings** in the line as `nulterminate` leaves it. -/
structure Owns (line : List Char) (tree : Cmd Span) (buf : List Char) : Prop where
  /-- The strings are words of the line, which the grammar puts together. -/
  words : tree.InLine line
  tokens : ∃ ts, Lexes line ts ∧ Line ts (tree.map Span.text)
  terminated : tree.Terminated
  /-- Each is what it was, up to a NUL that stands where its token ended. -/
  string : ∀ w ∈ tree.strings, Sh.string line buf w = w.text
  nul : ∀ w ∈ tree.strings, buf[index line w.eq]? = some '\x00'
  /-- No NUL is written into the text of a string. -/
  apart : ∀ v ∈ tree.strings, ∀ w ∈ tree.strings, ∀ j, j < w.text.length →
    index line v.eq ≠ index line w.q + j

variable {s rest : List Char} {tree : Cmd Span}

/-- What `parseline` takes is a line of the grammar. -/
theorem exists_line (h : parseline (depth (cline s)) (cline s) = .ok (tree, rest))
    (hrest : rest.dropWhile isSpace = []) :
    ∃ ts, Lexes (cline s) ts ∧ Line ts (tree.map Span.text) := by
  obtain ⟨ts, hts⟩ := exists_lexes (cline s)
  have hlen : 4 * ts.length + 4 ≤ depth (cline s) := by
    have := hts.length_le
    rw [depth]
    omega
  obtain ⟨us, vs, rfl, hvs, hline⟩ :=
    ((sound (depth (cline s))).line (cline s) ts hts hlen).of_ok h
  obtain rfl := (dropWhile_isSpace_iff hvs).mp hrest
  rw [List.append_nil] at hts
  exact ⟨us, hts, hline⟩

theorem owns_nulterminate (h : parseline (depth (cline s)) (cline s) = .ok (tree, rest))
    (hrest : rest.dropWhile isSpace = []) :
    Owns (cline s) tree (nulterminate (cline s) tree (cline s ++ ['\x00'])) := by
  have hin : tree.InLine (cline s) :=
    (((allStay (cline s) _).parseline _ (List.suffix_refl _)).of_ok h).2
  obtain ⟨ts, hts, hline⟩ := exists_line h hrest
  refine ⟨hin, ⟨ts, hts, hline⟩, (Cmd.terminated_map _ tree).mp hline.terminated, ?_, ?_, ?_⟩
  · intro w hw
    exact string_nulterminate (nul_notMem_cline s) hin hw
  · intro w hw
    rw [nulterminate_eq_foldl]
    refine getElem?_foldl_set_nul ?_ (.inl ⟨w, hw, rfl⟩)
    rw [List.length_append, List.length_singleton, index]
    omega
  · intro v hv w hw j hj
    exact (hin v hv).index_ne (hin w hw) hj

/-- **Parsed commands own their strings**: of every line that `parsecmd`
accepts `parseline` makes such a tree, and `parsecmd` returns it with its
strings as they stand in the line after `nulterminate`. -/
theorem parsecmd_owns {s : List Char} {cmd : Cmd (List Char)} (h : parsecmd s = .ok cmd) :
    ∃ tree rest buf, parseline (depth (cline s)) (cline s) = .ok (tree, rest) ∧
      buf = nulterminate (cline s) tree (cline s ++ ['\x00']) ∧
      cmd = tree.map (string (cline s) buf) ∧ Owns (cline s) tree buf := by
  cases hrun : parseline (depth (cline s)) (cline s) with
  | error e =>
      rw [parsecmd_of_error hrun] at h
      cases h
  | ok r =>
      obtain ⟨tree, rest⟩ := r
      have hrest : rest.dropWhile isSpace = [] := by
        by_contra hne
        rw [parsecmd_of_ok hrun, if_neg hne] at h
        cases h
      have howns := owns_nulterminate hrun hrest
      refine ⟨tree, rest, _, rfl, rfl, ?_, howns⟩
      rw [parsecmd_of_ok hrun, if_pos hrest] at h
      rw [← Except.ok.inj h]
      exact (tree.map_congr howns.string).symm

/-- A line with words next to operators. -/
theorem parsecmd_owns_pipe :
    ∃ tree rest buf, parseline (depth (cline "a<b|c".toList)) (cline "a<b|c".toList) =
        .ok (tree, rest) ∧
      buf = nulterminate (cline "a<b|c".toList) tree (cline "a<b|c".toList ++ ['\x00']) ∧
      .pipe (.redir (.exec [['a']]) ['b'] 0 0) (.exec [['c']]) =
        tree.map (string (cline "a<b|c".toList) buf) ∧ Owns (cline "a<b|c".toList) tree buf :=
  parsecmd_owns (by decide +kernel)

end Xv6.Sh
