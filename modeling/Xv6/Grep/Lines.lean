import Xv6.Grep.Match

/-!
# Grep — the lines

`grep` reads into a buffer of 1024 bytes, writes the lines in it that
match, and keeps what follows the last newline for the next read. Where the
buffer holds no newline it keeps nothing. So the output is that of the
whole input exactly when every piece that `read` returns has a newline
in it.
-/

namespace Xv6.Grep

/-! ## The code -/

def newline : UInt8 := 10

/-- sizeof(buf) -/
def BUFSIZE : Nat := 1024

/-- `strchr`: the index of the first `c` before the terminator. -/
def strchr (c : UInt8) : List UInt8 → Option Nat
  | [] => none
  | b :: s => if b = 0 then none else if b = c then some 0 else (strchr c s).map (· + 1)

/-- The inner loop, from `p` on: what it writes, and what is left after the
last newline. A step takes at least the newline, so the length is fuel
enough. -/
def lineLoop (re : List UInt8) : (fuel : Nat) → List UInt8 → List UInt8 × List UInt8
  | 0, p => ([], p)
  | fuel + 1, p =>
      match strchr newline p with
      | none => ([], p)
      | some q =>
          let r := lineLoop re fuel (p.drop (q + 1))
          ((if matchText re (p.take q) then p.take (q + 1) else []) ++ r.1, r.2)

/-- What the buffer keeps for the next read; `p == buf` is that the loop
has not advanced. -/
def keep (buf p : List UInt8) : List UInt8 := if p.length = buf.length then [] else p

/-- `grep`: what is written, from the bytes kept and the pieces that the
reads to come return. -/
def grep (re : List UInt8) : (held : List UInt8) → (pieces : List (List UInt8)) → List UInt8
  | _, [] => []
  | held, piece :: pieces =>
      let buf := held ++ piece
      let r := lineLoop re buf.length buf
      r.1 ++ grep re (keep buf r.2) pieces

/-- The bytes kept after a read. -/
def heldAfter (re held piece : List UInt8) : List UInt8 :=
  keep (held ++ piece) (lineLoop re (held ++ piece).length (held ++ piece)).2

/-- The pieces are ones that `read` may return: each has a byte at least and
is no longer than requested. -/
def Reads (re : List UInt8) : (held : List UInt8) → (pieces : List (List UInt8)) → Prop
  | _, [] => True
  | held, piece :: pieces =>
      piece ≠ [] ∧ piece.length ≤ BUFSIZE - held.length - 1 ∧
        Reads re (heldAfter re held piece) pieces

/-! ## Lines -/

/-- Lines, each with its newline. -/
def unlines (lines : List (List UInt8)) : List UInt8 := lines.flatMap (· ++ [newline])

/-- What is to be written: the lines that match. -/
def matching (re : List UInt8) (lines : List (List UInt8)) : List UInt8 :=
  unlines (lines.filter (matchText re))

/-- Lines have no newline or terminator in them. -/
def Plain (lines : List (List UInt8)) : Prop := ∀ line ∈ lines, newline ∉ line ∧ 0 ∉ line

@[simp] theorem unlines_nil : unlines [] = [] := rfl

theorem unlines_cons (line : List UInt8) (lines : List (List UInt8)) :
    unlines (line :: lines) = line ++ newline :: unlines lines := by
  rw [unlines, List.flatMap_cons, List.append_assoc]
  rfl

theorem unlines_append (lines lines' : List (List UInt8)) :
    unlines (lines ++ lines') = unlines lines ++ unlines lines' := List.flatMap_append

theorem matching_append (re : List UInt8) (lines lines' : List (List UInt8)) :
    matching re (lines ++ lines') = matching re lines ++ matching re lines' := by
  rw [matching, List.filter_append, unlines_append]
  rfl

/-- Every text is lines and a rest without a newline. -/
theorem exists_lines (text : List UInt8) (hnul : 0 ∉ text) :
    ∃ lines tail, text = unlines lines ++ tail ∧ Plain lines ∧ newline ∉ tail ∧ 0 ∉ tail := by
  induction text with
  | nil => exact ⟨[], [], rfl, fun line h => absurd h List.not_mem_nil, by simp, by simp⟩
  | cons b text ih =>
      obtain ⟨lines, tail, rfl, hlines, htail, htail0⟩ :=
        ih fun h => hnul (List.mem_cons_of_mem _ h)
      have hb : (0 : UInt8) ≠ b := fun h => hnul (h ▸ List.mem_cons_self)
      by_cases hnl : b = newline
      · refine ⟨[] :: lines, tail, ?_, ?_, htail, htail0⟩
        · rw [unlines_cons, hnl]
          rfl
        · exact List.forall_mem_cons.mpr ⟨⟨by simp, by simp⟩, hlines⟩
      -- `b` is the first byte of the first line, or of the rest where there is none
      · cases lines with
        | nil =>
            refine ⟨[], b :: tail, rfl, hlines, ?_, ?_⟩
            · rw [List.mem_cons, not_or]
              exact ⟨Ne.symm hnl, htail⟩
            · rw [List.mem_cons, not_or]
              exact ⟨hb, htail0⟩
        | cons line lines =>
            obtain ⟨⟨hline, hline0⟩, hlines⟩ := List.forall_mem_cons.mp hlines
            refine ⟨(b :: line) :: lines, tail, ?_, ?_, htail, htail0⟩
            · rw [unlines_cons, unlines_cons]
              rfl
            · refine List.forall_mem_cons.mpr ⟨?_, hlines⟩
              rw [List.mem_cons, List.mem_cons, not_or, not_or]
              exact ⟨⟨Ne.symm hnl, hline⟩, hb, hline0⟩

/-- A newline ends the first line, whichever way the text is cut. -/
theorem line_unique {line line' rest rest' : List UInt8} (hline : newline ∉ line)
    (hline' : newline ∉ line') (h : line ++ newline :: rest = line' ++ newline :: rest') :
    line = line' ∧ rest = rest' := by
  induction line generalizing line' with
  | nil =>
      cases line' with
      | nil => exact ⟨rfl, (List.cons.inj h).2⟩
      | cons b line' =>
          exact absurd ((List.cons.inj h).1 ▸ List.mem_cons_self) hline'
  | cons b line ih =>
      cases line' with
      | nil => exact absurd ((List.cons.inj h).1 ▸ List.mem_cons_self) hline
      | cons b' line' =>
          obtain ⟨rfl, htail⟩ := List.cons.inj h
          obtain ⟨rfl, rfl⟩ := ih (fun h => hline (List.mem_cons_of_mem _ h))
            (fun h => hline' (List.mem_cons_of_mem _ h)) htail
          exact ⟨rfl, rfl⟩

/-- Lines that a text begins with are the first of its lines. -/
theorem unlines_prefix {lines all : List (List UInt8)} {tail : List UInt8} (hlines : Plain lines)
    (hall : Plain all) (h : unlines lines ++ tail = unlines all) :
    ∃ others, all = lines ++ others ∧ tail = unlines others := by
  induction lines generalizing all with
  | nil => exact ⟨all, rfl, h⟩
  | cons line lines ih =>
      obtain ⟨⟨hline, _⟩, hlines⟩ := List.forall_mem_cons.mp hlines
      rw [unlines_cons, List.append_assoc, List.cons_append] at h
      cases all with
      | nil => exact absurd (List.append_eq_nil_iff.mp h).2 (List.cons_ne_nil _ _)
      | cons line' all =>
          obtain ⟨⟨hline', _⟩, hothers⟩ := List.forall_mem_cons.mp hall
          rw [unlines_cons] at h
          obtain ⟨rfl, htail⟩ := line_unique hline hline' h
          obtain ⟨others, rfl, rfl⟩ := ih hlines hothers htail
          exact ⟨others, rfl, rfl⟩

theorem newline_mem_unlines {lines : List (List UInt8)} (h : lines ≠ []) :
    newline ∈ unlines lines := by
  obtain ⟨line, lines, rfl⟩ := List.exists_cons_of_ne_nil h
  rw [unlines_cons]
  exact List.mem_append_right _ List.mem_cons_self

theorem nul_notMem_unlines {lines : List (List UInt8)} (hlines : Plain lines) :
    0 ∉ unlines lines := by
  intro h
  obtain ⟨line, hline, h0⟩ := List.mem_flatMap.mp h
  rcases List.mem_append.mp h0 with h0 | h0
  · exact (hlines line hline).2 h0
  · exact absurd (List.mem_singleton.mp h0) (by decide)

/-! ## One read -/

theorem strchr_line {line rest : List UInt8} (hline : newline ∉ line) (hline0 : 0 ∉ line) :
    strchr newline (line ++ newline :: rest) = some line.length := by
  induction line with
  | nil =>
      rw [List.nil_append, strchr, if_neg (by decide), if_pos rfl]
      rfl
  | cons b line ih =>
      rw [List.mem_cons, not_or] at hline hline0
      rw [List.cons_append, strchr, if_neg (Ne.symm hline0.1), if_neg (Ne.symm hline.1), ih hline.2 hline0.2]
      rfl

theorem strchr_none {tail : List UInt8} (htail : newline ∉ tail) : strchr newline tail = none := by
  induction tail with
  | nil => rfl
  | cons b tail ih =>
      rw [List.mem_cons, not_or] at htail
      rw [strchr, if_neg (Ne.symm htail.1), ih htail.2, Option.map_none, ite_self]

/-- **The inner loop** writes the lines that match, and leaves the rest. -/
theorem lineLoop_unlines (re : List UInt8) {lines : List (List UInt8)} {tail : List UInt8}
    {fuel : Nat} (hlines : Plain lines) (htail : newline ∉ tail) (hfuel : lines.length ≤ fuel) :
    lineLoop re fuel (unlines lines ++ tail) = (matching re lines, tail) := by
  induction lines generalizing fuel with
  | nil =>
      cases fuel with
      | zero => rfl
      | succ fuel => rw [unlines_nil, List.nil_append, lineLoop, strchr_none htail]; rfl
  | cons line lines ih =>
      obtain ⟨⟨hline, hline0⟩, hlines⟩ := List.forall_mem_cons.mp hlines
      obtain ⟨fuel, rfl⟩ : ∃ k, fuel = k + 1 := ⟨fuel - 1, by simp at hfuel; omega⟩
      have htext : unlines (line :: lines) ++ tail = line ++ newline :: (unlines lines ++ tail) := by
        rw [unlines_cons, List.append_assoc, List.cons_append]
      have hdrop : (line ++ newline :: (unlines lines ++ tail)).drop (line.length + 1) =
          unlines lines ++ tail := by
        rw [List.drop_append]
        simp
      have htake : (line ++ newline :: (unlines lines ++ tail)).take (line.length + 1) =
          line ++ [newline] := by
        rw [List.take_append]
        simp
      rw [htext, lineLoop, strchr_line hline hline0]
      simp only [hdrop, htake, List.take_left, ih hlines (Nat.le_of_succ_le_succ hfuel)]
      rw [matching, matching, List.filter_cons]
      by_cases hm : matchText re line
      · rw [if_pos hm, if_pos hm, unlines_cons, List.append_assoc]
        rfl
      · rw [if_neg hm, if_neg hm]
        rfl

theorem length_le_unlines (lines : List (List UInt8)) : lines.length ≤ (unlines lines).length := by
  induction lines with
  | nil => exact Nat.le_refl 0
  | cons line lines ih =>
      rw [unlines_cons, List.length_append, List.length_cons, List.length_cons]
      omega

/-- A read of bytes with a newline among them: the lines are dealt with and
what follows them is kept. -/
theorem grep_cons (re held piece : List UInt8) (pieces : List (List UInt8))
    {lines : List (List UInt8)} {tail : List UInt8} (hbuf : held ++ piece = unlines lines ++ tail)
    (hlines : Plain lines) (htail : newline ∉ tail) :
    grep re held (piece :: pieces) =
        matching re lines ++ grep re (heldAfter re held piece) pieces ∧
      heldAfter re held piece = if lines = [] then [] else tail := by
  have hloop : lineLoop re (unlines lines ++ tail).length (unlines lines ++ tail) =
      (matching re lines, tail) :=
    lineLoop_unlines re hlines htail
      (Nat.le_trans (length_le_unlines lines) (by rw [List.length_append]; omega))
  constructor
  · rw [grep, heldAfter, hbuf, hloop]
  · rw [heldAfter, hbuf, hloop, keep]
    by_cases hnil : lines = []
    · subst hnil
      simp
    · have hpos : 0 < lines.length := List.length_pos_iff.mpr hnil
      have hle := length_le_unlines lines
      have hlt : tail.length ≠ (unlines lines ++ tail).length := by
        rw [List.length_append]
        omega
      rw [if_neg hnil, if_neg hlt]

/-! ## Every read -/

section Reads

variable {re held : List UInt8} {pieces : List (List UInt8)}

theorem Reads.ne_nil {piece : List UInt8} (h : Reads re held pieces) (hp : piece ∈ pieces) :
    piece ≠ [] := by
  induction pieces generalizing held with
  | nil => exact absurd hp List.not_mem_nil
  | cons first pieces ih =>
      rcases List.mem_cons.mp hp with rfl | hp
      · exact h.1
      · exact ih h.2.2 hp

/-- Where every piece has a newline, no byte is lost. -/
theorem grep_eq (hheld : newline ∉ held) {lines : List (List UInt8)} (hlines : Plain lines)
    (htext : held ++ pieces.flatten = unlines lines) (hpieces : ∀ piece ∈ pieces, newline ∈ piece) :
    grep re held pieces = matching re lines := by
  induction pieces generalizing held lines with
  | nil =>
      have hnil : lines = [] := by
        by_contra hne
        rw [List.flatten_nil, List.append_nil] at htext
        exact hheld (htext ▸ newline_mem_unlines hne)
      rw [hnil]
      rfl
  | cons piece pieces ih =>
      obtain ⟨hpiece, hpieces⟩ := List.forall_mem_cons.mp hpieces
      rw [List.flatten_cons, ← List.append_assoc] at htext
      have hnul : 0 ∉ held ++ piece := fun h0 =>
        nul_notMem_unlines hlines (htext ▸ List.mem_append_left _ h0)
      obtain ⟨first, tail, hbuf, hfirst, htail, _⟩ := exists_lines (held ++ piece) hnul
      have hne : first ≠ [] := by
        rintro rfl
        rw [unlines_nil, List.nil_append] at hbuf
        exact htail (hbuf ▸ List.mem_append_right _ hpiece)
      rw [hbuf, List.append_assoc] at htext
      obtain ⟨others, rfl, hothers⟩ := unlines_prefix hfirst hlines htext
      obtain ⟨hgrep, hafter⟩ := grep_cons re held piece pieces hbuf hfirst htail
      rw [if_neg hne] at hafter
      rw [hgrep, hafter, matching_append]
      rw [ih htail (fun line h => hlines line (List.mem_append_right _ h)) hothers hpieces]

/-- The pattern that matches every line. -/
theorem matching_empty (lines : List (List UInt8)) : matching [] lines = unlines lines := by
  rw [matching, List.filter_eq_self.mpr]
  intro line _
  exact (match_iff [] line).mpr ⟨[], [], line, rfl, Language.nil_mem_one, fun _ => rfl,
    fun h => absurd h List.not_mem_nil⟩

/-- **A piece without a newline is lost**: not all bytes are written then
even where every line matches. -/
theorem length_grep_empty (hheld : newline ∉ held) (hnul : 0 ∉ held ++ pieces.flatten) :
    (grep [] held pieces).length ≤ held.length + pieces.flatten.length ∧
      ((∃ piece ∈ pieces, piece ≠ [] ∧ newline ∉ piece) →
        (grep [] held pieces).length < held.length + pieces.flatten.length) := by
  induction pieces generalizing held with
  | nil => exact ⟨Nat.zero_le _, fun ⟨piece, hp, _⟩ => absurd hp List.not_mem_nil⟩
  | cons piece pieces ih =>
      rw [List.flatten_cons, ← List.append_assoc] at hnul
      obtain ⟨first, tail, hbuf, hfirst, htail, htail0⟩ :=
        exists_lines (held ++ piece) fun h => hnul (List.mem_append_left _ h)
      have hrest : 0 ∉ pieces.flatten := fun h => hnul (List.mem_append_right _ h)
      have hlen : held.length + piece.length = (unlines first).length + tail.length := by
        rw [← List.length_append, hbuf, List.length_append]
      obtain ⟨hgrep, hafter⟩ := grep_cons [] held piece pieces hbuf hfirst htail
      rw [hgrep, matching_empty, hafter, List.flatten_cons, List.length_append, List.length_append]
      by_cases hnil : first = []
      -- no newline in the buffer: its bytes are dropped
      · subst hnil
        obtain ⟨hle, hlt⟩ := @ih [] List.not_mem_nil hrest
        rw [List.length_nil, Nat.zero_add] at hle hlt
        rw [if_pos rfl, unlines_nil, List.length_nil, Nat.zero_add]
        refine ⟨by omega, ?_⟩
        rintro ⟨lost, hlost, hne, hnl⟩
        rcases List.mem_cons.mp hlost with rfl | hlost
        · have hpos := List.length_pos_iff.mpr hne
          omega
        · have := hlt ⟨lost, hlost, hne, hnl⟩
          omega
      · obtain ⟨hle, hlt⟩ := ih htail fun h => (List.mem_append.mp h).elim htail0 hrest
        rw [if_neg hnil]
        refine ⟨by omega, ?_⟩
        rintro ⟨lost, hlost, hne, hnl⟩
        rcases List.mem_cons.mp hlost with rfl | hlost
        · have hmem : newline ∈ held ++ lost :=
            hbuf ▸ List.mem_append_left _ (newline_mem_unlines hnil)
          exact absurd hmem fun h => (List.mem_append.mp h).elim hheld hnl
        · have := hlt ⟨lost, hlost, hne, hnl⟩
          omega

end Reads

/-! ## Room in the buffer -/

/-- The bytes kept after some reads. -/
def heldAll (re : List UInt8) : (held : List UInt8) → (pieces : List (List UInt8)) → List UInt8
  | held, [] => held
  | held, piece :: pieces => heldAll re (heldAfter re held piece) pieces

/-- What has no newline in it lies within a line. -/
theorem length_segment_le {lines : List (List UInt8)} {bound : Nat}
    (hshort : ∀ line ∈ lines, line.length ≤ bound) {before segment after : List UInt8}
    (hseg : newline ∉ segment) (h : before ++ (segment ++ after) = unlines lines) :
    segment.length ≤ bound := by
  induction lines generalizing before with
  | nil =>
      have hnil := (List.append_eq_nil_iff.mp (List.append_eq_nil_iff.mp h).2).1
      rw [hnil]
      exact Nat.zero_le bound
  | cons line lines ih =>
      obtain ⟨hline, hlines⟩ := List.forall_mem_cons.mp hshort
      rw [unlines_cons] at h
      rcases List.append_eq_append_iff.mp h with ⟨c, rfl, hc⟩ | ⟨c, rfl, hc⟩
      -- the segment begins within the line, so it ends before the newline
      · rcases List.append_eq_append_iff.mp hc with ⟨d, rfl, hd⟩ | ⟨d, rfl, hd⟩
        · rw [List.length_append, List.length_append] at hline
          omega
        · cases d with
          | nil =>
              rw [List.append_nil]
              rw [List.length_append] at hline
              omega
          | cons b d =>
              rw [← (List.cons.inj hd).1] at hseg
              exact absurd (List.mem_append_right _ List.mem_cons_self) hseg
      · cases c with
        | nil =>
            cases segment with
            | nil => exact Nat.zero_le bound
            | cons b segment =>
                rw [List.nil_append, List.cons_append] at hc
                rw [(List.cons.inj hc).1] at hseg
                exact absurd List.mem_cons_self hseg
        | cons b c => exact ih hlines (List.cons.inj hc).2.symm

/-- The bytes kept are of one line. -/
theorem length_heldAll_le (re : List UInt8) {lines : List (List UInt8)} {bound : Nat}
    (hlines : Plain lines) (hshort : ∀ line ∈ lines, line.length ≤ bound)
    {before held after : List UInt8} {pieces : List (List UInt8)} (hheld : newline ∉ held)
    (htext : before ++ (held ++ (pieces.flatten ++ after)) = unlines lines) :
    (heldAll re held pieces).length ≤ bound := by
  induction pieces generalizing before held with
  | nil => exact length_segment_le hshort hheld htext
  | cons piece pieces ih =>
      have hnul : 0 ∉ held ++ piece := by
        intro h0
        refine nul_notMem_unlines hlines (htext ▸ List.mem_append_right _ ?_)
        rw [List.flatten_cons, List.append_assoc, ← List.append_assoc]
        exact List.mem_append_left _ h0
      obtain ⟨first, tail, hbuf, hfirst, htail, _⟩ := exists_lines (held ++ piece) hnul
      obtain ⟨_, hafter⟩ := grep_cons re held piece pieces hbuf hfirst htail
      rw [List.flatten_cons, List.append_assoc, ← List.append_assoc held, hbuf] at htext
      rw [heldAll, hafter]
      by_cases hnil : first = []
      · rw [if_pos hnil]
        rw [← List.append_assoc before] at htext
        exact @ih (before ++ (unlines first ++ tail)) [] List.not_mem_nil htext
      · rw [if_neg hnil]
        rw [List.append_assoc, ← List.append_assoc before] at htext
        exact @ih (before ++ unlines first) tail htail htext

/-! ## The result -/

/-- **`grep`** and the pieces its input comes in: there is always room to
read on, and the lines that match are written, whatever the pattern, if and
only if each piece has a newline in it. -/
theorem grep_pieces_iff {lines pieces : List (List UInt8)} (hlines : Plain lines)
    (hshort : ∀ line ∈ lines, line.length ≤ 1000) (htext : pieces.flatten = unlines lines)
    (hreads : ∀ re, Reads re [] pieces) :
    (∀ re k, 0 < BUFSIZE - (heldAll re [] (pieces.take k)).length - 1) ∧
      ((∀ re, grep re [] pieces = matching re lines) ↔ ∀ piece ∈ pieces, newline ∈ piece) := by
  refine ⟨fun re k => ?_, fun h => ?_, fun h re => grep_eq List.not_mem_nil hlines htext h⟩
  · have hcut : [] ++ ([] ++ ((pieces.take k).flatten ++ (pieces.drop k).flatten)) =
        unlines lines := by
      rw [← List.flatten_append, List.take_append_drop]
      exact htext
    have hle := length_heldAll_le re hlines hshort List.not_mem_nil hcut
    rw [BUFSIZE]
    omega
  · intro piece hpiece
    by_contra hnl
    have hnul : 0 ∉ [] ++ pieces.flatten := by
      rw [List.nil_append, htext]
      exact nul_notMem_unlines hlines
    have hlt := (length_grep_empty List.not_mem_nil hnul).2
      ⟨piece, hpiece, (hreads []).ne_nil hpiece, hnl⟩
    rw [h [], matching_empty, htext, List.length_nil, Nat.zero_add] at hlt
    exact Nat.lt_irrefl _ hlt

/-- The lines ab and ac read in two pieces, cut inside ac: the first piece
ends with its a, which is kept for the second. -/
theorem grep_cut_line :
    Plain [[97, 98], [97, 99]] ∧
      ∀ re, grep re [] [[97, 98, newline, 97], [99, newline]] = matching re [[97, 98], [97, 99]] := by
  have hplain : Plain [[97, 98], [97, 99]] := by
    unfold Plain
    decide
  have hreads : ∀ re, Reads re [] [[97, 98, newline, 97], [99, newline]] := by
    intro re
    have hkept : heldAfter re [] [97, 98, newline, 97] = [97] := rfl
    exact ⟨by decide, by decide, by decide, by rw [hkept]; decide, trivial⟩
  have htext : [[97, 98, newline, 97], [99, newline]].flatten = unlines [[97, 98], [97, 99]] := rfl
  exact ⟨hplain, (grep_pieces_iff hplain (by decide) htext hreads).2.mpr (by decide)⟩

/-- The line ab read in two pieces, of which the first is only its a: what
is written is the line b. -/
theorem grep_lost_piece :
    Plain [[97, 98]] ∧ [[97], [98, newline]].flatten = unlines [[97, 98]] ∧
      (∀ re, Reads re [] [[97], [98, newline]]) ∧
      grep [] [] [[97], [98, newline]] = [98, newline] ∧
      grep [] [] [[97], [98, newline]] ≠ matching [] [[97, 98]] := by
  refine ⟨by unfold Plain; decide, rfl, fun re => ?_, by decide, by decide⟩
  have hlost : heldAfter re [] [97] = [] := rfl
  exact ⟨by decide, by decide, by decide, by rw [hlost]; decide, trivial⟩

end Xv6.Grep
