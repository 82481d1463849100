import Xv6.Console.Model

/-!
# Console — the buffer follows the line editor

`Agrees` relates the three indices and the cells of the buffer to the
reference editor: `r` counts what was taken, `w` what is committed, `e`
everything. Each character keeps it, and each read takes the next
committed characters. The counters wrap, so the relation is about their
remainders, and room is a difference.
-/

namespace Xv6.Console

open Lib

theorem INPUT_BUF_eq : INPUT_BUF = 128 := rfl

theorem INPUT_BUF_dvd : INPUT_BUF ∣ 2 ^ 32 := by decide

theorem INPUT_BUF_lt : INPUT_BUF < 2 ^ 32 := by decide

/-- Between `r` and `e` the buffer is a ring. -/
def Input.ring (i : Input) : Ring UInt8 INPUT_BUF 32 := ⟨i.buf, i.r, i.e⟩

/-- The buffer holds what the editor has committed and is editing, less
the `k` characters taken. -/
structure Agrees (i : Input) (d : Editor) (k : Nat) : Prop where
  ring : i.ring.Holds (d.committed ++ d.line) k
  w : i.w = BitVec.ofNat 32 d.committed.length
  le : k ≤ d.committed.length
  full : d.committed.length + d.line.length = k + INPUT_BUF → d.line = []
  line : newline ∉ d.line

variable {i : Input} {d : Editor} {k : Nat}

namespace Agrees

theorem fits (h : Agrees i d k) : d.committed.length + d.line.length ≤ k + INPUT_BUF := by
  have := h.ring.fits
  rwa [List.length_append] at this

theorem toNat_e_sub_r (h : Agrees i d k) :
    (i.e - i.r).toNat = d.committed.length + d.line.length - k := by
  have := h.ring.toNat_sub INPUT_BUF_lt
  rwa [List.length_append] at this

theorem toNat_e_sub_w (h : Agrees i d k) : (i.e - i.w).toNat = d.line.length := by
  have he : i.e = BitVec.ofNat 32 (d.committed ++ d.line).length := h.ring.nwrite
  have hsub : i.e - i.w = BitVec.ofNat 32 d.line.length := by
    rw [he, h.w, List.length_append, BitVec.ofNat_add, BitVec.add_comm, BitVec.add_sub_cancel]
  have hfits := h.fits
  have hle := h.le
  rw [hsub, BitVec.toNat_ofNat, Nat.mod_eq_of_lt (by rw [INPUT_BUF_eq] at hfits; omega)]

theorem toNat_w_sub_r (h : Agrees i d k) : (i.w - i.r).toNat = d.committed.length - k := by
  have hr : i.r = BitVec.ofNat 32 k := h.ring.nread
  have hle := h.le
  have hfits := h.fits
  have hsub : i.w - i.r = BitVec.ofNat 32 (d.committed.length - k) := by
    have hlen : d.committed.length = k + (d.committed.length - k) := by omega
    rw [h.w, hr]
    nth_rewrite 1 [hlen]
    rw [BitVec.ofNat_add, BitVec.add_comm, BitVec.add_sub_cancel]
  rw [hsub, BitVec.toNat_ofNat, Nat.mod_eq_of_lt (by rw [INPUT_BUF_eq] at hfits; omega)]

/-- `input.e == input.w` if nothing is being edited. -/
theorem e_eq_w_iff (h : Agrees i d k) : i.e = i.w ↔ d.line = [] := by
  have hsub := h.toNat_e_sub_w
  constructor
  · intro he
    rw [he, BitVec.sub_self, BitVec.toNat_zero] at hsub
    exact List.eq_nil_of_length_eq_zero hsub.symm
  · intro hline
    have he : i.e = BitVec.ofNat 32 (d.committed ++ d.line).length := h.ring.nwrite
    rw [he, h.w, hline, List.append_nil]

/-- `input.r == input.w` if all that is committed was taken. -/
theorem r_eq_w_iff (h : Agrees i d k) : i.r = i.w ↔ d.committed.length = k := by
  have hr : i.r = BitVec.ofNat 32 k := h.ring.nread
  constructor
  · intro he
    have hsub := h.toNat_w_sub_r
    rw [he, BitVec.sub_self, BitVec.toNat_zero] at hsub
    have := h.le
    omega
  · intro he
    rw [hr, h.w, he]

/-- The last character of the line is taken back. -/
theorem back {l : List UInt8} {x : UInt8} (h : Agrees i ⟨d.committed, l ++ [x]⟩ k) :
    i.get (i.e - 1) = x ∧ Agrees { i with e := i.e - 1 } ⟨d.committed, l⟩ k := by
  have hring : i.ring.Holds ((d.committed ++ l) ++ [x]) k := by
    rw [List.append_assoc]
    exact h.ring
  have hk : k ≤ (d.committed ++ l).length := by
    have := h.le
    rw [List.length_append]
    exact this.trans (Nat.le_add_right ..)
  have hfits := h.fits
  refine ⟨hring.back INPUT_BUF_dvd hk, hring.retract hk, h.w, h.le, fun hfull => ?_, fun hmem => ?_⟩
  · rw [List.length_append, List.length_singleton] at hfits
    change d.committed.length + l.length = _ at hfull
    change d.committed.length + _ ≤ _ at hfits
    omega
  · exact h.line (List.mem_append_left _ hmem)

/-- **Control-U**: the loop erases the whole line, for there is no newline
in it. -/
theorem killLine (h : Agrees i d k) :
    Agrees (i.killLine d.line.length) ⟨d.committed, []⟩ k := by
  obtain ⟨c, l⟩ := d
  -- from the back: each round takes back the last character
  induction l using List.reverseRecOn generalizing i with
  | nil => exact h
  | append_singleton l x ih =>
      have hb := h.back (d := ⟨c, l ++ [x]⟩) (l := l)
      have hne : i.e ≠ i.w := fun he => by
        have := h.e_eq_w_iff.mp he
        simp at this
      have hx : x ≠ newline := fun he => h.line (by simp [he])
      rw [show (Editor.mk c (l ++ [x])).line.length = l.length + 1 by simp, Input.killLine,
        if_pos ⟨hne, hb.1 ▸ hx⟩]
      exact ih hb.2

/-- **Backspace.** -/
theorem backspace (h : Agrees i d k) :
    Agrees (if i.e ≠ i.w then { i with e := i.e - 1 } else i) ⟨d.committed, d.line.dropLast⟩ k := by
  obtain ⟨c, l⟩ := d
  rcases List.eq_nil_or_concat l with rfl | ⟨l, x, rfl⟩
  · rw [if_neg (by simpa using h.e_eq_w_iff.mpr rfl)]
    exact h
  · have hne : i.e ≠ i.w := fun he => by
      have := h.e_eq_w_iff.mp he
      simp at this
    rw [if_pos hne, List.concat_eq_append, List.dropLast_concat]
    rw [List.concat_eq_append] at h
    exact (h.back (d := ⟨c, l⟩)).2

theorem room_iff (h : Agrees i d k) : (i.e - i.r).toNat < INPUT_BUF ↔ d.Room k := by
  rw [h.toNat_e_sub_r, Editor.Room]
  have := h.le
  have := INPUT_BUF_eq
  omega

/-- **A character enters the line**, or ends it. -/
theorem enter (h : Agrees i d k) (hroom : d.Room k) (c : UInt8) :
    Agrees (if c = newline ∨ c = ctrl 'D' ∨ (i.put c).e = (i.put c).r + BitVec.ofNat 32 INPUT_BUF
      then { i.put c with w := (i.put c).e } else i.put c) (d.enter k c) k := by
  have hlt : (d.committed ++ d.line).length < k + INPUT_BUF := by
    rw [List.length_append]
    exact hroom
  have hring : (i.put c).ring.Holds ((d.committed ++ d.line) ++ [c]) k :=
    h.ring.push INPUT_BUF_dvd hlt c
  have hfull : (i.put c).e = (i.put c).r + BitVec.ofNat 32 INPUT_BUF ↔
      ¬(Editor.mk d.committed (d.line ++ [c])).Room k := by
    refine (hring.full_iff INPUT_BUF_lt).trans ?_
    rw [Editor.Room]
    simp only [List.length_append, List.length_singleton] at hlt ⊢
    omega
  have hle := h.le
  rw [Editor.enter]
  simp only [hfull]
  split
  · refine ⟨?_, ?_, ?_, fun _ => rfl, List.not_mem_nil⟩
    · change (i.put c).ring.Holds _ k
      rw [Editor.commit, List.append_nil]
      rwa [← List.append_assoc]
    · change (i.put c).e = _
      rw [Editor.commit, ← List.append_assoc]
      exact hring.nwrite
    · rw [Editor.commit, List.length_append]
      exact hle.trans (Nat.le_add_right ..)
  · rename_i hno
    simp only [not_or, not_not] at hno
    refine ⟨?_, h.w, hle, fun he => ?_, fun hmem => ?_⟩
    · change (i.put c).ring.Holds (d.committed ++ (d.line ++ [c])) k
      rwa [← List.append_assoc]
    · have := hno.2.2
      rw [Editor.Room] at this
      omega
    · rcases List.mem_append.mp hmem with hmem | hmem
      · exact h.line hmem
      · exact hno.1 (List.mem_singleton.mp hmem).symm

theorem accept (h : Agrees i d k) (c : UInt8) :
    Agrees (i.accept c).1 (if c = 0 then d else if d.Room k then
      d.enter k (if c = cr then newline else c) else d) k := by
  rw [Input.accept]
  by_cases hc : c = 0
  · rw [if_neg (by simp [hc]), if_pos hc]
    exact h
  · by_cases hroom : d.Room k
    · rw [if_pos ⟨hc, h.room_iff.mpr hroom⟩, if_neg hc, if_pos hroom]
      have := h.enter hroom (if c = cr then newline else c)
      dsimp only
      generalize (if c = cr then newline else c) = c' at this ⊢
      split
      · rename_i hcase
        rwa [if_pos hcase] at this
      · rename_i hcase
        rwa [if_neg hcase] at this
    · rw [if_neg fun hh => hroom (h.room_iff.mp hh.2), if_neg hc, if_neg hroom]
      exact h

/-- **One character.** -/
theorem intr (h : Agrees i d k) (c : UInt8) : Agrees (i.intr c).1 (d.type k c) k := by
  rw [Input.intr, Editor.type]
  by_cases hP : c = ctrl 'P'
  · rw [if_pos hP, if_pos (Or.inr hP)]
    exact h
  · rw [if_neg hP]
    by_cases hU : c = ctrl 'U'
    · rw [if_pos hU, if_neg (by rw [hU]; decide), if_pos hU, h.toNat_e_sub_w]
      exact h.killLine
    · rw [if_neg hU]
      by_cases hB : c = ctrl 'H' ∨ c = del
      · have hc : ¬(c = 0 ∨ c = ctrl 'P') := by
          rcases hB with rfl | rfl <;> decide
        rw [if_pos hB, if_neg hc, if_neg hU, if_pos hB]
        exact h.backspace
      · rw [if_neg hB]
        have hacc := h.accept c
        by_cases hc : c = 0
        · rw [if_pos hc] at hacc
          rw [if_pos (Or.inl hc)]
          exact hacc
        · rw [if_neg hc] at hacc
          rw [if_neg (not_or.mpr ⟨hc, hP⟩), if_neg hU, if_neg hB]
          exact hacc

/-- **A batch of characters.** -/
theorem consoleintr (h : Agrees i d k) (cs : List UInt8) :
    Agrees (consoleintr cs i).1 (cs.foldl (Editor.type k) d) k := by
  induction cs generalizing i d with
  | nil => exact h
  | cons c cs ih => exact ih (h.intr c)

/-- The next committed character is taken. -/
theorem take (h : Agrees i d k) (hne : i.r ≠ i.w) :
    d.committed[k]? = some (i.get i.r) ∧ Agrees { i with r := i.r + 1 } d (k + 1) := by
  have hlt : k < d.committed.length := by
    have := h.le
    have : d.committed.length ≠ k := fun he => hne (h.r_eq_w_iff.mpr he)
    omega
  obtain ⟨hfront, hring⟩ := h.ring.pop INPUT_BUF_dvd (by rw [List.length_append]; omega)
  rw [List.getElem?_append_left hlt] at hfront
  have hfits := h.fits
  exact ⟨hfront, hring, h.w, hlt, fun hfull => by omega, h.line⟩

end Agrees

/-! ## What a read does -/

/-- How the loop stopped: it took `us`, and had stored `dst` before. -/
def Reads (target : Nat) (dst us : List UInt8) : Stop → Prop
  | .ret m dst' => target = m + dst'.length ∧ newline ∉ dst'.dropLast ∧
      (dst' = dst ++ us ∧ dst' ≠ [] ∧ ctrl 'D' ∉ dst' ∨ dst = [] ∧ dst' = [] ∧ us = [ctrl 'D'])
  | .sleep m dst' => target = m + dst'.length ∧ 0 < m ∧ dst' = dst ++ us ∧ ctrl 'D' ∉ dst' ∧
      newline ∉ dst'
  | .killed => False

/-- **A read takes the next committed characters**, and stops behind a
newline or at Control-D. -/
theorem readLoop_spec {target n : Nat} {dst : List UInt8} (ts : List UInt8) (h : Agrees i d k)
    (ht : target = n + dst.length) (hpos : 0 < target) (hD : ctrl 'D' ∉ dst) (hnl : newline ∉ dst) :
    ∃ us, (readLoop false target n i dst ts).2.1 = ts ++ us ∧
      (∀ j c, us[j]? = some c → d.committed[k + j]? = some c) ∧
      Agrees (readLoop false target n i dst ts).1 d (k + us.length) ∧
      Reads target dst us (readLoop false target n i dst ts).2.2 := by
  induction n generalizing i k dst ts with
  | zero =>
      refine ⟨[], by rw [readLoop, List.append_nil], fun j c hj => (by simp at hj), h, ?_⟩
      refine ⟨ht, fun hmem => hnl (List.mem_of_mem_dropLast hmem), Or.inl ⟨by simp, ?_, hD⟩⟩
      rintro rfl
      rw [List.length_nil] at ht
      omega
  | succ n ih =>
      rw [readLoop]
      by_cases hrw : i.r = i.w
      · rw [if_pos hrw]
        refine ⟨[], by simp, fun j c hj => (by simp at hj), h, ?_⟩
        exact ⟨ht, by omega, by simp, hD, hnl⟩
      · rw [if_neg hrw]
        obtain ⟨hget, hnext⟩ := h.take hrw
        have hone : ∀ j c, [i.get i.r][j]? = some c → d.committed[k + j]? = some c := by
          intro j c hj
          cases j with
          | zero => simpa [← hget] using hj
          | succ j => simp at hj
        dsimp only
        split
        · rename_i hc
          split
          · -- Control-D is left for the next read
            refine ⟨[], by simp, fun j c hj => (by simp at hj), ?_, ht, ?_, Or.inl ⟨by simp, ?_, hD⟩⟩
            · rw [BitVec.add_sub_cancel]
              exact h
            · exact fun hmem => hnl (List.mem_of_mem_dropLast hmem)
            · rintro rfl
              rw [List.length_nil] at ht
              omega
          · -- it is the first character, and consumed
            have hdst : dst = [] := List.eq_nil_of_length_eq_zero (by omega)
            refine ⟨[i.get i.r], rfl, hone, hnext, ht, ?_, Or.inr ⟨hdst, hdst, by rw [hc]⟩⟩
            rw [hdst]
            exact List.not_mem_nil
        · rename_i hc
          have hD' : ctrl 'D' ∉ dst ++ [i.get i.r] := by
            simp only [List.mem_append, List.mem_singleton, not_or]
            exact ⟨hD, fun he => hc he.symm⟩
          split
          · -- newline ends the line
            refine ⟨[i.get i.r], rfl, hone, hnext, ?_, ?_, Or.inl ⟨rfl, by simp, hD'⟩⟩
            · rw [List.length_append, List.length_singleton]
              omega
            · rw [List.dropLast_concat]
              exact hnl
          · rename_i hn
            have hnl' : newline ∉ dst ++ [i.get i.r] := by
              simp only [List.mem_append, List.mem_singleton, not_or]
              exact ⟨hnl, fun he => hn he.symm⟩
            obtain ⟨us, hts, hus, hagree, hreads⟩ :=
              ih (ts ++ [i.get i.r]) hnext
                (by rw [List.length_append, List.length_singleton]; omega) hD' hnl'
            refine ⟨i.get i.r :: us, by rw [hts]; simp, fun j c hj => ?_, ?_, ?_⟩
            · cases j with
              | zero => exact hone 0 c (by simpa using hj)
              | succ j =>
                  have := hus j c (by simpa using hj)
                  rwa [Nat.add_right_comm, Nat.add_assoc] at this
            · rw [List.length_cons, Nat.add_comm us.length, ← Nat.add_assoc]
              exact hagree
            · revert hreads
              cases (readLoop false target n { i with r := i.r + 1 } (dst ++ [i.get i.r])
                (ts ++ [i.get i.r])).2.2 with
              | ret m dst' =>
                  rintro ⟨h1, h2, h3 | h3⟩
                  · exact ⟨h1, h2, Or.inl ⟨by rw [h3.1]; simp, h3.2⟩⟩
                  · simp at h3
              | sleep m dst' =>
                  rintro ⟨h1, h2, h3, h4⟩
                  exact ⟨h1, h2, by rw [h3]; simp, h4⟩
              | killed => exact id

/-! ## The system -/

/-- The characters a read took. -/
def charsOf (id : Nat) (taken : List (Nat × UInt8)) : List UInt8 :=
  (taken.filter fun x => x.1 = id).map Prod.snd

theorem charsOf_append_self (id : Nat) (taken : List (Nat × UInt8)) (us : List UInt8) :
    charsOf id (taken ++ us.map fun c => (id, c)) = charsOf id taken ++ us := by
  have hself : (us.map fun c => (id, c)).filter (fun x => x.1 = id) = us.map fun c => (id, c) :=
    List.filter_eq_self.mpr fun x hx => by
      obtain ⟨c, -, rfl⟩ := List.mem_map.mp hx
      simp
  rw [charsOf, List.filter_append, List.map_append, hself, List.map_map]
  congr 1
  exact List.map_id' us

theorem charsOf_append_of_ne {id id' : Nat} (h : id ≠ id') (taken : List (Nat × UInt8))
    (us : List UInt8) : charsOf id (taken ++ us.map fun c => (id', c)) = charsOf id taken := by
  have hnil : (us.map fun c => (id', c)).filter (fun x => x.1 = id) = [] :=
    List.filter_eq_nil_iff.mpr fun x hx => by
      obtain ⟨c, -, rfl⟩ := List.mem_map.mp hx
      simpa using h.symm
  rw [charsOf, List.filter_append, hnil, List.append_nil, charsOf]

/-- A read that took `ts`: the bytes are what it took but for Control-D,
at most one line, and nothing if Control-D comes first. -/
structure ReadOk (ts : List UInt8) (r : Done) : Prop where
  value : r.value = r.dst.length
  bytes : r.dst = ts.filter (· ≠ ctrl 'D')
  line : newline ∉ r.dst.dropLast
  eof : r.value = 0 ↔ ts.head? = some (ctrl 'D')

/-- A read in progress. -/
structure FrameOk (taken : List (Nat × UInt8)) (calls : Nat) (f : Frame) : Prop where
  id : f.id < calls
  chars : charsOf f.id taken = f.dst
  eof : ctrl 'D' ∉ f.dst
  line : newline ∉ f.dst
  target : f.target = f.n + f.dst.length
  pos : 0 < f.target

variable {P : Type} [DecidableEq P] {s s' : St P} {p : P} {f : Frame}

structure Inv (s : St P) : Prop where
  agrees : Agrees s.input s.editor s.taken.length
  taken : s.taken.map Prod.snd <+: s.editor.committed
  alive : ∀ p, s.killed p = false
  frames : ∀ p f, s.frame p = some f → FrameOk s.taken s.calls f
  ids : ∀ p q f g, s.frame p = some f → s.frame q = some g → f.id = g.id → p = q
  reads : ∀ r ∈ s.reads, ReadOk (charsOf r.id s.taken) r
  readIds : ∀ r ∈ s.reads, r.id < s.calls ∧ ∀ p f, s.frame p = some f → f.id ≠ r.id
  nodup : (s.reads.map Done.id).Nodup
  owned : ∀ x ∈ s.taken, (∃ r ∈ s.reads, r.id = x.1) ∨ ∃ p f, s.frame p = some f ∧ f.id = x.1

omit [DecidableEq P] in
theorem Inv.init : Inv (St.init : St P) where
  agrees := ⟨⟨rfl, rfl, Nat.le_refl _, Nat.zero_le _, fun j x _ hx => (by simp [St.init] at hx)⟩,
    rfl, Nat.le_refl _, fun _ => rfl, List.not_mem_nil⟩
  taken := List.prefix_rfl
  alive := fun _ => rfl
  frames := fun p f hf => (by cases hf)
  ids := fun p q f g hf => (by cases hf)
  reads := fun r hr => absurd hr List.not_mem_nil
  readIds := fun r hr => absurd hr List.not_mem_nil
  nodup := List.nodup_nil
  owned := fun x hx => absurd hx List.not_mem_nil

theorem Editor.committed_enter (k : Nat) (d : Editor) (c : UInt8) :
    d.committed <+: (d.enter k c).committed := by
  rw [Editor.enter]
  split
  · exact List.prefix_append ..
  · exact List.prefix_rfl

/-- What is committed stays. -/
theorem Editor.committed_type (k : Nat) (d : Editor) (c : UInt8) :
    d.committed <+: (d.type k c).committed := by
  rw [Editor.type]
  split
  · exact List.prefix_rfl
  · split
    · exact List.prefix_rfl
    · split
      · exact List.prefix_rfl
      · split
        · exact d.committed_enter k _
        · exact List.prefix_rfl

theorem Editor.committed_foldl (k : Nat) (cs : List UInt8) (d : Editor) :
    d.committed <+: (cs.foldl (Editor.type k) d).committed := by
  induction cs generalizing d with
  | nil => exact List.prefix_rfl
  | cons c cs ih => exact (d.committed_type k c).trans (ih (d.type k c))

omit [DecidableEq P] in
theorem Inv.intr (h : Inv s) (cs : List UInt8) (asleep : P → Bool) :
    Inv { s with
      input := (consoleintr cs s.input).1
      asleep := asleep
      editor := cs.foldl (Editor.type s.taken.length) s.editor } where
  agrees := h.agrees.consoleintr cs
  taken := h.taken.trans (Editor.committed_foldl _ cs _)
  alive := h.alive
  frames := h.frames
  ids := h.ids
  reads := h.reads
  readIds := h.readIds
  nodup := h.nodup
  owned := h.owned

/-- The characters a read took come next in the committed stream. -/
theorem prefix_append {taken : List (Nat × UInt8)} {us : List UInt8} {id : Nat}
    (h : taken.map Prod.snd <+: d.committed)
    (hus : ∀ j c, us[j]? = some c → d.committed[taken.length + j]? = some c) :
    (taken ++ us.map fun c => (id, c)).map Prod.snd <+: d.committed := by
  have hmap : (us.map fun c => (id, c)).map Prod.snd = us := by
    rw [List.map_map]
    exact List.map_id' us
  rw [List.map_append, hmap]
  obtain ⟨rest, hrest⟩ := h
  rw [← hrest, List.prefix_append_right_inj, List.prefix_iff_getElem?]
  intro j hj
  have := hus j us[j] (List.getElem?_eq_getElem hj)
  rwa [← hrest, List.getElem?_append_right (by simp), List.length_map, Nat.add_sub_cancel_left]
    at this

/-- **A process runs in `consoleread`.** -/
theorem Inv.run (h : Inv s) (hf : FrameOk s.taken s.calls f)
    (hother : ∀ q g, q ≠ p → s.frame q = some g → g.id ≠ f.id)
    (hreads : ∀ r ∈ s.reads, r.id ≠ f.id)
    (hself : ∀ g, s.frame p = some g → g.id = f.id) : Inv (s.run p f) := by
  obtain ⟨us, hts, hus, hagree, hstop⟩ :=
    readLoop_spec [] h.agrees hf.target hf.pos hf.eof hf.line
  rw [List.nil_append] at hts
  rw [St.run, h.alive p]
  revert hts hagree hstop
  generalize readLoop false f.target f.n s.input f.dst [] = res
  obtain ⟨i, ts, stop⟩ := res
  intro hts hagree hstop
  change ts = us at hts
  subst hts
  have hlen : (s.taken ++ ts.map fun c => (f.id, c)).length = s.taken.length + ts.length := by simp
  have hpre : (s.taken ++ ts.map fun c => (f.id, c)).map Prod.snd <+: s.editor.committed :=
    prefix_append h.taken hus
  have hchars : charsOf f.id (s.taken ++ ts.map fun c => (f.id, c)) = f.dst ++ ts := by
    rw [charsOf_append_self, hf.chars]
  -- what was there before: other reads took nothing
  have hframe : ∀ q g, q ≠ p → s.frame q = some g →
      FrameOk (s.taken ++ ts.map fun c => (f.id, c)) s.calls g := fun q g hq hg => by
    have hok := h.frames q g hg
    exact ⟨hok.id, by rw [charsOf_append_of_ne (hother q g hq hg)]; exact hok.chars, hok.eof,
      hok.line, hok.target, hok.pos⟩
  have hread : ∀ r ∈ s.reads, ReadOk (charsOf r.id (s.taken ++ ts.map fun c => (f.id, c))) r :=
    fun r hr => by
      rw [charsOf_append_of_ne (hreads r hr)]
      exact h.reads r hr
  cases stop with
  | killed => exact hstop.elim
  | sleep n dst =>
      obtain ⟨htarget, hn, hdst, hD, hnl⟩ := hstop
      have hnew : FrameOk (s.taken ++ ts.map fun c => (f.id, c)) s.calls
          { f with n := n, dst := dst } :=
        ⟨hf.id, hchars.trans hdst.symm, hD, hnl, htarget, hf.pos⟩
      refine ⟨by rw [hlen]; exact hagree, hpre, h.alive, fun q g hg => ?_,
        fun q q' g g' hg hg' he => ?_, hread, fun r hr => ⟨(h.readIds r hr).1, fun q g hg => ?_⟩,
        h.nodup, fun x hx => ?_⟩
      · rcases eq_or_ne q p with rfl | hq
        · simp only [Function.update_self, Option.some.injEq] at hg
          subst hg
          exact hnew
        · simp only [Function.update_of_ne hq] at hg
          exact hframe q g hq hg
      · by_cases hq : q = p <;> by_cases hq' : q' = p
        · rw [hq, hq']
        · simp only [hq, Function.update_self, Function.update_of_ne hq', Option.some.injEq] at hg hg'
          subst hg
          exact absurd he.symm (hother q' g' hq' hg')
        · simp only [hq', Function.update_self, Function.update_of_ne hq, Option.some.injEq] at hg hg'
          subst hg'
          exact absurd he (hother q g hq hg)
        · simp only [Function.update_of_ne hq, Function.update_of_ne hq'] at hg hg'
          exact h.ids q q' g g' hg hg' he
      · rcases eq_or_ne q p with rfl | hq
        · simp only [Function.update_self, Option.some.injEq] at hg
          subst hg
          exact (hreads r hr).symm
        · simp only [Function.update_of_ne hq] at hg
          exact (h.readIds r hr).2 q g hg
      · have hmine : ∃ q g, Function.update s.frame p (some { f with n := n, dst := dst }) q = some g ∧
            g.id = f.id := ⟨p, _, Function.update_self .., rfl⟩
        rcases List.mem_append.mp hx with hx | hx
        · rcases h.owned x hx with hr | ⟨q, g, hg, hid⟩
          · exact Or.inl hr
          · rcases eq_or_ne q p with hq | hq
            · rw [← hid, hself g (hq ▸ hg)]
              exact Or.inr hmine
            · exact Or.inr ⟨q, g, by simp only [Function.update_of_ne hq]; exact hg, hid⟩
        · obtain ⟨c, -, rfl⟩ := List.mem_map.mp hx
          exact Or.inr hmine
  | ret n dst =>
      obtain ⟨htarget, hnl, hcase⟩ := hstop
      have hvalue : (f.target : Int) - n = dst.length := by omega
      have hnew : ReadOk (charsOf f.id (s.taken ++ ts.map fun c => (f.id, c)))
          ⟨f.id, (f.target : Int) - n, dst⟩ := by
        rw [hchars]
        rcases hcase with ⟨hdst, hne, hD⟩ | ⟨hdst, rfl, rfl⟩
        · rw [← hdst]
          refine ⟨hvalue, ?_, hnl, fun h0 => ?_, fun hhead => ?_⟩
          · exact (List.filter_eq_self.mpr fun c hc => by
              simpa using fun he : c = ctrl 'D' => hD (he ▸ hc)).symm
          · rw [hvalue] at h0
            exact absurd (List.eq_nil_of_length_eq_zero (by simpa using h0)) hne
          · exact absurd (List.mem_of_mem_head? hhead) hD
        · rw [hdst]
          refine ⟨hvalue, by simp, hnl, fun _ => rfl, fun _ => hvalue⟩
      refine ⟨by rw [hlen]; exact hagree, hpre, h.alive, fun q g hg => ?_,
        fun q q' g g' hg hg' he => ?_, fun r hr => ?_, fun r hr => ?_, ?_, fun x hx => ?_⟩
      · rcases eq_or_ne q p with rfl | hq
        · simp at hg
        · simp only [Function.update_of_ne hq] at hg
          exact hframe q g hq hg
      · rcases eq_or_ne q p with rfl | hq
        · simp at hg
        · rcases eq_or_ne q' p with rfl | hq'
          · simp at hg'
          · simp only [Function.update_of_ne hq, Function.update_of_ne hq'] at hg hg'
            exact h.ids q q' g g' hg hg' he
      · rcases List.mem_append.mp hr with hr | hr
        · exact hread r hr
        · obtain rfl := List.mem_singleton.mp hr
          exact hnew
      · rcases List.mem_append.mp hr with hr | hr
        · refine ⟨(h.readIds r hr).1, fun q g hg => ?_⟩
          rcases eq_or_ne q p with rfl | hq
          · simp at hg
          · simp only [Function.update_of_ne hq] at hg
            exact (h.readIds r hr).2 q g hg
        · obtain rfl := List.mem_singleton.mp hr
          refine ⟨hf.id, fun q g hg => ?_⟩
          rcases eq_or_ne q p with rfl | hq
          · simp at hg
          · simp only [Function.update_of_ne hq] at hg
            exact hother q g hq hg
      · rw [List.map_append, List.nodup_append]
        refine ⟨h.nodup, List.nodup_singleton _, fun a ha b hb => ?_⟩
        obtain ⟨r, hr, rfl⟩ := List.mem_map.mp ha
        obtain rfl := List.mem_singleton.mp hb
        exact hreads r hr
      · have hmine : ∃ r ∈ s.reads ++ [⟨f.id, (f.target : Int) - n, dst⟩], Done.id r = f.id :=
          ⟨_, List.mem_append_right _ (List.mem_singleton_self _), rfl⟩
        rcases List.mem_append.mp hx with hx | hx
        · rcases h.owned x hx with ⟨r, hr, hid⟩ | ⟨q, g, hg, hid⟩
          · exact Or.inl ⟨r, List.mem_append_left _ hr, hid⟩
          · rcases eq_or_ne q p with hq | hq
            · rw [← hid, hself g (hq ▸ hg)]
              exact Or.inl hmine
            · exact Or.inr ⟨q, g, by simp only [Function.update_of_ne hq]; exact hg, hid⟩
        · obtain ⟨c, -, rfl⟩ := List.mem_map.mp hx
          exact Or.inl hmine

/-- Nobody is killed, and reads ask for something. -/
def Act.plain : Act P → Bool
  | .kill _ => false
  | .read _ n => 0 < n
  | _ => true

theorem Inv.step {a : Act P} (h : Inv s) (ha : a.plain = true) (hs : step s a = some s') :
    Inv s' := by
  cases a with
  | kill p => cases ha
  | intr cs =>
      obtain rfl := Option.some.inj hs
      exact h.intr cs _
  | read p n =>
      have hn : 0 < n := by simpa [Act.plain] using ha
      simp only [Console.step] at hs
      split at hs
      · cases hs
      · rename_i hp
        obtain rfl := Option.some.inj hs
        -- no character carries a number that was not given out yet
        have hold : ∀ x ∈ s.taken, x.1 < s.calls := fun x hx => by
          rcases h.owned x hx with ⟨r, hr, hid⟩ | ⟨q, g, hg, hid⟩
          · exact hid ▸ (h.readIds r hr).1
          · exact hid ▸ (h.frames q g hg).id
        have hnone : charsOf s.calls s.taken = [] := by
          rw [charsOf, List.filter_eq_nil_iff.mpr, List.map_nil]
          intro x hx
          have := hold x hx
          simp only [decide_eq_true_eq]
          omega
        have h' : Inv { s with calls := s.calls + 1 } :=
          ⟨h.agrees, h.taken, h.alive, fun q g hg => by
            have hok := h.frames q g hg
            exact ⟨Nat.lt_succ_of_lt hok.id, hok.chars, hok.eof, hok.line, hok.target, hok.pos⟩,
            h.ids, h.reads, fun r hr => ⟨Nat.lt_succ_of_lt (h.readIds r hr).1, (h.readIds r hr).2⟩,
            h.nodup, h.owned⟩
        refine h'.run ⟨Nat.lt_succ_self _, hnone, List.not_mem_nil, List.not_mem_nil, rfl, by
          change 0 < n.toNat; omega⟩ (fun q g _ hg => ?_) (fun r hr => ?_) fun g hg => ?_
        · exact Nat.ne_of_lt (h.frames q g hg).id
        · exact Nat.ne_of_lt (h.readIds r hr).1
        · change s.frame p = some g at hg
          rw [hp] at hg
          cases hg
  | go p =>
      simp only [Console.step] at hs
      split at hs
      · cases hs
      · rename_i f hp
        split at hs
        · cases hs
        · obtain rfl := Option.some.inj hs
          refine h.run (h.frames p f hp) (fun q g hq hg he => hq (h.ids q p g f hg hp he))
            (fun r hr he => (h.readIds r hr).2 p f hp he.symm) fun g hg => ?_
          rw [hp] at hg
          cases hg
          rfl

/-- **The line discipline**: whatever is typed and read, the indices keep
their distances, what reads take is a prefix of what the reference editor
commits, and each read returns at most one line, and nothing exactly if
it finds Control-D first. -/
theorem console_line_discipline
    (h : Reaches (guarded (fun _ a => a.plain = true) step) (St.init : St P) s) :
    (s.input.w - s.input.r).toNat ≤ (s.input.e - s.input.r).toNat ∧
    (s.input.e - s.input.r).toNat ≤ INPUT_BUF ∧
    ((s.input.e - s.input.r).toNat = INPUT_BUF → s.input.w = s.input.e) ∧
    s.taken.map Prod.snd <+: s.editor.committed ∧
    (∀ x ∈ s.taken, (∃ r ∈ s.reads, r.id = x.1) ∨ ∃ p f, s.frame p = some f ∧ f.id = x.1) ∧
    (∀ p f, s.frame p = some f → charsOf f.id s.taken = f.dst) ∧
    (s.reads.map Done.id).Nodup ∧
    ∀ r ∈ s.reads, ReadOk (charsOf r.id s.taken) r := by
  have hinv : Inv s := h.invariant (fun _ _ _ hi hs => by
    obtain ⟨ha, hs⟩ := guarded_eq_some.mp hs
    exact hi.step ha hs) Inv.init
  have ha := hinv.agrees
  have hfits := ha.fits
  have hle := ha.le
  refine ⟨?_, ?_, fun hfull => ?_, hinv.taken, hinv.owned,
    fun p f hf => (hinv.frames p f hf).chars, hinv.nodup, hinv.reads⟩
  · rw [ha.toNat_w_sub_r, ha.toNat_e_sub_r]
    omega
  · rw [ha.toNat_e_sub_r]
    omega
  · rw [ha.toNat_e_sub_r] at hfull
    exact (ha.e_eq_w_iff.mpr (ha.full (by omega))).symm

/-- A line with a correction, typed while one process waits for it, and
Control-D for the next read. -/
def typedRun : List (Act Unit) :=
  [.read () 8, .intr ['a'.toUInt8, 'x'.toUInt8, ctrl 'H', 'b'.toUInt8, cr], .go (),
    .intr [ctrl 'D'], .read () 8]

theorem console_line_discipline_typed :
    ∃ s : St Unit, execAll (guarded (fun _ a => a.plain = true) step) .init typedRun = some s ∧
      s.taken.map Prod.snd = ['a'.toUInt8, 'b'.toUInt8, newline, ctrl 'D'] ∧
      s.taken.map Prod.snd <+: s.editor.committed ∧
      s.reads.map Done.value = [3, 0] ∧ ∀ r ∈ s.reads, ReadOk (charsOf r.id s.taken) r := by
  have hrun : (execAll (guarded (fun _ a => a.plain = true) step) .init typedRun).map (fun s =>
      decide (s.taken.map Prod.snd = ['a'.toUInt8, 'b'.toUInt8, newline, ctrl 'D'] ∧
        s.reads.map Done.value = [3, 0])) = some true := by decide +kernel
  obtain ⟨s, hs, hd⟩ := Option.map_eq_some_iff.mp hrun
  obtain ⟨h1, h2⟩ := of_decide_eq_true hd
  have hall := console_line_discipline (reaches_of_execAll hs)
  exact ⟨s, hs, h1, hall.2.2.2.1, h2, hall.2.2.2.2.2.2.2⟩

end Xv6.Console
