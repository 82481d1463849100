import Xv6.Fs.Alloc

/-!
# Fs — the bitmap of the block allocator

The two loops of `balloc`, over the blocks of the bitmap and over the bits
of one, are a search through the numbers of all blocks; what `balloc` and
`bfree` then do is said bit by bit. The calls of `log_write` may panic for
reasons of their own, which `Room` excludes.
-/

namespace Xv6.Fs

open Lib

variable {s t : St} {b c : Nat}

theorem get_run (s : St) : (get : Prog St) s = .ok (s, s) := rfl

theorem bread_run (b : Nat) (s : St) : bread b s = .ok (s.disk b, s) := rfl

theorem store_run (b : Nat) (data : Block) (s : St) :
    store b data s = .ok ((), { s with disk := upd s.disk b data }) := rfl

/-! ## `balloc` is a search -/

/-- The rest of `balloc`, once block `b` was found free. -/
def takeBlock (b : Nat) : Prog Nat := do
  let s ← get
  store (BBLOCK b s.sb) ((s.disk (BBLOCK b s.sb)).setBit (b % BPB))
  logWrite (BBLOCK b s.sb)
  bzero b
  return b

/-- Every bit is set. -/
def AllSet (s : St) : Prop := ∀ c, c < s.sb.size → bit s.sb s.disk c = true

/-- `b` is the first block whose bit is clear. -/
structure FirstClear (s : St) (b : Nat) : Prop where
  lt : b < s.sb.size
  clear : bit s.sb s.disk b = false
  first : ∀ c, c < b → bit s.sb s.disk c = true

theorem allSet_or_firstClear (s : St) : AllSet s ∨ ∃ b, FirstClear s b := by
  cases hf : findFrom (fun c => !bit s.sb s.disk c) s.sb.size 0 with
  | none =>
      refine .inl fun c hc => ?_
      have := findFrom_eq_none hf (Nat.zero_le c) (by omega)
      rwa [Bool.not_eq_false'] at this
  | some b =>
      obtain ⟨_, hlt, hp⟩ := findFrom_eq_some hf
      rw [Bool.not_eq_true'] at hp
      refine .inr ⟨b, by omega, hp, fun c hc => ?_⟩
      have := findFrom_lt hf (Nat.zero_le c) hc
      rwa [Bool.not_eq_false'] at this

/-- The search in one block of the bitmap, `q` blocks from its start. -/
def searchBlock (s : St) (q : Nat) : Option Nat :=
  findFrom (fun bi => decide (q * BPB + bi < s.sb.size) &&
    !(s.disk (BBLOCK (q * BPB) s.sb)).testBit bi) BPB 0

theorem ballocFrom_succ (fuel q : Nat) (hq : q * BPB < s.sb.size) :
    ballocFrom (fuel + 1) (q * BPB) s =
      match searchBlock s q with
      | some bi => takeBlock (q * BPB + bi) s
      | none => ballocFrom fuel ((q + 1) * BPB) s := by
  rw [ballocFrom, bind_of_ok (get_run s), if_pos hq,
    bind_of_ok (bread_run _ s), ← searchBlock]
  cases hf : searchBlock s q with
  | none =>
      have hnext : q * BPB + BPB = (q + 1) * BPB := by rw [Nat.add_mul, Nat.one_mul]
      simp only [hnext]
  | some bi =>
      obtain ⟨_, hlt, _⟩ := findFrom_eq_some hf
      obtain ⟨hblk, hmod⟩ := BBLOCK_add s.sb q (show bi < BPB by omega)
      show _ = takeBlock (q * BPB + bi) s
      rw [takeBlock, bind_of_ok (get_run s), hblk, hmod]

/-- The block of the bitmap with the first clear bit. -/
theorem searchBlock_first (h : FirstClear s b) : searchBlock s (b / BPB) = some (b % BPB) := by
  have hb : b / BPB * BPB + b % BPB = b := Nat.mul_comm .. ▸ Nat.div_add_mod b BPB
  have hmod : b % BPB < BPB := Nat.mod_lt _ (by decide)
  refine findFrom_eq_of_first (Nat.zero_le _) (by omega) ?_ fun k _ hk => ?_
  · obtain ⟨hblk, hbi⟩ := BBLOCK_add s.sb (b / BPB) hmod
    have hclear := h.clear
    rw [← hb, bit, hblk, hbi] at hclear
    rw [hb, hclear, decide_eq_true h.lt]
    rfl
  · obtain ⟨hblk, hbi⟩ := BBLOCK_add s.sb (b / BPB) (show k < BPB by omega)
    have hset := h.first (b / BPB * BPB + k) (by omega)
    rw [bit, hblk, hbi] at hset
    rw [hset, Bool.not_true, Bool.and_false]

/-- A block of the bitmap with no clear bit. -/
theorem searchBlock_none {q : Nat}
    (h : ∀ c, q * BPB ≤ c → c < (q + 1) * BPB → c < s.sb.size → bit s.sb s.disk c = true) :
    searchBlock s q = none := by
  rw [Option.eq_none_iff_forall_ne_some]
  intro bi hf
  obtain ⟨_, hlt, hp⟩ := findFrom_eq_some hf
  rw [Bool.and_eq_true, decide_eq_true_iff, Bool.not_eq_true'] at hp
  obtain ⟨hblk, hmod⟩ := BBLOCK_add s.sb q (show bi < BPB by omega)
  have hset := h (q * BPB + bi) (by omega) (by rw [Nat.add_mul, Nat.one_mul]; omega) hp.1
  rw [bit, hblk, hmod, hp.2] at hset
  cases hset

/-- **The loops of `balloc`** find the first clear bit. -/
theorem ballocFrom_firstClear (h : FirstClear s b) (fuel : Nat) {q : Nat} (hq : q ≤ b / BPB)
    (hfuel : b / BPB < q + fuel) : ballocFrom fuel (q * BPB) s = takeBlock b s := by
  induction fuel generalizing q with
  | zero => omega
  | succ fuel ih =>
      have hle : q * BPB ≤ b :=
        Nat.le_trans (Nat.mul_le_mul_right BPB hq) (Nat.div_mul_le_self b BPB)
      rw [ballocFrom_succ fuel q (Nat.lt_of_le_of_lt hle h.lt)]
      by_cases heq : q = b / BPB
      · have hb : b / BPB * BPB + b % BPB = b := Nat.mul_comm .. ▸ Nat.div_add_mod b BPB
        rw [heq, searchBlock_first h]
        simp only [hb]
      · have hnone : searchBlock s q = none := by
          refine searchBlock_none fun c _ hc _ => h.first c ?_
          have hstep : (q + 1) * BPB ≤ b / BPB * BPB := Nat.mul_le_mul_right BPB (by omega)
          have := Nat.div_mul_le_self b BPB
          omega
        rw [hnone]
        exact ih (by omega) (by omega)

theorem ballocFrom_allSet (h : AllSet s) (fuel q : Nat) :
    ballocFrom fuel (q * BPB) s = .error outOfBlocks := by
  induction fuel generalizing q with
  | zero => rfl
  | succ fuel ih =>
      by_cases hq : q * BPB < s.sb.size
      · rw [ballocFrom_succ fuel q hq, searchBlock_none fun c _ _ hc => h c hc]
        exact ih (q + 1)
      · rw [ballocFrom, bind_of_ok (get_run s), if_neg hq]
        rfl

theorem balloc_eq_ballocFrom (s : St) : balloc s = ballocFrom (s.sb.size / BPB + 1) (0 * BPB) s := by
  rw [Nat.zero_mul]
  rfl

theorem balloc_firstClear (h : FirstClear s b) : balloc s = takeBlock b s := by
  rw [balloc_eq_ballocFrom]
  refine ballocFrom_firstClear h _ (Nat.zero_le _) ?_
  have := Nat.div_le_div_right (c := BPB) (Nat.le_of_lt h.lt)
  omega

theorem balloc_allSet (h : AllSet s) : balloc s = .error outOfBlocks := by
  rw [balloc_eq_ballocFrom]
  exact ballocFrom_allSet h _ _

/-! ## What is done then -/

/-- The log takes `n` more blocks of this transaction. -/
structure Room (s : St) (n : Nat) : Prop where
  outstanding : 1 ≤ s.outstanding
  room : ¬ LogFull s.sb (s.lh.length + (n - 1))

theorem logWrite_cases (b : Nat) (s : St) :
    logWrite b s = .ok ((), { s with lh := absorb s.lh b }) ∨
      ∃ e, logWrite b s = .error e ∧ e ≠ outOfBlocks ∧ ¬ (1 ≤ s.outstanding ∧ ¬ LogFull s.sb s.lh.length) := by
  rw [logWrite, bind_of_ok (get_run s)]
  by_cases hfull : s.lh.length ≥ LOGSIZE ∨ s.lh.length ≥ s.sb.nlog - 1
  · rw [if_pos hfull]
    exact .inr ⟨_, rfl, by decide, fun h => h.2 hfull⟩
  · rw [if_neg hfull]
    by_cases hout : s.outstanding < 1
    · rw [if_pos hout]
      exact .inr ⟨_, rfl, by decide, fun h => by omega⟩
    · rw [if_neg hout]
      exact .inl rfl

/-- **The block is taken**, or a `log_write` panics. -/
theorem takeBlock_cases (b : Nat) (s : St) :
    takeBlock b s = .ok (b, { s with
        disk := allocDisk s.sb s.disk b
        lh := absorb (absorb s.lh (BBLOCK b s.sb)) b }) ∨
      ∃ e, takeBlock b s = .error e ∧ e ≠ outOfBlocks ∧ ¬ Room s 2 := by
  rw [takeBlock, bind_of_ok (get_run s), bind_of_ok (store_run ..)]
  rcases logWrite_cases (BBLOCK b s.sb) { s with
      disk := upd s.disk (BBLOCK b s.sb) ((s.disk (BBLOCK b s.sb)).setBit (b % BPB)) } with
    hok | ⟨e, herr, hne, hno⟩
  · rw [bind_of_ok hok, bzero, bind_assoc, bind_of_ok (store_run ..)]
    rcases logWrite_cases b { s with
        disk := allocDisk s.sb s.disk b
        lh := absorb s.lh (BBLOCK b s.sb) } with hok | ⟨e, herr, hne, hno⟩
    · left
      exact bind_of_ok hok
    · right
      refine ⟨e, bind_of_error herr, hne, fun hroom => hno ⟨hroom.outstanding, fun hfull => ?_⟩⟩
      exact hroom.room (hfull.mono (length_absorb_le ..))
  · right
    refine ⟨e, bind_of_error herr, hne, fun hroom => hno ⟨hroom.outstanding, fun hfull => ?_⟩⟩
    exact hroom.room (hfull.mono (Nat.le_add_right ..))

/-- `bfree` of a block whose bit is set clears it, or a `log_write` panics. -/
theorem bfree_cases (hsb : readsb (s.disk 1) = s.sb) (hset : bit s.sb s.disk b = true) :
    bfree b s = .ok ((), { s with
        disk := upd s.disk (BBLOCK b s.sb) ((s.disk (BBLOCK b s.sb)).clearBit (b % BPB))
        lh := absorb s.lh (BBLOCK b s.sb) }) ∨
      ∃ e, bfree b s = .error e ∧ ¬ Room s 1 := by
  have hset' : ¬ (s.disk (BBLOCK b s.sb)).testBit (b % BPB) = false := by
    rw [Bool.not_eq_false]
    exact hset
  have hself : ({ s with sb := readsb (s.disk 1) } : St) = s := by rw [hsb]
  rw [bfree, bind_of_ok (show (modify fun s : St => { s with sb := readsb (s.disk 1) } : Prog Unit) s =
      .ok ((), { s with sb := readsb (s.disk 1) }) from rfl), hself, bind_of_ok (get_run s),
    bind_of_ok (bread_run _ s), if_neg hset', bind_of_ok (store_run ..)]
  rcases logWrite_cases (BBLOCK b s.sb) { s with
      disk := upd s.disk (BBLOCK b s.sb) ((s.disk (BBLOCK b s.sb)).clearBit (b % BPB)) } with
    hok | ⟨e, herr, _, hno⟩
  · exact .inl hok
  · exact .inr ⟨e, herr, fun hroom => hno ⟨hroom.outstanding, hroom.room⟩⟩

/-! ## The bitmap -/

/-- A superblock in use, and a bitmap with the metadata marked. The size is
such that the `int`s of `balloc` do not overflow. -/
structure Mapped (s : St) : Prop where
  size_lt : s.sb.size < 2 ^ 31 - BPB
  nmeta_le : s.sb.nmeta ≤ s.sb.size
  bmapstart : 2 ≤ s.sb.bmapstart
  sb_read : readsb (s.disk 1) = s.sb
  marked : ∀ m, m < s.sb.nmeta → bit s.sb s.disk m = true

/-- `balloc` has taken block `b`. -/
structure Allocated (s : St) (b : Nat) (t : St) : Prop where
  first : FirstClear s b
  bits : ∀ c, c < s.sb.size → bit t.sb t.disk c = (decide (c = b) || bit s.sb s.disk c)
  bitmap : t.disk (BBLOCK b s.sb) = (s.disk (BBLOCK b s.sb)).setBit (b % BPB)
  zeroed : t.disk b = Bytes.zero BSIZE
  frame : ∀ m, m ≠ b → m ≠ BBLOCK b s.sb → t.disk m = s.disk m
  sb : t.sb = s.sb

/-- `bfree` has given block `b` back. -/
structure Released (s : St) (b : Nat) (t : St) : Prop where
  bits : ∀ c, bit t.sb t.disk c = (!decide (c = b) && bit s.sb s.disk c)
  bitmap : t.disk (BBLOCK b s.sb) = (s.disk (BBLOCK b s.sb)).clearBit (b % BPB)
  frame : ∀ m, m ≠ BBLOCK b s.sb → t.disk m = s.disk m
  sb : t.sb = s.sb

theorem balloc_cases (s : St) :
    (AllSet s ∧ balloc s = .error outOfBlocks) ∨
      ∃ b, FirstClear s b ∧
        (balloc s = .ok (b, { s with
            disk := allocDisk s.sb s.disk b
            lh := absorb (absorb s.lh (BBLOCK b s.sb)) b }) ∨
          ∃ e, balloc s = .error e ∧ e ≠ outOfBlocks ∧ ¬ Room s 2) := by
  rcases allSet_or_firstClear s with hall | ⟨b, hb⟩
  · exact .inl ⟨hall, balloc_allSet hall⟩
  · rw [balloc_firstClear hb]
    exact .inr ⟨b, hb, takeBlock_cases b s⟩

/-- The first clear block is not metadata. -/
theorem Mapped.nmeta_le_of_clear (hm : Mapped s) (h : FirstClear s b) : s.sb.nmeta ≤ b := by
  by_contra hlt
  have := hm.marked b (by omega)
  rw [h.clear] at this
  cases this

theorem balloc_ok (hm : Mapped s) (hrun : balloc s = .ok (b, t)) : Allocated s b t := by
  rcases balloc_cases s with ⟨_, herr⟩ | ⟨b', hfirst, hok | ⟨e, herr, _⟩⟩
  · rw [herr] at hrun
    cases hrun
  · rw [hok] at hrun
    obtain ⟨rfl, rfl⟩ := Prod.mk.inj (Except.ok.inj hrun)
    have hge := hm.nmeta_le_of_clear hfirst
    have hnot : ¬ IsBitmap s.sb b' := fun h => absurd h.2 (Nat.not_lt.mpr hge)
    have hne : BBLOCK b' s.sb ≠ b' := fun h => hnot (h ▸ BBLOCK_bitmap hfirst.lt)
    refine ⟨hfirst, fun c hc => ?_, ?_, upd_self .., fun m hmb hmm => ?_, rfl⟩
    · exact (bit_store hnot hc).trans (bit_setBit ..)
    · show upd (upd _ _ _) b' _ _ = _
      rw [upd_of_ne hne, upd_self]
    · show upd (upd _ _ _) b' _ m = _
      rw [upd_of_ne hmb, upd_of_ne hmm]
  · rw [herr] at hrun
    cases hrun

theorem bfree_ok (hsb : readsb (s.disk 1) = s.sb) (hset : bit s.sb s.disk b = true)
    (hrun : bfree b s = .ok ((), t)) : Released s b t := by
  rcases bfree_cases hsb hset with hok | ⟨e, herr, _⟩
  · rw [hok] at hrun
    obtain ⟨_, rfl⟩ := Prod.mk.inj (Except.ok.inj hrun)
    exact ⟨fun c => bit_clearBit .., upd_self .., fun m hmm => upd_of_ne hmm, rfl⟩
  · rw [herr] at hrun
    cases hrun

/-- The superblock is not touched. -/
theorem Allocated.sb_read (h : Allocated s b t) (hm : Mapped s) : readsb (t.disk 1) = t.sb := by
  have hge := hm.nmeta_le_of_clear h.first
  have hstart := hm.bmapstart
  have hb : BBLOCK b s.sb = b / BPB + s.sb.bmapstart := rfl
  have hmeta : s.sb.nmeta = s.sb.bmapstart + s.sb.size / BPB + 1 := rfl
  rw [BPB_eq] at hb hmeta
  rw [h.frame 1 (by omega) (by omega), h.sb, hm.sb_read]

/-- **The block allocator.** `balloc` panics for want of blocks if and only
if all bits are set, and otherwise takes the first block whose bit is clear;
`bfree` of a block whose bit is set clears that bit; the one undoes what the
other does to the bitmap; and a block that was taken is not taken again
before its bit is cleared. -/
theorem balloc_bfree_bitmap (hm : Mapped s) :
    (balloc s = .error outOfBlocks ↔ AllSet s) ∧
    (∀ b t, balloc s = .ok (b, t) → Allocated s b t) ∧
    (Room s 2 → ¬ AllSet s → ∃ b t, balloc s = .ok (b, t)) ∧
    (∀ b, bit s.sb s.disk b = true → (∀ t, bfree b s = .ok ((), t) → Released s b t) ∧
      (Room s 1 → ∃ t, bfree b s = .ok ((), t))) ∧
    (∀ b t u, balloc s = .ok (b, t) → bfree b t = .ok ((), u) →
      ∀ c, c < s.sb.size → bit u.sb u.disk c = bit s.sb s.disk c) ∧
    ∀ b t u b' t', balloc s = .ok (b, t) → u.sb = t.sb →
      (∀ c, c < s.sb.size → bit t.sb t.disk c = true → bit u.sb u.disk c = true) →
      balloc u = .ok (b', t') → b' ≠ b := by
  refine ⟨⟨fun herr => ?_, balloc_allSet⟩, fun b t => balloc_ok hm, fun hroom hnot => ?_,
    fun b hset => ⟨fun t => bfree_ok hm.sb_read hset, fun hroom => ?_⟩, fun b t u hrun hfree c hc => ?_,
    fun b t u b' t' hrun hsb hkept hrun' => ?_⟩
  · rcases balloc_cases s with ⟨hall, _⟩ | ⟨b, _, hok | ⟨e, herr', hne, _⟩⟩
    · exact hall
    · rw [hok] at herr
      cases herr
    · rw [herr'] at herr
      exact absurd (Except.error.inj herr) hne
  · rcases balloc_cases s with ⟨hall, _⟩ | ⟨b, _, hok | ⟨_, _, _, hno⟩⟩
    · exact absurd hall hnot
    · exact ⟨b, _, hok⟩
    · exact absurd hroom hno
  · rcases bfree_cases hm.sb_read hset with hok | ⟨_, _, hno⟩
    · exact ⟨_, hok⟩
    · exact absurd hroom hno
  · have ha := balloc_ok hm hrun
    have hset : bit t.sb t.disk b = true := by
      rw [ha.bits b ha.first.lt, decide_eq_true rfl, Bool.true_or]
    rw [(bfree_ok (ha.sb_read hm) hset hfree).bits c, ha.bits c hc]
    by_cases hcb : c = b
    · rw [hcb, ha.first.clear, decide_eq_true rfl]
      rfl
    · rw [decide_eq_false hcb, Bool.not_false, Bool.true_and, Bool.false_or]
  · have ha := balloc_ok hm hrun
    have hset : bit u.sb u.disk b = true := by
      refine hkept b ha.first.lt ?_
      rw [ha.bits b ha.first.lt, decide_eq_true rfl, Bool.true_or]
    rintro rfl
    rcases balloc_cases u with ⟨_, herr⟩ | ⟨b', hfirst, hok | ⟨_, herr, _⟩⟩
    · rw [herr] at hrun'
      cases hrun'
    · rw [hok] at hrun'
      obtain ⟨rfl, _⟩ := Prod.mk.inj (Except.ok.inj hrun')
      rw [hfirst.clear] at hset
      cases hset
    · rw [herr] at hrun'
      cases hrun'

/-- A disk of 64 blocks, of which three are metadata. -/
def smallFs : St where
  sb := ⟨64, 61, 1, 30, 2, 2, 2⟩
  disk := fun b =>
    if b = 1 then ((((((Bytes.zero BSIZE).wr32 0 64).wr32 4 61).wr32 8 1).wr32 12 30).wr32 16 2).wr32 20 2
      |>.wr32 24 2
    else if b = 2 then (((Bytes.zero BSIZE).setBit 0).setBit 1).setBit 2
    else Bytes.zero BSIZE
  outstanding := 1
  lh := []
  icache := fun _ => ⟨0, 0, false, false, .fresh 0⟩
  ftable := fun _ => ⟨.FD_NONE, 0, false, false, ⟨0, NINODE_pos⟩, 0⟩
  proc := fun _ => ⟨none, fun _ => none⟩
  devsw := fun _ => none
  commits := []
  freed := fun _ => 0

theorem smallFs_mapped : Mapped smallFs :=
  ⟨by decide, by decide, by decide, by decide +kernel, by decide +kernel⟩

/-- Block 3 is the first one to be taken. -/
theorem balloc_bitmap_small : ∃ t, balloc smallFs = .ok (3, t) ∧ Allocated smallFs 3 t := by
  have hrun : (balloc smallFs).toOption.map Prod.fst = some 3 := by decide +kernel
  obtain ⟨⟨b, t⟩, hr, hb⟩ := Option.map_eq_some_iff.mp hrun
  have hb : b = 3 := hb
  subst hb
  have hok : balloc smallFs = .ok (3, t) := by
    cases hres : balloc smallFs with
    | ok r =>
        rw [hres] at hr
        exact congrArg _ (Option.some.inj hr)
    | error e =>
        rw [hres] at hr
        cases hr
  exact ⟨t, hok, (balloc_bfree_bitmap smallFs_mapped).2.1 3 t hok⟩

end Xv6.Fs
