import Xv6.Fs.Bmap

/-!
# Fs — an inode is a byte array

The contents of an inode are the bytes found through its block addresses
(`content`). `readi` returns a piece of them and changes nothing; `writei`
overwrites a piece and leaves every other inode alone. The loop of
`writei` is summed up by the relation `Wrote`, which one round establishes
and which composes.
-/

namespace Xv6.Fs

open Lib

/-! ## Contents -/

/-- The byte at offset `o` of an inode. -/
def byteAt (disk : Disk) (d : Dinode) (o : Nat) : UInt8 :=
  (disk (bmapAddr disk d (o / BSIZE))).get (o % BSIZE)

/-- The contents of an inode. -/
def content (disk : Disk) (d : Dinode) : List UInt8 := (List.range d.size).map (byteAt disk d)

@[simp] theorem length_content (disk : Disk) (d : Dinode) :
    (content disk d).length = d.size := by simp [content]

theorem getD_content {disk : Disk} {d : Dinode} {o : Nat} (h : o < d.size) :
    (content disk d).getD o 0 = byteAt disk d o := by
  simp [content, List.getD_eq_getElem?_getD, List.getElem?_map, List.getElem?_range h]

/-- Every block below the size is there. -/
structure NoHoles (disk : Disk) (d : Dinode) : Prop where
  size_le : d.size ≤ MAXFILE * BSIZE
  mapped : ∀ bn, bn * BSIZE < d.size → bmapAddr disk d bn ≠ 0

/-- `dst` with the bytes from `off` on replaced by `src`, grown as needed. -/
def overwrite (dst : List UInt8) (off : Nat) (src : List UInt8) : List UInt8 :=
  dst.take off ++ src ++ dst.drop (off + src.length)

theorem length_overwrite {dst src : List UInt8} {off : Nat} (h : off ≤ dst.length) :
    (overwrite dst off src).length = max dst.length (off + src.length) := by
  simp only [overwrite, List.length_append, List.length_take, List.length_drop]
  omega

theorem getD_overwrite {dst src : List UInt8} {off : Nat} (h : off ≤ dst.length) (o : Nat) :
    (overwrite dst off src).getD o 0 =
      if off ≤ o ∧ o < off + src.length then src.getD (o - off) 0 else dst.getD o 0 := by
  have htake : (dst.take off).length = off := by simp [h]
  simp only [overwrite, List.append_assoc, List.getD_eq_getElem?_getD, List.getElem?_append, htake,
    List.getElem?_drop, List.getElem?_take]
  by_cases h1 : o < off
  · rw [if_pos h1, if_pos h1, if_neg (by omega)]
  · rw [if_neg h1]
    by_cases h2 : o - off < src.length
    · rw [if_pos h2, if_pos (by omega)]
    · rw [if_neg h2, if_neg (by omega)]
      congr 2
      omega

/-- Lists of one length with the same bytes are equal. -/
theorem ext_getD {a b : List UInt8} (hl : a.length = b.length)
    (h : ∀ o, o < a.length → a.getD o 0 = b.getD o 0) : a = b := by
  refine List.ext_getElem hl fun o h1 h2 => ?_
  have := h o h1
  rwa [List.getD_eq_getElem a 0 h1, List.getD_eq_getElem b 0 h2] at this

/-! ## `readi` -/

variable {s : St} {E : Stop → Prop} {k : Fin NINODE}

theorem NoHoles.block {disk : Disk} {d : Dinode} (h : NoHoles disk d) {o : Nat} (ho : o < d.size) :
    o / BSIZE < MAXFILE ∧ bmapAddr disk d (o / BSIZE) ≠ 0 := by
  have h1 := h.size_le
  refine ⟨?_, h.mapped _ ?_⟩ <;> simp only [BSIZE_eq, MAXFILE_eq] at * <;> omega

/-- The blocks of the bytes from `off` on, `n` of them, are there. -/
def Readable (disk : Disk) (d : Dinode) (off n : Nat) : Prop :=
  ∀ o, off ≤ o → o < off + n → o / BSIZE < MAXFILE ∧ bmapAddr disk d (o / BSIZE) ≠ 0

theorem NoHoles.readable {disk : Disk} {d : Dinode} (h : NoHoles disk d) {off n : Nat}
    (hle : off + n ≤ d.size) : Readable disk d off n :=
  fun _ _ hlt => h.block (by omega)

theorem readLoop_spec {fuel off left : Nat} (hfuel : left ≤ fuel)
    (h : Readable s.disk (s.icache k).din off left) :
    Ensures (readLoop k fuel off left) s E fun bytes t =>
      bytes = (List.range left).map (fun j => byteAt s.disk (s.icache k).din (off + j)) ∧ t = s := by
  induction fuel generalizing off left with
  | zero =>
      obtain rfl : left = 0 := by omega
      exact ⟨rfl, rfl⟩
  | succ fuel ih =>
      by_cases h0 : left = 0
      · subst h0
        exact ⟨rfl, rfl⟩
      · simp only [readLoop, if_neg h0, ensures_bind]
        obtain ⟨hbn, hmap⟩ := h off (Nat.le_refl off) (by omega)
        refine Ensures.next (bmap_mapped hbn hmap) ?_
        rintro a t ⟨rfl, rfl⟩
        simp only [bread, ensures_bind, ensures_get, ensures_pure]
        set m := min left (BSIZE - off % BSIZE) with hm
        have hm1 : 1 ≤ m := by
          have : off % BSIZE < BSIZE := Nat.mod_lt _ (by decide)
          omega
        refine Ensures.next (ih (by omega) fun o h1 h2 => h o (by omega) (by omega)) ?_
        rintro rest t ⟨rfl, rfl⟩
        refine ⟨?_, rfl⟩
        rw [show left = m + (left - m) by omega, List.range_add, List.map_append, List.map_map]
        have htail : m + (left - m) - m = left - m := by omega
        rw [htail]
        congr 1
        · refine List.map_congr_left fun j hj => ?_
          have hj := List.mem_range.mp hj
          rw [byteAt]
          have h1 : (off + j) / BSIZE = off / BSIZE := by simp only [BSIZE_eq] at *; omega
          have h2 : (off + j) % BSIZE = off % BSIZE + j := by simp only [BSIZE_eq] at *; omega
          rw [h1, h2]
        · refine List.map_congr_left fun j _ => ?_
          rw [Function.comp_apply, Nat.add_assoc]

/-- `readi` of bytes whose blocks are there. -/
theorem readi_readable {off n : Nat} (htype : (s.icache k).din.type ≠ T_DEV)
    (hle : off + n ≤ (s.icache k).din.size) (hlt : off + n < 2 ^ 32)
    (h : Readable s.disk (s.icache k).din off n) :
    Ensures (readi k off n) s E fun r t => r = ((n : Int),
      (List.range n).map fun j => byteAt s.disk (s.icache k).din (off + j)) ∧ t = s := by
  have hok : ¬(off > (s.icache k).din.size ∨ (off + n) % 2 ^ 32 < off) := by omega
  simp only [readi, ensures_bind, ensures_get, if_neg htype, if_neg hok,
    if_neg (show ¬off + n > (s.icache k).din.size by omega)]
  refine Ensures.next (readLoop_spec (Nat.le_refl _) h) ?_
  rintro bytes t ⟨rfl, rfl⟩
  exact ⟨rfl, rfl⟩

/-- What `readi` of a file that is not a device returns. -/
def readResult (data : List UInt8) (off n : Nat) : Int × List UInt8 :=
  if off > data.length ∨ 2 ^ 32 ≤ off + n then (-1, [])
  else (((data.drop off).take n).length, (data.drop off).take n)

/-- **`readi`** returns the bytes from `off` on and changes nothing. -/
theorem readi_spec {off n : Nat} (htype : (s.icache k).din.type ≠ T_DEV)
    (h : NoHoles s.disk (s.icache k).din) (hoff : off < 2 ^ 32) (hn : n < 2 ^ 32) :
    Ensures (readi k off n) s E fun r t =>
      r = readResult (content s.disk (s.icache k).din) off n ∧ t = s := by
  have hwrap : (off + n) % 2 ^ 32 < off ↔ 2 ^ 32 ≤ off + n := by omega
  simp only [readi, ensures_bind, ensures_get, if_neg htype, hwrap, readResult, length_content]
  split
  · exact ⟨rfl, rfl⟩
  · rename_i hno
    simp only [ensures_bind]
    refine Ensures.next (readLoop_spec (Nat.le_refl _) (h.readable (by split <;> omega))) ?_
    rintro bytes t ⟨rfl, rfl⟩
    refine ⟨?_, rfl⟩
    have hlen : (if off + n > (t.icache k).din.size then (t.icache k).din.size - off else n) =
        min n ((t.icache k).din.size - off) := by split <;> omega
    have hbytes : (List.range (min n ((t.icache k).din.size - off))).map
        (fun j => byteAt t.disk (t.icache k).din (off + j)) =
        ((content t.disk (t.icache k).din).drop off).take n := by
      refine ext_getD (by simp) fun o ho => ?_
      rw [List.length_map, List.length_range] at ho
      rw [List.getD_eq_getElem?_getD, List.getElem?_map, List.getElem?_range ho,
        List.getD_eq_getElem?_getD, List.getElem?_take, if_pos (by omega), List.getElem?_drop,
        ← List.getD_eq_getElem?_getD, getD_content (by omega)]
      rfl
    rw [hlen, hbytes]
    simp

/-! ## The loop of `writei` -/

/-- Block `bn` holds some of the `n` bytes from `off` on. -/
def Touches (off n bn : Nat) : Prop := 0 < n ∧ off / BSIZE ≤ bn ∧ bn * BSIZE < off + n

/-- The slots that writing `n` bytes at `off` may fill. -/
def Touched (off n k : Nat) : Prop := ∃ bn, Touches off n bn ∧ bmapSlots bn k

/-- The number of blocks that hold the `n` bytes from `off` on. -/
def nblk (off n : Nat) : Nat := if n = 0 then 0 else (off + n - 1) / BSIZE - off / BSIZE + 1

/-- The bytes of `src` were written at `off`. -/
structure Wrote (sb : Superblock) (disk : Disk) (d : Dinode) (off : Nat) (src : List UInt8)
    (disk' : Disk) (d' : Dinode) : Prop where
  slots : ∀ k, k < NSLOT → slotAddr disk d k ≠ 0 ∨ ¬Touched off src.length k →
    slotAddr disk' d' k = slotAddr disk d k
  new : ∀ k, k < NSLOT → slotAddr disk d k = 0 → slotAddr disk' d' k ≠ 0 →
    slotAddr disk' d' k < sb.size ∧ bit sb disk (slotAddr disk' d' k) = false
  mapped : ∀ bn, Touches off src.length bn → bmapAddr disk' d' bn ≠ 0
  frame : ∀ c, ¬IsBitmap sb c → (c < sb.size → bit sb disk c = true) →
    (∀ k, k < NSLOT → slotAddr disk d k ≠ 0 → slotAddr disk d k ≠ c) → disk' c = disk c
  bits : ∀ c, c < sb.size → bit sb disk c = true → bit sb disk' c = true
  bytes : ∀ o, o / BSIZE < MAXFILE → bmapAddr disk d (o / BSIZE) ≠ 0 ∨
      (off ≤ o ∧ o < off + src.length) →
    byteAt disk' d' o =
      if off ≤ o ∧ o < off + src.length then src.getD (o - off) 0 else byteAt disk d o
  blank : ∀ o, o / BSIZE < MAXFILE → bmapAddr disk d (o / BSIZE) = 0 →
    bmapAddr disk' d' (o / BSIZE) ≠ 0 → ¬(off ≤ o ∧ o < off + src.length) → byteAt disk' d' o = 0
  same : { d' with addrs := d.addrs } = d
  fits : d.Fits → d'.Fits
  room : ∀ F : Finset Nat, (∀ k, Touched off src.length k → k ∈ F) → (∀ k ∈ F, k < NSLOT) →
    unmapped F disk d ≤ freeCount sb.size (bit sb disk) →
    unmapped F disk' d' ≤ freeCount sb.size (bit sb disk')

section Wrote

variable {sb : Superblock} {node : Nat → Dinode} {i off : Nat} {disk disk' disk₁ disk₂ : Disk}
  {d d' d₁ d₂ : Dinode} {extra : Set Nat} {src : List UInt8}

theorem not_touches_zero (off bn : Nat) : ¬Touches off 0 bn := fun h => by
  have := h.1
  omega

theorem Wrote.nil : Wrote sb disk d off [] disk d where
  slots _ _ _ := rfl
  new _ _ h0 hne := absurd h0 hne
  mapped bn h := absurd h (not_touches_zero off bn)
  frame _ _ _ _ := rfl
  bits _ _ h := h
  bytes o _ _ := by rw [if_neg (by simp only [List.length_nil]; omega)]
  blank _ _ h0 hne := absurd h0 hne
  same := rfl
  fits h := h
  room _ _ _ h := h

/-- The bytes one round of the loop writes: up to the end of the block. -/
def chunk (off n : Nat) : Nat := min n (BSIZE - off % BSIZE)

theorem chunk_pos (off : Nat) {n : Nat} (hn : 0 < n) : 0 < chunk off n := by
  have : off % BSIZE < BSIZE := Nat.mod_lt _ (by decide)
  simp only [chunk]
  omega

theorem chunk_le (off n : Nat) : chunk off n ≤ n := Nat.min_le_left ..

/-- One round touches one block. -/
theorem touches_chunk {off n bn : Nat} (hn : 0 < n) :
    Touches off (chunk off n) bn ↔ bn = off / BSIZE := by
  have hp := chunk_pos off hn
  simp only [Touches, chunk, BSIZE_eq] at *
  omega

/-- The blocks a write touches are the one of the first round and those of
the others. -/
theorem touches_split {off n bn : Nat} (hn : 0 < n) :
    Touches off n bn ↔ bn = off / BSIZE ∨ Touches (off + chunk off n) (n - chunk off n) bn := by
  simp only [Touches, chunk, BSIZE_eq]
  omega

theorem nblk_split (off : Nat) {n : Nat} (hn : 0 < n) :
    nblk off n = 1 + nblk (off + chunk off n) (n - chunk off n) := by
  rw [nblk, nblk, if_neg (by omega)]
  by_cases h : n - chunk off n = 0
  · rw [if_pos h]
    simp only [chunk, BSIZE_eq] at *
    omega
  · rw [if_neg h]
    simp only [chunk, BSIZE_eq] at *
    omega

theorem touched_split {off n k : Nat} (hn : 0 < n) :
    Touched off n k ↔
      bmapSlots (off / BSIZE) k ∨ Touched (off + chunk off n) (n - chunk off n) k := by
  constructor
  · rintro ⟨bn, ht, hk⟩
    rcases (touches_split hn).mp ht with rfl | ht
    · exact Or.inl hk
    · exact Or.inr ⟨bn, ht, hk⟩
  · rintro (hk | ⟨bn, ht, hk⟩)
    · exact ⟨_, (touches_split hn).mpr (Or.inl rfl), hk⟩
    · exact ⟨bn, (touches_split hn).mpr (Or.inr ht), hk⟩

/-- Two different slots refer to different blocks. -/
theorem Blocks.own_slot_ne (h : Blocks sb disk (upd node i d) extra) (hi : i < sb.ninodes)
    (hd : d.type ≠ 0) {k l : Nat} (hk : k < NSLOT) (hl : l < NSLOT) (hkl : k ≠ l)
    (h0 : slotAddr disk d k ≠ 0) : slotAddr disk d k ≠ slotAddr disk d l := by
  intro he
  have hlive : Live sb (upd node i d) i := live_upd hi hd
  exact hkl (h.inj_slot hlive hlive hk hl (by rwa [upd_self]) (by rwa [upd_self])).2

/-- Writing a data block of an inode keeps the ownership invariant and
every slot. -/
theorem Blocks.store_data (h : Blocks sb disk (upd node i d) extra) (hi : i < sb.ninodes)
    (hd : d.type ≠ 0) {bn : Nat} (hbn : bn < MAXFILE) (h0 : bmapAddr disk d bn ≠ 0) (v : Block) :
    Blocks sb (upd disk (bmapAddr disk d bn) v) (upd node i d) extra ∧
      (∀ k, slotAddr (upd disk (bmapAddr disk d bn) v) d k = slotAddr disk d k) ∧
      ¬IsBitmap sb (bmapAddr disk d bn) := by
  obtain ⟨hlo, hhi, _⟩ := h.own_slot_range hi hd (bmapSlot_lt hbn) h0
  have hbm : ¬IsBitmap sb (bmapAddr disk d bn) := fun hbm => by
    have := hbm.2
    simp only [bmapAddr] at this
    omega
  refine ⟨h.store hbm fun j hj he => ?_, fun k => slotAddr_congr (fun h12 => ?_) k, hbm⟩
  · exfalso
    have hlive : Live sb (upd node i d) i := live_upd hi hd
    refine bmapSlot_ne_indirect bn
      (h.inj_slot (l := NDIRECT) hlive hj (bmapSlot_lt hbn) (by decide) ?_ ?_).2
    · rw [upd_self]; exact h0
    · rw [upd_self, slotAddr_indirect, he]; rfl
  · refine upd_of_ne (Ne.symm ?_)
    have := h.own_slot_ne hi hd (bmapSlot_lt hbn) (l := NDIRECT) (by decide)
      (bmapSlot_ne_indirect bn) h0
    rwa [slotAddr_indirect] at this

/-- A mapped block that `bmap` leaves alone keeps its address and data. -/
theorem Filled.keep_block {T : Nat → Prop} (hf : Filled sb T disk d disk₁ d₁)
    (h : Blocks sb disk (upd node i d) extra) (hi : i < sb.ninodes) (hd : d.type ≠ 0) {bn : Nat}
    (hbn : bn < MAXFILE) (h0 : bmapAddr disk d bn ≠ 0) :
    bmapAddr disk₁ d₁ bn = bmapAddr disk d bn ∧
      disk₁ (bmapAddr disk d bn) = disk (bmapAddr disk d bn) := by
  have hk := bmapSlot_lt hbn
  obtain ⟨hlo, _, hset⟩ := h.own_slot_range hi hd hk h0
  refine ⟨hf.slots _ hk (Or.inl h0), hf.frame _ (fun hbm => ?_) (fun _ => hset) fun _ he => ?_⟩
  · have := hbm.2
    simp only [bmapAddr] at this
    omega
  · have := h.own_slot_ne hi hd hk (l := NDIRECT) (by decide) (bmapSlot_ne_indirect bn) h0
    rw [slotAddr_indirect] at this
    exact this he

/-- **One round of the loop**: `bmap`, then the copy into the block. -/
theorem Wrote.round (h : Blocks sb disk (upd node i d) extra) (hi : i < sb.ninodes)
    (hd : d.type ≠ 0) (hn : 0 < src.length) (hbn : off / BSIZE < MAXFILE)
    (hf : Filled sb (bmapSlots (off / BSIZE)) disk d disk₁ d₁)
    (h₁ : Blocks sb disk₁ (upd node i d₁) extra) (h0 : bmapAddr disk₁ d₁ (off / BSIZE) ≠ 0) :
    Wrote sb disk d off (src.take (chunk off src.length))
      (upd disk₁ (bmapAddr disk₁ d₁ (off / BSIZE))
        ((disk₁ (bmapAddr disk₁ d₁ (off / BSIZE))).blit (off % BSIZE)
          (src.take (chunk off src.length)))) d₁ := by
  have hd₁ : d₁.type ≠ 0 := by rwa [hf.type_eq]
  obtain ⟨_, hslots, hbm⟩ := h₁.store_data hi hd₁ hbn h0
    ((disk₁ (bmapAddr disk₁ d₁ (off / BSIZE))).blit (off % BSIZE) (src.take (chunk off src.length)))
  set a := bmapAddr disk₁ d₁ (off / BSIZE) with ha
  set disk₂ := upd disk₁ a ((disk₁ a).blit (off % BSIZE) (src.take (chunk off src.length))) with hdisk₂
  have hlen : (src.take (chunk off src.length)).length = chunk off src.length := by
    rw [List.length_take]; have := chunk_le off src.length; omega
  have hT : ∀ k, Touched off (src.take (chunk off src.length)).length k ↔
      bmapSlots (off / BSIZE) k := by
    intro k
    rw [hlen]
    simp only [Touched, touches_chunk hn, exists_eq_left]
  have hbits : ∀ c, c < sb.size → bit sb disk₂ c = bit sb disk₁ c := fun c hc => bit_store hbm hc
  have hfree : freeCount sb.size (bit sb disk₂) = freeCount sb.size (bit sb disk₁) :=
    freeCount_congr hbits
  have haddr : ∀ bn, bmapAddr disk₂ d₁ bn = bmapAddr disk₁ d₁ bn := fun bn => hslots _
  have hrange : ∀ o, (off ≤ o ∧ o < off + chunk off src.length) ↔
      o / BSIZE = off / BSIZE ∧ off % BSIZE ≤ o % BSIZE ∧
        o % BSIZE < off % BSIZE + chunk off src.length := by
    intro o
    simp only [chunk, BSIZE_eq]
    omega
  refine ⟨fun k hk hor => ?_, fun k hk h0' hne => ?_, fun bn hbn' => ?_, fun c hc hset hown => ?_,
    fun c hc hset => ?_, fun o ho hor => ?_, fun o ho hold hne hout => ?_, hf.same, hf.fits,
    fun F hF hF' hle => ?_⟩
  · rw [hslots k]
    exact hf.slots k hk (hor.imp id fun hn ht => hn ((hT k).mpr ht))
  · rw [hslots k] at hne ⊢
    exact hf.new k hk h0' hne
  · rw [hlen, touches_chunk hn] at hbn'
    rw [haddr, hbn']
    exact h0
  · -- a block of the inode is an old one, or was free
    have hca : c ≠ a := by
      intro he
      by_cases hold : bmapAddr disk d (off / BSIZE) = 0
      · obtain ⟨hlt, hclear⟩ := hf.new _ (bmapSlot_lt hbn) hold h0
        have hca : c = slotAddr disk₁ d₁ (bmapSlot (off / BSIZE)) := he
        rw [← hca] at hlt hclear
        rw [hset hlt] at hclear
        cases hclear
      · have hsame := (hf.keep_block h hi hd hbn hold).1
        exact hown _ (bmapSlot_lt hbn) hold (hsame.symm.trans he.symm)
    rw [hdisk₂, upd_of_ne hca]
    refine hf.frame c hc hset fun hne he => ?_
    have := hown NDIRECT (by decide)
    rw [slotAddr_indirect] at this
    exact this hne he.symm
  · rw [hbits c hc]
    exact hf.bits c hc hset
  · rw [hlen] at hor ⊢
    rw [byteAt, haddr]
    by_cases hblk : o / BSIZE = off / BSIZE
    · rw [hblk, ← ha, hdisk₂, upd_self, Bytes.get_blit _ _ _ (Nat.mod_lt _ (by decide)), hlen]
      by_cases hin : off ≤ o ∧ o < off + chunk off src.length
      · rw [if_pos hin, if_pos ((hrange o).mp hin).2]
        congr 1
        have := ((hrange o).mp hin).2
        simp only [BSIZE_eq] at *; omega
      · rw [if_neg hin, if_neg fun hx => hin ((hrange o).mpr ⟨hblk, hx⟩)]
        have hold := hor.resolve_right hin
        rw [hblk] at hold
        obtain ⟨h1, h2⟩ := hf.keep_block h hi hd hbn hold
        rw [ha, h1, h2, byteAt, hblk]
    · rw [if_neg fun hin => hblk ((hrange o).mp hin).1]
      have hold := hor.resolve_right fun hin => hblk ((hrange o).mp hin).1
      obtain ⟨h1, h2⟩ := hf.keep_block h hi hd ho hold
      have hne : bmapAddr disk₁ d₁ (o / BSIZE) ≠ a :=
        h₁.own_slot_ne hi hd₁ (bmapSlot_lt ho) (bmapSlot_lt hbn)
          (fun he => hblk (bmapSlot_inj he)) (by rw [← bmapAddr, h1]; exact hold)
      rw [hdisk₂, upd_of_ne hne, h1, h2, byteAt]
  · -- the block is the one `bmap` has just allocated
    rw [hlen] at hout
    rw [haddr] at hne
    have hblk : o / BSIZE = off / BSIZE := by
      by_contra hblk
      have hnot : ¬bmapSlots (off / BSIZE) (bmapSlot (o / BSIZE)) := by
        rintro (he | he)
        · exact hblk (bmapSlot_inj he)
        · exact bmapSlot_ne_indirect _ he.2
      exact hne ((hf.slots _ (bmapSlot_lt ho) (Or.inr hnot)).trans hold)
    rw [hblk] at hold hne
    have hzero := hf.zero _ (bmapSlot_lt hbn) (bmapSlot_ne_indirect _) hold hne
    rw [byteAt, haddr, hblk, ← ha, hdisk₂, upd_self, Bytes.get_blit _ _ _ (Nat.mod_lt _ (by decide)),
      hlen, if_neg fun hx => hout ((hrange o).mpr ⟨hblk, hx⟩)]
    have hza : disk₁ a = Bytes.zero BSIZE := hzero
    rw [hza, Bytes.get_zero]
  · have hun : unmapped F disk₂ d₁ = unmapped F disk₁ d₁ := by
      unfold unmapped
      congr 1
      exact Finset.filter_congr fun k _ => by rw [hslots k]
    rw [hun, hfree]
    exact hf.room F (fun k hk => hF k ((hT k).mpr hk)) hF' hle

/-- **Rounds compose.** -/
theorem Wrote.trans (hn : 0 < src.length) (hbn : off / BSIZE < MAXFILE)
    (h₁ : Wrote sb disk d off (src.take (chunk off src.length)) disk₁ d₁)
    (h₂ : Wrote sb disk₁ d₁ (off + chunk off src.length) (src.drop (chunk off src.length)) disk₂ d₂) :
    Wrote sb disk d off src disk₂ d₂ := by
  have hm := chunk_le off src.length
  have hl₁ : (src.take (chunk off src.length)).length = chunk off src.length := by
    rw [List.length_take]; omega
  have hl₂ : (src.drop (chunk off src.length)).length = src.length - chunk off src.length :=
    List.length_drop
  obtain ⟨slots₁, new₁, mapped₁, frame₁, bits₁, bytes₁, blank₁, same₁, fits₁, room₁⟩ := h₁
  obtain ⟨slots₂, new₂, mapped₂, frame₂, bits₂, bytes₂, blank₂, same₂, fits₂, room₂⟩ := h₂
  rw [hl₁] at slots₁ mapped₁ bytes₁ blank₁ room₁
  rw [hl₂] at slots₂ mapped₂ bytes₂ blank₂ room₂
  have hT₁ : ∀ k, Touched off (chunk off src.length) k ↔ bmapSlots (off / BSIZE) k := fun k => by
    simp only [Touched, touches_chunk hn, exists_eq_left]
  refine ⟨fun k hk hor => ?_, fun k hk h0 hne => ?_, fun bn ht => ?_, fun c hc hset hown => ?_,
    fun c hc hset => bits₂ c hc (bits₁ c hc hset), fun o ho hor => ?_,
    fun o ho hold hne hout => ?_, ?_, fun hfit => fits₂ (fits₁ hfit), fun F hF hF' hle => ?_⟩
  · have h := slots₁ k hk (hor.imp id fun hn' ht =>
      hn' ((touched_split hn).mpr (Or.inl ((hT₁ k).mp ht))))
    rw [slots₂ k hk (hor.imp (fun hne => by rwa [h]) fun hn' ht =>
      hn' ((touched_split hn).mpr (Or.inr ht))), h]
  · by_cases h1 : slotAddr disk₁ d₁ k = 0
    · obtain ⟨hlt, hclear⟩ := new₂ k hk h1 hne
      refine ⟨hlt, ?_⟩
      by_contra hset
      rw [bits₁ _ hlt (by simpa using hset)] at hclear
      cases hclear
    · rw [slots₂ k hk (Or.inl h1)]
      exact new₁ k hk h0 h1
  · by_cases hfirst : bn = off / BSIZE
    · have h1 := mapped₁ bn ((touches_chunk hn).mpr hfirst)
      rw [bmapAddr, slots₂ _ (bmapSlot_lt (hfirst ▸ hbn)) (Or.inl h1)]
      exact h1
    · exact mapped₂ bn (((touches_split hn).mp ht).resolve_left hfirst)
  · rw [frame₂ c hc (fun hlt => bits₁ c hlt (hset hlt)) ?_, frame₁ c hc hset hown]
    -- the first round took only blocks that were free
    intro k hk hne he
    by_cases h0 : slotAddr disk d k = 0
    · obtain ⟨hlt, hclear⟩ := new₁ k hk h0 hne
      rw [he] at hlt hclear
      rw [hset hlt] at hclear
      cases hclear
    · rw [slots₁ k hk (Or.inl h0)] at he
      exact hown k hk h0 he
  · have hin₁ : off ≤ o ∧ o < off + chunk off src.length → bmapAddr disk₁ d₁ (o / BSIZE) ≠ 0 := by
      intro hin
      refine mapped₁ _ ((touches_chunk hn).mpr ?_)
      simp only [chunk, BSIZE_eq] at hin ⊢
      omega
    by_cases hin₂ : off + chunk off src.length ≤ o ∧ o < off + src.length
    · rw [bytes₂ o ho (Or.inr ⟨hin₂.1, by omega⟩), if_pos ⟨hin₂.1, by omega⟩,
        if_pos ⟨by omega, hin₂.2⟩, List.getD_eq_getElem?_getD, List.getElem?_drop,
        List.getD_eq_getElem?_getD]
      congr 2
      omega
    · have hkeep : bmapAddr disk₁ d₁ (o / BSIZE) ≠ 0 := by
        by_cases hold : bmapAddr disk d (o / BSIZE) = 0
        · exact hin₁ (by have := hor.resolve_left (not_not.mpr hold); omega)
        · rw [bmapAddr, slots₁ _ (bmapSlot_lt ho) (Or.inl hold)]; exact hold
      rw [bytes₂ o ho (Or.inl hkeep), if_neg (by omega),
        bytes₁ o ho (hor.imp id fun h => by omega)]
      by_cases hin : off ≤ o ∧ o < off + chunk off src.length
      · rw [if_pos hin, if_pos (by omega), List.getD_eq_getElem?_getD, List.getElem?_take,
          if_pos (by omega), List.getD_eq_getElem?_getD]
      · rw [if_neg hin, if_neg (by omega)]
  · by_cases h1 : bmapAddr disk₁ d₁ (o / BSIZE) = 0
    · exact blank₂ o ho h1 hne (by omega)
    · rw [bytes₂ o ho (Or.inl h1), if_neg (by omega)]
      exact blank₁ o ho hold h1 (by omega)
  · rw [← same₂] at same₁
    exact same₁
  · exact room₂ F (fun k hk => hF k ((touched_split hn).mpr (Or.inr hk))) hF'
      (room₁ F (fun k hk => hF k ((touched_split hn).mpr (Or.inl ((hT₁ k).mp hk)))) hF' hle)

/-- A mapped indirect entry needs an indirect block. -/
theorem indirect_of_mapped {bn : Nat} (hbn : NDIRECT ≤ bn) (h : bmapAddr disk d bn ≠ 0) :
    d.addr NDIRECT ≠ 0 := by
  rw [bmapAddr_indirect _ _ (by omega)] at h
  exact fun h0 => h (if_pos h0)

end Wrote

/-- The blocks of `l` are what writing to `n` blocks can log: bitmap blocks,
the indirect block `p`, and those of `B`. -/
def Logs (sb : Superblock) (d : Dinode) (n : Nat) (l : List Nat) : Prop :=
  ∃ p, ∃ B : Finset Nat, (∀ x ∈ l, IsBitmap sb x ∨ x = p ∨ x ∈ B) ∧
    (d.addr NDIRECT ≠ 0 → d.addr NDIRECT = p) ∧ B.card ≤ n + 1

theorem logs_nil (sb : Superblock) (d : Dinode) (n : Nat) : Logs sb d n [] :=
  ⟨_, ∅, nofun, fun _ => rfl, by simp⟩

/-- What a round logs, or `bmap` before it stops. -/
theorem Logs.pair {sb : Superblock} {d : Dinode} {l : List Nat} {n p q : Nat} (hn : 0 < n)
    (hl : ∀ x ∈ l, IsBitmap sb x ∨ x = p ∨ x = q) : Logs sb d n l := by
  refine ⟨_, {p, q}, fun x hx => (hl x hx).imp id fun h => Or.inr (by simpa using h),
    fun _ => rfl, ?_⟩
  have := Finset.card_le_two (a := p) (b := q)
  omega

/-- **One round more.** -/
theorem Logs.round {sb : Superblock} {bn a n : Nat} {disk disk₁ : Disk} {d d₁ : Dinode}
    {l₁ l : List Nat} (hf : Filled sb (bmapSlots bn) disk d disk₁ d₁)
    (hl₁ : ∀ x ∈ l₁, IsBitmap sb x ∨ x = a ∨ (d₁.addr NDIRECT ≠ 0 ∧ x = d₁.addr NDIRECT))
    (hl : Logs sb d₁ n l) : Logs sb d (1 + n) (l₁ ++ [a] ++ l) := by
  obtain ⟨p, B, hmem, hp, hcard⟩ := hl
  refine ⟨p, insert a B, fun x hx => ?_, fun hne => ?_, ?_⟩
  · simp only [List.mem_append, List.mem_singleton] at hx
    rw [Finset.mem_insert]
    rcases hx with (hx | rfl) | hx
    · rcases hl₁ x hx with hb | rfl | ⟨hne, rfl⟩
      · exact Or.inl hb
      · exact Or.inr (Or.inr (Or.inl rfl))
      · exact Or.inr (Or.inl (hp hne))
    · exact Or.inr (Or.inr (Or.inl rfl))
    · exact (hmem x hx).imp id (Or.imp id Or.inr)
  · -- an indirect block that was there is there still
    rcases hf.indirect with hsame | ⟨h0, _⟩
    · rw [← hsame] at hne ⊢
      exact hp hne
    · exact absurd h0 hne
  · have := Finset.card_insert_le a B
    omega

theorem writeLoop_spec {fuel : Nat} {node : Nat → Dinode} {i off : Nat} {extra : Set Nat}
    {src : List UInt8} {F : Finset Nat} (hfuel : src.length ≤ fuel)
    (h : Ready s node i k extra) (hend : off + src.length ≤ MAXFILE * BSIZE)
    (hF : ∀ j, Touched off src.length j → j ∈ F) (hF' : ∀ j ∈ F, j < NSLOT)
    (hnone : freeCount s.sb.size (bit s.sb s.disk) < unmapped F s.disk (s.icache k).din →
      E outOfBlocks)
    (hbig : ∀ l, Logs s.sb (s.icache k).din (nblk off src.length) l →
      LogFull s.sb (absorbAll s.lh l).length → E tooBig) :
    Ensures (writeLoop k fuel off src) s E fun _ t => ∃ disk' d' l,
      t = s.put k disk' (absorbAll s.lh l) d' ∧
      Wrote s.sb s.disk (s.icache k).din off src disk' d' ∧
      Blocks s.sb disk' (upd node i d') extra ∧
      Logs s.sb (s.icache k).din (nblk off src.length) l := by
  induction fuel generalizing s off src with
  | zero =>
      obtain rfl : src = [] := List.length_eq_zero_iff.mp (by omega)
      exact ⟨_, _, [], by simp, Wrote.nil, h.blocks, logs_nil ..⟩
  | succ fuel ih =>
      by_cases h0 : src.length = 0
      · obtain rfl : src = [] := List.length_eq_zero_iff.mp h0
        exact ⟨_, _, [], by simp, Wrote.nil, h.blocks, logs_nil ..⟩
      have hn : 0 < src.length := by omega
      have hbn : off / BSIZE < MAXFILE := by simp only [BSIZE_eq, MAXFILE_eq] at *; omega
      have hnb := nblk_split off hn
      simp only [writeLoop, if_neg h0, ensures_bind]
      refine Ensures.next (bmap_spec (F := F) h hbn
        (fun j hj => hF j ⟨_, (touches_split hn).mpr (Or.inl rfl), hj⟩) hF' hnone
        fun l _ _ hl => hbig l (.pair (by omega) hl)) ?_
      rintro a t ⟨disk₁, d₁, l₁, rfl, rfl, hne, hf, hB₁, hl₁⟩
      simp only [bread, ensures_bind, ensures_get, ensures_pure, store, ensures_modify]
      -- the state after the copy
      have hw := Wrote.round h.blocks h.lt h.live hn hbn hf hB₁ hne
      have hd₁ : d₁.type ≠ 0 := by rw [hf.type_eq]; exact h.live
      refine Ensures.next (logWrite_spec h.out (hbig l₁ (.pair (by omega) fun x hx =>
        (hl₁ x hx).imp id (Or.imp id And.right)))) ?_
      intro _ t ht
      set a := bmapAddr disk₁ d₁ (off / BSIZE) with ha
      set disk₂ := upd disk₁ a ((disk₁ a).blit (off % BSIZE) (src.take (chunk off src.length)))
        with hdisk₂
      obtain ⟨hB₂, hslots₂, _⟩ := hB₁.store_data h.lt hd₁ hbn hne
        ((disk₁ a).blit (off % BSIZE) (src.take (chunk off src.length)))
      have hst : t = s.put k disk₂ (absorbAll s.lh (l₁ ++ [a])) d₁ := by
        rw [ht, absorbAll_append]; rfl
      clear ht
      subst hst
      have hready : Ready (s.put k disk₂ (absorbAll s.lh (l₁ ++ [a])) d₁) node i k extra :=
        ⟨h.geo, by simpa using hB₂, h.lt, by simpa using hd₁, by simpa using hf.fits h.fits, h.out⟩
      have hl : (src.drop (chunk off src.length)).length = src.length - chunk off src.length :=
        List.length_drop
      have hl' : (src.take (chunk off src.length)).length = chunk off src.length := by
        rw [List.length_take]; have := chunk_le off src.length; omega
      have hm := chunk_le off src.length
      have hpos := chunk_pos off hn
      refine Ensures.next (@ih _ (off + chunk off src.length)
        (src.drop (chunk off src.length)) (by omega) hready (by omega)
        (fun j hj => hF j ((touched_split hn).mpr (Or.inr (hl ▸ hj)))) ?_ ?_) ?_
      · intro hlt
        refine hnone (by_contra fun hle => ?_)
        have := hw.room F (fun j hj => hF j ?_) hF' (by omega)
        · simp only [St.put_icache, St.put_disk, St.put_sb] at hlt
          omega
        · rw [hl'] at hj
          obtain ⟨bn, ht, hj⟩ := hj
          rw [(touches_chunk hn).mp ht] at hj
          exact (touched_split hn).mpr (Or.inl hj)
      · intro l hlog hfull
        rw [St.put_lh, ← absorbAll_append] at hfull
        rw [St.put_icache, St.put_sb, hl] at hlog
        exact hbig _ (hnb ▸ hlog.round hf hl₁) hfull
      · rintro _ t ⟨disk₃, d₃, l₃, rfl, hw₃, hB₃, hlogs₃⟩
        simp only [St.put_icache, St.put_disk, St.put_sb, St.put_lh, St.put_put, hl]
          at hw₃ hB₃ hlogs₃ ⊢
        exact ⟨disk₃, d₃, l₁ ++ [a] ++ l₃, by rw [← absorbAll_append], hw.trans hn hbn hw₃, hB₃,
          hnb ▸ hlogs₃.round hf hl₁⟩

end Xv6.Fs
