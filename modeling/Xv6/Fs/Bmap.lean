import Xv6.Fs.Bitmap

/-!
# Fs — `bmap` enters free blocks into empty slots

One allocation enters a free, zeroed block into one empty slot of one
inode (`AddSlot`). `bmap` makes at most two: the indirect block and the
block itself. `Filled` is what any number of them leaves true: filled
slots stay as they are, and a block that was in use is not changed unless
it is the inode's own indirect block.
-/

namespace Xv6.Fs

open Lib

variable {sb : Superblock} {node : Nat → Dinode} {i : Nat} {disk disk' : Disk} {d d' : Dinode}
  {extra : Set Nat}

/-- Block `b` was free and is now in slot `j` of the inode, zeroed. -/
structure AddSlot (sb : Superblock) (disk : Disk) (d : Dinode) (j b : Nat) (disk' : Disk)
    (d' : Dinode) : Prop where
  lt : b < sb.size
  clear : bit sb disk b = false
  bits : ∀ c, c < sb.size → bit sb disk' c = (decide (c = b) || bit sb disk c)
  frame : ∀ c, ¬IsBitmap sb c → c ≠ b → (d.addr NDIRECT ≠ 0 → c ≠ d.addr NDIRECT) →
    disk' c = disk c
  slot_lt : j < NSLOT
  empty : slotAddr disk d j = 0
  slots : ∀ k, k < NSLOT → slotAddr disk' d' k = if k = j then b else slotAddr disk d k
  zero : disk' b = Bytes.zero BSIZE
  same : { d' with addrs := d.addrs } = d
  fits : d.Fits → d'.Fits

theorem AddSlot.type_eq {j b : Nat} (h : AddSlot sb disk d j b disk' d') : d'.type = d.type := by
  rw [← h.same]

/-- The inode under construction is allocated. -/
theorem live_upd (hi : i < sb.ninodes) (hd : d.type ≠ 0) : Live sb (upd node i d) i := by
  simp [Live, hi, hd]

theorem live_upd_of_ne {j : Nat} (h : j ≠ i) : Live sb (upd node i d) j ↔ Live sb node j := by
  simp only [Live, upd_of_ne h]

theorem Blocks.own_slot_range (h : Blocks sb disk (upd node i d) extra) (hi : i < sb.ninodes)
    (hd : d.type ≠ 0) {k : Nat} (hk : k < NSLOT) (h0 : slotAddr disk d k ≠ 0) :
    sb.nmeta ≤ slotAddr disk d k ∧ slotAddr disk d k < sb.size ∧
      bit sb disk (slotAddr disk d k) = true := by
  have hl : Live sb (upd node i d) i := live_upd hi hd
  have hr := h.range_slot (k := k) hl hk (by simpa using h0)
  have hb := h.bit_of_ref (k := (i, k)) (by rw [refs_of_live hl hk]; simpa using h0)
  rw [refs_of_live hl hk] at hb
  rw [upd_self] at hr hb
  exact ⟨hr.1, hr.2, hb⟩

theorem allocDisk_bit {b : Nat} (hlo : sb.nmeta ≤ b) {c : Nat} (hc : c < sb.size) :
    bit sb (allocDisk sb disk b) c = (decide (c = b) || bit sb disk c) := by
  have hnb : ¬IsBitmap sb b := fun hbm => by have := hbm.2; omega
  rw [allocDisk, bit_store hnb hc, bit_setBit]

theorem allocDisk_frame {b : Nat} (hb : b < sb.size) {c : Nat} (hc : ¬IsBitmap sb c)
    (hcb : c ≠ b) : allocDisk sb disk b c = disk c := by
  have hne : c ≠ BBLOCK b sb := fun he => hc (he ▸ BBLOCK_bitmap hb)
  rw [allocDisk, upd_of_ne hcb, upd_of_ne hne]

/-- Entering a block into `addrs`. -/
theorem slotAddr_setAddr {j b : Nat} (hj : j ≤ NDIRECT)
    (hind : d.addr NDIRECT ≠ 0 → disk' (d.addr NDIRECT) = disk (d.addr NDIRECT))
    (hnew : j = NDIRECT → d.addr NDIRECT = 0 ∧ disk' b = Bytes.zero BSIZE) (k : Nat) :
    slotAddr disk' (d.setAddr j b) k = if k = j then b else slotAddr disk d k := by
  by_cases hk : k ≤ NDIRECT
  · rw [slotAddr, if_pos hk]
    by_cases hkj : k = j
    · subst hkj
      rw [if_pos rfl, Dinode.addr_setAddr_self (by omega)]
    · rw [if_neg hkj, Dinode.addr_setAddr_of_ne hkj, slotAddr, if_pos hk]
  · rw [if_neg (by omega), slotAddr, if_neg hk, slotAddr, if_neg hk]
    by_cases hjn : j = NDIRECT
    · subst hjn
      obtain ⟨h0, hz⟩ := hnew rfl
      rw [Dinode.addr_setAddr_self (by omega), if_pos h0, hz]
      simp
    · rw [Dinode.addr_setAddr_of_ne (Ne.symm hjn)]
      by_cases h0 : d.addr NDIRECT = 0
      · simp [h0]
      · simp [h0, hind h0]

theorem addSlot_direct (h : Blocks sb disk (upd node i d) extra) (hgeo : sb.Geo)
    (hi : i < sb.ninodes) (hd : d.type ≠ 0) {j b : Nat} (hj : j ≤ NDIRECT) (h0 : d.addr j = 0)
    (hb : b < sb.size) (hclear : bit sb disk b = false) :
    AddSlot sb disk d j b (allocDisk sb disk b) (d.setAddr j b) := by
  obtain ⟨hlo, _, _⟩ := h.of_clear hb hclear
  have hslot : slotAddr disk d j = 0 := by rw [slotAddr, if_pos hj, h0]
  refine ⟨hb, hclear, fun c hc => allocDisk_bit hlo hc, fun c hc hcb _ => allocDisk_frame hb hc hcb,
    by simp only [NSLOT]; omega, hslot, fun k _ => slotAddr_setAddr hj (fun hne => ?_) ?_ k,
    by simp [allocDisk], rfl, fun hf => Dinode.setAddr_fits hf (by have := hgeo.size_lt; omega)⟩
  · have hs := slotAddr_indirect disk d
    obtain ⟨h1, h2, h3⟩ := h.own_slot_range hi hd (k := NDIRECT) (by decide) (by rwa [hs])
    rw [hs] at h1 h2 h3
    refine allocDisk_frame hb (fun hbm => ?_) (fun he => ?_)
    · have := hbm.2; omega
    · rw [he, hclear] at h3; cases h3
  · rintro rfl
    exact ⟨h0, by simp [allocDisk]⟩

/-- Entering a block into the indirect block. -/
theorem slotAddr_wr32 {e b : Nat} (h12 : d.addr NDIRECT ≠ 0) (he : e < NINDIRECT)
    (hb : b < 2 ^ 32) (hsame : disk' (d.addr NDIRECT) = (disk (d.addr NDIRECT)).wr32 (4 * e) b)
    (k : Nat) :
    slotAddr disk' d k = if k = NDIRECT + 1 + e then b else slotAddr disk d k := by
  by_cases hle : k ≤ NDIRECT
  · rw [slotAddr, if_pos hle, if_neg (by omega), slotAddr, if_pos hle]
  · simp only [slotAddr, if_neg hle, if_neg h12, hsame]
    by_cases hke : k = NDIRECT + 1 + e
    · rw [if_pos hke, hke, Nat.add_sub_cancel_left,
        Bytes.rd32_wr32 (by simp only [BSIZE_eq, NINDIRECT_eq] at *; omega), Nat.mod_eq_of_lt hb]
    · rw [if_neg hke, Bytes.rd32_wr32_out (by omega)]

theorem addSlot_entry (h : Blocks sb disk (upd node i d) extra) (hgeo : sb.Geo)
    (hi : i < sb.ninodes) (hd : d.type ≠ 0) {e b : Nat} (h12 : d.addr NDIRECT ≠ 0)
    (he : e < NINDIRECT) (h0 : slotAddr disk d (NDIRECT + 1 + e) = 0)
    (hb : b < sb.size) (hclear : bit sb disk b = false) :
    AddSlot sb disk d (NDIRECT + 1 + e) b
      (upd (allocDisk sb disk b) (d.addr NDIRECT)
        ((allocDisk sb disk b (d.addr NDIRECT)).wr32 (4 * e) b)) d := by
  obtain ⟨hlo, _, _⟩ := h.of_clear hb hclear
  have hs := slotAddr_indirect disk d
  obtain ⟨h1, h2, h3⟩ := h.own_slot_range hi hd (k := NDIRECT) (by decide) (by rwa [hs])
  rw [hs] at h1 h2 h3
  have hbm : ¬IsBitmap sb (d.addr NDIRECT) := fun hbm => by have := hbm.2; omega
  have hne : b ≠ d.addr NDIRECT := fun he => by rw [← he, hclear] at h3; cases h3
  have hind : allocDisk sb disk b (d.addr NDIRECT) = disk (d.addr NDIRECT) :=
    allocDisk_frame hb hbm (Ne.symm hne)
  refine ⟨hb, hclear, fun c hc => ?_, fun c hc hcb hci => ?_, by simp only [NSLOT]; omega, h0,
    fun k _ => slotAddr_wr32 h12 he (by have := hgeo.size_lt; omega) ?_ k, ?_, rfl, id⟩
  · rw [bit_store hbm hc, allocDisk_bit hlo hc]
  · rw [upd_of_ne (hci h12), allocDisk_frame hb hc hcb]
  · rw [upd_self, hind]
  · rw [upd_of_ne hne, allocDisk, upd_self]

/-- **An allocation keeps the ownership invariant.** -/
theorem AddSlot.blocks {j b : Nat} (ha : AddSlot sb disk d j b disk' d')
    (h : Blocks sb disk (upd node i d) extra) (hi : i < sb.ninodes) (hd : d.type ≠ 0) :
    Blocks sb disk' (upd node i d') extra := by
  obtain ⟨hlo, hxtra, _⟩ := h.of_clear ha.lt ha.clear
  have hl : Live sb (upd node i d) i := live_upd hi hd
  have hl' : Live sb (upd node i d') i := live_upd hi (by rw [ha.type_eq]; exact hd)
  have h0 : refs sb disk (upd node i d) (i, j) = 0 := by
    rw [refs_of_live hl ha.slot_lt, upd_self]
    exact ha.empty
  have hmark := Owned.alloc h ha.lt ha.clear ha.bits
  have hatt := hmark.attach (Set.mem_insert b extra) h0
  rw [Set.insert_sdiff_self_of_notMem hxtra] at hatt
  refine hatt.congr (fun _ _ => rfl) ?_
  rintro ⟨i', k⟩
  by_cases hii : i' = i
  · subst hii
    by_cases hk : k < NSLOT
    · rw [refs_of_live hl' hk, upd_self, ha.slots k hk]
      by_cases hkj : k = j
      · subst hkj; simp
      · rw [if_neg hkj, upd_of_ne (by simp [hkj]), refs_of_live hl hk, upd_self]
    · have hkj : k ≠ j := fun he => hk (he ▸ ha.slot_lt)
      rw [upd_of_ne (by simp [hkj])]
      simp [refs, hk]
  · rw [upd_of_ne (by simp [hii])]
    by_cases hlive : Live sb node i' ∧ k < NSLOT
    · have hi1 : Live sb (upd node i d) i' := (live_upd_of_ne hii).mpr hlive.1
      have hi2 : Live sb (upd node i d') i' := (live_upd_of_ne hii).mpr hlive.1
      rw [refs_of_live hi1 hlive.2, refs_of_live hi2 hlive.2, upd_of_ne hii, upd_of_ne hii]
      refine slotAddr_congr (fun hne => ?_) k
      have hi3 := h.indirect hi1 (by rwa [upd_of_ne hii])
      rw [upd_of_ne hii] at hi3
      refine ha.frame _ (fun hbm => ?_) (fun he => ?_) (fun _ he => hii ?_)
      · have := hbm.2; omega
      · rw [he, ha.clear] at hi3; exact absurd hi3.2.2 (by decide)
      · have hs1 := slotAddr_indirect disk (upd node i d i')
        have hs2 := slotAddr_indirect disk (upd node i d i)
        rw [upd_of_ne hii] at hs1
        rw [upd_self] at hs2
        exact (h.inj_slot (k := NDIRECT) (l := NDIRECT) hi1 hl (by decide) (by decide)
          (by rw [upd_of_ne hii, hs1]; exact hne)
          (by rw [upd_of_ne hii, upd_self, hs1, hs2, he])).1
    · have h1 : ¬(Live sb (upd node i d) i' ∧ k < NSLOT) := by rwa [live_upd_of_ne hii]
      have h2 : ¬(Live sb (upd node i d') i' ∧ k < NSLOT) := by rwa [live_upd_of_ne hii]
      simp only [refs, if_neg h1, if_neg h2]

/-! ## Any number of allocations -/

/-- How many slots of `F` are empty. -/
def unmapped (F : Finset Nat) (disk : Disk) (d : Dinode) : Nat :=
  (F.filter fun k => slotAddr disk d k = 0).card

/-- Empty slots that meet `T` may have been filled with free blocks. -/
structure Filled (sb : Superblock) (T : Nat → Prop) (disk : Disk) (d : Dinode) (disk' : Disk)
    (d' : Dinode) : Prop where
  slots : ∀ k, k < NSLOT → slotAddr disk d k ≠ 0 ∨ ¬T k → slotAddr disk' d' k = slotAddr disk d k
  new : ∀ k, k < NSLOT → slotAddr disk d k = 0 → slotAddr disk' d' k ≠ 0 →
    slotAddr disk' d' k < sb.size ∧ bit sb disk (slotAddr disk' d' k) = false
  zero : ∀ k, k < NSLOT → k ≠ NDIRECT → slotAddr disk d k = 0 → slotAddr disk' d' k ≠ 0 →
    disk' (slotAddr disk' d' k) = Bytes.zero BSIZE
  frame : ∀ c, ¬IsBitmap sb c → (c < sb.size → bit sb disk c = true) →
    (d.addr NDIRECT ≠ 0 → c ≠ d.addr NDIRECT) → disk' c = disk c
  bits : ∀ c, c < sb.size → bit sb disk c = true → bit sb disk' c = true
  same : { d' with addrs := d.addrs } = d
  fits : d.Fits → d'.Fits
  room : ∀ F : Finset Nat, (∀ k, T k → k ∈ F) → (∀ k ∈ F, k < NSLOT) →
    unmapped F disk d ≤ freeCount sb.size (bit sb disk) →
    unmapped F disk' d' ≤ freeCount sb.size (bit sb disk')

theorem Filled.refl (T : Nat → Prop) : Filled sb T disk d disk d where
  slots _ _ _ := rfl
  new _ _ h0 hne := absurd h0 hne
  zero _ _ _ h0 hne := absurd h0 hne
  frame _ _ _ _ := rfl
  bits _ _ h := h
  same := rfl
  fits h := h
  room _ _ _ h := h

theorem Filled.type_eq {T : Nat → Prop} (h : Filled sb T disk d disk' d') : d'.type = d.type := by
  rw [← h.same]

theorem Filled.mono {T T' : Nat → Prop} (h : Filled sb T disk d disk' d') (hT : ∀ k, T k → T' k) :
    Filled sb T' disk d disk' d' :=
  { h with
    slots := fun k hk hor => h.slots k hk (hor.imp id fun hn ht => hn (hT k ht))
    room := fun F hF => h.room F fun k hk => hF k (hT k hk) }

/-- One allocation uses one free block and fills one empty slot. -/
theorem AddSlot.room {j b : Nat} (ha : AddSlot sb disk d j b disk' d')
    (hpos : b ≠ 0) {F : Finset Nat} (hF : j ∈ F) (hF' : ∀ k ∈ F, k < NSLOT) :
    unmapped F disk' d' + 1 = unmapped F disk d ∧
      freeCount sb.size (bit sb disk') + 1 = freeCount sb.size (bit sb disk) := by
  refine ⟨?_, freeCount_alloc ha.lt ha.clear ha.bits⟩
  have hset : (F.filter fun k => slotAddr disk' d' k = 0) =
      (F.filter fun k => slotAddr disk d k = 0).erase j := by
    ext k
    simp only [Finset.mem_filter, Finset.mem_erase]
    constructor
    · rintro ⟨hk, h0⟩
      rw [ha.slots k (hF' k hk)] at h0
      by_cases hkj : k = j
      · rw [if_pos hkj] at h0; exact absurd h0 hpos
      · rw [if_neg hkj] at h0; exact ⟨hkj, hk, h0⟩
    · rintro ⟨hkj, hk, h0⟩
      rw [ha.slots k (hF' k hk), if_neg hkj]
      exact ⟨hk, h0⟩
  unfold unmapped
  rw [hset]
  exact Finset.card_erase_add_one (Finset.mem_filter.mpr ⟨hF, ha.empty⟩)

theorem AddSlot.filled {j b : Nat} (ha : AddSlot sb disk d j b disk' d') (hpos : b ≠ 0)
    {T : Nat → Prop} (hT : T j) : Filled sb T disk d disk' d' where
  slots k hk hor := by
    have hkj : k ≠ j := by
      rintro rfl
      exact hor.elim (fun hne => hne ha.empty) fun hn => hn hT
    rw [ha.slots k hk, if_neg hkj]
  new k hk h0 hne := by
    rw [ha.slots k hk] at hne ⊢
    by_cases hkj : k = j
    · rw [if_pos hkj]; exact ⟨ha.lt, ha.clear⟩
    · rw [if_neg hkj] at hne; exact absurd h0 hne
  zero k hk _ h0 hne := by
    rw [ha.slots k hk] at hne ⊢
    by_cases hkj : k = j
    · rw [if_pos hkj]; exact ha.zero
    · rw [if_neg hkj] at hne; exact absurd h0 hne
  frame c hc hset hind := by
    refine ha.frame c hc ?_ hind
    rintro rfl
    rw [ha.clear] at hset
    exact absurd (hset ha.lt) (by decide)
  bits c hc hset := by rw [ha.bits c hc, hset, Bool.or_true]
  same := ha.same
  fits := ha.fits
  room F hF hF' hle := by
    obtain ⟨h1, h2⟩ := ha.room hpos (hF j hT) hF'
    omega

/-- The indirect block is the one from before, or a new one. -/
theorem Filled.indirect {T : Nat → Prop} (h : Filled sb T disk d disk' d') :
    d'.addr NDIRECT = d.addr NDIRECT ∨ (d.addr NDIRECT = 0 ∧ d'.addr NDIRECT < sb.size ∧
      bit sb disk (d'.addr NDIRECT) = false) := by
  have h1 := h.slots NDIRECT (by decide)
  have h2 := h.new NDIRECT (by decide)
  rw [slotAddr_indirect, slotAddr_indirect] at h1 h2
  by_cases h0 : d.addr NDIRECT = 0
  · by_cases h0' : d'.addr NDIRECT = 0
    · exact Or.inl (h0'.trans h0.symm)
    · exact Or.inr ⟨h0, h2 h0 h0'⟩
  · exact Or.inl (h1 (Or.inl h0))

theorem Filled.trans {T : Nat → Prop} {disk₂ : Disk} {d₂ : Dinode}
    (h₁ : Filled sb T disk d disk' d') (h₂ : Filled sb T disk' d' disk₂ d₂)
    (hB : Blocks sb disk' (upd node i d') extra) (hi : i < sb.ninodes) (hd : d'.type ≠ 0) :
    Filled sb T disk d disk₂ d₂ where
  slots k hk hor := by
    have h := h₁.slots k hk hor
    rw [h₂.slots k hk (hor.imp (fun hne => by rwa [h]) id), h]
  new k hk h0 hne := by
    by_cases h1 : slotAddr disk' d' k = 0
    · obtain ⟨hlt, hclear⟩ := h₂.new k hk h1 hne
      refine ⟨hlt, ?_⟩
      by_contra hset
      rw [h₁.bits _ hlt (by simpa using hset)] at hclear
      cases hclear
    · rw [h₂.slots k hk (Or.inl h1)]
      exact h₁.new k hk h0 h1
  zero k hk hk12 h0 hne := by
    by_cases h1 : slotAddr disk' d' k = 0
    · exact h₂.zero k hk hk12 h1 hne
    · rw [h₂.slots k hk (Or.inl h1)]
      obtain ⟨hlo, _, hset⟩ := hB.own_slot_range hi hd hk h1
      rw [h₂.frame _ (fun hbm => by have := hbm.2; omega) (fun _ => hset) ?_]
      · exact h₁.zero k hk hk12 h0 h1
      · -- a slot and the indirect block are different slots
        intro _ he
        have hl : Live sb (upd node i d') i := live_upd hi hd
        refine hk12 (hB.inj_slot (l := NDIRECT) hl hl hk (by decide) ?_ ?_).2
        · rwa [upd_self]
        · rw [upd_self, slotAddr_indirect, he]
  frame c hc hset hind := by
    have hset' : c < sb.size → bit sb disk' c = true := fun hlt => h₁.bits c hlt (hset hlt)
    rw [h₂.frame c hc hset' ?_, h₁.frame c hc hset hind]
    intro hne he
    rcases h₁.indirect with hsame | ⟨_, hlt, hclear⟩
    · exact hind (hsame ▸ hne) (he.trans hsame)
    · rw [← he] at hlt hclear
      rw [hset hlt] at hclear
      cases hclear
  bits c hc hset := h₂.bits c hc (h₁.bits c hc hset)
  same := by
    have h1 := h₁.same
    rw [← h₂.same] at h1
    exact h1
  fits hf := h₂.fits (h₁.fits hf)
  room F hF hF' hle := h₂.room F hF hF' (h₁.room F hF hF' hle)

/-! ## The log list -/

/-- `log.lh` after the blocks of a list were logged. -/
def absorbAll (lh l : List Nat) : List Nat := l.foldl absorb lh

@[simp] theorem absorbAll_nil (lh : List Nat) : absorbAll lh [] = lh := rfl

theorem absorbAll_append (lh l m : List Nat) :
    absorbAll lh (l ++ m) = absorbAll (absorbAll lh l) m := List.foldl_append

/-- Logging again what is logged adds nothing: only distinct blocks count. -/
theorem length_absorbAll_le (lh l : List Nat) {B : Finset Nat} (hB : ∀ x ∈ l, x ∈ lh ∨ x ∈ B) :
    (absorbAll lh l).length ≤ lh.length + B.card := by
  induction l generalizing lh B with
  | nil => exact Nat.le_add_right ..
  | cons b l ih =>
      rw [List.forall_mem_cons] at hB
      show (absorbAll (absorb lh b) l).length ≤ _
      by_cases hb : b ∈ lh
      · rw [absorb, if_pos hb]
        exact ih lh hB.2
      · have hmem := hB.1.resolve_left hb
        have hpos := Finset.card_pos.mpr ⟨b, hmem⟩
        have hlen := ih (lh ++ [b]) (B := B.erase b) fun x hx => by
          by_cases hxb : x = b
          · simp [hxb]
          · simpa [hxb] using hB.2 x hx
        rw [Finset.card_erase_of_mem hmem, List.length_append, List.length_singleton] at hlen
        rw [absorb, if_neg hb]
        omega

/-! ## `bmap` -/

/-- The state with the disk, the log list and the inode in entry `k`
replaced. -/
def St.put (s : St) (k : Fin NINODE) (disk : Disk) (lh : List Nat) (d : Dinode) : St :=
  { s with disk := disk, lh := lh, icache := upd s.icache k { s.icache k with din := d } }

@[simp] theorem St.put_sb (s : St) (k : Fin NINODE) (disk : Disk) (lh : List Nat) (d : Dinode) :
    (s.put k disk lh d).sb = s.sb := rfl

@[simp] theorem St.put_disk (s : St) (k : Fin NINODE) (disk : Disk) (lh : List Nat) (d : Dinode) :
    (s.put k disk lh d).disk = disk := rfl

@[simp] theorem St.put_lh (s : St) (k : Fin NINODE) (disk : Disk) (lh : List Nat) (d : Dinode) :
    (s.put k disk lh d).lh = lh := rfl

@[simp] theorem St.put_icache (s : St) (k : Fin NINODE) (disk : Disk) (lh : List Nat)
    (d : Dinode) : (s.put k disk lh d).icache k = { s.icache k with din := d } := by
  simp [St.put]

@[simp] theorem St.put_put (s : St) (k : Fin NINODE) (disk disk' : Disk) (lh lh' : List Nat)
    (d d' : Dinode) : (s.put k disk lh d).put k disk' lh' d' = s.put k disk' lh' d' := by
  simp [St.put]

/-- Only the disk and the log list replaced. -/
theorem St.put_din (s : St) (k : Fin NINODE) (disk : Disk) (lh : List Nat) :
    s.put k disk lh (s.icache k).din = { s with disk := disk, lh := lh } := by
  simp [St.put]

@[simp] theorem St.put_self (s : St) (k : Fin NINODE) :
    s.put k s.disk s.lh (s.icache k).din = s := by
  rw [St.put_din]

/-- The slots `bmap` may fill for block `bn`. -/
def bmapSlots (bn k : Nat) : Prop := k = bmapSlot bn ∨ (NDIRECT ≤ bn ∧ k = NDIRECT)

section Bmap

variable {s : St} {E : Stop → Prop} {k : Fin NINODE}

/-- `balloc` called to fill the empty slot `j` of `F`: it stops only if
there are fewer free blocks than empty slots. -/
theorem balloc_for_slot {F : Finset Nat} {j : Nat} (hout : 1 ≤ s.outstanding)
    (hj : j ∈ F) (h0 : slotAddr s.disk d j = 0)
    (hnone : freeCount s.sb.size (bit s.sb s.disk) < unmapped F s.disk d → E outOfBlocks)
    (hbig : ∀ l p, (∀ x ∈ l, IsBitmap s.sb x ∨ x = p) →
      LogFull s.sb (absorbAll s.lh l).length → E tooBig) :
    Ensures balloc s E fun b t =>
      b < s.sb.size ∧ bit s.sb s.disk b = false ∧
      t = { s with disk := allocDisk s.sb s.disk b, lh := absorbAll s.lh [BBLOCK b s.sb, b] } := by
  rcases allSet_or_firstClear s with hall | ⟨b, hb⟩
  · have hfree : freeCount s.sb.size (bit s.sb s.disk) = 0 := by
      rw [freeCount, Finset.card_eq_zero, Finset.filter_eq_empty_iff]
      intro c hc
      rw [hall c (Finset.mem_range.mp hc)]
      decide
    have hun : 0 < unmapped F s.disk d := Finset.card_pos.mpr ⟨j, Finset.mem_filter.mpr ⟨hj, h0⟩⟩
    rw [Ensures, balloc_allSet hall]
    exact hnone (by omega)
  · have hfull : LogFull s.sb (absorb s.lh (BBLOCK b s.sb)).length → E tooBig :=
      hbig [BBLOCK b s.sb] 0 (by simpa using Or.inl (BBLOCK_bitmap hb.lt))
    rw [Ensures, balloc_firstClear hb]
    show Ensures (takeBlock b) s E _
    simp only [takeBlock, bzero, store, ensures_bind, ensures_get, ensures_modify, ensures_pure]
    refine Ensures.next (logWrite_spec hout fun hf => hfull (hf.mono (le_length_absorb ..))) ?_
    rintro _ t rfl
    refine Ensures.next (logWrite_spec hout hfull) ?_
    rintro _ t rfl
    exact ⟨hb.lt, hb.clear, rfl⟩

/-- Inside a transaction, the inode in cache entry `k` is inode `i`, and
the blocks are owned as it and the inodes of `node` say. -/
structure Ready (s : St) (node : Nat → Dinode) (i : Nat) (k : Fin NINODE) (extra : Set Nat) :
    Prop where
  geo : s.sb.Geo
  blocks : Blocks s.sb s.disk (upd node i (s.icache k).din) extra
  lt : i < s.sb.ninodes
  live : (s.icache k).din.type ≠ 0
  fits : (s.icache k).din.Fits
  out : 1 ≤ s.outstanding

/-- What filling slots leaves. -/
theorem Ready.filled (h : Ready s node i k extra) {T : Nat → Prop} (lh : List Nat)
    (hf : Filled s.sb T s.disk (s.icache k).din disk' d')
    (hB : Blocks s.sb disk' (upd node i d') extra) :
    Ready (s.put k disk' lh d') node i k extra where
  geo := h.geo
  blocks := by simpa using hB
  lt := h.lt
  live := by simpa [hf.type_eq] using h.live
  fits := by simpa using hf.fits h.fits
  out := h.out

theorem Blocks.pos_of_clear {b : Nat} (h : Blocks sb disk node extra) (hb : b < sb.size)
    (hclear : bit sb disk b = false) : b ≠ 0 := by
  have := (h.of_clear hb hclear).1
  have := h.pos
  omega

theorem bmapIndirect_spec {F : Finset Nat} (h : Ready s node i k extra) (hF : NDIRECT ∈ F)
    (hnone : freeCount s.sb.size (bit s.sb s.disk) < unmapped F s.disk (s.icache k).din →
      E outOfBlocks)
    (hbig : ∀ l p, (∀ x ∈ l, IsBitmap s.sb x ∨ x = p) →
      LogFull s.sb (absorbAll s.lh l).length → E tooBig) :
    Ensures (bmapIndirect k) s E fun ind t => ∃ disk' d' l,
      t = s.put k disk' (absorbAll s.lh l) d' ∧ ind = d'.addr NDIRECT ∧ ind ≠ 0 ∧
      Filled s.sb (· = NDIRECT) s.disk (s.icache k).din disk' d' ∧
      Blocks s.sb disk' (upd node i d') extra ∧
      ∀ x ∈ l, IsBitmap s.sb x ∨ x = ind := by
  simp only [bmapIndirect, ensures_bind, ensures_get]
  split
  · rename_i h0
    have hslot : slotAddr s.disk (s.icache k).din NDIRECT = 0 := by rw [slotAddr_indirect, h0]
    simp only [ensures_bind]
    refine Ensures.next (balloc_for_slot h.out hF hslot hnone hbig) ?_
    rintro b t ⟨hb, hclear, rfl⟩
    have ha := addSlot_direct h.blocks h.geo h.lt h.live (Nat.le_refl _) h0 hb hclear
    have hpos := h.blocks.pos_of_clear hb hclear
    refine ⟨_, _, [BBLOCK b s.sb, b], rfl, ?_, hpos, ha.filled hpos rfl,
      ha.blocks h.blocks h.lt h.live, by simpa using Or.inl (BBLOCK_bitmap hb)⟩
    exact (Dinode.addr_setAddr_self (by decide)).symm
  · rename_i h0
    exact ⟨s.disk, (s.icache k).din, [], by simp, rfl, h0, Filled.refl _, h.blocks, by simp⟩

/-- A block that is mapped is found. -/
theorem bmap_mapped {bn : Nat} (hbn : bn < MAXFILE)
    (h0 : bmapAddr s.disk (s.icache k).din bn ≠ 0) :
    Ensures (bmap k bn) s E fun a t => a = bmapAddr s.disk (s.icache k).din bn ∧ t = s := by
  simp only [bmap, ensures_bind, ensures_get]
  by_cases hd : bn < NDIRECT
  · rw [bmapAddr_direct _ _ hd] at h0 ⊢
    simp only [if_pos hd, if_neg h0, ensures_pure, and_self]
  · rw [bmapAddr_indirect _ _ hd] at h0 ⊢
    have h12 : (s.icache k).din.addr NDIRECT ≠ 0 := fun he => h0 (if_pos he)
    rw [if_neg h12] at h0 ⊢
    have hlt : bn - NDIRECT < NINDIRECT := by simp only [MAXFILE] at hbn; omega
    simp only [if_neg hd, if_pos hlt, bmapIndirect, ensures_bind, ensures_get, if_neg h12,
      ensures_pure, bread, if_neg h0, and_self]

/-- **`bmap`** returns the block of file block `bn`, which is the one that
was there, or a free one that is entered. -/
theorem bmap_spec {F : Finset Nat} {bn : Nat} (h : Ready s node i k extra) (hbn : bn < MAXFILE)
    (hF : ∀ j, bmapSlots bn j → j ∈ F) (hF' : ∀ j ∈ F, j < NSLOT)
    (hnone : freeCount s.sb.size (bit s.sb s.disk) < unmapped F s.disk (s.icache k).din →
      E outOfBlocks)
    (hbig : ∀ l p q, (∀ x ∈ l, IsBitmap s.sb x ∨ x = p ∨ x = q) →
      LogFull s.sb (absorbAll s.lh l).length → E tooBig) :
    Ensures (bmap k bn) s E fun a t => ∃ disk' d' l,
      t = s.put k disk' (absorbAll s.lh l) d' ∧ a = bmapAddr disk' d' bn ∧ a ≠ 0 ∧
      Filled s.sb (bmapSlots bn) s.disk (s.icache k).din disk' d' ∧
      Blocks s.sb disk' (upd node i d') extra ∧
      ∀ x ∈ l, IsBitmap s.sb x ∨ x = a ∨ (d'.addr NDIRECT ≠ 0 ∧ x = d'.addr NDIRECT) := by
  by_cases h0 : bmapAddr s.disk (s.icache k).din bn = 0
  swap
  · refine Ensures.next (bmap_mapped hbn h0) ?_
    rintro a t ⟨rfl, rfl⟩
    exact ⟨_, _, [], by simp, rfl, h0, Filled.refl _, h.blocks, by simp⟩
  simp only [bmap, ensures_bind, ensures_get]
  by_cases hd : bn < NDIRECT
  · have hslot : bmapSlot bn = bn := if_pos hd
    have haddr : (s.icache k).din.addr bn = 0 := by rwa [bmapAddr_direct _ _ hd] at h0
    simp only [if_pos hd, if_pos haddr, ensures_bind]
    refine Ensures.next (balloc_for_slot (F := F) h.out (hF _ (Or.inl rfl)) h0 hnone
      fun l p hl hfull => hbig l p p (fun x hx => (hl x hx).imp id Or.inl) hfull) ?_
    rintro b t ⟨hb, hclear, rfl⟩
    have ha := addSlot_direct h.blocks h.geo h.lt h.live (Nat.le_of_lt hd) haddr hb hclear
    have hpos := h.blocks.pos_of_clear hb hclear
    have hab : bmapAddr (allocDisk s.sb s.disk b) ((s.icache k).din.setAddr bn b) bn = b := by
      rw [bmapAddr, hslot, ha.slots bn ha.slot_lt, if_pos rfl]
    refine ⟨_, _, [BBLOCK b s.sb, b], rfl, hab.symm, hpos, ha.filled hpos (Or.inl hslot.symm),
      ha.blocks h.blocks h.lt h.live, by simpa using Or.inl (BBLOCK_bitmap hb)⟩
  · have hge : NDIRECT ≤ bn := by omega
    have hlt : bn - NDIRECT < NINDIRECT := by simp only [MAXFILE] at hbn; omega
    have hslot : bmapSlot bn = NDIRECT + 1 + (bn - NDIRECT) := by
      rw [bmapSlot, if_neg hd]; omega
    simp only [if_neg hd, if_pos hlt, ensures_bind]
    refine Ensures.next (bmapIndirect_spec h (hF _ (Or.inr ⟨hge, rfl⟩)) hnone
      fun l p hl hfull => hbig l p p (fun x hx => (hl x hx).imp id Or.inl) hfull) ?_
    rintro _ t ⟨disk1, d1, l1, rfl, rfl, hne, hf1, hB1, hl1⟩
    -- the entry of `bn` is still empty
    have hj : bmapSlot bn < NSLOT := bmapSlot_lt hbn
    have hfill1 : Filled s.sb (bmapSlots bn) s.disk (s.icache k).din disk1 d1 :=
      hf1.mono fun j hj => Or.inr ⟨hge, hj⟩
    have hent : slotAddr disk1 d1 (bmapSlot bn) = 0 := by
      rw [hf1.slots _ hj (Or.inr (bmapSlot_ne_indirect bn))]; exact h0
    have hrd : (disk1 (d1.addr NDIRECT)).rd32 (4 * (bn - NDIRECT)) = 0 := by
      have := hent
      rwa [← bmapAddr, bmapAddr_indirect _ _ hd, if_neg hne] at this
    have h1 := h.filled (absorbAll s.lh l1) hf1 hB1
    simp only [bread, ensures_bind, ensures_get, ensures_pure]
    refine ensures_ite.mpr ⟨fun _ => ?_, fun hn => absurd hrd hn⟩
    simp only [ensures_bind, ensures_get, ensures_pure]
    refine Ensures.next (balloc_for_slot (F := F) (j := bmapSlot bn)
      (d := ((s.put k disk1 (absorbAll s.lh l1) d1).icache k).din)
      h1.out (hF _ (Or.inl rfl)) (by simpa using hent) (fun hlt => ?_) (fun l p hl hfull => ?_)) ?_
    · refine hnone (by_contra fun hle => ?_)
      have := hfill1.room F hF hF' (by omega)
      simp only [St.put_icache, St.put_disk, St.put_sb] at hlt
      omega
    · rw [St.put_lh, ← absorbAll_append] at hfull
      refine hbig (l1 ++ l) (d1.addr NDIRECT) p (fun x hx => ?_) hfull
      rcases List.mem_append.mp hx with hx | hx
      · exact (hl1 x hx).imp id Or.inl
      · exact (hl x hx).imp id Or.inr
    rintro b t ⟨hb, hclear, rfl⟩
    have hent' : slotAddr disk1 d1 (NDIRECT + 1 + (bn - NDIRECT)) = 0 := by rw [← hslot]; exact hent
    have ha := addSlot_entry hB1 h.geo h.lt (by simpa using h1.live) hne hlt hent' hb hclear
    have hpos : b ≠ 0 := hB1.pos_of_clear hb hclear
    simp only [store, ensures_modify]
    refine Ensures.next (logWrite_spec h.out fun hfull => ?_) ?_
    · rw [St.put_lh, ← absorbAll_append] at hfull
      refine hbig (l1 ++ [BBLOCK b s.sb, b]) (d1.addr NDIRECT) b (fun x hx => ?_) hfull
      rcases List.mem_append.mp hx with hx | hx
      · exact (hl1 x hx).imp id Or.inl
      · rcases List.mem_cons.mp hx with rfl | hx
        · exact Or.inl (BBLOCK_bitmap hb)
        · exact Or.inr (Or.inr (List.mem_singleton.mp hx))
    rintro _ t rfl
    have hab := ha.slots _ ha.slot_lt
    rw [if_pos rfl, ← hslot] at hab
    refine ⟨_, d1, l1 ++ [BBLOCK b s.sb, b, d1.addr NDIRECT], ?_, hab.symm, hpos,
      hfill1.trans (ha.filled hpos (Or.inl hslot.symm)) hB1 h.lt (by simpa using h1.live),
      ha.blocks hB1 h.lt (by simpa using h1.live), fun x hx => ?_⟩
    · rw [absorbAll_append]; rfl
    · rcases List.mem_append.mp hx with hx | hx
      · exact (hl1 x hx).imp id fun he => Or.inr ⟨hne, he⟩
      · simp only [List.mem_cons, List.not_mem_nil, or_false] at hx
        rcases hx with rfl | rfl | rfl
        · exact Or.inl (BBLOCK_bitmap hb)
        · exact Or.inr (Or.inl rfl)
        · exact Or.inr (Or.inr ⟨hne, rfl⟩)

end Bmap

end Xv6.Fs
