import Xv6.Fs.Layout
import Xv6.Lib.Ownership

/-!
# Fs — who owns which block

The geometry `mkfs` gives an image, the free bitmap, and the block
addresses of the inodes as slots: slots 0 to 11 of an inode are its
direct blocks, slot 12 its indirect block, and slots 13 to 140 the
entries of the indirect block. `Blocks` is the ownership invariant of
`Lib.Ownership` for these slots. The inodes are a parameter, because
inside `writei` and `itrunc` the inode in memory is ahead of the disk.

What the code does to the disk is then one of four things: it marks and
zeroes a free block, enters a block into an empty slot, changes a data
block, or clears a bit.
-/

namespace Xv6.Fs

open Lib

/-! ## Geometry -/

/-- The number of metadata blocks: boot, super, log, inodes, bitmap. -/
def Superblock.nmeta (sb : Superblock) : Nat := sb.bmapstart + sb.size / BPB + 1

/-- The layout `mkfs` computes. -/
structure Superblock.Geo (sb : Superblock) : Prop where
  logstart : sb.logstart = 2
  inodestart : sb.inodestart = 2 + sb.nlog
  bmapstart : sb.bmapstart = sb.inodestart + sb.ninodes / IPB + 1
  nmeta_le : sb.nmeta ≤ sb.size
  size_lt : sb.size < 2 ^ 32
  ninodes_le : sb.ninodes ≤ 2 ^ 16
  root : ROOTINO < sb.ninodes

/-- A block of the free bitmap. -/
def IsBitmap (sb : Superblock) (b : Nat) : Prop := sb.bmapstart ≤ b ∧ b < sb.nmeta

section Geometry

variable {sb : Superblock}

theorem BBLOCK_bitmap {b : Nat} (hb : b < sb.size) : IsBitmap sb (BBLOCK b sb) := by
  simp only [IsBitmap, BBLOCK, Superblock.nmeta, BPB_eq]
  omega

theorem Superblock.Geo.IBLOCK_lt (h : sb.Geo) {i : Nat} (hi : i < sb.ninodes) :
    sb.inodestart ≤ IBLOCK i sb ∧ IBLOCK i sb < sb.bmapstart := by
  have h2 := h.bmapstart
  simp only [IBLOCK, IPB_eq] at *
  omega

theorem Superblock.Geo.bmapstart_lt (_ : sb.Geo) : sb.bmapstart < sb.nmeta := by
  simp only [Superblock.nmeta, BPB_eq]; omega

/-- Metadata that is not bitmap: the boot, super, log and inode blocks. -/
theorem Superblock.Geo.one_lt (h : sb.Geo) : 1 < sb.bmapstart := by
  have h1 := h.inodestart
  have h2 := h.bmapstart
  simp only [IPB_eq] at h2
  omega

end Geometry

/-! ## The bitmap -/

/-- The bitmap bit of block `b`. -/
def bit (sb : Superblock) (disk : Disk) (b : Nat) : Bool :=
  (disk (BBLOCK b sb)).testBit (b % BPB)

theorem bit_store {sb : Superblock} {disk : Disk} {b : Nat} {v : Block} (hb : ¬IsBitmap sb b)
    {c : Nat} (hc : c < sb.size) : bit sb (upd disk b v) c = bit sb disk c := by
  have hne : BBLOCK c sb ≠ b := fun he => hb (he ▸ BBLOCK_bitmap hc)
  rw [bit, bit, upd_of_ne hne]

theorem mod_BPB_div_lt (b : Nat) : b % BPB / 8 < BSIZE := by
  have h : b % BPB < BPB := Nat.mod_lt _ (by decide)
  simp only [BPB] at h ⊢
  omega

theorem same_bit {b c : Nat} {sb : Superblock} (h : BBLOCK c sb = BBLOCK b sb) :
    c % BPB = b % BPB ↔ c = b := by
  have h' : c / BPB = b / BPB := by simpa [BBLOCK] using h
  constructor
  · intro hm
    rw [← Nat.div_add_mod c BPB, ← Nat.div_add_mod b BPB, h', hm]
  · rintro rfl; rfl

theorem bit_setBit (sb : Superblock) (disk : Disk) (b c : Nat) :
    bit sb (upd disk (BBLOCK b sb) ((disk (BBLOCK b sb)).setBit (b % BPB))) c =
      (decide (c = b) || bit sb disk c) := by
  by_cases h : BBLOCK c sb = BBLOCK b sb
  · rw [bit, h, upd_self, Bytes.testBit_setBit _ (mod_BPB_div_lt b)]
    simp only [same_bit h, bit, h]
  · have hne : c ≠ b := fun he => h (by rw [he])
    rw [bit, upd_of_ne h]
    simp [hne, bit]

theorem bit_clearBit (sb : Superblock) (disk : Disk) (b c : Nat) :
    bit sb (upd disk (BBLOCK b sb) ((disk (BBLOCK b sb)).clearBit (b % BPB))) c =
      (!decide (c = b) && bit sb disk c) := by
  by_cases h : BBLOCK c sb = BBLOCK b sb
  · rw [bit, h, upd_self, Bytes.testBit_clearBit _ (mod_BPB_div_lt b)]
    simp only [same_bit h, bit, h]
  · have hne : c ≠ b := fun he => h (by rw [he])
    rw [bit, upd_of_ne h]
    simp [hne, bit]

/-! ## Slots -/

/-- The number of slots of an inode. -/
def NSLOT : Nat := NDIRECT + 1 + NINDIRECT

/-- The block in slot `k` of an inode, 0 for none. -/
def slotAddr (disk : Disk) (d : Dinode) (k : Nat) : Nat :=
  if k ≤ NDIRECT then d.addr k
  else if d.addr NDIRECT = 0 then 0
  else (disk (d.addr NDIRECT)).rd32 (4 * (k - (NDIRECT + 1)))

/-- The slot of block `bn` of a file. -/
def bmapSlot (bn : Nat) : Nat := if bn < NDIRECT then bn else bn + 1

/-- The address of block `bn` of a file, 0 for none. -/
def bmapAddr (disk : Disk) (d : Dinode) (bn : Nat) : Nat := slotAddr disk d (bmapSlot bn)

theorem bmapSlot_lt {bn : Nat} (h : bn < MAXFILE) : bmapSlot bn < NSLOT := by
  simp only [bmapSlot, NSLOT, MAXFILE] at *
  split <;> omega

theorem bmapSlot_ne_indirect (bn : Nat) : bmapSlot bn ≠ NDIRECT := by
  simp only [bmapSlot]
  split <;> omega

theorem bmapSlot_inj {bn bn' : Nat} (h : bmapSlot bn = bmapSlot bn') : bn = bn' := by
  simp only [bmapSlot] at h
  split at h <;> split at h <;> omega

/-- The slots look at the indirect block only. -/
theorem slotAddr_congr {disk disk' : Disk} {d : Dinode}
    (h : d.addr NDIRECT ≠ 0 → disk' (d.addr NDIRECT) = disk (d.addr NDIRECT)) (k : Nat) :
    slotAddr disk' d k = slotAddr disk d k := by
  simp only [slotAddr]
  by_cases hk : k ≤ NDIRECT
  · rw [if_pos hk, if_pos hk]
  · by_cases h0 : d.addr NDIRECT = 0
    · simp [hk, h0]
    · simp [hk, h0, h h0]

theorem slotAddr_indirect (disk : Disk) (d : Dinode) : slotAddr disk d NDIRECT = d.addr NDIRECT :=
  if_pos (Nat.le_refl _)

theorem bmapAddr_direct (disk : Disk) (d : Dinode) {bn : Nat} (h : bn < NDIRECT) :
    bmapAddr disk d bn = d.addr bn := by
  rw [bmapAddr, bmapSlot, if_pos h, slotAddr, if_pos (Nat.le_of_lt h)]

theorem bmapAddr_indirect (disk : Disk) (d : Dinode) {bn : Nat} (h : ¬bn < NDIRECT) :
    bmapAddr disk d bn =
      if d.addr NDIRECT = 0 then 0 else (disk (d.addr NDIRECT)).rd32 (4 * (bn - NDIRECT)) := by
  rw [bmapAddr, bmapSlot, if_neg h, slotAddr, if_neg (by omega),
    show bn + 1 - (NDIRECT + 1) = bn - NDIRECT by omega]

/-- An allocated inode. -/
def Live (sb : Superblock) (node : Nat → Dinode) (i : Nat) : Prop :=
  i < sb.ninodes ∧ (node i).type ≠ 0

instance (sb : Superblock) (node : Nat → Dinode) (i : Nat) : Decidable (Live sb node i) :=
  inferInstanceAs (Decidable (_ ∧ _))

/-- What the slots of the allocated inodes refer to. -/
def refs (sb : Superblock) (disk : Disk) (node : Nat → Dinode) : Nat × Nat → Nat := fun p =>
  if Live sb node p.1 ∧ p.2 < NSLOT then slotAddr disk (node p.1) p.2 else 0

theorem refs_of_live {sb : Superblock} {disk : Disk} {node : Nat → Dinode} {i k : Nat}
    (hi : Live sb node i) (hk : k < NSLOT) :
    refs sb disk node (i, k) = slotAddr disk (node i) k := if_pos ⟨hi, hk⟩

/-- **Block ownership**: the bitmap marks the metadata blocks, the blocks
the allocated inodes refer to and the blocks in transit; no data block
is referred to twice. -/
abbrev Blocks (sb : Superblock) (disk : Disk) (node : Nat → Dinode) (extra : Set Nat) : Prop :=
  Owned sb.nmeta sb.size (bit sb disk) (refs sb disk node) extra

namespace Blocks

variable {sb : Superblock} {disk disk' : Disk} {node : Nat → Dinode} {extra : Set Nat}

theorem range_slot (h : Blocks sb disk node extra) {i k : Nat} (hi : Live sb node i)
    (hk : k < NSLOT) (h0 : slotAddr disk (node i) k ≠ 0) :
    sb.nmeta ≤ slotAddr disk (node i) k ∧ slotAddr disk (node i) k < sb.size := by
  have := h.range (i, k)
  rw [refs_of_live hi hk] at this
  exact this h0

theorem inj_slot (h : Blocks sb disk node extra) {i k j l : Nat} (hi : Live sb node i)
    (hj : Live sb node j) (hk : k < NSLOT) (hl : l < NSLOT)
    (h0 : slotAddr disk (node i) k ≠ 0)
    (he : slotAddr disk (node i) k = slotAddr disk (node j) l) : i = j ∧ k = l := by
  have := h.inj (i, k) (j, l)
  rw [refs_of_live hi hk, refs_of_live hj hl] at this
  exact Prod.mk.inj (this h0 he)

/-- An indirect block is a data block with its bit set. -/
theorem indirect (h : Blocks sb disk node extra) {i : Nat} (hi : Live sb node i)
    (h0 : (node i).addr NDIRECT ≠ 0) :
    sb.nmeta ≤ (node i).addr NDIRECT ∧ (node i).addr NDIRECT < sb.size ∧
      bit sb disk ((node i).addr NDIRECT) = true := by
  have hk : NDIRECT < NSLOT := by decide
  have hs := slotAddr_indirect disk (node i)
  have hr := h.range_slot hi hk (by rwa [hs])
  rw [hs] at hr
  refine ⟨hr.1, hr.2, ?_⟩
  have := h.bit_of_ref (k := (i, NDIRECT)) (by rwa [refs_of_live hi hk, hs])
  rwa [refs_of_live hi hk, hs] at this

/-- A change that leaves the indirect blocks alone leaves the slots alone. -/
theorem refs_eq (h : Blocks sb disk node extra)
    (hsame : ∀ b, b < sb.size → sb.nmeta ≤ b → bit sb disk b = true →
      (∃ i, Live sb node i ∧ (node i).addr NDIRECT = b) → disk' b = disk b) (p : Nat × Nat) :
    refs sb disk' node p = refs sb disk node p := by
  unfold refs
  split
  · rename_i hp
    refine slotAddr_congr (fun h0 => ?_) p.2
    obtain ⟨h1, h2, h3⟩ := h.indirect hp.1 h0
    exact hsame _ h2 h1 h3 ⟨p.1, hp.1, rfl⟩
  · rfl

/-- Writing a block that is neither bitmap nor an indirect block. -/
theorem store (h : Blocks sb disk node extra) {b : Nat} {v : Block} (hb : ¬IsBitmap sb b)
    (hind : ∀ i, Live sb node i → (node i).addr NDIRECT = b → b = 0 ∨ b < sb.nmeta) :
    Blocks sb (upd disk b v) node extra := by
  refine h.congr (fun c hc => bit_store hb hc) (h.refs_eq fun c _ hmeta _ ⟨i, hi, he⟩ => ?_)
  by_cases hcb : c = b
  · have := hind i hi (he.trans hcb)
    have := h.pos
    omega
  · rw [upd_of_ne hcb]

end Blocks

end Xv6.Fs
