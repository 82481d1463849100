import Xv6.Fs.Writei
import Xv6.Mkfs.Model

/-!
# Mkfs — appending writes as the kernel does

`mkfs` writes the bitmap last. `marked s` is the image as it would be had
it been written already; on that image, counting up `freeblock` is what
the kernel's `balloc` does when it finds the first free block. The loop of
`iappend` is then a write in the sense of the kernel's `writei` (`Wrote`),
and the ownership invariant of the kernel (`Blocks`) carries it.
-/

namespace Xv6.Mkfs

open Lib Fs

/-! ## The layout in numbers -/

theorem FSSIZE_eq : FSSIZE = 1000 := rfl
theorem NINODES_eq : NINODES = 200 := rfl
theorem ROOTINO_eq : ROOTINO = 1 := rfl
theorem DIRENT_eq : DIRENT = 16 := rfl
theorem nmeta_eq : nmeta = 59 := rfl
theorem bmapstart_eq : sb.bmapstart = 58 := rfl
theorem inodestart_eq : sb.inodestart = 32 := rfl

/-- `mkfs` lays the image out as the kernel expects it. -/
theorem geo : sb.Geo := by
  refine ⟨rfl, rfl, rfl, ?_, ?_, ?_, ?_⟩ <;> decide

theorem sector_of_lt {sec : Nat} (h : sec < 2 ^ 23) : sector sec = sec := by
  simp only [sector, BSIZE_eq]
  omega

/-! ## The bitmap to come -/

theorem bitmap_succ (n : Nat) : bitmap (n + 1) = (bitmap n).setBit n := by
  rw [bitmap, List.range_succ, List.foldl_append]
  rfl

theorem testBit_bitmap {n : Nat} (h : n ≤ BPB) (j : Nat) :
    (bitmap n).testBit j = decide (j < n) := by
  induction n with
  | zero =>
      rw [show bitmap 0 = Bytes.zero BSIZE from rfl, Bytes.testBit_zero_buf]
      rfl
  | succ n ih =>
      have hlt : n / 8 < BSIZE := by
        rw [BPB_eq] at h
        rw [BSIZE_eq]
        omega
      rw [bitmap_succ, Bytes.testBit_setBit j hlt, ih (by omega), ← Bool.decide_or]
      exact decide_eq_decide.mpr (by omega)

/-- The image with the bitmap of the blocks handed out so far. -/
def marked (s : St) : Disk := upd s.img sb.bmapstart (bitmap s.freeblock)

/-- The state after `freeblock++`. -/
def St.take (s : St) : St := { s with freeblock := s.freeblock + 1 }

/-- The state after block `b` was written. -/
def St.write (s : St) (b : Nat) (v : Block) : St := { s with img := upd s.img b v }

theorem St.write_freeblock (s : St) (b : Nat) (v : Block) :
    (s.write b v).freeblock = s.freeblock := rfl

theorem St.write_self (s : St) (b : Nat) (v : Block) : (s.write b v).img b = v :=
  upd_self s.img b v

theorem St.write_of_ne {s : St} {b c : Nat} {v : Block} (h : c ≠ b) :
    (s.write b v).img c = s.img c := upd_of_ne h

section Marked

variable {s : St} {b : Nat}

theorem marked_of_ne (h : b ≠ sb.bmapstart) : marked s b = s.img b := upd_of_ne h

theorem marked_write (h : b ≠ sb.bmapstart) (v : Block) :
    marked (s.write b v) = upd (marked s) b v :=
  upd_comm h s.img v (bitmap s.freeblock)

theorem bit_marked (h : s.freeblock ≤ BPB) (hb : b < BPB) :
    bit sb (marked s) b = decide (b < s.freeblock) := by
  have hblk : BBLOCK b sb = sb.bmapstart := by
    rw [BBLOCK, Nat.div_eq_of_lt hb, Nat.zero_add]
  rw [bit, hblk, marked, upd_self, Nat.mod_eq_of_lt hb, testBit_bitmap h]

/-- **Counting up is allocating**: on the marked image, `freeblock++` is
the kernel's `balloc`. -/
theorem marked_take (hlo : nmeta ≤ s.freeblock) (hhi : s.freeblock < FSSIZE)
    (hzero : s.img s.freeblock = Bytes.zero BSIZE) :
    marked s.take = allocDisk sb (marked s) s.freeblock := by
  have hlt : s.freeblock < BPB := by
    simp only [FSSIZE_eq, BPB_eq] at *
    omega
  have hne : s.freeblock ≠ sb.bmapstart := by
    simp only [nmeta_eq, bmapstart_eq] at *
    omega
  have hblk : BBLOCK s.freeblock sb = sb.bmapstart := by
    rw [BBLOCK, Nat.div_eq_of_lt hlt, Nat.zero_add]
  have hmap : marked s.take = upd s.img sb.bmapstart (bitmap (s.freeblock + 1)) := rfl
  rw [allocDisk, hblk, hmap]
  funext c
  by_cases hc : c = s.freeblock
  · subst hc
    rw [upd_self, upd_of_ne hne, hzero]
  · rw [upd_of_ne hc, marked, upd_upd, upd_self, Nat.mod_eq_of_lt hlt, bitmap_succ]

end Marked

/-! ## Sectors -/

section Sectors

variable {s : St} {E : Stop → Prop} {sec : Nat}

/-- `rsect` of an image of `FSSIZE` blocks. -/
theorem rsect_spec (hlen : s.len = FSSIZE) (hsec : sec < 2 ^ 23)
    (hE : FSSIZE ≤ sec → E .exit1) :
    Ensures (rsect sec) s E fun buf t => sec < FSSIZE ∧ buf = s.img sec ∧ t = s := by
  simp only [rsect, ensures_bind, ensures_get, sector_of_lt hsec, hlen]
  split
  · rename_i h
    exact ⟨h, rfl, rfl⟩
  · rename_i h
    exact hE (by omega)

theorem rsect_ok (hlen : s.len = FSSIZE) (hsec : sec < FSSIZE) :
    Ensures (rsect sec) s E fun buf t => buf = s.img sec ∧ t = s := by
  have hlt : sec < 2 ^ 23 := by
    simp only [FSSIZE_eq] at hsec
    omega
  refine (rsect_spec hlen hlt fun h => ?_).next fun _ _ h => h.2
  omega

theorem wsect_spec (hlen : s.len = FSSIZE) (hsec : sec < FSSIZE) (buf : Block) :
    Ensures (wsect sec buf) s E fun _ t => t = s.write sec buf := by
  have hlt : sec < 2 ^ 23 := by
    simp only [FSSIZE_eq] at hsec
    omega
  simp only [wsect, ensures_modify, sector_of_lt hlt, St.write, hlen]
  rw [Nat.max_eq_left (by omega), ← hlen]

end Sectors

/-! ## One more block of an inode -/

/-- The inode `d` is inode `i` and under construction: on the marked image,
blocks are owned as it and the inodes of `node` say. -/
structure Ready (s : St) (node : Nat → Dinode) (i : Nat) (d : Dinode) : Prop where
  len : s.len = FSSIZE
  blank : ∀ b, s.freeblock ≤ b → s.img b = Bytes.zero BSIZE
  free : s.freeblock ≤ FSSIZE
  blocks : Blocks sb (marked s) (upd node i d) ∅
  lt : i < NINODES
  live : d.type ≠ 0
  fits : d.Fits

/-- The metadata blocks are handed out from the start. -/
theorem nmeta_le_of_blocks {s : St} {node : Nat → Dinode} (hfree : s.freeblock ≤ FSSIZE)
    (h : Blocks sb (marked s) node ∅) : nmeta ≤ s.freeblock := by
  have hset := (h.bit_iff 58 (by decide)).mpr (Or.inl (by decide))
  have hle : s.freeblock ≤ BPB := Nat.le_trans hfree (by decide)
  rw [bit_marked hle (by decide), decide_eq_true_iff] at hset
  rw [nmeta_eq]
  omega

namespace Ready

variable {s : St} {node : Nat → Dinode} {i : Nat} {d : Dinode}

theorem nmeta_le (h : Ready s node i d) : nmeta ≤ s.freeblock := nmeta_le_of_blocks h.free h.blocks

/-- The next block is free. -/
theorem clear (h : Ready s node i d) (hhi : s.freeblock < FSSIZE) :
    bit sb (marked s) s.freeblock = false := by
  have hle : s.freeblock ≤ BPB := Nat.le_trans h.free (by decide)
  have hlt : s.freeblock < BPB := Nat.lt_of_lt_of_le hhi (by decide)
  rw [bit_marked hle hlt]
  simp

/-- Block addresses are those of data blocks below `freeblock`. -/
theorem slot_range (h : Ready s node i d) {k : Nat} (hk : k < NSLOT)
    (h0 : slotAddr (marked s) d k ≠ 0) :
    nmeta ≤ slotAddr (marked s) d k ∧ slotAddr (marked s) d k < s.freeblock := by
  obtain ⟨h1, h2, h3⟩ := h.blocks.own_slot_range h.lt h.live hk h0
  have hle : s.freeblock ≤ BPB := Nat.le_trans h.free (by decide)
  have hlt : slotAddr (marked s) d k < BPB := Nat.lt_of_lt_of_le h2 (by decide)
  rw [bit_marked hle hlt, decide_eq_true_iff] at h3
  exact ⟨h1, h3⟩

theorem indirect_range (h : Ready s node i d) (h0 : d.addr NDIRECT ≠ 0) :
    nmeta ≤ d.addr NDIRECT ∧ d.addr NDIRECT < s.freeblock := by
  have := h.slot_range (k := NDIRECT) (by decide)
  rw [slotAddr_indirect] at this
  exact this h0

theorem ne_bmapstart (_ : Ready s node i d) {b : Nat} (hb : nmeta ≤ b) : b ≠ sb.bmapstart := by
  simp only [nmeta_eq, bmapstart_eq] at *
  omega

/-- The state and the inode after the next block went into `addrs`. -/
theorem enter (h : Ready s node i d) (hhi : s.freeblock < FSSIZE) {j : Nat} (hj : j ≤ NDIRECT)
    (h0 : d.addr j = 0) :
    AddSlot sb (marked s) d j s.freeblock (marked s.take) (d.setAddr j s.freeblock) ∧
      Ready s.take node i (d.setAddr j s.freeblock) := by
  have ha := addSlot_direct h.blocks geo h.lt h.live hj h0 hhi (h.clear hhi)
  rw [← marked_take h.nmeta_le hhi (h.blank _ (Nat.le_refl _))] at ha
  refine ⟨ha, h.len, fun b hb => h.blank b (Nat.le_of_succ_le hb), hhi,
    ha.blocks h.blocks h.lt h.live, h.lt, h.live, ha.fits h.fits⟩

/-- The state after the next block went into the indirect block. -/
theorem enterEntry (h : Ready s node i d) (hhi : s.freeblock < FSSIZE) {e : Nat}
    (h12 : d.addr NDIRECT ≠ 0) (he : e < NINDIRECT)
    (h0 : slotAddr (marked s) d (NDIRECT + 1 + e) = 0) :
    AddSlot sb (marked s) d (NDIRECT + 1 + e) s.freeblock
        (marked (s.take.write (d.addr NDIRECT)
          ((s.img (d.addr NDIRECT)).wr32 (4 * e) s.freeblock))) d ∧
      Ready (s.take.write (d.addr NDIRECT)
        ((s.img (d.addr NDIRECT)).wr32 (4 * e) s.freeblock)) node i d := by
  obtain ⟨hlo, hlt⟩ := h.indirect_range h12
  have hne := h.ne_bmapstart hlo
  have hmark := marked_take h.nmeta_le hhi (h.blank _ (Nat.le_refl _))
  have ha := addSlot_entry h.blocks geo h.lt h.live h12 he h0 hhi (h.clear hhi)
  have himg : allocDisk sb (marked s) s.freeblock (d.addr NDIRECT) = s.img (d.addr NDIRECT) := by
    rw [← hmark, marked_of_ne hne]
    rfl
  rw [himg, ← hmark, ← marked_write hne] at ha
  refine ⟨ha, h.len, fun b hb => ?_, hhi, ha.blocks h.blocks h.lt h.live, h.lt, h.live, h.fits⟩
  have hfb : s.freeblock + 1 ≤ b := hb
  have hbne : b ≠ d.addr NDIRECT := by omega
  rw [St.write_of_ne hbne]
  exact h.blank b (by omega)

end Ready

/-- The blocks `iappend` takes to have file block `fbn`. -/
def newBlocks (disk : Disk) (d : Dinode) (fbn : Nat) : Nat :=
  (if bmapAddr disk d fbn = 0 then 1 else 0) + if NDIRECT ≤ fbn ∧ d.addr NDIRECT = 0 then 1 else 0

/-- What `mapBlock` makes of the state: unless the image is full, file
block `fbn` is mapped, with blocks that were free. -/
structure Mapped (s : St) (node : Nat → Dinode) (i : Nat) (d : Dinode) (fbn : Nat) (t : St)
    (d' : Dinode) (x : Nat) : Prop where
  ready : Ready t node i d'
  filled : Filled sb (bmapSlots fbn) (marked s) d (marked t) d'
  addr : x = bmapAddr (marked t) d' fbn
  pos : x ≠ 0

section MapBlock

variable {s : St} {E : Stop → Prop} {node : Nat → Dinode} {i : Nat} {d : Dinode} {fbn : Nat}

theorem ensures_nextBlock {Q : Nat → St → Prop} :
    Ensures nextBlock s E Q ↔ Q s.freeblock s.take := Iff.rfl

/-- The entry of an indirect block that is there. -/
theorem mapEntry_spec (h : Ready s node i d) (hge : NDIRECT ≤ fbn) (hlt : fbn < MAXFILE)
    (h12 : d.addr NDIRECT ≠ 0) :
    Ensures (mapEntry d fbn) s E fun r t =>
      t.len = FSSIZE ∧ t.freeinode = s.freeinode ∧
      t.freeblock = s.freeblock + (if bmapAddr (marked s) d fbn = 0 then 1 else 0) ∧
      r.2 < t.freeblock ∧ (FSSIZE ≤ r.2 → FSSIZE < t.freeblock) ∧
      (r.2 < FSSIZE → Mapped s node i d fbn t r.1 r.2) := by
  obtain ⟨hlo, hhi⟩ := h.indirect_range h12
  have hind : d.addr NDIRECT < FSSIZE := Nat.lt_of_lt_of_le hhi h.free
  have hent : bmapAddr (marked s) d fbn = (s.img (d.addr NDIRECT)).rd32 (4 * (fbn - NDIRECT)) := by
    rw [bmapAddr_indirect _ _ (by omega), if_neg h12, marked_of_ne (h.ne_bmapstart hlo)]
  have hslot : bmapSlot fbn = NDIRECT + 1 + (fbn - NDIRECT) := by
    rw [bmapSlot, if_neg (by omega)]
    omega
  simp only [mapEntry, ensures_bind]
  refine (rsect_ok h.len hind).next ?_
  rintro buf t ⟨rfl, rfl⟩
  rw [← hent]
  split
  · rename_i h0
    simp only [ensures_bind, ensures_nextBlock, ensures_pure]
    refine (wsect_spec (s := t.take) h.len hind _).next ?_
    rintro _ t' rfl
    refine ⟨h.len, rfl, rfl, Nat.lt_succ_self _, fun hfull => Nat.lt_succ_of_le hfull, fun hroom => ?_⟩
    have he : slotAddr (marked t) d (NDIRECT + 1 + (fbn - NDIRECT)) = 0 := by
      rw [← hslot]
      exact h0
    obtain ⟨ha, hr⟩ := h.enterEntry hroom h12 (by simp only [MAXFILE] at hlt; omega) he
    have hpos : t.freeblock ≠ 0 := by
      have := h.nmeta_le
      rw [nmeta_eq] at this
      omega
    refine ⟨hr, ha.filled hpos (Or.inl hslot.symm), ?_, hpos⟩
    rw [bmapAddr, hslot, ha.slots _ ha.slot_lt, if_pos rfl]
  · rename_i h0
    have hr := h.slot_range (bmapSlot_lt hlt) h0
    exact ⟨h.len, rfl, rfl, hr.2, fun hfull => by have := h.free; simp only [bmapAddr] at hfull; omega,
      fun _ => ⟨h, Filled.refl _, rfl, h0⟩⟩

/-- **`mapBlock`** finds the block or takes the next ones. -/
theorem mapBlock_spec (h : Ready s node i d) (hlt : fbn < MAXFILE)
    (hE : FSSIZE < s.freeblock + newBlocks (marked s) d fbn → E .exit1) :
    Ensures (mapBlock d fbn) s E fun r t =>
      t.len = FSSIZE ∧ t.freeinode = s.freeinode ∧
      t.freeblock = s.freeblock + newBlocks (marked s) d fbn ∧
      r.2 < t.freeblock ∧ (FSSIZE ≤ r.2 → FSSIZE < t.freeblock) ∧
      (r.2 < FSSIZE → Mapped s node i d fbn t r.1 r.2) := by
  simp only [mapBlock]
  by_cases hd : fbn < NDIRECT
  · have hslot : bmapSlot fbn = fbn := if_pos hd
    have haddr := bmapAddr_direct (marked s) d hd
    have hnew : newBlocks (marked s) d fbn = if d.addr fbn = 0 then 1 else 0 := by
      rw [newBlocks, haddr, if_neg (c := NDIRECT ≤ fbn ∧ _) (by omega), Nat.add_zero]
    rw [if_pos hd, hnew]
    split
    · rename_i h0
      simp only [ensures_bind, ensures_nextBlock, ensures_pure]
      refine ⟨h.len, rfl, rfl, Nat.lt_succ_self _, fun hfull => Nat.lt_succ_of_le hfull, fun hroom => ?_⟩
      obtain ⟨ha, hr⟩ := h.enter hroom (Nat.le_of_lt hd) h0
      have hpos : s.freeblock ≠ 0 := by
        have := h.nmeta_le
        rw [nmeta_eq] at this
        omega
      refine ⟨hr, ha.filled hpos (Or.inl hslot.symm), ?_, hpos⟩
      have hab := ha.slots fbn ha.slot_lt
      rw [if_pos rfl] at hab
      rw [bmapAddr, hslot]
      exact hab.symm
    · rename_i h0
      rw [← haddr] at h0 ⊢
      have hr := h.slot_range (bmapSlot_lt hlt) h0
      exact ⟨h.len, rfl, rfl, hr.2,
        fun hfull => by have := h.free; simp only [bmapAddr] at hfull; omega,
        fun _ => ⟨h, Filled.refl _, rfl, h0⟩⟩
  · have hge : NDIRECT ≤ fbn := by omega
    rw [if_neg hd]
    simp only [mapIndirect, ensures_bind]
    by_cases h12 : d.addr NDIRECT = 0
    · -- first the indirect block, then its entry
      have hz : bmapAddr (marked s) d fbn = 0 := by
        rw [bmapAddr_indirect _ _ hd, if_pos h12]
      have hnew : newBlocks (marked s) d fbn = 2 := by
        rw [newBlocks, if_pos hz, if_pos ⟨hge, h12⟩]
      rw [hnew] at hE ⊢
      rw [if_pos h12]
      simp only [ensures_bind, ensures_nextBlock, ensures_pure]
      by_cases hroom : s.freeblock < FSSIZE
      · obtain ⟨ha, hr⟩ := h.enter hroom (Nat.le_refl _) h12
        have hpos : s.freeblock ≠ 0 := by
          have := h.nmeta_le
          rw [nmeta_eq] at this
          omega
        have hfill : Filled sb (bmapSlots fbn) (marked s) d (marked s.take)
            (d.setAddr NDIRECT s.freeblock) := ha.filled hpos (Or.inr ⟨hge, rfl⟩)
        have h12' : (d.setAddr NDIRECT s.freeblock).addr NDIRECT ≠ 0 := by
          rw [Dinode.addr_setAddr_self (by decide)]
          exact hpos
        have hz' : bmapAddr (marked s.take) (d.setAddr NDIRECT s.freeblock) fbn = 0 := by
          rw [bmapAddr, ha.slots _ (bmapSlot_lt hlt), if_neg (bmapSlot_ne_indirect fbn)]
          exact hz
        refine (mapEntry_spec hr hge hlt h12').next ?_
        rintro ⟨d', x⟩ t ⟨h1, h2, h3, h4, h5, h6⟩
        rw [if_pos hz'] at h3
        refine ⟨h1, h2, h3, h4, h5, fun hx => ?_⟩
        obtain ⟨hready, hfilled, haddr, hx0⟩ := h6 hx
        exact ⟨hready, hfill.trans hfilled hr.blocks h.lt hr.live, haddr, hx0⟩
      · have hfb := h.free
        have hbound : s.freeblock < 2 ^ 23 := by
          rw [FSSIZE_eq] at hfb
          omega
        have haddr : (d.setAddr NDIRECT s.freeblock).addr NDIRECT = s.freeblock :=
          Dinode.addr_setAddr_self (by decide)
        simp only [mapEntry, haddr, ensures_bind]
        refine (rsect_spec (s := s.take) h.len hbound fun _ => hE (by omega)).next ?_
        rintro _ t ⟨hlt', -, -⟩
        exact absurd hlt' hroom
    · have hnew : newBlocks (marked s) d fbn = if bmapAddr (marked s) d fbn = 0 then 1 else 0 := by
        rw [newBlocks, if_neg (c := NDIRECT ≤ fbn ∧ _) (fun hx => h12 hx.2), Nat.add_zero]
      rw [if_neg h12, hnew]
      exact mapEntry_spec h hge hlt h12

end MapBlock

/-! ## The blocks of a file of a given length -/

/-- The file block that brings slot `k`. -/
def slotBlock (k : Nat) : Nat := if k ≤ NDIRECT then k else k - 1

/-- Exactly the slots that `n` bytes need are filled. -/
def Covers (disk : Disk) (d : Dinode) (n : Nat) : Prop :=
  ∀ k, k < NSLOT → (slotAddr disk d k ≠ 0 ↔ slotBlock k * BSIZE < n)

/-- The number of blocks `n` bytes need, the indirect block included. -/
def blocksFor (n : Nat) : Nat :=
  (n + BSIZE - 1) / BSIZE + if NDIRECT * BSIZE < n then 1 else 0

theorem blocksFor_eq (n : Nat) : blocksFor n = (n + 511) / 512 + if 6144 < n then 1 else 0 := by
  have h1 : n + BSIZE - 1 = n + 511 := by
    rw [BSIZE_eq]
    omega
  have h2 : NDIRECT * BSIZE = 6144 := by decide
  rw [blocksFor, h1, h2, BSIZE_eq]

theorem blocksFor_mono {m n : Nat} (h : m ≤ n) : blocksFor m ≤ blocksFor n := by
  rw [blocksFor_eq, blocksFor_eq]
  split_ifs <;> omega

theorem slotBlock_bmapSlot (bn : Nat) : slotBlock (bmapSlot bn) = bn := by
  simp only [slotBlock, bmapSlot]
  split <;> split <;> omega

theorem bmapSlot_slotBlock {k : Nat} (h : k ≠ NDIRECT) : bmapSlot (slotBlock k) = k := by
  simp only [slotBlock, bmapSlot]
  split <;> split <;> omega

theorem Covers.mapped {disk : Disk} {d : Dinode} {n : Nat} (h : Covers disk d n) {bn : Nat}
    (hbn : bn < MAXFILE) : bmapAddr disk d bn ≠ 0 ↔ bn * BSIZE < n := by
  have := h (bmapSlot bn) (bmapSlot_lt hbn)
  rwa [slotBlock_bmapSlot] at this

theorem Covers.indirect {disk : Disk} {d : Dinode} {n : Nat} (h : Covers disk d n) :
    d.addr NDIRECT ≠ 0 ↔ NDIRECT * BSIZE < n := by
  have := h NDIRECT (by decide)
  rwa [slotAddr_indirect, slotBlock, if_pos (Nat.le_refl _)] at this

/-- **A write at the end** leaves no slot to spare. -/
theorem Covers.wrote {disk disk' : Disk} {d d' : Dinode} {off : Nat} {src : List UInt8}
    (h : Covers disk d off) (hw : Wrote sb disk d off src disk' d') :
    Covers disk' d' (off + src.length) := by
  intro k hk
  by_cases hold : slotBlock k * BSIZE < off
  · have h0 := (h k hk).mpr hold
    rw [hw.slots k hk (Or.inl h0)]
    exact ⟨fun _ => by omega, fun _ => h0⟩
  by_cases hnew : slotBlock k * BSIZE < off + src.length
  · -- the block that brings the slot is one of those written
    have ht : Touches off src.length (slotBlock k) := by
      refine ⟨?_, ?_, hnew⟩ <;> simp only [BSIZE_eq] at * <;> omega
    have hmap := hw.mapped _ ht
    refine ⟨fun _ => hnew, fun _ => ?_⟩
    by_cases h12 : k = NDIRECT
    · subst h12
      rw [slotAddr_indirect]
      exact indirect_of_mapped (Nat.le_refl _) (by rwa [slotBlock, if_pos (Nat.le_refl _)] at hmap)
    · rwa [bmapAddr, bmapSlot_slotBlock h12] at hmap
  · have hnot : ¬Touched off src.length k := by
      rintro ⟨bn, ht, rfl | ⟨hge, rfl⟩⟩
      · rw [slotBlock_bmapSlot] at hnew
        exact hnew ht.2.2
      · have := ht.2.2
        rw [slotBlock, if_pos (Nat.le_refl _)] at hnew
        simp only [BSIZE_eq, NDIRECT_eq] at *
        omega
    rw [hw.slots k hk (Or.inr hnot)]
    exact ⟨fun h0 => absurd ((h k hk).mp h0) hold, fun h1 => absurd h1 hnew⟩

/-- The blocks a round takes are those the longer file needs. -/
theorem Covers.newBlocks {disk : Disk} {d : Dinode} {off n : Nat} (h : Covers disk d off)
    (hbn : off / BSIZE < MAXFILE) (hn : 0 < n) :
    blocksFor off + newBlocks disk d (off / BSIZE) = blocksFor (off + chunk off n) := by
  have h1 : bmapAddr disk d (off / BSIZE) = 0 ↔ ¬off / 512 * 512 < off := by
    rw [← not_not (a := bmapAddr disk d (off / BSIZE) = 0)]
    exact not_congr (h.mapped hbn)
  have h2 : NDIRECT ≤ off / BSIZE ∧ d.addr NDIRECT = 0 ↔ 12 ≤ off / 512 ∧ ¬6144 < off := by
    rw [← not_not (a := d.addr NDIRECT = 0)]
    exact and_congr Iff.rfl (not_congr h.indirect)
  have hch : chunk off n = min n (512 - off % 512) := rfl
  rw [Mkfs.newBlocks, if_congr h1 rfl rfl, if_congr h2 rfl rfl, blocksFor_eq, blocksFor_eq, hch]
  split_ifs <;> omega

/-! ## The loop -/

section Loop

variable {s : St} {E : Stop → Prop} {node : Nat → Dinode} {i : Nat} {d : Dinode} {off : Nat}

/-- Writing into a block of the inode. -/
theorem Ready.write (h : Ready s node i d) {bn : Nat} (hbn : bn < MAXFILE)
    (h0 : bmapAddr (marked s) d bn ≠ 0) (v : Block) :
    Ready (s.write (bmapAddr (marked s) d bn) v) node i d ∧
      marked (s.write (bmapAddr (marked s) d bn) v) =
        upd (marked s) (bmapAddr (marked s) d bn) v := by
  obtain ⟨hlo, hhi⟩ := h.slot_range (bmapSlot_lt hbn) h0
  have hm := marked_write (s := s) (h.ne_bmapstart hlo) v
  refine ⟨⟨h.len, fun b hb => ?_, h.free, ?_, h.lt, h.live, h.fits⟩, hm⟩
  · have hfb : s.freeblock ≤ b := hb
    have hne : b ≠ bmapAddr (marked s) d bn := by
      simp only [bmapAddr]
      omega
    rw [St.write_of_ne hne]
    exact h.blank b hfb
  · rw [bmapAddr, hm]
    exact (h.blocks.store_data h.lt h.live hbn h0 v).1

/-- What the loop of `iappend` makes of the state. -/
structure Appended (s : St) (node : Nat → Dinode) (i : Nat) (d : Dinode) (off : Nat)
    (p : List UInt8) (t : St) (d' : Dinode) : Prop where
  ready : Ready t node i d'
  wrote : Wrote sb (marked s) d off p (marked t) d'
  covers : Covers (marked t) d' (off + p.length)
  le : off + p.length ≤ MAXFILE * BSIZE
  freeinode : t.freeinode = s.freeinode
  freeblock : t.freeblock + blocksFor off = s.freeblock + blocksFor (off + p.length)

/-- The image and the inode have room for `n` bytes at `off`. -/
def Room (s : St) (off n : Nat) : Prop :=
  s.freeblock + blocksFor (off + n) ≤ FSSIZE + blocksFor off ∧ off + n ≤ MAXFILE * BSIZE

/-- **The loop of `iappend`** writes `p` at the end of the file, and stops
early only if there is no room for it. -/
theorem appendLoop_spec {fuel : Nat} {p : List UInt8} (hfuel : p.length ≤ fuel)
    (h : Ready s node i d) (hc : Covers (marked s) d off) (hoff : off ≤ MAXFILE * BSIZE)
    (hE : ¬Room s off p.length → ∀ e, E e) :
    Ensures (appendLoop fuel d off p) s E fun d' t => ∃ d₁,
      d' = { d₁ with size := off + p.length } ∧ Appended s node i d off p t d₁ := by
  induction fuel generalizing s d off p with
  | zero =>
      obtain rfl : p = [] := List.length_eq_zero_iff.mp (by omega)
      exact ⟨d, rfl, h, Wrote.nil, hc, hoff, rfl, rfl⟩
  | succ fuel ih =>
      by_cases h0 : p.length = 0
      · obtain rfl : p = [] := List.length_eq_zero_iff.mp h0
        exact ⟨d, rfl, h, Wrote.nil, hc, hoff, rfl, rfl⟩
      have hn : 0 < p.length := by omega
      simp only [appendLoop, if_neg h0]
      by_cases hbn : off / BSIZE < MAXFILE
      swap
      · rw [if_pos hbn]
        refine hE (fun hroom => ?_) _
        have := hroom.2
        simp only [BSIZE_eq, MAXFILE_eq] at *
        omega
      rw [if_neg (not_not.mpr hbn)]
      have hn1 : min p.length ((off / BSIZE + 1) * BSIZE - off) = chunk off p.length := by
        simp only [chunk, BSIZE_eq]
        omega
      have hpos : off - off / BSIZE * BSIZE = off % BSIZE := by
        simp only [BSIZE_eq]
        omega
      have hm := chunk_le off p.length
      have hcp := chunk_pos off hn
      have hnew := hc.newBlocks hbn hn
      have hmono : blocksFor (off + chunk off p.length) ≤ blocksFor (off + p.length) :=
        blocksFor_mono (by omega)
      rw [hn1, hpos]
      simp only [ensures_bind]
      refine Ensures.next (mapBlock_spec h hbn fun hfull => hE (fun hroom => ?_) _) ?_
      · have := hroom.1
        omega
      rintro ⟨d₁, x⟩ t₀ ⟨hlen, hino, hfree, hxlt, hxfull, hmap⟩
      simp only at hxlt hxfull hmap ⊢
      have hx23 : x < 2 ^ 23 := by
        have h1 := h.free
        have h2 : newBlocks (marked s) d (off / BSIZE) ≤ 2 := by
          simp only [newBlocks]
          split_ifs <;> omega
        rw [FSSIZE_eq] at h1
        omega
      refine (rsect_spec hlen hx23 fun hfull => hE (fun hroom => ?_) _).next ?_
      · have := hroom.1
        have := hxfull hfull
        omega
      rintro buf t ⟨hx, rfl, rfl⟩
      obtain ⟨hr, hf, rfl, hx0⟩ := hmap hx
      refine (wsect_spec hlen hx _).next ?_
      rintro _ t' rfl
      -- the round, on the marked image
      have hne : bmapAddr (marked t) d₁ (off / BSIZE) ≠ sb.bmapstart :=
        hr.ne_bmapstart (hr.slot_range (bmapSlot_lt hbn) hx0).1
      have hw := Wrote.round h.blocks h.lt h.live hn hbn hf hr.blocks hx0
      obtain ⟨hr₂, hm₂⟩ := hr.write hbn hx0
        ((t.img (bmapAddr (marked t) d₁ (off / BSIZE))).blit (off % BSIZE)
          (p.take (chunk off p.length)))
      rw [marked_of_ne hne, ← hm₂] at hw
      have hl₁ : (p.take (chunk off p.length)).length = chunk off p.length := by
        rw [List.length_take]
        omega
      have hl₂ : (p.drop (chunk off p.length)).length = p.length - chunk off p.length :=
        List.length_drop
      have hend : off + chunk off p.length ≤ MAXFILE * BSIZE := by
        simp only [chunk, BSIZE_eq, MAXFILE_eq] at *
        omega
      have hc₂ := hc.wrote hw
      rw [hl₁] at hc₂
      have hsum : off + chunk off p.length + (p.length - chunk off p.length) = off + p.length := by
        omega
      refine (ih (by omega) hr₂ hc₂ hend fun hno => hE fun hroom => hno ?_).next ?_
      · obtain ⟨hr1, hr2⟩ := hroom
        refine ⟨?_, by omega⟩
        rw [hl₂, hsum, St.write_freeblock]
        omega
      · rintro d' t₃ ⟨d₃, rfl, hr₃, hw₃, hc₃, hle₃, hino₃, hfree₃⟩
        rw [hl₂, hsum] at hc₃ hle₃ hfree₃
        rw [St.write_freeblock] at hfree₃
        refine ⟨d₃, by rw [hl₂, hsum], hr₃, hw.trans hn hbn hw₃, hc₃, hle₃, hino₃.trans hino, ?_⟩
        omega

end Loop

end Xv6.Mkfs
