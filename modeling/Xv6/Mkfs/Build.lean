import Xv6.Mkfs.Append

/-!
# Mkfs — the image under construction

`Built s data` says what `mkfs` has when it is not inside `ialloc` or
`iappend`: the inodes handed out so far hold the byte strings of `data`,
with exactly the blocks those need, and the kernel's ownership invariant
holds on the marked image. Each step of `main` carries it, and the loops
over a file's reads and over the command line carry it by induction.

The specifications also say how far `freeblock` moves, so that `main` is
known to succeed on files that fit.
-/

namespace Xv6.Mkfs

open Lib Fs

/-! ## What an inode holds -/

/-- The inode holds `bytes`, in exactly the blocks they need. -/
structure Holds (disk : Disk) (d : Dinode) (bytes : List UInt8) : Prop where
  covers : Covers disk d bytes.length
  content : content disk d = bytes
  le : bytes.length ≤ MAXFILE * BSIZE
  tail : ∀ o, bytes.length ≤ o → o / BSIZE < MAXFILE → bmapAddr disk d (o / BSIZE) ≠ 0 →
    byteAt disk d o = 0

namespace Holds

variable {disk disk' : Disk} {d : Dinode} {bytes : List UInt8}

theorem size_eq (h : Holds disk d bytes) : d.size = bytes.length := by
  rw [← h.content, length_content]

theorem noHoles (h : Holds disk d bytes) : NoHoles disk d := by
  refine ⟨h.size_eq ▸ h.le, fun bn hbn => ?_⟩
  rw [h.size_eq] at hbn
  refine (h.covers.mapped ?_).mpr hbn
  have := h.le
  simp only [BSIZE_eq, MAXFILE_eq] at *
  omega

/-- Only the inode's own blocks matter. -/
theorem frame (h : Holds disk d bytes) (hsame : SameBlocks disk disk' d) : Holds disk' d bytes := by
  refine ⟨fun k hk => ?_, ?_, h.le, fun o ho hbn h0 => ?_⟩
  · rw [hsame.slots]
    exact h.covers k hk
  · rw [hsame.content h.noHoles]
    exact h.content
  · rw [bmapAddr, hsame.slots] at h0
    rw [← h.tail o ho hbn h0, byteAt, byteAt, bmapAddr, hsame.slots]
    exact congrArg (fun b => Bytes.get b (o % BSIZE)) (hsame _ (bmapSlot_lt hbn) h0)

end Holds

/-- An inode without blocks holds nothing. -/
theorem holds_fresh (disk : Disk) (type nlink : Nat) :
    Holds disk { Dinode.fresh type with nlink := nlink } [] := by
  have haddr : ∀ j, ({ Dinode.fresh type with nlink := nlink } : Dinode).addr j = 0 := by
    intro j
    simp [Dinode.addr, Dinode.fresh]
  have h0 : ∀ k, slotAddr disk { Dinode.fresh type with nlink := nlink } k = 0 := by
    intro k
    simp only [slotAddr, haddr, if_true]
    split <;> rfl
  refine ⟨fun k _ => ?_, rfl, Nat.zero_le _, fun o _ _ hne => absurd (h0 _) hne⟩
  simp [h0]

/-! ## The image -/

/-- The type of inode `i` when `n` is the next one. -/
def typeAt (n i : Nat) : Nat :=
  if 0 < i ∧ i < n then if i = ROOTINO then T_DIR else T_FILE else 0

/-- The inodes on the image. -/
def St.node (s : St) : Nat → Dinode := nodes sb (marked s)

/-- **The image under construction.** -/
structure Built (s : St) (data : Nat → List UInt8) : Prop where
  len : s.len = FSSIZE
  free : s.freeblock ≤ FSSIZE
  blank : ∀ b, s.freeblock ≤ b → s.img b = Bytes.zero BSIZE
  super : readsb (s.img 1) = sb
  blocks : Blocks sb (marked s) s.node ∅
  inodes : s.freeinode ≤ NINODES
  type : ∀ i, i < NINODES → (s.node i).type = typeAt s.freeinode i
  nlink : ∀ i, 0 < i → i < s.freeinode → (s.node i).nlink = 1
  holds : ∀ i, 0 < i → i < s.freeinode → Holds (marked s) (s.node i) (data i)

theorem typeAt_ne_zero {n i : Nat} : typeAt n i ≠ 0 ↔ 0 < i ∧ i < n := by
  simp only [typeAt]
  split_ifs with h1 h2
  · exact ⟨fun _ => h1, fun _ => by decide⟩
  · exact ⟨fun _ => h1, fun _ => by decide⟩
  · exact ⟨fun h => absurd rfl h, fun h => absurd h h1⟩

section Store

variable {s : St} {E : Stop → Prop} {i : Nat} {d : Dinode}

/-- The state after inode `i` was stored. -/
def St.putInode (s : St) (i : Nat) (d : Dinode) : St :=
  s.write (IBLOCK i sb) (putDinode (s.img (IBLOCK i sb)) (inodeOff i) d)

theorem IBLOCK_lt (hi : i < NINODES) : sb.inodestart ≤ IBLOCK i sb ∧ IBLOCK i sb < sb.bmapstart :=
  geo.IBLOCK_lt hi

theorem IBLOCK_ne (hi : i < NINODES) : IBLOCK i sb ≠ sb.bmapstart :=
  Nat.ne_of_lt (IBLOCK_lt hi).2

theorem IBLOCK_lt_FSSIZE (hi : i < NINODES) : IBLOCK i sb < FSSIZE :=
  Nat.lt_trans (IBLOCK_lt hi).2 (by decide)

theorem marked_putInode (hi : i < NINODES) :
    marked (s.putInode i d) = inodeDisk sb (marked s) i d := by
  rw [St.putInode, marked_write (IBLOCK_ne hi), inodeDisk, marked_of_ne (IBLOCK_ne hi)]

theorem node_putInode (hi : i < NINODES) (hd : d.Fits) :
    (s.putInode i d).node = upd s.node i d := by
  rw [St.node, marked_putInode hi, nodes_inodeDisk hi hd]
  rfl

theorem putInode_one : (s.putInode i d).img 1 = s.img 1 := by
  have hne : 1 ≠ IBLOCK i sb := by
    simp only [IBLOCK, inodestart_eq, IPB_eq]
    omega
  exact St.write_of_ne hne

theorem putInode_data (hi : i < NINODES) {b : Nat} (hb : nmeta ≤ b) :
    (s.putInode i d).img b = s.img b := by
  have hne : b ≠ IBLOCK i sb := by
    have := (IBLOCK_lt hi).2
    simp only [nmeta_eq, bmapstart_eq] at *
    omega
  exact St.write_of_ne hne

theorem winode_spec (hlen : s.len = FSSIZE) (hi : i < NINODES) :
    Ensures (winode i d) s E fun _ t => t = s.putInode i d := by
  simp only [winode, ensures_bind]
  refine (rsect_ok hlen (IBLOCK_lt_FSSIZE hi)).next ?_
  rintro buf t ⟨rfl, rfl⟩
  exact wsect_spec hlen (IBLOCK_lt_FSSIZE hi) _

theorem rinode_spec (hlen : s.len = FSSIZE) (hi : i < NINODES) :
    Ensures (rinode i) s E fun d t => d = s.node i ∧ t = s := by
  simp only [rinode, ensures_bind, ensures_pure]
  refine (rsect_ok hlen (IBLOCK_lt_FSSIZE hi)).next ?_
  rintro buf t ⟨rfl, rfl⟩
  refine ⟨?_, rfl⟩
  rw [St.node, nodes, if_pos (show i < sb.ninodes from hi), dinodeAt, marked_of_ne (IBLOCK_ne hi)]

end Store

namespace Built

variable {s : St} {data : Nat → List UInt8} {i : Nat}

theorem nmeta_le (h : Built s data) : nmeta ≤ s.freeblock := nmeta_le_of_blocks h.free h.blocks

theorem live_iff (h : Built s data) : Live sb s.node i ↔ 0 < i ∧ i < s.freeinode := by
  constructor
  · rintro ⟨hi, ht⟩
    rw [h.type i hi] at ht
    exact typeAt_ne_zero.mp ht
  · intro hi
    have hlt : i < NINODES := Nat.lt_of_lt_of_le hi.2 h.inodes
    exact ⟨hlt, by rw [h.type i hlt]; exact typeAt_ne_zero.mpr hi⟩

/-- An inode of the image is ready to be appended to. -/
theorem ready (h : Built s data) (hi : 0 < i ∧ i < s.freeinode) :
    Ready s s.node i (s.node i) where
  len := h.len
  blank := h.blank
  free := h.free
  blocks := by
    rw [upd_eq_self]
    exact h.blocks
  lt := Nat.lt_of_lt_of_le hi.2 h.inodes
  live := (h.live_iff.mpr hi).2
  fits := nodes_fits _ _ _

end Built

/-- The size of an inode is not part of the ownership invariant. -/
theorem blocks_resize {disk : Disk} {node : Nat → Dinode} {i : Nat} {d : Dinode} {extra : Set Nat}
    (h : Blocks sb disk (upd node i d) extra) (n : Nat) :
    Blocks sb disk (upd node i { d with size := n }) extra := by
  refine h.congr (fun _ _ => rfl) fun p => ?_
  have hlive : Live sb (upd node i { d with size := n }) p.1 ↔ Live sb (upd node i d) p.1 := by
    simp only [Live, upd]
    split <;> rfl
  simp only [refs, hlive]
  refine if_congr Iff.rfl ?_ rfl
  simp only [upd]
  split <;> rfl

/-! ## `iappend` -/

section Iappend

variable {s t : St} {E : Stop → Prop} {data : Nat → List UInt8} {i : Nat} {d : Dinode}
  {p : List UInt8}

/-- The loop does not touch the blocks below the bitmap. -/
theorem Appended.frame {off : Nat} {node : Nat → Dinode} {d' : Dinode}
    (ha : Appended s node i d off p t d') (h : Ready s node i d) {b : Nat}
    (hb : b < sb.bmapstart) : t.img b = s.img b := by
  have hne : b ≠ sb.bmapstart := Nat.ne_of_lt hb
  have hmeta : b < nmeta := Nat.lt_trans hb (by decide)
  have hle : s.freeblock ≤ BPB := Nat.le_trans h.free (by decide)
  rw [← marked_of_ne (s := t) hne, ← marked_of_ne (s := s) hne]
  refine ha.wrote.frame b (fun hbm => ?_) (fun hlt => ?_) fun k hk h0 he => ?_
  · have := hbm.1
    omega
  · rw [bit_marked hle (Nat.lt_of_lt_of_le hlt (by decide)), decide_eq_true_iff]
    exact Nat.lt_of_lt_of_le hmeta h.nmeta_le
  · have := (h.slot_range hk h0).1
    omega

/-- What was appended is there. -/
theorem Appended.holds {d' : Dinode} {bytes : List UInt8} {node : Nat → Dinode}
    (ha : Appended s node i d bytes.length p t d') (h : Holds (marked s) d bytes) :
    Holds (marked t) { d' with size := bytes.length + p.length } (bytes ++ p) := by
  have hsize := h.size_eq
  have hgrow : d'.grow (bytes.length + p.length) =
      { d' with size := bytes.length + p.length } := by
    rw [Dinode.grow, ha.wrote.size_eq, hsize, Nat.max_eq_right (by omega)]
  have hcontent := ha.wrote.content h.noHoles (by omega) ha.le
  rw [hgrow, h.content] at hcontent
  have hover : overwrite bytes bytes.length p = bytes ++ p := by
    simp [overwrite]
  have hcov : Covers (marked t) { d' with size := bytes.length + p.length } (bytes ++ p).length := by
    rw [List.length_append]
    exact ha.covers
  refine ⟨hcov, hcontent.trans hover, by rw [List.length_append]; exact ha.le,
    fun o ho hbn h0 => ?_⟩
  rw [List.length_append] at ho
  -- past the end of what was written
  have hout : ¬(bytes.length ≤ o ∧ o < bytes.length + p.length) := by omega
  show byteAt (marked t) d' o = 0
  by_cases hold : bmapAddr (marked s) d (o / BSIZE) = 0
  · exact ha.wrote.blank o hbn hold h0 hout
  · rw [ha.wrote.bytes o hbn (Or.inl hold), if_neg hout]
    exact h.tail o (by omega) hbn hold

/-- **Storing the inode completes a step**: what the loop has left in the
blocks and in the copy of the inode is what the image now holds. -/
theorem Built.store {bytes : List UInt8} (h : Built s data) (hi : 0 < i ∧ i < s.freeinode)
    (hr : Ready t s.node i d) (hmeta : ∀ b, b < sb.bmapstart → t.img b = s.img b)
    (hsame : ∀ j, Live sb s.node j → j ≠ i → SameBlocks (marked s) (marked t) (s.node j))
    (hino : t.freeinode = s.freeinode) (htype : d.type = (s.node i).type)
    (hnlink : d.nlink = (s.node i).nlink) {n : Nat}
    (hn : n < 2 ^ 32) (hholds : Holds (marked t) { d with size := n } bytes) :
    Built (t.putInode i { d with size := n }) (upd data i bytes) := by
  have hlt : i < NINODES := hr.lt
  have hfits : ({ d with size := n } : Dinode).Fits :=
    ⟨hr.fits.type, hr.fits.major, hr.fits.minor, hr.fits.nlink, hn, hr.fits.addrs⟩
  have hnode : t.node = s.node := by
    refine nodes_congr geo fun b hb => ?_
    rw [marked_of_ne (Nat.ne_of_lt hb), marked_of_ne (Nat.ne_of_lt hb)]
    exact hmeta b hb
  have hnode' : (t.putInode i { d with size := n }).node = upd s.node i { d with size := n } := by
    rw [node_putInode hlt hfits, hnode]
  have hmark : marked (t.putInode i { d with size := n }) =
      inodeDisk sb (marked t) i { d with size := n } := marked_putInode hlt
  have hB := blocks_resize hr.blocks n
  -- storing the inode changes no data block
  have hkeep : ∀ j, Live sb (upd s.node i { d with size := n }) j →
      SameBlocks (marked t) (marked (t.putInode i { d with size := n }))
        (upd s.node i { d with size := n } j) := fun j hj => by
    rw [hmark]
    exact sameBlocks_inodeDisk hB geo hlt hj
  refine ⟨hr.len, hr.free, fun b hb => ?_, ?_, ?_, ?_, fun j hj => ?_, fun j hj hj' => ?_,
    fun j hj hj' => ?_⟩
  · rw [putInode_data hlt (Nat.le_trans hr.nmeta_le hb)]
    exact hr.blank b hb
  · rw [putInode_one, hmeta 1 (by decide)]
    exact h.super
  · rw [hnode', hmark]
    exact hB.inodeDisk geo hlt
  · exact hino ▸ h.inodes
  · have hfi : (t.putInode i { d with size := n }).freeinode = s.freeinode := hino
    rw [hnode', hfi, ← h.type j hj]
    by_cases hji : j = i
    · rw [hji, upd_self]
      exact htype
    · rw [upd_of_ne hji]
  · have hfi : j < s.freeinode := hino ▸ hj'
    rw [hnode', ← h.nlink j hj hfi]
    by_cases hji : j = i
    · rw [hji, upd_self]
      exact hnlink
    · rw [upd_of_ne hji]
  · have hfi : j < s.freeinode := hino ▸ hj'
    rw [hnode']
    by_cases hji : j = i
    · subst hji
      have hlive : Live sb (upd s.node j { d with size := n }) j := live_upd hlt hr.live
      have := hkeep j hlive
      rw [upd_self] at this ⊢
      rw [upd_self]
      exact hholds.frame this
    · have hlive : Live sb s.node j := h.live_iff.mpr ⟨hj, hfi⟩
      have := hkeep j ((live_upd_of_ne hji).mpr hlive)
      rw [upd_of_ne hji] at this ⊢
      rw [upd_of_ne hji]
      exact ((h.holds j hj hfi).frame (hsame j hlive hji)).frame this

/-- **`iappend`** appends to one inode and leaves the others alone. -/
theorem iappend_spec (h : Built s data) (hi : 0 < i ∧ i < s.freeinode)
    (hE : ¬Room s (data i).length p.length → ∀ e, E e) :
    Ensures (iappend i p) s E fun _ t => Built t (upd data i (data i ++ p)) ∧
      t.freeinode = s.freeinode ∧
      t.freeblock + blocksFor (data i).length =
        s.freeblock + blocksFor ((data i).length + p.length) := by
  have hr := h.ready hi
  have hh := h.holds i hi.1 hi.2
  simp only [iappend, ensures_bind]
  refine (rinode_spec h.len hr.lt).next ?_
  rintro d t ⟨rfl, rfl⟩
  rw [hh.size_eq]
  refine (appendLoop_spec (Nat.le_refl _) hr hh.covers hh.le hE).next ?_
  rintro d' u ⟨d₁, rfl, ha⟩
  refine (winode_spec ha.ready.len hr.lt).next ?_
  rintro _ v rfl
  have hn : (data i).length + p.length < 2 ^ 32 := by
    have := ha.le
    simp only [BSIZE_eq, MAXFILE_eq] at this
    omega
  refine ⟨h.store hi ha.ready (fun b hb => ha.frame hr hb) (fun j hj hji => ?_) ha.freeinode
    ha.wrote.type_eq ha.wrote.nlink_eq hn (ha.holds hh), ha.freeinode, ha.freeblock⟩
  exact ha.wrote.sameBlocks hr.blocks hr.lt hr.live hj hji

end Iappend

/-! ## `ialloc` -/

section Ialloc

variable {s : St} {E : Stop → Prop} {data : Nat → List UInt8}

/-- A new inode refers to nothing. -/
theorem refs_fresh {disk : Disk} {node : Nat → Dinode} {i : Nat} (hfree : (node i).type = 0)
    (type nlink : Nat) (p : Nat × Nat) :
    refs sb disk (upd node i { Dinode.fresh type with nlink := nlink }) p =
      refs sb disk node p := by
  by_cases hp : p.1 = i
  · have hdead : refs sb disk node p = 0 := by
      refine if_neg fun hx => hx.1.2 ?_
      rw [hp]
      exact hfree
    rw [hdead, refs, hp, upd_self]
    split
    · rename_i hk
      have := (holds_fresh disk type nlink).covers p.2 hk.2
      simpa using this
    · rfl
  · simp only [refs, live_upd_of_ne hp, upd_of_ne hp]

/-- **`ialloc`** hands out the next inode, which holds nothing. -/
theorem ialloc_spec {type : Nat} (h : Built s data) (hlt : s.freeinode < NINODES)
    (hpos : 0 < s.freeinode)
    (htype : type = if s.freeinode = ROOTINO then T_DIR else T_FILE) :
    Ensures (ialloc type) s E fun inum t => inum = s.freeinode ∧
      Built t (upd data s.freeinode []) ∧ t.freeinode = s.freeinode + 1 ∧
      t.freeblock = s.freeblock := by
  have hfits : ({ Dinode.fresh type with nlink := 1 } : Dinode).Fits := by
    have h16 : type < 2 ^ 16 := by
      rw [htype]
      split <;> decide
    have hf := Dinode.fresh_fits h16
    exact ⟨h16, hf.major, hf.minor, (by decide : 1 < 2 ^ 16), hf.size, hf.addrs⟩
  have hdead : (s.node s.freeinode).type = 0 := by
    rw [h.type _ hlt, typeAt, if_neg (by omega)]
  simp only [ialloc, ensures_bind, ensures_get, ensures_modify, ensures_pure]
  refine (winode_spec (s := { s with freeinode := s.freeinode + 1 }) h.len hlt).next ?_
  rintro _ t rfl
  set u : St := { s with freeinode := s.freeinode + 1 } with hu
  set d : Dinode := { Dinode.fresh type with nlink := 1 } with hd
  have hnode : (u.putInode s.freeinode d).node = upd s.node s.freeinode d :=
    node_putInode (s := u) hlt hfits
  have hmark : marked (u.putInode s.freeinode d) = inodeDisk sb (marked s) s.freeinode d :=
    marked_putInode (s := u) hlt
  have hB : Blocks sb (marked s) (upd s.node s.freeinode d) ∅ :=
    h.blocks.congr (fun _ _ => rfl) (refs_fresh hdead type 1)
  refine ⟨trivial, ⟨h.len, h.free, fun b hb => ?_, ?_, ?_, hlt, fun j hj => ?_,
    fun j hj hj' => ?_, fun j hj hj' => ?_⟩, rfl, rfl⟩
  · rw [putInode_data hlt (Nat.le_trans h.nmeta_le hb)]
    exact h.blank b hb
  · rw [putInode_one]
    exact h.super
  · rw [hnode, hmark]
    exact hB.inodeDisk geo hlt
  · have hfi : (u.putInode s.freeinode d).freeinode = s.freeinode + 1 := rfl
    rw [hnode, hfi]
    by_cases hji : j = s.freeinode
    · rw [hji, upd_self, typeAt, if_pos (by omega)]
      exact htype
    · rw [upd_of_ne hji, h.type j hj, typeAt, typeAt]
      refine if_congr ?_ rfl rfl
      omega
  · have hfi : j < s.freeinode + 1 := hj'
    rw [hnode]
    by_cases hji : j = s.freeinode
    · rw [hji, upd_self]
    · rw [upd_of_ne hji]
      exact h.nlink j hj (by omega)
  · have hfi : j < s.freeinode + 1 := hj'
    rw [hnode]
    by_cases hji : j = s.freeinode
    · rw [hji, upd_self, upd_self]
      exact holds_fresh _ _ _
    · have hlive : Live sb s.node j := h.live_iff.mpr ⟨hj, by omega⟩
      have hsame := sameBlocks_inodeDisk (i := s.freeinode) (d := d) h.blocks geo hlt hlive
      rw [upd_of_ne hji, upd_of_ne hji, hmark]
      exact (h.holds j hj (by omega)).frame hsame

end Ialloc

end Xv6.Mkfs
