import Xv6.Fs.Inv

/-!
# Fs — `iupdate` and `writei`

A primitive first changes the data blocks and the copy of the inode in
memory (`Staged`) and then writes the inode back. `iupdate_done` is the
common end. With it, `writei` either rejects the request and changes
nothing, or overwrites a piece of one object and leaves every other object
alone.
-/

namespace Xv6.Fs

open Lib

/-! ## Storing an inode -/

/-- The disk after inode `i` was stored. -/
def inodeDisk (sb : Superblock) (disk : Disk) (i : Nat) (d : Dinode) : Disk :=
  upd disk (IBLOCK i sb) (putDinode (disk (IBLOCK i sb)) (inodeOff i) d)

section InodeDisk

variable {sb : Superblock} {disk : Disk} {node : Nat → Dinode} {i : Nat} {d : Dinode}
  {extra : Set Nat}

theorem nodes_inodeDisk (hi : i < sb.ninodes) (hd : d.Fits) :
    nodes sb (inodeDisk sb disk i d) = upd (nodes sb disk) i d := by
  funext j
  by_cases hj : j < sb.ninodes
  · simp only [nodes, if_pos hj, inodeDisk, dinodeAt_store sb disk i hd j, upd]
  · have hji : j ≠ i := by omega
    rw [upd_of_ne hji, nodes, nodes, if_neg hj, if_neg hj]

theorem inodeDisk_of_ne (hg : sb.Geo) (hi : i < sb.ninodes) {b : Nat} (hb : sb.nmeta ≤ b) :
    inodeDisk sb disk i d b = disk b := by
  have := (hg.IBLOCK_lt hi).2
  have := hg.bmapstart_lt
  exact upd_of_ne (by omega)

theorem inodeDisk_one (hg : sb.Geo) : inodeDisk sb disk i d 1 = disk 1 := by
  have := hg.inodestart
  refine upd_of_ne ?_
  simp only [IBLOCK, IPB_eq]
  omega

theorem Blocks.inodeDisk (h : Blocks sb disk node extra) (hg : sb.Geo) (hi : i < sb.ninodes) :
    Blocks sb (inodeDisk sb disk i d) node extra := by
  have hlt := (hg.IBLOCK_lt hi).2
  have := hg.bmapstart_lt
  exact h.store (fun hbm => by have := hbm.1; omega) fun _ _ _ => Or.inr (by omega)

/-- Storing an inode changes no data block. -/
theorem sameBlocks_inodeDisk (h : Blocks sb disk node extra) (hg : sb.Geo) (hi : i < sb.ninodes)
    {j : Nat} (hj : Live sb node j) : SameBlocks disk (Fs.inodeDisk sb disk i d) (node j) :=
  fun _ hl h0 => inodeDisk_of_ne hg hi (h.range_slot hj hl h0).1

end InodeDisk

variable {s : St} {E : Stop → Prop} {k : Fin NINODE}

theorem iupdate_spec (hout : 1 ≤ s.outstanding) (hbig : LogFull s.sb s.lh.length → E tooBig) :
    Ensures (iupdate k) s E fun _ t =>
      t = s.put k (inodeDisk s.sb s.disk (s.icache k).inum (s.icache k).din)
        (absorb s.lh (IBLOCK (s.icache k).inum s.sb)) (s.icache k).din := by
  simp only [iupdate, bread, store, ensures_bind, ensures_get, ensures_pure, ensures_modify]
  refine Ensures.next (logWrite_spec hout hbig) ?_
  rintro _ t rfl
  rw [St.put_din]
  rfl

/-- The inode of entry `k` has changed in memory, and its data blocks with
it; what is missing is the inode on the disk. -/
structure Staged (s : St) (k : Fin NINODE) (disk : Disk) (d : Dinode) : Prop where
  super : ∀ b, b < s.sb.bmapstart → disk b = s.disk b
  blocks : Blocks s.sb disk (upd s.node (s.icache k).inum d) ∅
  type : d.type ≠ 0
  fits : d.Fits
  same : ∀ j, Live s.sb s.node j → j ≠ (s.icache k).inum → SameBlocks s.disk disk (s.node j)
  holes : NoHoles disk d

/-- **Write back**: with the inode on the disk, the change is complete. -/
theorem iupdate_done {disk : Disk} {d : Dinode} {lh : List Nat} (h : Consistent s) (hk : s.Used k)
    (hv : (s.icache k).valid = true) (hst : Staged s k disk d) (hout : 1 ≤ s.outstanding)
    (hbig : LogFull s.sb lh.length → E tooBig) :
    Ensures (iupdate k) (s.put k disk lh d) E fun _ t =>
      t = s.put k (inodeDisk s.sb disk (s.icache k).inum d)
        (absorb lh (IBLOCK (s.icache k).inum s.sb)) d ∧
      Consistent t ∧ t.obj = upd s.obj (s.icache k).inum (Obj.of disk d) := by
  have hi := h.inum_lt k hk
  refine Ensures.next (iupdate_spec hout hbig) ?_
  rintro _ t rfl
  simp only [St.put_put, St.put_icache, St.put_sb, St.put_disk, St.put_lh]
  have hself := sameBlocks_inodeDisk (d := d) hst.blocks h.geo hi
    (live_upd hi hst.type)
  rw [upd_self] at hself
  have hput := h.put hk hv (absorb lh (IBLOCK (s.icache k).inum s.sb))
    ((inodeDisk_one h.geo).trans (hst.super 1 h.geo.one_lt))
    (by rw [nodes_inodeDisk hi hst.fits, nodes_congr h.geo hst.super]; rfl)
    (hst.blocks.inodeDisk h.geo hi) hst.type
    (fun j hj hne => (hst.same j hj hne).trans fun l hl h0 => by
      rw [(hst.same j hj hne).slots] at h0 ⊢
      exact inodeDisk_of_ne h.geo hi (h.blocks.range_slot hj hl h0).1)
    (hself.noHoles hst.holes)
  refine ⟨trivial, hput.1, ?_⟩
  rw [hput.2, hself.obj hst.holes]

/-! ## `writei` -/

open Classical in
/-- The slots that writing `n` bytes at `off` may fill. -/
noncomputable def touchedSlots (off n : Nat) : Finset Nat :=
  (Finset.range NSLOT).filter (Touched off n)

/-- The free blocks that writing `n` bytes at `off` takes. -/
noncomputable def needed (disk : Disk) (d : Dinode) (off n : Nat) : Nat :=
  unmapped (touchedSlots off n) disk d

/-- The blocks that writing `n` bytes at `off` can log, at the most: the
blocks written, the bitmap, the indirect block and the inode. -/
def logBound (sb : Superblock) (off n : Nat) : Nat := nblk off n + (sb.size / BPB + 1) + 2

/-- `writei` rejects the request. -/
def Rejected (size off n : Nat) : Prop :=
  off > size ∨ 2 ^ 32 ≤ off + n ∨ off + n > MAXFILE * BSIZE

theorem Touches.lt {off n bn : Nat} (h : Touches off n bn) (hend : off + n ≤ MAXFILE * BSIZE) :
    bn < MAXFILE := by
  have := h.2.2
  simp only [BSIZE_eq, MAXFILE_eq] at *
  omega

theorem Touched.lt {off n j : Nat} (h : Touched off n j) (hend : off + n ≤ MAXFILE * BSIZE) :
    j < NSLOT := by
  obtain ⟨bn, ht, hj⟩ := h
  rcases hj with rfl | ⟨_, rfl⟩
  · exact bmapSlot_lt (ht.lt hend)
  · decide

/-- What the loop logs stays within the bound. -/
theorem Logs.length_le {sb : Superblock} {d : Dinode} {l : List Nat} {off n : Nat}
    (h : Logs sb d (nblk off n) l) (lh : List Nat) :
    (absorbAll lh l).length ≤ lh.length + logBound sb off n := by
  obtain ⟨p, B, hmem, -, hB⟩ := h
  have hle := length_absorbAll_le lh l
    (B := Finset.Ico sb.bmapstart sb.nmeta ∪ insert p B) fun x hx => by
      rw [Finset.mem_union, Finset.mem_insert, Finset.mem_Ico]
      exact Or.inr (hmem x hx)
  have hcard := Finset.card_union_le (Finset.Ico sb.bmapstart sb.nmeta) (insert p B)
  have hins := Finset.card_insert_le p B
  simp only [Nat.card_Ico, Superblock.nmeta, logBound, BPB_eq] at *
  omega

section Wrote

variable {sb : Superblock} {disk disk' : Disk} {d d' : Dinode} {off : Nat} {src : List UInt8}

theorem Wrote.size_eq (hw : Wrote sb disk d off src disk' d') : d'.size = d.size := by
  rw [← hw.same]

theorem Wrote.type_eq (hw : Wrote sb disk d off src disk' d') : d'.type = d.type := by
  rw [← hw.same]

theorem Wrote.nlink_eq (hw : Wrote sb disk d off src disk' d') : d'.nlink = d.nlink := by
  rw [← hw.same]

/-- The inode after the write. -/
def Dinode.grow (d : Dinode) (size : Nat) : Dinode := { d with size := max d.size size }

theorem slotAddr_grow (disk : Disk) (d : Dinode) (size k : Nat) :
    slotAddr disk (d.grow size) k = slotAddr disk d k := rfl

theorem byteAt_grow (disk : Disk) (d : Dinode) (size o : Nat) :
    byteAt disk (d.grow size) o = byteAt disk d o := rfl

theorem Wrote.noHoles (hw : Wrote sb disk d off src disk' d') (h : NoHoles disk d)
    (hoff : off ≤ d.size) (hend : off + src.length ≤ MAXFILE * BSIZE) :
    NoHoles disk' (d'.grow (off + src.length)) := by
  have hmax := h.size_le
  refine ⟨by rw [Dinode.grow, hw.size_eq]; exact Nat.max_le.mpr ⟨hmax, hend⟩, fun bn hbn => ?_⟩
  simp only [Dinode.grow, hw.size_eq, lt_max_iff] at hbn
  have hlt : bn < MAXFILE := by simp only [BSIZE_eq, MAXFILE_eq] at *; omega
  rw [bmapAddr, slotAddr_grow]
  by_cases hold : bn * BSIZE < d.size
  · rw [hw.slots _ (bmapSlot_lt hlt) (Or.inl (h.mapped bn hold))]
    exact h.mapped bn hold
  · refine hw.mapped bn ⟨?_, ?_, ?_⟩ <;> simp only [BSIZE_eq] at * <;> omega

theorem Wrote.content (hw : Wrote sb disk d off src disk' d') (h : NoHoles disk d)
    (hoff : off ≤ d.size) (hend : off + src.length ≤ MAXFILE * BSIZE) :
    content disk' (d'.grow (off + src.length)) = overwrite (content disk d) off src := by
  have hsize : (d'.grow (off + src.length)).size = max d.size (off + src.length) := by
    rw [Dinode.grow, hw.size_eq]
  have hlen : off ≤ (Fs.content disk d).length := by rwa [length_content]
  refine ext_getD (by rw [length_overwrite hlen, length_content, length_content, hsize])
    fun o ho => ?_
  rw [length_content] at ho
  rw [getD_content ho, byteAt_grow, getD_overwrite hlen]
  rw [hsize, lt_max_iff] at ho
  have hmax := h.size_le
  have hlt : o / BSIZE < MAXFILE := by simp only [BSIZE_eq, MAXFILE_eq] at *; omega
  by_cases hin : off ≤ o ∧ o < off + src.length
  · rw [hw.bytes o hlt (Or.inr hin), if_pos hin, if_pos hin]
  · have hold : o < d.size := by omega
    rw [hw.bytes o hlt (Or.inl (h.block hold).2), if_neg hin, if_neg hin, getD_content hold]

/-- The slots of the blocks below the size are filled. -/
theorem NoHoles.slot_ne_zero (h : NoHoles disk d) {n j : Nat} (hle : off + n ≤ d.size)
    (ht : Touched off n j) : slotAddr disk d j ≠ 0 := by
  obtain ⟨bn, ht, hj⟩ := ht
  have hmap : bmapAddr disk d bn ≠ 0 := h.mapped bn (lt_of_lt_of_le ht.2.2 hle)
  rcases hj with rfl | ⟨hge, rfl⟩
  · exact hmap
  · rw [slotAddr_indirect]
    exact indirect_of_mapped hge hmap

theorem NoHoles.needed_eq_zero (h : NoHoles disk d) {n : Nat} (hle : off + n ≤ d.size) :
    needed disk d off n = 0 := by
  classical
  rw [needed, unmapped, Finset.card_eq_zero, Finset.filter_eq_empty_iff]
  intro j hj
  rw [touchedSlots, Finset.mem_filter] at hj
  exact h.slot_ne_zero hle hj.2

/-- Writing below the size fills no slot. -/
theorem Wrote.inode_eq (hw : Wrote sb disk d off src disk' d') (h : NoHoles disk d)
    (hle : off + src.length ≤ d.size) : d' = d := by
  have hslot : ∀ j, j < NSLOT → slotAddr disk' d' j = slotAddr disk d j := fun j hj =>
    hw.slots j hj (or_iff_not_imp_right.mpr fun ht => h.slot_ne_zero hle (not_not.mp ht))
  have haddrs : d'.addrs = d.addrs := by
    funext j
    have hj := j.isLt
    have := hslot j (by simp only [NSLOT]; omega)
    rw [slotAddr, if_pos (by omega), slotAddr, if_pos (by omega), d'.addr_val, d.addr_val] at this
    exact this
  rw [← hw.same, ← haddrs]

end Wrote

theorem Wrote.staged {off : Nat} {src : List UInt8} {disk' : Disk} {d' : Dinode}
    (hw : Wrote s.sb s.disk (s.icache k).din off src disk' d') (h : Consistent s) (hk : s.Used k)
    (hv : (s.icache k).valid = true) (hoff : off ≤ (s.icache k).din.size)
    (hend : off + src.length ≤ MAXFILE * BSIZE)
    (hB : Blocks s.sb disk' (upd s.node (s.icache k).inum d') ∅) :
    Staged s k disk' (d'.grow (off + src.length)) := by
  have hi := h.inum_lt k hk
  have htype := (h.valid k hk hv).2
  have hfits := hw.fits (h.fits hk hv)
  have hmax := (h.noHoles hk hv).size_le
  refine ⟨fun b hb => ?_, hB.congr (fun _ _ => rfl) fun p => ?_, by rwa [Dinode.grow, hw.type_eq],
    ⟨hfits.type, hfits.major, hfits.minor, hfits.nlink, ?_, hfits.addrs⟩,
    fun j hj hne => hw.sameBlocks (h.own hk hv) hi htype hj hne,
    hw.noHoles (h.noHoles hk hv) hoff hend⟩
  · have hm := h.geo.bmapstart_lt
    have hsz := h.geo.nmeta_le
    refine hw.frame b (fun hbm => by have := hbm.1; omega)
      (fun hlt => (h.blocks.bit_iff b hlt).mpr (Or.inl (by omega))) fun j hj h0 he => ?_
    have := ((h.own hk hv).own_slot_range hi htype hj h0).1
    omega
  · have hlive : Live s.sb (upd s.node (s.icache k).inum (d'.grow (off + src.length))) p.1 ↔
        Live s.sb (upd s.node (s.icache k).inum d') p.1 := by
      simp only [Live, upd]
      split <;> rfl
    simp only [refs, hlive]
    refine if_congr Iff.rfl ?_ rfl
    simp only [upd]
    split
    · rfl
    · rfl
  · simp only [Dinode.grow, hw.size_eq, BSIZE_eq, MAXFILE_eq] at *
    omega

/-- What a write of `src` at `off` makes of the state. -/
def Written (s : St) (k : Fin NINODE) (off : Nat) (src : List UInt8) (t : St) : Prop :=
  ∃ disk' d' lh', t = s.put k disk' lh' d' ∧ Consistent t ∧
    t.obj = upd s.obj (s.icache k).inum
      { s.obj (s.icache k).inum with data := overwrite (s.obj (s.icache k).inum).data off src }

/-- The new object. -/
theorem Wrote.obj_eq {off : Nat} {src : List UInt8} {disk' : Disk} {d' : Dinode}
    (hw : Wrote s.sb s.disk (s.icache k).din off src disk' d') (h : Consistent s) (hk : s.Used k)
    (hv : (s.icache k).valid = true) (hoff : off ≤ (s.icache k).din.size)
    (hend : off + src.length ≤ MAXFILE * BSIZE) :
    Obj.of disk' (d'.grow (off + src.length)) =
      { s.obj (s.icache k).inum with
        data := overwrite (s.obj (s.icache k).inum).data off src } := by
  have hs := hw.same
  rw [h.obj_eq hk hv]
  simp only [Obj.of, hw.content (h.noHoles hk hv) hoff hend]
  simp only [Dinode.grow]
  rw [← hs]

theorem growTo_spec {off : Nat} {src : List UInt8} {disk' : Disk} {d' : Dinode} {lh : List Nat}
    (h : Consistent s) (hk : s.Used k) (hv : (s.icache k).valid = true)
    (hoff : off ≤ (s.icache k).din.size) (hend : off + src.length ≤ MAXFILE * BSIZE)
    (hout : 1 ≤ s.outstanding) (hw : Wrote s.sb s.disk (s.icache k).din off src disk' d')
    (hB : Blocks s.sb disk' (upd s.node (s.icache k).inum d') ∅)
    (hbig : LogFull s.sb lh.length → E tooBig) :
    Ensures (growTo k src.length (off + src.length)) (s.put k disk' lh d') E
      fun _ t => Written s k off src t := by
  have hst := hw.staged h hk hv hoff hend hB
  have hobj := hw.obj_eq h hk hv hoff hend
  simp only [growTo, ensures_bind, ensures_get, St.put_icache, hw.size_eq]
  by_cases hgrow : off + src.length > (s.icache k).din.size
  · have hmax : max d'.size (off + src.length) = off + src.length := by rw [hw.size_eq]; omega
    have hst' : (s.put k disk' lh d').setInode k
        { (s.put k disk' lh d').icache k with din := { d' with size := off + src.length } } =
        s.put k disk' lh (d'.grow (off + src.length)) := by
      simp [St.put, St.setInode, Dinode.grow, hmax]
    rw [if_pos ⟨by omega, hgrow⟩]
    simp only [modDinode, modInode, ensures_bind, ensures_modify, St.put_icache] at hst' ⊢
    rw [hst']
    refine Ensures.next (iupdate_done h hk hv hst hout hbig) ?_
    rintro _ t ⟨rfl, hc, ho⟩
    exact ⟨_, _, _, rfl, hc, by rw [ho, hobj]⟩
  · rw [if_neg fun hc => hgrow hc.2]
    -- nothing to allocate below the size, so the inode is the one on the disk
    have hsame : d' = (s.icache k).din := hw.inode_eq (h.noHoles hk hv) (by omega)
    have hsize : d'.grow (off + src.length) = d' := by
      have : max d'.size (off + src.length) = d'.size := by rw [hw.size_eq]; omega
      rw [Dinode.grow, this]
    rw [hsize] at hst hobj
    have hput := h.put hk hv lh (hst.super 1 h.geo.one_lt)
      (by
        rw [nodes_congr h.geo hst.super, hsame, (h.valid k hk hv).1, upd_eq_self]
        rfl) hst.blocks hst.type hst.same hst.holes
    exact ⟨disk', d', lh, rfl, hput.1, by rw [hput.2, hobj]⟩

/-- **`writei` rejects** a request and changes nothing. -/
theorem writei_rejected {off : Nat} {src : List UInt8} (hdev : (s.icache k).din.type ≠ T_DEV)
    (hoff : off < 2 ^ 32) (hn : src.length < 2 ^ 32)
    (hrej : Rejected (s.icache k).din.size off src.length) :
    Ensures (writei k src off) s E fun r t => r = -1 ∧ t = s := by
  have hwrap : (off + src.length) % 2 ^ 32 < off ↔ 2 ^ 32 ≤ off + src.length := by omega
  simp only [writei, ensures_bind, ensures_get, if_neg hdev, hwrap]
  split
  · exact ⟨rfl, rfl⟩
  · rename_i hno
    rw [if_pos (by rcases hrej with hr | hr | hr <;> omega)]
    exact ⟨rfl, rfl⟩

/-- **`writei`** overwrites a piece of the object. It stops only for lack
of free blocks or of room in the log. -/
theorem writei_spec {off : Nat} {src : List UInt8} (h : Consistent s) (hk : s.Used k)
    (hv : (s.icache k).valid = true) (hdev : (s.icache k).din.type ≠ T_DEV)
    (hout : 1 ≤ s.outstanding) (hacc : ¬Rejected (s.icache k).din.size off src.length)
    (hnone : freeCount s.sb.size (bit s.sb s.disk) <
      needed s.disk (s.icache k).din off src.length → E outOfBlocks)
    (hbig : LogFull s.sb (s.lh.length + logBound s.sb off src.length) → E tooBig) :
    Ensures (writei k src off) s E fun r t => r = src.length ∧ Written s k off src t := by
  simp only [Rejected, not_or, not_lt] at hacc
  obtain ⟨hle, hnowrap, hend⟩ := hacc
  simp only [writei, ensures_bind, ensures_get, if_neg hdev]
  rw [if_neg (by omega), if_neg (by omega)]
  simp only [ensures_bind]
  classical
  refine Ensures.next (writeLoop_spec (F := touchedSlots off src.length) (Nat.le_refl _)
    (h.ready hk hv hout) hend
    (fun j hj => Finset.mem_filter.mpr ⟨Finset.mem_range.mpr (hj.lt hend), hj⟩)
    (fun j hj => Finset.mem_range.mp (Finset.mem_filter.mp hj).1) hnone
    fun l hl hfull => hbig (hfull.mono (hl.length_le _))) ?_
  rintro _ t ⟨disk', d', l, rfl, hw, hB, hlogs⟩
  refine Ensures.next (growTo_spec h hk hv hle hend hout hw hB fun hfull =>
    hbig (hfull.mono (hlogs.length_le _))) ?_
  intro _ t ht
  exact ⟨rfl, ht⟩

end Xv6.Fs
