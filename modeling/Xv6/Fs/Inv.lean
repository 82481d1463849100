import Xv6.Fs.Content

/-!
# Fs — the state between two primitives

`Consistent` is what holds whenever no inode is being changed: blocks are
owned, no file has a hole below its size, and a valid cache entry agrees
with the disk. `obj` is what a state means to a user: for every inode
number its type, link count and contents.

A primitive that changes one inode reaches the new disk and the new copy
of the inode in several steps; `Consistent.put` says what has to be shown
at its end.
-/

namespace Xv6.Fs

open Lib

/-! ## Objects -/

/-- An inode as its users see it. -/
structure Obj where
  type : Nat
  major : Nat
  minor : Nat
  nlink : Nat
  data : List UInt8

/-- A free inode. -/
def Obj.free : Obj := ⟨0, 0, 0, 0, []⟩

/-- The object an inode and the blocks make. -/
def Obj.of (disk : Disk) (d : Dinode) : Obj :=
  ⟨d.type, d.major, d.minor, d.nlink, content disk d⟩

/-- The inodes on the disk; beyond the table there are free ones. -/
def nodes (sb : Superblock) (disk : Disk) (i : Nat) : Dinode :=
  if i < sb.ninodes then dinodeAt sb disk i else .fresh 0

theorem nodes_fits (sb : Superblock) (disk : Disk) (i : Nat) : (nodes sb disk i).Fits := by
  unfold nodes
  split
  · exact getDinode_fits _ _
  · exact Dinode.fresh_fits (by decide)

/-- The inodes depend on the inode blocks only. -/
theorem nodes_congr {sb : Superblock} (hg : sb.Geo) {disk disk' : Disk}
    (h : ∀ b, b < sb.bmapstart → disk' b = disk b) : nodes sb disk' = nodes sb disk := by
  funext i
  unfold nodes
  split
  · rename_i hi
    rw [dinodeAt, dinodeAt, h _ (hg.IBLOCK_lt hi).2]
  · rfl

def St.node (s : St) : Nat → Dinode := nodes s.sb s.disk

/-- The objects on the disk. -/
def St.obj (s : St) (i : Nat) : Obj :=
  if Live s.sb s.node i then Obj.of s.disk (s.node i) else .free

theorem St.obj_of_live {s : St} {i : Nat} (h : Live s.sb s.node i) :
    s.obj i = Obj.of s.disk (s.node i) := if_pos h

theorem St.live_iff {s : St} {i : Nat} : Live s.sb s.node i ↔ (s.obj i).type ≠ 0 := by
  unfold St.obj
  split
  · rename_i h
    exact ⟨fun h => h.2, fun _ => h⟩
  · rename_i h
    exact ⟨fun h' => absurd h' h, fun h' => absurd rfl h'⟩

/-! ## Frames -/

/-- The blocks of an inode have not changed. -/
def SameBlocks (disk disk' : Disk) (d : Dinode) : Prop :=
  ∀ k, k < NSLOT → slotAddr disk d k ≠ 0 → disk' (slotAddr disk d k) = disk (slotAddr disk d k)

section Frames

variable {disk disk' : Disk} {d : Dinode}

theorem SameBlocks.slots (h : SameBlocks disk disk' d) (k : Nat) :
    slotAddr disk' d k = slotAddr disk d k := by
  refine slotAddr_congr (fun h0 => ?_) k
  have := h NDIRECT (by decide)
  rw [slotAddr_indirect] at this
  exact this h0

theorem SameBlocks.noHoles (h : SameBlocks disk disk' d) (hd : NoHoles disk d) : NoHoles disk' d :=
  ⟨hd.size_le, fun bn hbn => by rw [bmapAddr, h.slots]; exact hd.mapped bn hbn⟩

theorem SameBlocks.content (h : SameBlocks disk disk' d) (hd : NoHoles disk d) :
    content disk' d = content disk d := by
  refine List.map_congr_left fun o ho => ?_
  obtain ⟨hbn, h0⟩ := hd.block (List.mem_range.mp ho)
  rw [byteAt, byteAt, bmapAddr, h.slots]
  exact congrArg (fun b => Bytes.get b (o % BSIZE)) (h _ (bmapSlot_lt hbn) h0)

theorem SameBlocks.obj (h : SameBlocks disk disk' d) (hd : NoHoles disk d) :
    Obj.of disk' d = Obj.of disk d := by
  rw [Obj.of, Obj.of, h.content hd]

theorem SameBlocks.trans {disk₂ : Disk} (h₁ : SameBlocks disk disk' d)
    (h₂ : SameBlocks disk' disk₂ d) : SameBlocks disk disk₂ d := by
  intro k hk h0
  have := h₂ k hk
  rw [h₁.slots k] at this
  rw [this h0, h₁ k hk h0]

end Frames

/-- The blocks of another inode are not among those of inode `i`. -/
theorem Blocks.other_ne {sb : Superblock} {disk : Disk} {node : Nat → Dinode} {i j : Nat}
    {d : Dinode} {extra : Set Nat} (h : Blocks sb disk (upd node i d) extra)
    (hi : i < sb.ninodes) (hd : d.type ≠ 0) (hj : Live sb node j) (hji : j ≠ i) {k l : Nat}
    (hk : k < NSLOT) (hl : l < NSLOT) (h0 : slotAddr disk d k ≠ 0) :
    slotAddr disk d k ≠ slotAddr disk (node j) l := by
  intro he
  have := h.inj_slot (k := k) (l := l) (live_upd hi hd) ((live_upd_of_ne hji).mpr hj) hk hl
    (by rwa [upd_self]) (by rw [upd_self, upd_of_ne hji, he])
  exact hji this.1.symm

/-- A block of another inode is in use, and not bitmap. -/
theorem Blocks.other_range {sb : Superblock} {disk : Disk} {node : Nat → Dinode} {i j : Nat}
    {d : Dinode} {extra : Set Nat} (h : Blocks sb disk (upd node i d) extra)
    (hj : Live sb node j) (hji : j ≠ i) {l : Nat} (hl : l < NSLOT)
    (h0 : slotAddr disk (node j) l ≠ 0) :
    sb.nmeta ≤ slotAddr disk (node j) l ∧ slotAddr disk (node j) l < sb.size ∧
      bit sb disk (slotAddr disk (node j) l) = true := by
  have hlive := (live_upd_of_ne (d := d) hji).mpr hj
  have hr := h.range_slot (k := l) hlive hl (by rwa [upd_of_ne hji])
  have hb := h.bit_of_ref (k := (j, l)) (by rw [refs_of_live hlive hl]; rwa [upd_of_ne hji])
  rw [refs_of_live hlive hl] at hb
  rw [upd_of_ne hji] at hr hb
  exact ⟨hr.1, hr.2, hb⟩

/-- Writing to one inode does not touch the blocks of another. -/
theorem Wrote.sameBlocks {sb : Superblock} {disk disk' : Disk} {node : Nat → Dinode} {i j off : Nat}
    {d d' : Dinode} {extra : Set Nat} {src : List UInt8} (hw : Wrote sb disk d off src disk' d')
    (h : Blocks sb disk (upd node i d) extra) (hi : i < sb.ninodes) (hd : d.type ≠ 0)
    (hj : Live sb node j) (hji : j ≠ i) : SameBlocks disk disk' (node j) := by
  intro l hl h0
  obtain ⟨hlo, _, hset⟩ := h.other_range hj hji hl h0
  exact hw.frame _ (fun hbm => by have := hbm.2; omega) (fun _ => hset)
    fun k hk hk0 => h.other_ne hi hd hj hji hk hl hk0

/-! ## The invariant -/

/-- A cache entry in use. -/
def St.Used (s : St) (k : Fin NINODE) : Prop := 0 < (s.icache k).ref

structure Consistent (s : St) : Prop where
  geo : s.sb.Geo
  super : readsb (s.disk 1) = s.sb
  blocks : Blocks s.sb s.disk s.node ∅
  holes : ∀ i, Live s.sb s.node i → NoHoles s.disk (s.node i)
  uniq : ∀ k l, s.Used k → s.Used l → (s.icache k).inum = (s.icache l).inum → k = l
  inum_lt : ∀ k, s.Used k → (s.icache k).inum < s.sb.ninodes
  valid : ∀ k, s.Used k → (s.icache k).valid = true →
    (s.icache k).din = s.node (s.icache k).inum ∧ (s.icache k).din.type ≠ 0

theorem Consistent.live {s : St} (h : Consistent s) {k : Fin NINODE} (hk : s.Used k)
    (hv : (s.icache k).valid = true) : Live s.sb s.node (s.icache k).inum := by
  obtain ⟨h1, h2⟩ := h.valid k hk hv
  exact ⟨h.inum_lt k hk, h1 ▸ h2⟩

theorem Consistent.own {s : St} (h : Consistent s) {k : Fin NINODE} (hk : s.Used k)
    (hv : (s.icache k).valid = true) :
    Blocks s.sb s.disk (upd s.node (s.icache k).inum (s.icache k).din) ∅ := by
  rw [(h.valid k hk hv).1, upd_eq_self]
  exact h.blocks

theorem Consistent.fits {s : St} (h : Consistent s) {k : Fin NINODE} (hk : s.Used k)
    (hv : (s.icache k).valid = true) : (s.icache k).din.Fits := by
  rw [(h.valid k hk hv).1]
  exact nodes_fits _ _ _

/-- Inside a transaction, a valid cache entry is ready for changes. -/
theorem Consistent.ready {s : St} (h : Consistent s) {k : Fin NINODE} (hk : s.Used k)
    (hv : (s.icache k).valid = true) (hout : 1 ≤ s.outstanding) :
    Ready s s.node (s.icache k).inum k ∅ where
  geo := h.geo
  blocks := h.own hk hv
  lt := h.inum_lt k hk
  live := (h.valid k hk hv).2
  fits := h.fits hk hv
  out := hout

theorem Consistent.noHoles {s : St} (h : Consistent s) {k : Fin NINODE} (hk : s.Used k)
    (hv : (s.icache k).valid = true) : NoHoles s.disk (s.icache k).din := by
  rw [(h.valid k hk hv).1]
  exact h.holes _ (h.live hk hv)

/-- A valid cache entry shows its object. -/
theorem Consistent.obj_eq {s : St} (h : Consistent s) {k : Fin NINODE} (hk : s.Used k)
    (hv : (s.icache k).valid = true) :
    s.obj (s.icache k).inum = Obj.of s.disk (s.icache k).din := by
  rw [St.obj_of_live (h.live hk hv), ← (h.valid k hk hv).1]

/-- Only the inode of entry `k` is replaced. -/
theorem St.put_entry (s : St) (k l : Fin NINODE) (disk' : Disk) (lh' : List Nat) (d' : Dinode) :
    (s.put k disk' lh' d').icache l =
      { s.icache l with din := if l = k then d' else (s.icache l).din } := by
  by_cases hl : l = k
  · subst hl
    simp
  · simp [St.put, upd_of_ne hl, hl]

/-- **The end of a primitive** that changed the inode in entry `k`. -/
theorem Consistent.put {s : St} (h : Consistent s) {k : Fin NINODE} (hk : s.Used k)
    (hv : (s.icache k).valid = true) {disk' : Disk} (lh' : List Nat) {d' : Dinode}
    (hsuper : disk' 1 = s.disk 1)
    (hn : nodes s.sb disk' = upd s.node (s.icache k).inum d')
    (hB : Blocks s.sb disk' (upd s.node (s.icache k).inum d') ∅) (hd' : d'.type ≠ 0)
    (hsame : ∀ j, Live s.sb s.node j → j ≠ (s.icache k).inum → SameBlocks s.disk disk' (s.node j))
    (hholes : NoHoles disk' d') :
    Consistent (s.put k disk' lh' d') ∧
      (s.put k disk' lh' d').obj = upd s.obj (s.icache k).inum (Obj.of disk' d') := by
  have hn : (s.put k disk' lh' d').node = upd s.node (s.icache k).inum d' := hn
  have hlive : Live s.sb (upd s.node (s.icache k).inum d') (s.icache k).inum :=
    live_upd (h.inum_lt k hk) hd'
  have hobj : (s.put k disk' lh' d').obj = upd s.obj (s.icache k).inum (Obj.of disk' d') := by
    funext j
    unfold St.obj
    rw [hn]
    by_cases hj : j = (s.icache k).inum
    · subst hj
      rw [upd_self, upd_self, St.put_sb, if_pos hlive, St.put_disk]
    · rw [upd_of_ne hj, upd_of_ne hj, St.put_sb, St.put_disk]
      by_cases hl : Live s.sb s.node j
      · rw [if_pos ((live_upd_of_ne hj).mpr hl), if_pos hl]
        exact (hsame j hl hj).obj (h.holes j hl)
      · rw [if_neg (fun hl' => hl ((live_upd_of_ne hj).mp hl')), if_neg hl]
  refine ⟨⟨h.geo, by rw [St.put_disk, hsuper]; exact h.super, by rw [hn]; exact hB, ?_, ?_, ?_, ?_⟩,
    hobj⟩
  · intro j hj
    rw [hn] at hj ⊢
    by_cases hji : j = (s.icache k).inum
    · subst hji; rw [upd_self]; exact hholes
    · have hl := (live_upd_of_ne hji).mp hj
      rw [upd_of_ne hji]
      exact (hsame j hl hji).noHoles (h.holes j hl)
  · intro l m hl hm he
    rw [St.Used, St.put_entry] at hl hm
    rw [St.put_entry, St.put_entry] at he
    exact h.uniq l m hl hm he
  · intro l hl
    rw [St.Used, St.put_entry] at hl
    rw [St.put_entry]
    exact h.inum_lt l hl
  · intro l hl hval
    rw [St.Used, St.put_entry] at hl
    rw [St.put_entry] at hval ⊢
    simp only [hn]
    by_cases hlk : l = k
    · subst hlk; simp [hd']
    · have hne : (s.icache l).inum ≠ (s.icache k).inum := fun he => hlk (h.uniq l k hl hk he)
      rw [if_neg hlk, upd_of_ne hne]
      exact h.valid l hl hval

end Xv6.Fs
