import Xv6.Params
import Xv6.Lib.Exec

/-!
# Fs — what is where on the disk

The structures of `fs.h` and how they sit in blocks: the superblock, the
inodes (eight to a block), the free bitmap, the block addresses of an
inode, directory entries. Fields of C integer types are natural numbers;
the encoders store them modulo their width.
-/

namespace Xv6.Fs

open Lib

/-! ## The superblock -/

/-- `struct superblock`. -/
structure Superblock where
  size : Nat
  nblocks : Nat
  ninodes : Nat
  nlog : Nat
  logstart : Nat
  inodestart : Nat
  bmapstart : Nat
deriving DecidableEq

/-- `readsb`, on the contents of block 1. -/
def readsb (b : Block) : Superblock where
  size := b.rd32 0
  nblocks := b.rd32 4
  ninodes := b.rd32 8
  nlog := b.rd32 12
  logstart := b.rd32 16
  inodestart := b.rd32 20
  bmapstart := b.rd32 24

/-- `IBLOCK(i, sb)`. -/
def IBLOCK (i : Nat) (sb : Superblock) : Nat := i / IPB + sb.inodestart

/-- `BBLOCK(b, sb)`. -/
def BBLOCK (b : Nat) (sb : Superblock) : Nat := b / BPB + sb.bmapstart

/-! ## Inodes -/

def T_DIR : Nat := 1
def T_FILE : Nat := 2
def T_DEV : Nat := 3

/-- `struct dinode`, which is also what `struct inode` keeps a copy of. -/
@[ext] structure Dinode where
  type : Nat
  major : Nat
  minor : Nat
  nlink : Nat
  size : Nat
  addrs : Fin (NDIRECT + 1) → Nat

namespace Dinode

/-- `addrs[j]`. -/
def addr (d : Dinode) (j : Nat) : Nat := if h : j < NDIRECT + 1 then d.addrs ⟨j, h⟩ else 0

/-- `addrs[j] = a`. -/
def setAddr (d : Dinode) (j a : Nat) : Dinode :=
  { d with addrs := fun i => if i.val = j then a else d.addrs i }

/-- A zeroed inode of the given type. -/
def fresh (type : Nat) : Dinode := ⟨type, 0, 0, 0, 0, fun _ => 0⟩

end Dinode

/-- `sizeof(struct dinode)`. -/
def DINODE : Nat := 64

/-- The byte offset of inode `i` in its block. -/
def inodeOff (i : Nat) : Nat := DINODE * (i % IPB)

/-- Read a `struct dinode` at offset `o` of a block. -/
def getDinode (b : Block) (o : Nat) : Dinode where
  type := b.rd16 o
  major := b.rd16 (o + 2)
  minor := b.rd16 (o + 4)
  nlink := b.rd16 (o + 6)
  size := b.rd32 (o + 8)
  addrs := fun j => b.rd32 (o + 12 + 4 * j.val)

/-- Write a `struct dinode` at offset `o` of a block. -/
def putDinode (b : Block) (o : Nat) (d : Dinode) : Block :=
  (((((b.wr16 o d.type).wr16 (o + 2) d.major).wr16 (o + 4) d.minor).wr16 (o + 6) d.nlink).wr32
    (o + 8) d.size).wr32s (o + 12) d.addr (NDIRECT + 1)

/-- Inode `i` as it is on the disk. -/
def dinodeAt (sb : Superblock) (disk : Disk) (i : Nat) : Dinode :=
  getDinode (disk (IBLOCK i sb)) (inodeOff i)

/-- Every field fits its C type. -/
structure Dinode.Fits (d : Dinode) : Prop where
  type : d.type < 2 ^ 16
  major : d.major < 2 ^ 16
  minor : d.minor < 2 ^ 16
  nlink : d.nlink < 2 ^ 16
  size : d.size < 2 ^ 32
  addrs : ∀ j, d.addrs j < 2 ^ 32

theorem getDinode_fits (b : Block) (o : Nat) : (getDinode b o).Fits :=
  ⟨b.rd16_lt _, b.rd16_lt _, b.rd16_lt _, b.rd16_lt _, b.rd32_lt _, fun _ => b.rd32_lt _⟩

theorem Dinode.fresh_fits {type : Nat} (h : type < 2 ^ 16) : (Dinode.fresh type).Fits :=
  ⟨h, by simp [fresh], by simp [fresh], by simp [fresh], by simp [fresh], fun _ => by simp [fresh]⟩

theorem Dinode.setAddr_fits {d : Dinode} (h : d.Fits) {j a : Nat} (ha : a < 2 ^ 32) :
    (d.setAddr j a).Fits :=
  ⟨h.type, h.major, h.minor, h.nlink, h.size, fun i => by
    simp only [setAddr]; split
    · exact ha
    · exact h.addrs i⟩

theorem Dinode.addr_lt {d : Dinode} (h : d.Fits) (j : Nat) : d.addr j < 2 ^ 32 := by
  unfold addr
  split
  · exact h.addrs _
  · decide

@[simp] theorem Dinode.addr_setAddr_self {d : Dinode} {j a : Nat} (hj : j < NDIRECT + 1) :
    (d.setAddr j a).addr j = a := by simp [addr, setAddr, hj]

theorem Dinode.addr_setAddr_of_ne {d : Dinode} {j k a : Nat} (h : k ≠ j) :
    (d.setAddr j a).addr k = d.addr k := by
  simp [addr, setAddr, h]

/-- The slot of a `Fin` index. -/
theorem Dinode.addr_val (d : Dinode) (j : Fin (NDIRECT + 1)) : d.addr j.val = d.addrs j :=
  dif_pos j.isLt

/-- What was put is read back. -/
theorem getDinode_putDinode {b : Block} {o : Nat} {d : Dinode} (hd : d.Fits)
    (ho : o + DINODE ≤ BSIZE) : getDinode (putDinode b o d) o = d := by
  have hD : DINODE = 64 := rfl
  have hN : NDIRECT = 12 := rfl
  have haddr : ∀ j : Fin (NDIRECT + 1),
      (putDinode b o d).rd32 (o + 12 + 4 * j.val) = d.addrs j := by
    intro j
    rw [putDinode, Bytes.rd32_wr32s (by omega) j.isLt, Nat.mod_eq_of_lt (d.addr_lt hd j),
      d.addr_val]
  refine Dinode.ext ?_ ?_ ?_ ?_ ?_ (funext haddr)
  · simp (disch := omega) only [getDinode, putDinode, Bytes.rd16_wr32s_out, Bytes.rd16_wr32_out,
      Bytes.rd16_wr16_out, Bytes.rd16_wr16, Nat.mod_eq_of_lt hd.type]
  · simp (disch := omega) only [getDinode, putDinode, Bytes.rd16_wr32s_out, Bytes.rd16_wr32_out,
      Bytes.rd16_wr16_out, Bytes.rd16_wr16, Nat.mod_eq_of_lt hd.major]
  · simp (disch := omega) only [getDinode, putDinode, Bytes.rd16_wr32s_out, Bytes.rd16_wr32_out,
      Bytes.rd16_wr16_out, Bytes.rd16_wr16, Nat.mod_eq_of_lt hd.minor]
  · simp (disch := omega) only [getDinode, putDinode, Bytes.rd16_wr32s_out, Bytes.rd16_wr32_out,
      Bytes.rd16_wr16, Nat.mod_eq_of_lt hd.nlink]
  · simp (disch := omega) only [getDinode, putDinode, Bytes.rd32_wr32s_out, Bytes.rd32_wr32,
      Nat.mod_eq_of_lt hd.size]

/-- Another inode of the same block is not touched. -/
theorem getDinode_putDinode_of_ne {b : Block} {o o' : Nat} {d : Dinode}
    (h : o' + DINODE ≤ o ∨ o + DINODE ≤ o') :
    getDinode (putDinode b o d) o' = getDinode b o' := by
  have hD : DINODE = 64 := rfl
  have hN : NDIRECT = 12 := rfl
  have hword : ∀ t, t + 4 ≤ DINODE → (putDinode b o d).rd32 (o' + t) = b.rd32 (o' + t) := by
    intro t ht
    simp (disch := omega) only [putDinode, Bytes.rd32_wr32s_out, Bytes.rd32_wr32_out,
      Bytes.rd32_wr16_out]
  have hhalf : ∀ t, t + 2 ≤ DINODE → (putDinode b o d).rd16 (o' + t) = b.rd16 (o' + t) := by
    intro t ht
    simp (disch := omega) only [putDinode, Bytes.rd16_wr32s_out, Bytes.rd16_wr32_out,
      Bytes.rd16_wr16_out]
  refine Dinode.ext (hhalf 0 (by omega)) (hhalf 2 (by omega)) (hhalf 4 (by omega))
    (hhalf 6 (by omega)) (hword 8 (by omega)) (funext fun j => ?_)
  have := j.isLt
  simp only [getDinode, Nat.add_assoc o' 12]
  exact hword _ (by omega)

theorem inodeOff_le (i : Nat) : inodeOff i + DINODE ≤ BSIZE := by
  have h : i % IPB < IPB := Nat.mod_lt _ (by decide)
  simp only [inodeOff, DINODE, IPB, BSIZE] at h ⊢
  omega

/-- Storing inode `i` changes inode `i` only. -/
theorem dinodeAt_store (sb : Superblock) (disk : Disk) (i : Nat) {d : Dinode} (hd : d.Fits)
    (j : Nat) :
    dinodeAt sb (upd disk (IBLOCK i sb) (putDinode (disk (IBLOCK i sb)) (inodeOff i) d)) j =
      if j = i then d else dinodeAt sb disk j := by
  by_cases hji : j = i
  · subst hji
    rw [dinodeAt, upd_self, getDinode_putDinode hd (inodeOff_le j), if_pos rfl]
  · rw [if_neg hji, dinodeAt, dinodeAt]
    by_cases hb : IBLOCK j sb = IBLOCK i sb
    · rw [hb, upd_self, getDinode_putDinode_of_ne]
      simp only [IBLOCK, inodeOff, DINODE, IPB, BSIZE] at hb ⊢
      omega
    · rw [upd_of_ne hb]

/-! ## Directory entries -/

/-- `sizeof(struct dirent)`. -/
def DIRENT : Nat := 16

/-- The string a name buffer holds: at most `DIRSIZ` bytes, up to a NUL. -/
def strn (name : List UInt8) : List UInt8 := (name.take DIRSIZ).takeWhile (· ≠ 0)

/-- `strncmp(s, t, n) == 0`; a list that ends stands for a NUL. -/
def strncmpEq : (n : Nat) → List UInt8 → List UInt8 → Bool
  | 0, _, _ => true
  | n + 1, s, t =>
      let p := s.headD 0
      let q := t.headD 0
      if p ≠ 0 ∧ p = q then strncmpEq n s.tail t.tail else p == q

/-- `namecmp(s, t) == 0`. -/
def namecmp (s t : List UInt8) : Bool := strncmpEq DIRSIZ s t

/-- `strncpy(dst, s, n)`: copy up to a NUL, then pad with NULs. -/
def strncpy : (n : Nat) → List UInt8 → List UInt8
  | 0, _ => []
  | n + 1, s =>
      let p := s.headD 0
      p :: (if p ≠ 0 then strncpy n s.tail else List.replicate n 0)

/-- The bytes of a `struct dirent`. -/
def dirent (inum : Nat) (name : List UInt8) : List UInt8 :=
  Bytes.le16 inum ++ strncpy DIRSIZ name

/-- `de.inum` of entry bytes. -/
def direntInum (de : List UInt8) : Nat := (de.getD 0 0).toNat + 256 * (de.getD 1 0).toNat

/-- `de.name` of entry bytes. -/
def direntName (de : List UInt8) : List UInt8 := (de.drop 2).take DIRSIZ

end Xv6.Fs
