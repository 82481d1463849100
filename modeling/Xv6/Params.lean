import Xv6.Lib.Bytes

/-!
# Params — the constants of `param.h` and `fs.h`

Sizes the kernel and `mkfs` are compiled with, and the block type they
share. `sizeof` values are spelled out where the C text uses `sizeof`.
-/

namespace Xv6

open Lib

/-! ## `param.h` -/

def NPROC : Nat := 64
def NOFILE : Nat := 16
def NFILE : Nat := 100
def NINODE : Nat := 50
def NDEV : Nat := 10
def MAXOPBLOCKS : Nat := 10
def LOGSIZE : Nat := MAXOPBLOCKS * 3
def NBUF : Nat := MAXOPBLOCKS * 3
def FSSIZE : Nat := 1000

/-! ## `fs.h` -/

def ROOTINO : Nat := 1
def BSIZE : Nat := 512
def NDIRECT : Nat := 12
/-- `BSIZE / sizeof(uint)`. -/
def NINDIRECT : Nat := BSIZE / 4
def MAXFILE : Nat := NDIRECT + NINDIRECT
/-- `BSIZE / sizeof(struct dinode)`. -/
def IPB : Nat := BSIZE / 64
def BPB : Nat := BSIZE * 8
def DIRSIZ : Nat := 14

/-! The values, for arithmetic. -/

theorem BSIZE_eq : BSIZE = 512 := rfl
theorem NDIRECT_eq : NDIRECT = 12 := rfl
theorem NINDIRECT_eq : NINDIRECT = 128 := rfl
theorem MAXFILE_eq : MAXFILE = 140 := rfl
theorem IPB_eq : IPB = 8 := rfl
theorem BPB_eq : BPB = 4096 := rfl
theorem NINODE_pos : 0 < NINODE := by decide

theorem NBUF_pos : 0 < NBUF := by decide

/-- One disk block. -/
abbrev Block := Bytes BSIZE

/-- An array of blocks: the disk, or what the buffer cache shows of it. -/
abbrev Disk := Nat → Block

end Xv6
