import Xv6.Fs.Layout
import Xv6.Lib.Exec

/-!
# Fs — the state of the file system code

One system call at a time: what the kernel keeps in memory (the inode
cache, the file table, the processes' file-related fields, the open
transaction), over the array of blocks the buffer cache shows. There is
one device, so `dev` fields are left out; a `struct inode *` is an index
of `icache.inode`.

`commits` and `freed` are bookkeeping that the code does not have: the
blocks of each transaction committed so far, and how often `iput` freed
each inode.
-/

namespace Xv6.Fs

open Lib

/-- `struct inode`: the cache entry and its copy of the disk inode. -/
structure Inode where
  inum : Nat
  ref : Nat
  busy : Bool
  valid : Bool
  din : Dinode

inductive FdType
  | FD_NONE
  | FD_INODE
deriving DecidableEq

/-- `struct file` (pipes are left out). -/
structure File where
  type : FdType
  ref : Nat
  readable : Bool
  writable : Bool
  ip : Fin NINODE
  off : Nat

/-- The fields of `struct proc` the file system uses. -/
structure Proc where
  cwd : Option (Fin NINODE)
  ofile : Fin NOFILE → Option (Fin NFILE)

/-- `struct devsw`: what a driver answers to a read of `n` bytes and to a
write. -/
structure Dev where
  read : Nat → Int × List UInt8
  write : List UInt8 → Int

structure St where
  sb : Superblock
  disk : Disk
  outstanding : Nat
  lh : List Nat
  icache : Fin NINODE → Inode
  ftable : Fin NFILE → File
  proc : Fin NPROC → Proc
  devsw : Nat → Option Dev
  commits : List (List Nat)
  freed : Nat → Nat

/-- How a system call can fail to return. -/
inductive Stop
  | panic (msg : String)
  | sleep                     -- waits for something only another process can do
  | fault                     -- follows a null pointer
deriving DecidableEq

abbrev Prog := StateT St (Except Stop)

variable {α : Type}

def panic (msg : String) : Prog α := throw (.panic msg)

/-! ## Blocks and transactions -/

/-- `bread`: the contents of a block. -/
def bread (b : Nat) : Prog Block := do return (← get).disk b

/-- Change the data of a buffer. -/
def store (b : Nat) (data : Block) : Prog Unit :=
  modify fun s => { s with disk := upd s.disk b data }

/-- `log.lh` after block `b` was logged. -/
def absorb (lh : List Nat) (b : Nat) : List Nat := if b ∈ lh then lh else lh ++ [b]

/-- `log_write`. -/
def logWrite (b : Nat) : Prog Unit := do
  let s ← get
  if s.lh.length ≥ LOGSIZE ∨ s.lh.length ≥ s.sb.nlog - 1 then panic "too big a transaction"
  else if s.outstanding < 1 then panic "log_write outside of trans"
  else set { s with lh := absorb s.lh b }

/-- `begin_op`; a process that finds the log too full sleeps. -/
def beginOp : Prog Unit := do
  let s ← get
  if s.lh.length + (s.outstanding + 1) * MAXOPBLOCKS > LOGSIZE then throw .sleep
  else set { s with outstanding := s.outstanding + 1 }

/-- `end_op`: the last operation out commits. -/
def endOp : Prog Unit := do
  let s ← get
  if s.outstanding - 1 = 0 then
    set { s with outstanding := 0, lh := [], commits := s.commits ++ [s.lh] }
  else set { s with outstanding := s.outstanding - 1 }

/-! ## The block allocator -/

/-- `bzero`. -/
def bzero (b : Nat) : Prog Unit := do
  store b (Bytes.zero BSIZE)
  logWrite b

/-- `balloc`, from the bitmap block of block `b` on. -/
def ballocFrom : (fuel b : Nat) → Prog Nat
  | 0, _ => panic "balloc: out of blocks"
  | fuel + 1, b => do
      let s ← get
      if b < s.sb.size then
        let bp ← bread (BBLOCK b s.sb)
        match findFrom (fun bi => decide (b + bi < s.sb.size) && !bp.testBit bi) BPB 0 with
        | some bi =>
            store (BBLOCK b s.sb) (bp.setBit bi)
            logWrite (BBLOCK b s.sb)
            bzero (b + bi)
            return b + bi
        | none => ballocFrom fuel (b + BPB)
      else panic "balloc: out of blocks"

/-- `balloc`: allocate a zeroed disk block. -/
def balloc : Prog Nat := do
  let s ← get
  ballocFrom (s.sb.size / BPB + 1) 0

/-- `bfree`: free a disk block. -/
def bfree (b : Nat) : Prog Unit := do
  modify fun s => { s with sb := readsb (s.disk 1) }
  let s ← get
  let bp ← bread (BBLOCK b s.sb)
  if bp.testBit (b % BPB) = false then panic "freeing free block"
  else do
    store (BBLOCK b s.sb) (bp.clearBit (b % BPB))
    logWrite (BBLOCK b s.sb)

/-! ## Inodes and their content -/

def St.setInode (s : St) (k : Fin NINODE) (ip : Inode) : St :=
  { s with icache := upd s.icache k ip }

/-- Assign to fields of `*ip`. -/
def modInode (k : Fin NINODE) (f : Inode → Inode) : Prog Unit :=
  modify fun s => s.setInode k (f (s.icache k))

/-- Assign to the fields of `*ip` that are a copy of the disk inode. -/
def modDinode (k : Fin NINODE) (f : Dinode → Dinode) : Prog Unit :=
  modInode k fun ip => { ip with din := f ip.din }

/-- `iget`: find the inode in the cache or take an empty entry. -/
def iget (inum : Nat) : Prog (Fin NINODE) := do
  let s ← get
  match (List.finRange NINODE).find? fun k => 0 < (s.icache k).ref ∧ (s.icache k).inum = inum with
  | some k =>
      modInode k fun ip => { ip with ref := ip.ref + 1 }
      return k
  | none =>
      match (List.finRange NINODE).find? fun k => (s.icache k).ref = 0 with
      | none => panic "iget: no inodes"
      | some k =>
          modInode k fun ip => ⟨inum, 1, false, false, ip.din⟩
          return k

/-- `idup`. -/
def idup (k : Fin NINODE) : Prog (Fin NINODE) := do
  modInode k fun ip => { ip with ref := ip.ref + 1 }
  return k

/-- `iupdate`: copy the in-memory inode to the disk. -/
def iupdate (k : Fin NINODE) : Prog Unit := do
  let s ← get
  let ip := s.icache k
  let bp ← bread (IBLOCK ip.inum s.sb)
  store (IBLOCK ip.inum s.sb) (putDinode bp (inodeOff ip.inum) ip.din)
  logWrite (IBLOCK ip.inum s.sb)

/-- `ilock`: lock the inode, reading it from the disk if necessary. -/
def ilock (k : Fin NINODE) : Prog Unit := do
  let s ← get
  let ip := s.icache k
  if ip.ref < 1 then panic "ilock"
  else if ip.busy then throw .sleep
  else if ip.valid then modInode k fun ip => { ip with busy := true }
  else do
    let d := dinodeAt s.sb s.disk ip.inum
    modInode k fun ip => { ip with busy := true, valid := true, din := d }
    if d.type = 0 then panic "ilock: no type" else pure ()

/-- `iunlock`. -/
def iunlock (k : Fin NINODE) : Prog Unit := do
  let s ← get
  let ip := s.icache k
  if ip.busy = false ∨ ip.ref < 1 then panic "iunlock"
  else modInode k fun ip => { ip with busy := false }

/-- The indirect block of the inode, allocated if there is none. -/
def bmapIndirect (k : Fin NINODE) : Prog Nat := do
  let ip := (← get).icache k
  if ip.din.addr NDIRECT = 0 then do
    let addr ← balloc
    modDinode k (·.setAddr NDIRECT addr)
    return addr
  else return ip.din.addr NDIRECT

/-- `bmap`: the address of block `bn` of the inode, allocated if there is
none. -/
def bmap (k : Fin NINODE) (bn : Nat) : Prog Nat := do
  let ip := (← get).icache k
  if bn < NDIRECT then
    if ip.din.addr bn = 0 then do
      let addr ← balloc
      modDinode k (·.setAddr bn addr)
      return addr
    else return ip.din.addr bn
  else if bn - NDIRECT < NINDIRECT then do
    let ind ← bmapIndirect k
    let a ← bread ind
    if a.rd32 (4 * (bn - NDIRECT)) = 0 then do
      let addr ← balloc
      let a ← bread ind
      store ind (a.wr32 (4 * (bn - NDIRECT)) addr)
      logWrite ind
      return addr
    else return a.rd32 (4 * (bn - NDIRECT))
  else panic "bmap: out of range"

/-- `itrunc`: free direct block `i`. -/
def truncDirect (k : Fin NINODE) (i : Nat) : Prog Unit := do
  let ip := (← get).icache k
  if ip.din.addr i ≠ 0 then do
    bfree (ip.din.addr i)
    modDinode k (·.setAddr i 0)
  else pure ()

/-- `itrunc`: free the block that entry `j` of the indirect block names. -/
def truncEntry (ind j : Nat) : Prog Unit := do
  let a ← bread ind
  if a.rd32 (4 * j) ≠ 0 then bfree (a.rd32 (4 * j)) else pure ()

/-- `itrunc`: free the indirect block and what it names. -/
def truncIndirect (k : Fin NINODE) : Prog Unit := do
  let ip := (← get).icache k
  if ip.din.addr NDIRECT ≠ 0 then do
    forLoop (truncEntry (ip.din.addr NDIRECT)) NINDIRECT 0
    bfree (ip.din.addr NDIRECT)
    modDinode k (·.setAddr NDIRECT 0)
  else pure ()

/-- `itrunc`: discard the contents of an inode. -/
def itrunc (k : Fin NINODE) : Prog Unit := do
  forLoop (truncDirect k) NDIRECT 0
  truncIndirect k
  modDinode k fun d => { d with size := 0 }
  iupdate k

/-- The part of `iput` that frees an inode with no links and no other
reference. -/
def ifree (k : Fin NINODE) : Prog Unit := do
  let ip := (← get).icache k
  if ip.ref = 1 ∧ ip.valid = true ∧ ip.din.nlink = 0 then
    if ip.busy then panic "iput busy"
    else do
      modInode k fun ip => { ip with busy := true }
      itrunc k
      modDinode k fun d => { d with type := 0 }
      iupdate k
      modify fun s => { s.setInode k { s.icache k with busy := false, valid := false } with
        freed := upd s.freed (s.icache k).inum (s.freed (s.icache k).inum + 1) }
  else pure ()

/-- `iput`: drop a reference to an inode. -/
def iput (k : Fin NINODE) : Prog Unit := do
  ifree k
  modInode k fun ip => { ip with ref := ip.ref - 1 }

/-- `iunlockput`. -/
def iunlockput (k : Fin NINODE) : Prog Unit := do
  iunlock k
  iput k

/-- A C `short` is negative. -/
def shortNeg (v : Nat) : Prop := 2 ^ 15 ≤ v

instance (v : Nat) : Decidable (shortNeg v) := inferInstanceAs (Decidable (_ ≤ _))

/-- The device switch entry of a device inode. -/
def devOf (s : St) (d : Dinode) : Option Dev :=
  if shortNeg d.major ∨ d.major ≥ NDEV then none else s.devsw d.major

/-- The loop of `readi`: at most `fuel` rounds. -/
def readLoop (k : Fin NINODE) : (fuel off left : Nat) → Prog (List UInt8)
  | 0, _, _ => pure []
  | fuel + 1, off, left =>
      if left = 0 then pure []
      else do
        let b ← bmap k (off / BSIZE)
        let bp ← bread b
        let m := min left (BSIZE - off % BSIZE)
        let rest ← readLoop k fuel (off + m) (left - m)
        return bp.slice (off % BSIZE) m ++ rest

/-- `readi`: the number of bytes read and the bytes, or -1. Offsets and
lengths are `uint`s. -/
def readi (k : Fin NINODE) (off n : Nat) : Prog (Int × List UInt8) := do
  let s ← get
  let d := (s.icache k).din
  if d.type = T_DEV then
    match devOf s d with
    | none => return (-1, [])
    | some dev => return dev.read n
  else if off > d.size ∨ (off + n) % 2 ^ 32 < off then return (-1, [])
  else do
    let n := if off + n > d.size then d.size - off else n
    let bytes ← readLoop k n off n
    return (n, bytes)

/-- The loop of `writei`: at most `fuel` rounds. -/
def writeLoop (k : Fin NINODE) : (fuel off : Nat) → List UInt8 → Prog Unit
  | 0, _, _ => pure ()
  | fuel + 1, off, src =>
      if src.length = 0 then pure ()
      else do
        let b ← bmap k (off / BSIZE)
        let bp ← bread b
        let m := min src.length (BSIZE - off % BSIZE)
        store b (bp.blit (off % BSIZE) (src.take m))
        logWrite b
        writeLoop k fuel (off + m) (src.drop m)

/-- The end of `writei`: `n` bytes were written, up to offset `off`. -/
def growTo (k : Fin NINODE) (n off : Nat) : Prog Unit := do
  let d := ((← get).icache k).din
  if n > 0 ∧ off > d.size then do
    modDinode k fun d => { d with size := off }
    iupdate k
  else pure ()

/-- `writei`: write `src` at offset `off`; the number of bytes written, or
-1. -/
def writei (k : Fin NINODE) (src : List UInt8) (off : Nat) : Prog Int := do
  let s ← get
  let d := (s.icache k).din
  let n := src.length
  if d.type = T_DEV then
    match devOf s d with
    | none => return -1
    | some dev => return dev.write src
  else if off > d.size ∨ (off + n) % 2 ^ 32 < off then return -1
  else if off + n > MAXFILE * BSIZE then return -1
  else do
    writeLoop k n off src
    growTo k n (off + n)
    return (n : Int)

end Xv6.Fs
