import Xv6.Fs.File

/-!
# Mkfs — the program that writes the first image

`mkfs.c` runs on the host. It fills an image file with zeroed blocks,
writes the superblock, makes the root directory, and then copies each
file of its command line: a new inode, an entry in the root directory,
and the bytes as the host's `read` hands them out. Inodes and blocks are
counted up, never searched for; the bitmap is written once, at the end.

The image file is an array of blocks and its length; a read past its end
ends the program, and so does a failed assertion. Errors of the host's
own `lseek` and `write` are left out. The layout of the structures is
that of `fs.h`, which the kernel shares (`Xv6.Fs.Layout`); `xshort` and
`xint` are the little-endian encoders there.
-/

namespace Xv6.Mkfs

open Lib Fs

/-! ## The layout -/

def NINODES : Nat := 200

def nbitmap : Nat := FSSIZE / (BSIZE * 8) + 1
def ninodeblocks : Nat := NINODES / IPB + 1
def nlog : Nat := LOGSIZE

/-- The number of meta blocks (boot, sb, nlog, inode, bitmap). -/
def nmeta : Nat := 2 + nlog + ninodeblocks + nbitmap

/-- The number of data blocks. -/
def nblocks : Nat := FSSIZE - nmeta

def sb : Superblock where
  size := FSSIZE
  nblocks := nblocks
  ninodes := NINODES
  nlog := nlog
  logstart := 2
  inodestart := 2 + nlog
  bmapstart := 2 + nlog + ninodeblocks

/-- The words of `struct superblock`. -/
def superWord (sb : Superblock) (j : Nat) : Nat :=
  [sb.size, sb.nblocks, sb.ninodes, sb.nlog, sb.logstart, sb.inodestart, sb.bmapstart].getD j 0

/-- The block that holds the superblock. -/
def superBlock : Block := (Bytes.zero BSIZE).wr32s 0 (superWord sb) 7

/-! ## The image file -/

/-- The image file, `len` blocks long, and the counters. -/
structure St where
  img : Disk
  len : Nat
  freeinode : Nat
  freeblock : Nat

/-- The image file is opened with `O_TRUNC`. -/
def St.start : St := ⟨fun _ => Bytes.zero BSIZE, 0, 1, 0⟩

inductive Stop
  | exit1                     -- `perror` and `exit(1)`
  | assertion
deriving DecidableEq

abbrev Prog := StateT St (Except Stop)

/-- The block at file offset `sec * BSIZE`, a `uint`. -/
def sector (sec : Nat) : Nat := sec * BSIZE % 2 ^ 32 / BSIZE

/-- `wsect`. -/
def wsect (sec : Nat) (buf : Block) : Prog Unit :=
  modify fun s => { s with img := upd s.img (sector sec) buf, len := max s.len (sector sec + 1) }

/-- `rsect`: there is nothing to read past the end of the file. -/
def rsect (sec : Nat) : Prog Block := do
  let s ← get
  if sector sec < s.len then return s.img (sector sec) else throw .exit1

/-! ## Inodes -/

/-- `winode`. -/
def winode (inum : Nat) (ip : Dinode) : Prog Unit := do
  let buf ← rsect (IBLOCK inum sb)
  wsect (IBLOCK inum sb) (putDinode buf (inodeOff inum) ip)

/-- `rinode`. -/
def rinode (inum : Nat) : Prog Dinode := do
  let buf ← rsect (IBLOCK inum sb)
  return getDinode buf (inodeOff inum)

/-- `ialloc`: the next inode, of the given type and with one link. -/
def ialloc (type : Nat) : Prog Nat := do
  let inum := (← get).freeinode
  modify fun s => { s with freeinode := inum + 1 }
  winode inum { Dinode.fresh type with nlink := 1 }
  return inum

/-- `freeblock++`. -/
def nextBlock : Prog Nat := do
  let b := (← get).freeblock
  modify fun s => { s with freeblock := b + 1 }
  return b

/-- `iappend`: the indirect block of the inode, allocated if there is none. -/
def mapIndirect (din : Dinode) : Prog Dinode := do
  if din.addr NDIRECT = 0 then do
    let b ← nextBlock
    return din.setAddr NDIRECT b
  else return din

/-- `iappend`: the block in the indirect block, allocated if there is none. -/
def mapEntry (din : Dinode) (fbn : Nat) : Prog (Dinode × Nat) := do
  let indirect ← rsect (din.addr NDIRECT)
  if indirect.rd32 (4 * (fbn - NDIRECT)) = 0 then do
    let b ← nextBlock
    wsect (din.addr NDIRECT) (indirect.wr32 (4 * (fbn - NDIRECT)) b)
    return (din, b)
  else return (din, indirect.rd32 (4 * (fbn - NDIRECT)))

/-- `iappend`: the block of file block `fbn`, allocated if there is none. -/
def mapBlock (din : Dinode) (fbn : Nat) : Prog (Dinode × Nat) := do
  if fbn < NDIRECT then
    if din.addr fbn = 0 then do
      let b ← nextBlock
      return (din.setAddr fbn b, b)
    else return (din, din.addr fbn)
  else do
    let din ← mapIndirect din
    mapEntry din fbn

/-- The loop of `iappend`: at most `fuel` rounds. -/
def appendLoop : (fuel : Nat) → Dinode → (off : Nat) → List UInt8 → Prog Dinode
  | 0, din, off, _ => return { din with size := off }
  | fuel + 1, din, off, p =>
      if p.length = 0 then return { din with size := off }
      else if ¬off / BSIZE < MAXFILE then throw .assertion
      else do
        let (din, x) ← mapBlock din (off / BSIZE)
        let n1 := min p.length ((off / BSIZE + 1) * BSIZE - off)
        let buf ← rsect x
        wsect x (buf.blit (off - off / BSIZE * BSIZE) (p.take n1))
        appendLoop fuel din (off + n1) (p.drop n1)

/-- `iappend`: append bytes to an inode. -/
def iappend (inum : Nat) (p : List UInt8) : Prog Unit := do
  let din ← rinode inum
  let din ← appendLoop p.length din din.size p
  winode inum din

/-! ## The bitmap -/

/-- The bitmap block in which the first `used` bits are set. -/
def bitmap (used : Nat) : Block :=
  (List.range used).foldl (fun buf i => buf.setBit i) (Bytes.zero BSIZE)

/-- `balloc`: mark the first `used` blocks. -/
def balloc (used : Nat) : Prog Unit := do
  if ¬used < BSIZE * 8 then throw .assertion
  else wsect sb.bmapstart (bitmap used)

/-! ## `main` -/

/-- What one `read` into a buffer of `BSIZE` bytes can return, short of
nothing. -/
abbrev Chunk := { p : List UInt8 // 0 < p.length ∧ p.length ≤ BSIZE }

/-- A file of the command line: the argument, a C string, and what the
reads return, if the file can be opened. -/
structure HostFile where
  arg : List UInt8
  reads : Option (List Chunk)
  arg_nonul : 0 ∉ arg

/-- The bytes of the file. -/
def HostFile.bytes (f : HostFile) : List UInt8 :=
  ((f.reads.getD []).map Subtype.val).flatten

def underscore : UInt8 := 95

/-- The argument without a leading underscore. -/
def HostFile.name (f : HostFile) : List UInt8 :=
  if f.arg.head? = some underscore then f.arg.tail else f.arg

/-- The loop that copies a file. -/
def appendAll (inum : Nat) : List Chunk → Prog Unit
  | [] => pure ()
  | buf :: rest => do
      iappend inum buf.val
      appendAll inum rest

/-- One round of the loop over the command line. -/
def addFile (rootino : Nat) (f : HostFile) : Prog Unit := do
  if slash ∈ f.arg then throw .assertion
  else
    match f.reads with
    | none => throw .exit1
    | some reads => do
        let inum ← ialloc T_FILE
        iappend rootino (dirent inum f.name)
        appendAll inum reads

/-- The loop over the command line. -/
def addFiles (rootino : Nat) : List HostFile → Prog Unit
  | [] => pure ()
  | f :: rest => do
      addFile rootino f
      addFiles rootino rest

/-- The zeroed image with a superblock. -/
def format : Prog Unit := do
  modify fun s => { s with freeblock := nmeta }
  forLoop (fun i => wsect i (Bytes.zero BSIZE)) FSSIZE 0
  wsect 1 superBlock

/-- The root directory, with its own two entries. -/
def makeRoot : Prog Nat := do
  let rootino ← ialloc T_DIR
  if rootino ≠ ROOTINO then throw .assertion
  else do
    iappend rootino (dirent rootino dot)
    iappend rootino (dirent rootino dotdot)
    return rootino

/-- "fix size of root inode dir". -/
def fixRoot (rootino : Nat) : Prog Unit := do
  let din ← rinode rootino
  winode rootino { din with size := (din.size / BSIZE + 1) * BSIZE }

/-- What `main` does once the image is formatted. -/
def populate (files : List HostFile) : Prog Unit := do
  let rootino ← makeRoot
  addFiles rootino files
  fixRoot rootino
  balloc (← get).freeblock

/-- `main`, to its `exit(0)`. -/
def main (files : List HostFile) : Prog Unit := do
  format
  populate files

end Xv6.Mkfs
