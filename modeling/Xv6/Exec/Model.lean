import Xv6.Vm.Model
import Xv6.Lib.Bytes

/-!
# Exec — `exec.c`

`exec` from the point where it has locked the inode: the header check, the
loop over the program headers, the stack and the arguments. What it reads
is given by what each call of `readi` does, so that a regular file, a
directory and a device are all covered.

Left out is what happens outside the new page directory: the name, the
registers and the old directory.
-/

namespace Xv6.Exec

open Lib Vm

/-! ## The file -/

def ELF_MAGIC : Nat := 0x464C457F
def ELF_PROG_LOAD : Nat := 1
def MAXARG : Nat := 32
/-- `sizeof(struct elfhdr)` and `sizeof(struct proghdr)`. -/
def ELFHDR : Nat := 52
def PROGHDR : Nat := 32

/-- The calls of `readi`: for the header, the `i`-th program header, and the
`j`-th page of its segment. -/
inductive Read
  | elf
  | ph (i : Nat)
  | seg (i j : Nat)

/-- What `readi` does at each call, from an offset and for a number of
bytes. -/
abbrev Reads := Read → Nat → Nat → Answer

/-- `readi` of a regular file or a directory. -/
def readi (file : List UInt8) : Reads := fun _ off n =>
  if file.length < off ∨ 2 ^ 32 ≤ off + n then .fail [] else .read ((file.drop off).take n)

/-- The fields of `struct elfhdr` that `exec` looks at. -/
structure Elfhdr where
  magic : Nat
  phoff : Nat
  phnum : Nat
  deriving DecidableEq

def elfhdr (bs : List UInt8) : Elfhdr :=
  let b := (Bytes.zero ELFHDR).blit 0 bs
  ⟨b.rd32 0, b.rd32 28, b.rd16 44⟩

structure Proghdr where
  type : Nat
  off : Nat
  vaddr : Nat
  filesz : Nat
  memsz : Nat
  deriving DecidableEq

def proghdr (bs : List UInt8) : Proghdr :=
  let b := (Bytes.zero PROGHDR).blit 0 bs
  ⟨b.rd32 0, b.rd32 4, b.rd32 8, b.rd32 16, b.rd32 20⟩

/-- The header check. `readi` returns an `int`, which is compared with an
unsigned number: -1 is not less than the size of the header. Then `elf`
is what the stack held. -/
def checkHeader (ip : Reads) (stack : List UInt8) : Option Elfhdr :=
  match ip .elf 0 ELFHDR with
  | .fail _ => if (elfhdr stack).magic = ELF_MAGIC then some (elfhdr stack) else none
  | .read data =>
      if data.length < ELFHDR then none
      else if (elfhdr data).magic = ELF_MAGIC then some (elfhdr data) else none

/-- The `i`-th program header, if `readi` delivers it. -/
def progHeader (ip : Reads) (elf : Elfhdr) (i : Nat) : Option Proghdr :=
  match ip (.ph i) ((elf.phoff + i * PROGHDR) % 2 ^ 32) PROGHDR with
  | .fail _ => none
  | .read data => if data.length = PROGHDR then some (proghdr data) else none

/-- What `loaduvm` gets from the file for the segment `i`. -/
def segment (ip : Reads) (ph : Proghdr) (i : Nat) : Nat → Nat → Answer := fun j n =>
  ip (.seg i j) ((ph.off + j * PGSIZE) % 2 ^ 32) n

/-! ## The program -/

variable {κ : Type} (A : Allocator κ) (c : Current)

/-- The loop over the program headers, `n` of them from the `i`-th on: the
size of the image, or `none` at `goto bad`. -/
def segments (ip : Reads) (elf : Elfhdr) (d : Page) : Nat → Nat → Nat → KernM κ (Option Nat)
  | 0, _, sz => return some sz
  | n + 1, i, sz =>
      match progHeader ip elf i with
      | none => return none
      | some ph =>
          if ph.type ≠ ELF_PROG_LOAD then segments ip elf d n (i + 1) sz
          else if ph.memsz < ph.filesz then return none
          else do
            let sz ← allocuvm A d sz ((ph.vaddr + ph.memsz) % 2 ^ 32)
            if sz = 0 then return none
            if ← loaduvm A c d ph.vaddr ph.filesz (segment ip ph i) then
              segments ip elf d n (i + 1) sz
            else return none

/-- Two pages at the next page boundary; the first is made inaccessible. -/
@[irreducible] def userStack (d : Page) (sz : Nat) : KernM κ Nat := do
  let sz := pgup sz * PGSIZE
  let sz ← allocuvm A d sz (sz + 2 * PGSIZE)
  if sz = 0 then return 0
  clearpteu A d ((sz - 2 * PGSIZE) / PGSIZE)
  return sz

/-- `(sp - n) & ~3` on 32 bits. -/
def push (sp n : Nat) : Nat := (sp + 2 ^ 32 - n) % 2 ^ 32 / 4 * 4

/-- The loop over the arguments, whose lengths are given: the stack pointer
after them, or `none` at `goto bad`. -/
def pushArgs (d : Page) : List Nat → Nat → Nat → KernM κ (Option Nat)
  | [], _, sp => return some sp
  | len :: argv, argc, sp => do
      if MAXARG ≤ argc then return none
      if ← copyout A c d (push sp (len + 1)) (len + 1) then
        pushArgs d argv (argc + 1) (push sp (len + 1))
      else return none

/-- The stack and the arguments, for an image of `sz` bytes; whether they are
in place. -/
def finish (argv : List Nat) (d : Page) (sz : Nat) : KernM κ Bool := do
  let sz ← userStack A d sz
  if sz = 0 then return false
  match ← pushArgs A c d argv 0 sz with
  | none => return false
  | some sp =>
      let n := (3 + argv.length + 1) * 4
      copyout A c d ((sp + 2 ^ 32 - n) % 2 ^ 32) n

/-- The image in the directory `d`; whether it is complete. -/
def build (ip : Reads) (elf : Elfhdr) (argv : List Nat) (d : Page) : KernM κ Bool := do
  match ← segments A c ip elf d elf.phnum 0 0 with
  | none => return false
  | some sz => finish A c argv d sz

/-- `exec`, for arguments of the given lengths, with `stack` where it keeps the
header: whether it succeeds. -/
def exec (ip : Reads) (stack : List UInt8) (argv : List Nat) : KernM κ Bool := do
  match checkHeader ip stack with
  | none => return false
  | some elf =>
      match ← setupkvm A c.kmap with
      | none => return false
      | some d =>
          if ← build A c ip elf argv d then return true
          else
            freevm A d
            return false

/-- What `loaduvm` wrote when `exec` returned, or stopped. -/
def writes (ip : Reads) (stack : List UInt8) (argv : List Nat) (h : Heap κ) :
    List (Nat × Option Pte) :=
  match exec A c ip stack argv h with
  | .ok (_, h) => h.log
  | .error (_, h) => h.log

/-! ## Files -/

/-- A file with one program header, for a segment at `vaddr`. -/
def elfFile (vaddr filesz memsz : Nat) (body : List UInt8) : List UInt8 :=
  Bytes.le32 ELF_MAGIC ++ List.replicate 24 0 ++ Bytes.le32 ELFHDR ++ List.replicate 12 0 ++
    Bytes.le16 1 ++ List.replicate 6 0 ++
  Bytes.le32 ELF_PROG_LOAD ++ Bytes.le32 (ELFHDR + PROGHDR) ++ Bytes.le32 vaddr ++ Bytes.le32 0 ++
    Bytes.le32 filesz ++ Bytes.le32 memsz ++ Bytes.le32 0 ++ Bytes.le32 0 ++ body

end Xv6.Exec
