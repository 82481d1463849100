import Xv6.Params
import Xv6.Lib.Exec

/-!
# Vm — `kalloc.c` and `vm.c`

Physical memory is an array of pages. A page holds a page directory, a
page table or bytes; which it is changes only by the stores of the kernel. Reading a page as a directory or a table that is not one is
not a meaningful execution: the program stops with `junk`. It stops with
`fault` where the processor faults in the kernel, and `trap` panics.

Virtual addresses are page numbers where only whole pages matter, and
numbers of bytes below `2 ^ 32` where the code computes with them.

The functions take the allocator as a parameter, and tell it what the
page is for. `log` records the pages that `loaduvm` writes, with the
entries that it found for them; no function reads it. The bytes that
`loaduvm` and `copyout` store there are left out.
-/

namespace Xv6.Vm

open Lib

abbrev Page := Nat

def PGSIZE : Nat := 4096
def NPDENTRIES : Nat := 1024
def NPTENTRIES : Nat := 1024
def KERNBASE : Nat := 2 ^ 31
/-- The first page of the kernel's addresses. -/
def KERNPAGE : Nat := KERNBASE / PGSIZE

/-- `PGROUNDUP(a)`, in pages. -/
def pgup (a : Nat) : Nat := (a + PGSIZE - 1) / PGSIZE

/-- A page table entry with `PTE_P` set. -/
structure Pte where
  page : Page
  write : Bool
  user : Bool
  deriving DecidableEq

inductive Content
  | data (bytes : Nat → UInt8)
  | dir (pde : Nat → Option Page)
  | tab (pte : Nat → Option Pte)

/-- What a page is allocated for. -/
inductive Use
  | dir
  | table
  | page
  deriving DecidableEq

/-- `kmem`: `kalloc`, and what `kfree` does to the free list. -/
structure Allocator (κ : Type) where
  kalloc : Use → κ → Option Page × κ
  kfree : Page → κ → κ
  /-- The pages that `kfree` accepts. -/
  valid : Page → Bool

structure Heap (κ : Type) where
  content : Page → Content
  kmem : κ
  log : List (Nat × Option Pte)

inductive Stop
  | panic (msg : String)
  /-- A page is read as a directory or a table that it is not. -/
  | junk
  /-- The kernel reads or writes where it has no mapping, or none to write. -/
  | fault
  deriving DecidableEq

/-- A program returns, or stops with the memory as it is then. -/
abbrev KernM (κ : Type) := StateT (Heap κ) (Except (Stop × Heap κ))

variable {κ : Type}

def stop {α : Type} (e : Stop) : KernM κ α := do
  throw (e, ← get)

def panic {α : Type} (msg : String) : KernM κ α := stop (.panic msg)

/-- `memset(x, c, PGSIZE)`. -/
def filled (c : UInt8) : Content := .data fun _ => c

def setContent (x : Page) (c : Content) : KernM κ Unit :=
  modify fun h => { h with content := upd h.content x c }

/-- Read a page as a page directory. -/
def dirAt (d : Page) : KernM κ (Nat → Option Page) := do
  match (← get).content d with
  | .dir pde => return pde
  | _ => stop .junk

/-- Read a page as a page table. -/
def tabAt (t : Page) : KernM κ (Nat → Option Pte) := do
  match (← get).content t with
  | .tab pte => return pte
  | _ => stop .junk

variable (A : Allocator κ)

def kalloc (u : Use) : KernM κ (Option Page) := fun h =>
  let (r, k) := A.kalloc u h.kmem
  .ok (r, { h with kmem := k })

def kfree (x : Page) : KernM κ Unit := do
  if A.valid x = false then panic "kfree"
  modify fun h => { h with content := upd h.content x (filled 1), kmem := A.kfree x h.kmem }

/-! ## Page tables -/

/-- `PDX` and `PTX`. -/
def pdx (v : Nat) : Nat := v / NPTENTRIES
def ptx (v : Nat) : Nat := v % NPTENTRIES

/-- `walkpgdir`: the page table, and the index of the entry in it. -/
def walkpgdir (d : Page) (v : Nat) (alloc : Bool) : KernM κ (Option (Page × Nat)) := do
  let pde ← dirAt d
  match pde (pdx v) with
  | some t => return some (t, ptx v)
  | none =>
      if alloc = false then return none
      match ← kalloc A .table with
      | none => return none
      | some t =>
          setContent t (.tab fun _ => none)
          setContent d (.dir (upd pde (pdx v) (some t)))
          return some (t, ptx v)

/-- `mappages`, for `n` pages. -/
def mappages (d : Page) (write user : Bool) : Nat → Nat → Page → KernM κ Bool
  | 0, _, _ => return true
  | n + 1, v, pa => do
      match ← walkpgdir A d v true with
      | none => return false
      | some (t, j) =>
          let pte ← tabAt t
          if (pte j).isSome then panic "remap"
          setContent t (.tab (upd pte j (some ⟨pa, write, user⟩)))
          mappages d write user n (v + 1) (pa + 1)

/-- An entry of `kmap`: `n` pages at `virt` are mapped to `phys` and on. -/
structure Kmap where
  virt : Nat
  phys : Page
  n : Nat
  write : Bool

/-- The page at `PHYSTOP`. -/
def PHYSTOP : Page := 0xE000

/-- `kmap[]`, for a kernel whose data starts at page `data`. -/
def kmap (data : Page) : List Kmap :=
  [⟨KERNPAGE, 0, 256, true⟩,
   ⟨KERNPAGE + 256, 256, data - 256, false⟩,
   ⟨KERNPAGE + data, data, PHYSTOP - data, true⟩,
   ⟨0xFE000, 0xFE000, 0x2000, true⟩]

/-- The entry that a kernel mapping gives a page. -/
def Kmap.pte (k : Kmap) (v : Nat) : Option Pte :=
  if k.virt ≤ v ∧ v < k.virt + k.n then some ⟨k.phys + (v - k.virt), k.write, false⟩ else none

/-- The kernel's part of every directory. -/
def kernelPte (kmap : List Kmap) (v : Nat) : Option Pte := kmap.findSome? fun k => k.pte v

/-- The loop of `setupkvm`. -/
def mapKernel (d : Page) : List Kmap → KernM κ Bool
  | [] => return true
  | k :: ks => do
      if ← mappages A d k.write false k.n k.virt k.phys then mapKernel d ks else return false

def setupkvm (kmap : List Kmap) : KernM κ (Option Page) := do
  match ← kalloc A .dir with
  | none => return none
  | some d =>
      setContent d (.dir fun _ => none)
      if ← mapKernel A d kmap then return some d else return none

/-! ## User memory -/

/-- The loop of `deallocuvm` at page `v`, up to `top`. -/
def deallocLoop (d : Page) (top : Nat) : Nat → Nat → KernM κ Unit
  | 0, _ => return ()
  | fuel + 1, v => do
      if v < top then
        match ← walkpgdir A d v false with
        | none => deallocLoop d top fuel (v + NPTENTRIES)
        | some (t, j) =>
            let pte ← tabAt t
            match pte j with
            | none => deallocLoop d top fuel (v + 1)
            | some e =>
                if e.page = 0 then panic "kfree"
                kfree A e.page
                let pte ← tabAt t
                setContent t (.tab (upd pte j none))
                deallocLoop d top fuel (v + 1)

def deallocuvm (d : Page) (oldsz newsz : Nat) : KernM κ Nat := do
  if oldsz ≤ newsz then return oldsz
  deallocLoop A d (pgup oldsz) (pgup oldsz) (pgup newsz)
  return newsz

/-- The loop of `allocuvm`: `n` pages, from `v`. The result of `mappages`
is not looked at. -/
def allocLoop (d : Page) (oldsz newsz : Nat) : Nat → Nat → KernM κ Nat
  | 0, _ => return newsz
  | n + 1, v => do
      match ← kalloc A .page with
      | none =>
          let _ ← deallocuvm A d newsz oldsz
          return 0
      | some m =>
          setContent m (filled 0)
          let _ ← mappages A d true true 1 v m
          allocLoop d oldsz newsz n (v + 1)

def allocuvm (d : Page) (oldsz newsz : Nat) : KernM κ Nat := do
  if KERNBASE ≤ newsz then return 0
  if newsz < oldsz then return oldsz
  allocLoop A d oldsz newsz (pgup newsz - pgup oldsz) (pgup oldsz)

/-- The loop of `freevm` over the page directory. -/
def freeTables (d : Page) : Nat → Nat → KernM κ Unit
  | 0, _ => return ()
  | n + 1, i => do
      let pde ← dirAt d
      match pde i with
      | none => freeTables d n (i + 1)
      | some t =>
          kfree A t
          freeTables d n (i + 1)

def freevm (d : Page) : KernM κ Unit := do
  let _ ← deallocuvm A d KERNBASE 0
  freeTables A d NPDENTRIES 0
  kfree A d

/-- The loop of `copyuvm`: `n` pages of `d`, from `v`; whether all were
copied. -/
def copyLoop (d d' : Page) : Nat → Nat → KernM κ Bool
  | 0, _ => return true
  | n + 1, v => do
      match ← walkpgdir A d v false with
      | none => panic "copyuvm: pte should exist"
      | some (t, j) =>
          match (← tabAt t) j with
          | none => panic "copyuvm: page not present"
          | some e =>
              match ← kalloc A .page with
              | none => return false
              | some m =>
                  setContent m ((← get).content e.page)
                  if ← mappages A d' e.write e.user 1 v m then copyLoop d d' n (v + 1)
                  else return false

def copyuvm (kmap : List Kmap) (d : Page) (sz : Nat) : KernM κ (Option Page) := do
  match ← setupkvm A kmap with
  | none => return none
  | some d' =>
      if ← copyLoop A d d' (pgup sz) 0 then return some d'
      else
        freevm A d'
        return none

def inituvm (d : Page) (init : List UInt8) : KernM κ Unit := do
  if PGSIZE ≤ init.length then panic "inituvm: more than a page"
  match ← kalloc A .page with
  | none => panic "page fault"
  | some m =>
      setContent m (.data fun i => init.getD i 0)
      let _ ← mappages A d true true 1 0 m

/-- `clearpteu`. -/
def clearpteu (d : Page) (v : Nat) : KernM κ Unit := do
  match ← walkpgdir A d v false with
  | none => panic "clearpteu"
  | some (t, j) =>
      let pte ← tabAt t
      setContent t (.tab (upd pte j ((pte j).map fun e => { e with user := false })))

/-! ## Contents of user pages -/

/-- The address space that the kernel runs in: its own part, the user pages
that the caller has, and the word at user address 0, as an entry. -/
structure Current where
  kmap : List Kmap
  user : Nat → Bool
  word : Option Pte

/-- `p2v`, in pages. -/
def p2v (x : Page) : Nat := (x + KERNPAGE) % 2 ^ 20

/-- Whether the kernel can write to `p2v` of a page. -/
def Current.storable (c : Current) (x : Page) : Bool :=
  if p2v x < KERNPAGE then c.user (p2v x) else (kernelPte c.kmap (p2v x)).any Pte.write

/-- `PTE_ADDR`; an entry that is not present is 0. -/
def frame (e : Option Pte) : Page := e.elim 0 Pte.page

/-- What a call of `readi` stored, and whether it failed after that. -/
inductive Answer
  | fail (data : List UInt8)
  | read (data : List UInt8)

def Answer.data : Answer → List UInt8
  | .fail data => data
  | .read data => data

/-- What the call returned; `none` is -1. -/
def Answer.ret : Answer → Option Nat
  | .fail _ => none
  | .read data => some data.length

/-- How much `loaduvm` reads into its `i`-th page. -/
def chunk (sz i : Nat) : Nat := if sz - i * PGSIZE < PGSIZE then sz - i * PGSIZE else PGSIZE

variable (c : Current)

/-- The loop of `loaduvm` at its `i`-th page, with `sz` bytes to load; `rd i n`
is what `readi` does there when asked for `n` bytes. -/
def loadLoop (d : Page) (addr sz : Nat) (rd : Nat → Nat → Answer) : Nat → Nat → KernM κ Bool
  | 0, _ => return true
  | fuel + 1, i => do
      if i * PGSIZE < sz then
        let v := (addr + i * PGSIZE) % 2 ^ 32 / PGSIZE
        match ← walkpgdir A d v false with
        | none => panic "loaduvm: address should exist"
        | some (t, j) =>
            let pte ← tabAt t
            let r := rd i (chunk sz i)
            if r.data ≠ [] then
              if c.storable (frame (pte j)) = false then stop .fault
              modify fun h => { h with log := h.log ++ [(v, pte j)] }
            if r.ret = some (chunk sz i) then loadLoop d addr sz rd fuel (i + 1) else return false
      else return true

def loaduvm (d : Page) (addr sz : Nat) (rd : Nat → Nat → Answer) : KernM κ Bool := do
  if addr % PGSIZE ≠ 0 then panic "loaduvm: addr must be page aligned"
  loadLoop A c d addr sz rd (pgup sz) 0

/-- The page that `uva2ka` finds in an entry; `none` is the null pointer. -/
def userPage (e : Option Pte) : Option Page :=
  match e with
  | none => none
  | some e => if e.user = false ∨ p2v e.page = 0 then none else some e.page

/-- `uva2ka`, which does not look whether `walkpgdir` found a page table: the
null pointer is then an address of the caller. -/
def uva2ka (d : Page) (v : Nat) : KernM κ (Option Page) := do
  match ← walkpgdir A d v false with
  | none => if c.user 0 then return userPage c.word else stop .fault
  | some (t, j) => return userPage ((← tabAt t) j)

/-- The loop of `copyout`, with `len` bytes to copy to `va`. -/
def copyLoopOut (d : Page) : Nat → Nat → Nat → KernM κ Bool
  | 0, _, _ => return true
  | fuel + 1, va, len => do
      if 0 < len then
        match ← uva2ka A c d (va / PGSIZE) with
        | none => return false
        | some x =>
            if c.storable x = false then stop .fault
            let n := min (PGSIZE - va % PGSIZE) len
            copyLoopOut d fuel ((va / PGSIZE * PGSIZE + PGSIZE) % 2 ^ 32) (len - n)
      else return true

def copyout (d : Page) (va len : Nat) : KernM κ Bool := copyLoopOut A c d len va len

end Xv6.Vm
