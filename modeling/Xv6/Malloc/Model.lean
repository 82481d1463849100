import Xv6.Lib.Exec
import Xv6.Lib.Runs
import Xv6.Lib.Walk
import Xv6.Lib.Blocks

/-!
# Malloc — `umalloc.c`

The memory allocator of user programs. Memory is kept as the headers in it,
by their addresses; pointer arithmetic is in units of a header and modulo
2³². The loops run with a bound that is never reached: there are fewer
headers in the address space.

`sbrk` is whatever the kernel does; `regions` is bookkeeping that no
function reads, the memory it returned.
-/

namespace Xv6.Malloc

open Lib

/-! ## The code -/

/-- `Header`; its size is 8. -/
structure Header where
  ptr : Nat
  size : Nat
deriving Repr, DecidableEq

structure Heap (κ : Type) where
  mem : Nat → Header
  freep : Nat                   -- 0 before the first `malloc`
  kernel : κ
  regions : List Block

/-- `p + n` -/
def plus (p n : Nat) : Nat := (p + 8 * n) % 2 ^ 32

/-- `(Header*)ap - 1` -/
def headerOf (ap : Nat) : Nat := (ap + (2 ^ 32 - 8)) % 2 ^ 32

def FUEL : Nat := 2 ^ 30

variable {κ : Type}

namespace Heap

variable (h : Heap κ)

def ptr (p : Nat) : Nat := (h.mem p).ptr

def size (p : Nat) : Nat := (h.mem p).size

def set (p : Nat) (v : Header) : Heap κ := { h with mem := upd h.mem p v }

/-- Where the loop of `free` ends: `bp` belongs between `p` and the block
after it. -/
def between (bp p : Nat) : Bool :=
  (bp > p && bp < h.ptr p) || (p ≥ h.ptr p && (bp > p || bp < h.ptr p))

/-- Join `bp` to the block after it, or link it. -/
def joinNext (bp p : Nat) : Heap κ :=
  if plus bp (h.size bp) = h.ptr p then
    h.set bp ⟨h.ptr (h.ptr p), (h.size bp + h.size (h.ptr p)) % 2 ^ 32⟩
  else h.set bp ⟨h.ptr p, h.size bp⟩

/-- Join `bp` to the block before it, or link it. -/
def joinPrev (bp p : Nat) : Heap κ :=
  if plus p (h.size p) = bp then h.set p ⟨h.ptr bp, (h.size p + h.size bp) % 2 ^ 32⟩
  else h.set p ⟨bp, h.size p⟩

/-- `free`; `none` where its loop does not end. -/
def free (ap : Nat) : Option (Heap κ) := do
  let bp := headerOf ap
  let p ← walk (h.between bp) h.ptr FUEL h.freep
  return { (h.joinNext bp p).joinPrev bp p with freep := p }

/-- The last part of `malloc`: the block after `prevp` is large enough. It
is unlinked, or the end of it cut off. -/
def take (nunits prevp : Nat) : Nat × Heap κ :=
  let p := h.ptr prevp
  if h.size p = nunits then
    (plus p 1, { h.set prevp ⟨h.ptr p, h.size prevp⟩ with freep := prevp })
  else
    let h := h.set p ⟨h.ptr p, h.size p - nunits⟩
    let q := plus p (h.size p)
    (plus q 1, { h.set q ⟨h.ptr q, nunits⟩ with freep := prevp })

/-- Where a lap of the loop of `malloc` ends: a block is large enough, or
is the one the lap began with. -/
def lapEnds (nunits prevp : Nat) : Bool :=
  nunits ≤ h.size (h.ptr prevp) || h.ptr prevp == h.freep

end Heap

section Sbrk

variable (sbrk : κ → Nat → Option Nat × κ)

/-- The units that `morecore` asks for. -/
def coreUnits (nu : Nat) : Nat := if nu < 4096 then 4096 else nu

/-- `morecore`: the new `freep`, or 0. -/
def morecore (h : Heap κ) (nu : Nat) : Option (Nat × Heap κ) :=
  let nu := coreUnits nu
  let r := sbrk h.kernel (nu * 8 % 2 ^ 32)
  match r.1 with
  | none => some (0, { h with kernel := r.2 })
  | some p => do
      let h := { h.set p ⟨h.ptr p, nu⟩ with
        kernel := r.2
        regions := ⟨p, nu⟩ :: h.regions }
      let h ← h.free (plus p 1)
      return (h.freep, h)

/-- The loop of `malloc`, lap by lap. -/
def mallocLoop (nunits : Nat) : (laps : Nat) → Heap κ → (prevp : Nat) → Option (Nat × Heap κ)
  | 0, _, _ => none
  | laps + 1, h, prevp => do
      let prevp ← walk (h.lapEnds nunits) h.ptr FUEL prevp
      if nunits ≤ h.size (h.ptr prevp) then return h.take nunits prevp
      else
        let r ← morecore sbrk h nunits
        if r.1 = 0 then return (0, r.2) else mallocLoop nunits laps r.2 r.1

/-- The units for a request, with the header. -/
def nunits (nbytes : Nat) : Nat := (nbytes + 8 - 1) % 2 ^ 32 / 8 + 1

/-- The first call makes `base` the only block of the list. -/
def init (base : Nat) (h : Heap κ) : Heap κ :=
  if h.freep = 0 then { h.set base ⟨base, 0⟩ with freep := base } else h

/-- `malloc`; `none` where its loop does not end, and 0 for the null
pointer. -/
def malloc (base : Nat) (h : Heap κ) (nbytes : Nat) : Option (Nat × Heap κ) :=
  mallocLoop sbrk (nunits nbytes) FUEL (init base h) (init base h).freep

/-! ## A program -/

/-- The allocator, and the blocks the program has got and not freed. -/
structure St (κ : Type) where
  heap : Heap κ
  live : List Block

inductive Act
  | malloc (nbytes : UInt32)
  | free (p : Nat)
  | write (a : Nat) (v : Header)        -- the program writes into a block

/-- The block that a pointer from `malloc` stands for. -/
def blockOf (h : Heap κ) (p : Nat) : Block := ⟨headerOf p, h.size (headerOf p)⟩

/-- Where the program may write. -/
def payload (b : Block) : Multiset Nat := Block.units 8 ⟨b.addr + 8, b.size - 1⟩

/-- One step; the program frees only what it has, and writes only there. -/
def step (base : Nat) (s : St κ) (a : Act) : Option (St κ) :=
  match a with
  | .malloc nbytes =>
      (malloc sbrk base s.heap nbytes.toNat).map fun r =>
        ⟨r.2, if r.1 = 0 then s.live else blockOf r.2 r.1 :: s.live⟩
  | .free p =>
      if blockOf s.heap p ∈ s.live then
        (s.heap.free p).map fun h => ⟨h, s.live.erase (blockOf s.heap p)⟩
      else none
  | .write a v =>
      if ∃ b ∈ s.live, a ∈ payload b then some ⟨s.heap.set a v, s.live⟩ else none

end Sbrk

end Xv6.Malloc
