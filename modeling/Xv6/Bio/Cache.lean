import Xv6.Params
import Xv6.Lib.Runs
import Xv6.Lib.Writes

/-!
# Bio — the buffer cache

`bio.c` over the memory disk of `memide.c`, as steps of any number of
processes. A step is one section of `bcache.lock` (a round of `bget`'s
loop, the body of `brelse`), one `iderw`, or one access by a process to a
buffer it holds. `commit()` is a process like any other here: its loops
are `bread`, a copy between two held buffers, `bwrite` and `brelse`.

The LRU list is kept as the list of buffers from `head.next` on. Of
`log_write` only the pin matters to the cache, the `B_DIRTY` it sets.

Two fields are bookkeeping that no step's data depends on: the sequence
of contents stored so far (`stores`), and which buffers were changed
since their holder last called `log_write` or `bwrite` (`unsaved`). The
second is there to state the discipline the callers keep: a changed
buffer is passed to `log_write` or `bwrite` before `brelse`.
-/

namespace Xv6.Bio

open Lib

/-- `struct buf` without the list pointers. -/
structure Buf where
  busy : Bool
  valid : Bool
  dirty : Bool
  dev : Nat
  blockno : Nat
  data : Block

/-- `(uint)-1`, the device `binit` gives every buffer. -/
def NODEV : Nat := 2 ^ 32 - 1

/-- The device the disk driver serves. -/
def DISK : Nat := 1

/-- Where a process stands in `bread`. -/
inductive Pc
  | ready                                             -- not in `bread`
  | scan (dev blockno : Nat)                          -- in `bget`, at the label `loop`
  | sleeping (k : Fin NBUF) (dev blockno : Nat)       -- in `bget`, asleep on buffer `k`
  | fill (k : Fin NBUF) (dev blockno : Nat)           -- `bget` returned buffer `k`
deriving DecidableEq

/-- `wakeup(b)` sends a process that sleeps on the buffer back to `loop`. -/
def Pc.wakeup (k : Fin NBUF) : Pc → Pc
  | .sleeping l dev blockno => if l = k then .scan dev blockno else .sleeping l dev blockno
  | c => c

structure St (P : Type) where
  buf : Fin NBUF → Buf
  order : List (Fin NBUF)       -- `bcache.head.next`, …: most recently used first
  disk : Disk
  pc : P → Pc
  held : P → List (Fin NBUF)    -- buffers `bread` returned and not yet released
  panicked : Option String
  stores : List (Nat × Block)
  unsaved : Fin NBUF → Bool

/-- After `binit`, over the given disk. -/
def St.init (P : Type) (disk : Disk) : St P where
  buf := fun _ => ⟨false, false, false, NODEV, 0, Bytes.zero BSIZE⟩
  order := (List.finRange NBUF).reverse
  disk := disk
  pc := fun _ => .ready
  held := fun _ => []
  panicked := none
  stores := []
  unsaved := fun _ => false

inductive Act (P : Type)
  | bread (p : P) (dev blockno : Nat)       -- call `bread`: enter `bget`
  | scan (p : P)                            -- one round of `bget`'s loop
  | fill (p : P)                            -- the rest of `bread`
  | store (p : P) (k : Fin NBUF) (data : Block)         -- change a held buffer
  | copy (p : P) (dst src : Fin NBUF)       -- `memmove(dst->data, src->data, BSIZE)`
  | logWrite (p : P) (k : Fin NBUF)
  | bwrite (p : P) (k : Fin NBUF)
  | brelse (p : P) (k : Fin NBUF)

variable {P : Type} [DecidableEq P]

def St.setBuf (s : St P) (k : Fin NBUF) (b : Buf) : St P :=
  { s with buf := Function.update s.buf k b }

def St.setPc (s : St P) (p : P) (c : Pc) : St P := { s with pc := Function.update s.pc p c }

def St.panic (s : St P) (msg : String) : St P := { s with panicked := some msg }

/-- `iderw` of `memide.c`; `disksize` is the size of the memory disk. -/
def iderw (disksize : Nat) (s : St P) (k : Fin NBUF) : St P :=
  let b := s.buf k
  if b.busy = false then s.panic "iderw: buf not busy"
  else if b.valid = true ∧ b.dirty = false then s.panic "iderw: nothing to do"
  else if b.dev ≠ DISK then s.panic "iderw: request not for disk 1"
  else if b.blockno ≥ disksize then s.panic "iderw: block out of range"
  else if b.dirty then
    { s.setBuf k { b with dirty := false, valid := true } with
      disk := Function.update s.disk b.blockno b.data }
  else s.setBuf k { b with data := s.disk b.blockno, valid := true }

/-- One round of `bget`'s loop. -/
def bget (s : St P) (p : P) (dev blockno : Nat) : St P :=
  -- is the block already cached?
  match s.order.find? fun k => (s.buf k).dev = dev ∧ (s.buf k).blockno = blockno with
  | some k =>
      if (s.buf k).busy = false then
        (s.setBuf k { s.buf k with busy := true }).setPc p (.fill k dev blockno)
      else s.setPc p (.sleeping k dev blockno)
  | none =>
      -- not cached; recycle some non-busy and clean buffer
      match s.order.reverse.find? fun k => (s.buf k).busy = false ∧ (s.buf k).dirty = false with
      | some k =>
          (s.setBuf k ⟨true, false, false, dev, blockno, (s.buf k).data⟩).setPc p
            (.fill k dev blockno)
      | none => s.panic "bget: no buffers"

/-- `bread` returns buffer `k` to process `p`. -/
def St.hold (s : St P) (p : P) (k : Fin NBUF) : St P :=
  { s with
    pc := Function.update s.pc p .ready
    held := Function.update s.held p (k :: s.held p) }

/-- `bread` after `bget` returned buffer `k`. -/
def fill (disksize : Nat) (s : St P) (p : P) (k : Fin NBUF) : St P :=
  let s := if (s.buf k).valid = false then iderw disksize s k else s
  if s.panicked.isSome then s else s.hold p k

/-- The holder changes the data of a buffer. -/
def store (s : St P) (k : Fin NBUF) (data : Block) : St P :=
  { s.setBuf k { s.buf k with data := data } with
    stores := s.stores ++ [((s.buf k).blockno, data)]
    unsaved := Function.update s.unsaved k true }

/-- `log_write`'s effect on the buffer: pin it. -/
def logWrite (s : St P) (k : Fin NBUF) : St P := s.setBuf k { s.buf k with dirty := true }

def bwrite (disksize : Nat) (s : St P) (k : Fin NBUF) : St P :=
  if (s.buf k).busy = false then s.panic "bwrite"
  else iderw disksize (s.setBuf k { s.buf k with dirty := true }) k

/-- The holder has passed the buffer on. -/
def St.save (s : St P) (k : Fin NBUF) : St P :=
  { s with unsaved := Function.update s.unsaved k false }

/-- The locked part of `brelse`: move the buffer to the head of the list,
release it and wake up whoever sleeps on it. -/
def St.release (s : St P) (p : P) (k : Fin NBUF) : St P :=
  { s.setBuf k { s.buf k with busy := false } with
    order := k :: s.order.erase k
    held := Function.update s.held p ((s.held p).erase k)
    pc := fun q => (s.pc q).wakeup k }

def brelse (s : St P) (p : P) (k : Fin NBUF) : St P :=
  if (s.buf k).busy = false then s.panic "brelse" else s.release p k

/-- A process outside `bread` uses only buffers it holds. -/
abbrev St.Uses (s : St P) (p : P) (k : Fin NBUF) : Prop := s.pc p = .ready ∧ k ∈ s.held p

/-- The system. A process releases a buffer it changed only after
`log_write` or `bwrite` on it. -/
def step (disksize : Nat) (s : St P) (a : Act P) : Option (St P) :=
  if s.panicked.isSome then none
  else match a with
    | .bread p dev blockno =>
        match s.pc p with
        | .ready => some (s.setPc p (.scan dev blockno))
        | _ => none
    | .scan p =>
        match s.pc p with
        | .scan dev blockno => some (bget s p dev blockno)
        | _ => none
    | .fill p =>
        match s.pc p with
        | .fill k _ _ => some (fill disksize s p k)
        | _ => none
    | .store p k data => if s.Uses p k then some (store s k data) else none
    | .copy p dst src =>
        if s.Uses p dst ∧ s.Uses p src then some (store s dst (s.buf src).data) else none
    | .logWrite p k => if s.Uses p k then some ((logWrite s k).save k) else none
    | .bwrite p k => if s.Uses p k then some ((bwrite disksize s k).save k) else none
    | .brelse p k => if s.Uses p k ∧ s.unsaved k = false then some (brelse s p k) else none

/-- **What a step can be.** -/
theorem step_cases {disksize : Nat} {s s' : St P} {a : Act P}
    (h : step disksize s a = some s') :
    s.panicked = none ∧
      ((∃ p dev blockno, s.pc p = .ready ∧ s' = s.setPc p (.scan dev blockno))
        ∨ (∃ p dev blockno, s.pc p = .scan dev blockno ∧ s' = bget s p dev blockno)
        ∨ (∃ p k dev blockno, s.pc p = .fill k dev blockno ∧ s' = fill disksize s p k)
        ∨ (∃ p k data, s.Uses p k ∧ s' = store s k data)
        ∨ (∃ p k, s.Uses p k ∧ s' = (logWrite s k).save k)
        ∨ (∃ p k, s.Uses p k ∧ s' = (bwrite disksize s k).save k)
        ∨ (∃ p k, s.Uses p k ∧ s.unsaved k = false ∧ s' = brelse s p k)) := by
  unfold step at h
  split at h
  · cases h
  · rename_i hp
    refine ⟨by simpa using hp, ?_⟩
    cases a with
    | bread p dev blockno =>
        dsimp only at h
        split at h
        · rename_i hpc
          exact Or.inl ⟨p, dev, blockno, hpc, (Option.some.inj h).symm⟩
        · cases h
    | scan p =>
        dsimp only at h
        split at h
        · rename_i dev blockno hpc
          exact Or.inr (Or.inl ⟨p, dev, blockno, hpc, (Option.some.inj h).symm⟩)
        · cases h
    | fill p =>
        dsimp only at h
        split at h
        · rename_i k dev blockno hpc
          exact Or.inr (Or.inr (Or.inl ⟨p, k, dev, blockno, hpc, (Option.some.inj h).symm⟩))
        · cases h
    | store p k data =>
        obtain ⟨hk, he⟩ := Option.ite_none_right_eq_some.mp h
        exact Or.inr (Or.inr (Or.inr (Or.inl ⟨p, k, data, hk, (Option.some.inj he).symm⟩)))
    | copy p dst src =>
        obtain ⟨hk, he⟩ := Option.ite_none_right_eq_some.mp h
        exact Or.inr (Or.inr (Or.inr (Or.inl ⟨p, dst, _, hk.1, (Option.some.inj he).symm⟩)))
    | logWrite p k =>
        obtain ⟨hk, he⟩ := Option.ite_none_right_eq_some.mp h
        exact Or.inr (Or.inr (Or.inr (Or.inr (Or.inl ⟨p, k, hk, (Option.some.inj he).symm⟩))))
    | bwrite p k =>
        obtain ⟨hk, he⟩ := Option.ite_none_right_eq_some.mp h
        exact Or.inr (Or.inr (Or.inr (Or.inr (Or.inr
          (Or.inl ⟨p, k, hk, (Option.some.inj he).symm⟩)))))
    | brelse p k =>
        obtain ⟨hk, he⟩ := Option.ite_none_right_eq_some.mp h
        exact Or.inr (Or.inr (Or.inr (Or.inr (Or.inr
          (Or.inr ⟨p, k, hk.1, hk.2, (Option.some.inj he).symm⟩)))))

end Xv6.Bio
