import Xv6.Params
import Xv6.Lib.Exec
import Xv6.Lib.Runs
import Mathlib.Data.Fintype.Basic

/-!
# Ide — `ide.c` and `memide.c`

The disk driver, its drive, and any number of processes that call
`iderw`; and the driver of the disk in memory, which is what they are
compared with. `idelock` is held from the start of `iderw` and `ideintr`
to their end or to `sleep`, so a step is all that one of them does under
the lock.

The drive carries out one command at a time and raises an interrupt when
it is done. Between `iderw` calls whoever has a buffer `B_BUSY` may do
anything to it.

The number in `call`, `reqs`, `served` and `returned` are bookkeeping
that no step reads: the requests in the order they were appended, how
many were served, and the buffers `iderw` returned with.
-/

namespace Xv6.Ide

open Lib

/-- `struct buf`. -/
structure Buf where
  busy : Bool
  valid : Bool
  dirty : Bool
  dev : Nat
  blockno : Nat
  data : Block

/-- `B_VALID` and not `B_DIRTY`. -/
def Buf.clean (b : Buf) : Bool := b.valid && !b.dirty

/-! ## The disk in memory -/

/-- `iderw` of `memide.c`, for a disk of `disksize` blocks. -/
def memIderw (disksize : Nat) (b : Buf) (memdisk : Disk) : Except String (Buf × Disk) :=
  if b.busy = false then .error "iderw: buf not busy"
  else if b.clean then .error "iderw: nothing to do"
  else if b.dev ≠ 1 then .error "iderw: request not for disk 1"
  else if disksize ≤ b.blockno then .error "iderw: block out of range"
  else if b.dirty then
    .ok ({ b with dirty := false, valid := true }, upd memdisk b.blockno b.data)
  else .ok ({ b with data := memdisk b.blockno, valid := true }, memdisk)

/-- Requests one after the other: the buffers returned, and the disk. -/
def memRun (disksize : Nat) : List Buf → Disk → Except String (List Buf × Disk)
  | [], memdisk => .ok ([], memdisk)
  | b :: bs, memdisk => do
      let (b, memdisk) ← memIderw disksize b memdisk
      let (bs, memdisk) ← memRun disksize bs memdisk
      return (b :: bs, memdisk)

/-! ## The drive -/

/-- A command: which drive, which sector, and the data to write, if any. -/
structure Cmd where
  drive : Nat
  sector : Nat
  data : Option Block

inductive Drive
  | ready
  | working (c : Cmd)
  | finished (c : Cmd) (data : Block)   -- the interrupt is raised; `data` can be read

/-- The command the drive was given and that is not over. -/
def Drive.cmd : Drive → Option Cmd
  | .ready => none
  | .working c | .finished c _ => some c

/-- What `idestart` tells the drive: 28 bits of the sector, which is the
block number since a block is one sector. -/
def Buf.cmd (b : Buf) : Cmd :=
  ⟨b.dev % 2, b.blockno % 2 ^ 28, if b.dirty then some b.data else none⟩

/-! ## The driver -/

structure St (P B : Type) where
  havedisk1 : Bool
  buf : B → Buf
  idequeue : List B
  drive : Drive
  disk : Nat → Disk
  call : P → Option (B × Nat)           -- the request a process waits for
  asleep : P → Bool
  panicked : Option String
  reqs : List (B × Buf)
  served : Nat
  returned : List (Nat × Buf)

/-- What can happen. -/
inductive Act (P B : Type)
  | iderw (p : P) (b : B)
  | work                                -- the drive carries out its command
  | ideintr
  | go (p : P)                          -- a process in `iderw` runs again
  | kill (p : P)
  | edit (b : B) (v : Buf)              -- whoever has the buffer changes it

section Driver

variable {P B : Type} [DecidableEq P] [DecidableEq B] [Fintype P]

def St.init (buf : B → Buf) (disk : Nat → Disk) : St P B where
  havedisk1 := true
  buf := buf
  idequeue := []
  drive := .ready
  disk := disk
  call := fun _ => none
  asleep := fun _ => false
  panicked := none
  reqs := []
  served := 0
  returned := []

namespace St

variable (s : St P B)

/-- `idestart`; `none` where `idewait` does not end because the drive is
at work. -/
def idestart (b : B) : Option (St P B) :=
  if FSSIZE ≤ (s.buf b).blockno then some { s with panicked := some "incorrect blockno" }
  else match s.drive with
    | .working _ => none
    | _ => some { s with drive := .working (s.buf b).cmd }

/-- The checks of `iderw`. -/
def check (b : B) : Option String :=
  if (s.buf b).busy = false then some "iderw: buf not busy"
  else if (s.buf b).clean then some "iderw: nothing to do"
  else if (s.buf b).dev ≠ 0 ∧ s.havedisk1 = false then some "iderw: ide disk 1 not present"
  else none

/-- Append `b` to `idequeue`, and go to sleep. -/
def append (p : P) (b : B) : St P B :=
  { s with
    idequeue := s.idequeue ++ [b]
    call := Function.update s.call p (some (b, s.reqs.length))
    asleep := Function.update s.asleep p true
    reqs := s.reqs ++ [(b, s.buf b)] }

/-- `iderw` up to `sleep`. -/
def iderw (p : P) (b : B) : Option (St P B) :=
  match s.check b with
  | some msg => some { s with panicked := some msg }
  | none =>
      let s := s.append p b
      if s.idequeue.head? = some b then s.idestart b else some s

/-- The loop of `iderw`, once awake. -/
def retest (p : P) (b : B) (i : Nat) : St P B :=
  if (s.buf b).clean then
    { s with call := Function.update s.call p none, returned := s.returned ++ [(i, s.buf b)] }
  else { s with asleep := Function.update s.asleep p true }

/-- `wakeup(b)`. -/
def wakeup (b : B) : St P B :=
  { s with asleep := fun p => s.asleep p && !decide ((s.call p).map Prod.fst = some b) }

/-- `ideintr` up to `idestart`: the request at the head is over. `data` is
what the drive has to read. -/
def finish (b : B) (rest : List B) (data : Block) : St P B :=
  let v := s.buf b
  let v := if v.dirty then v else { v with data := data }
  wakeup { s with
    idequeue := rest
    drive := .ready
    buf := upd s.buf b { v with valid := true, dirty := false }
    served := s.served + 1 } b

/-- `ideintr`. -/
def ideintr : Option (St P B) :=
  match s.idequeue with
  | [] => some s
  | b :: rest =>
      match s.drive with
      | .finished _ data =>
          let s := s.finish b rest data
          match rest with
          | [] => some s
          | b :: _ => s.idestart b
      | _ => none

/-- The drive carries out its command. -/
def work : Option (St P B) :=
  match s.drive with
  | .working c =>
      match c.data with
      | some v => some { s with
          drive := .finished c v
          disk := upd s.disk c.drive (upd (s.disk c.drive) c.sector v) }
      | none => some { s with drive := .finished c (s.disk c.drive c.sector) }
  | _ => none

/-- A process is in `iderw` with the buffer. -/
def InUse (b : B) : Prop := ∃ p, (s.call p).map Prod.fst = some b

instance (b : B) : Decidable (s.InUse b) := inferInstanceAs (Decidable (∃ _, _))

end St

/-- One step; `none` where it is not possible. -/
def step (s : St P B) (a : Act P B) : Option (St P B) :=
  if s.panicked.isSome then none
  else match a with
    | .iderw p b => if (s.call p).isSome ∨ s.InUse b then none else s.iderw p b
    | .work => s.work
    | .ideintr => s.ideintr
    | .go p =>
        match s.call p with
        | some (b, i) => if s.asleep p then none else some (s.retest p b i)
        | none => none
    | .kill p => some { s with asleep := Function.update s.asleep p false }
    | .edit b v => if s.InUse b then none else some { s with buf := upd s.buf b v }

/-- Calls are for requests that the disk in memory can serve too. -/
def Accepted (s : St P B) : Act P B → Prop
  | .iderw _ b => (memIderw FSSIZE (s.buf b) (s.disk 1)).isOk = true
  | _ => True

instance (s : St P B) : (a : Act P B) → Decidable (Accepted s a)
  | .iderw _ b => inferInstanceAs (Decidable ((memIderw FSSIZE (s.buf b) (s.disk 1)).isOk = true))
  | .work | .ideintr | .go _ | .kill _ | .edit _ _ => inferInstanceAs (Decidable True)

end Driver

end Xv6.Ide
