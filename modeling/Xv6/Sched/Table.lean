import Xv6.Params
import Xv6.Lib.Runs

/-!
# Sched — the process table

`fork`, `exit`, `wait`, `kill`, `sleep`, `wakeup` and `settickets` of
`proc.c` and `sysproc.c` as steps on `ptable`. A step is one section of
`ptable.lock`, or one of the writes `fork` makes to the slot of its child
WITHOUT the lock. Which processes run where is left open: any RUNNABLE
process may become RUNNING at any time, and give up the CPU again.

`int` fields are 32-bit words. What the file system, the memory allocator
and the trap code do to a process is not here; an allocation that fails
is a step of its own (`forkFail`).

Four fields are bookkeeping that no step reads: how many pids were issued
(`issued`), which of them each slot got (`serial`), and what `exit` and
`wait` did (`exited`, `reaped`): the process, by its serial number, with
its pid, and with the value `wait` returned.
-/

namespace Xv6.Sched

open Lib

/-- `enum procstate`. -/
inductive ProcState
  | UNUSED
  | EMBRYO
  | SLEEPING
  | RUNNABLE
  | RUNNING
  | ZOMBIE
deriving DecidableEq

/-- What a process sleeps on: the address of a `struct proc` or another. -/
inductive Chan
  | proc (i : Fin NPROC)
  | other (addr : Nat)
deriving DecidableEq

/-- `struct proc`. -/
structure Proc where
  state : ProcState
  pid : BitVec 32
  parent : Option (Fin NPROC)
  chan : Option Chan
  killed : Bool
  tickets : BitVec 32
deriving DecidableEq

def INIT_TICKETS : BitVec 32 := 10

/-- Where in the kernel a process stands. -/
inductive Pc
  | user                      -- in none of the functions below
  | forking (np : Fin NPROC)  -- in `fork`, `allocproc` has taken slot `np`
  | copied (np : Fin NPROC)   -- in `fork`, `np->parent` is set
  | waiting                   -- in `wait`, in its call of `sleep`
  | asleep                    -- in another call of `sleep`
deriving DecidableEq

structure St where
  proc : Fin NPROC → Proc
  nextpid : BitVec 32
  pc : Fin NPROC → Pc
  issued : Nat
  serial : Fin NPROC → Nat
  exited : List (Nat × BitVec 32)
  reaped : List (Nat × BitVec 32)

instance : NeZero NPROC := ⟨by decide⟩

/-- The slot `userinit` gets. -/
def initproc : Fin NPROC := 0

/-- A slot of the zeroed table. -/
def Proc.zero : Proc := ⟨.UNUSED, 0, none, none, false, 0⟩

/-- After `userinit`. -/
def St.init : St where
  proc := fun i =>
    if i = initproc then ⟨.RUNNABLE, 1, none, none, false, INIT_TICKETS⟩ else .zero
  nextpid := 2
  pc := fun _ => .user
  issued := 1
  serial := fun i => if i = initproc then 1 else 0
  exited := []
  reaped := []

/-- What the processes and the scheduler can do. -/
inductive Act
  | run (p : Fin NPROC)                 -- `scheduler` switches to `p`
  | yield (p : Fin NPROC)
  | forkAlloc (p : Fin NPROC)           -- `fork` calls `allocproc`
  | forkFail (p : Fin NPROC)            -- no memory for the kernel stack or the copy
  | forkParent (p : Fin NPROC)          -- `np->parent = proc`
  | forkDone (p : Fin NPROC)            -- `np->state = RUNNABLE`
  | exit (p : Fin NPROC)
  | wait (p : Fin NPROC)                -- one round of `wait`'s loop
  | kill (p : Fin NPROC) (pid : BitVec 32)
  | sleep (p : Fin NPROC) (addr : Nat)  -- `sleep` outside `wait`
  | resume (p : Fin NPROC)              -- that `sleep` returns
  | wakeup (addr : Nat)                 -- by a process, or by an interrupt on any CPU
  | settickets (p : Fin NPROC) (num : BitVec 32)

/-! ## The functions -/

def St.setProc (s : St) (i : Fin NPROC) (v : Proc) : St :=
  { s with proc := Function.update s.proc i v }

def St.setState (s : St) (i : Fin NPROC) (v : ProcState) : St :=
  s.setProc i { s.proc i with state := v }

def St.setPc (s : St) (i : Fin NPROC) (c : Pc) : St :=
  { s with pc := Function.update s.pc i c }

/-- `allocproc`, the locked part: slot `np` was found UNUSED. -/
def St.alloc (s : St) (np : Fin NPROC) : St :=
  { s.setProc np { s.proc np with
      state := .EMBRYO
      pid := s.nextpid
      tickets := INIT_TICKETS } with
    nextpid := s.nextpid + 1
    issued := s.issued + 1
    serial := Function.update s.serial np (s.issued + 1) }

/-- The first UNUSED slot. -/
def St.unused (s : St) : Option (Fin NPROC) :=
  (List.finRange NPROC).find? fun i => (s.proc i).state = .UNUSED

/-- `fork` up to the return of `allocproc`'s lock. -/
def forkAlloc (s : St) (p : Fin NPROC) : St :=
  match s.unused with
  | some np => (s.alloc np).setPc p (.forking np)
  | none => s                           -- returns -1

/-- `wakeup1`. -/
def wakeup1 (s : St) (chan : Option Chan) : St :=
  { s with proc := fun i =>
      if (s.proc i).state = .SLEEPING ∧ (s.proc i).chan = chan then
        { s.proc i with state := .RUNNABLE }
      else s.proc i }

/-- The body of `exit`'s loop: pass an abandoned child to init. -/
def adopt (p : Fin NPROC) (s : St) (i : Fin NPROC) : St :=
  if (s.proc i).parent = some p then
    let s := s.setProc i { s.proc i with parent := some initproc }
    if (s.proc i).state = .ZOMBIE then wakeup1 s (some (.proc initproc)) else s
  else s

/-- The locked part of `exit`. -/
def exit (s : St) (p : Fin NPROC) : St :=
  -- parent might be sleeping in wait()
  let s := wakeup1 s ((s.proc p).parent.map .proc)
  let s := (List.finRange NPROC).foldl (adopt p) s
  { s.setState p .ZOMBIE with exited := (s.serial p, (s.proc p).pid) :: s.exited }

/-- `wait` frees the slot of a zombie and returns its pid. -/
def St.reap (s : St) (i : Fin NPROC) : St :=
  { s.setProc i { s.proc i with state := .UNUSED, pid := 0, parent := none, killed := false } with
    reaped := (s.serial i, (s.proc i).pid) :: s.reaped }

/-- The first ZOMBIE child. -/
def St.zombie (s : St) (p : Fin NPROC) : Option (Fin NPROC) :=
  (List.finRange NPROC).find? fun i => (s.proc i).parent = some p ∧ (s.proc i).state = .ZOMBIE

/-- One round of `wait`'s loop, after `sleep` cleared `chan`. -/
def wait (s : St) (p : Fin NPROC) : St :=
  let s := s.setProc p { s.proc p with chan := none }
  match s.zombie p with
  | some i => (s.reap i).setPc p .user
  | none =>
      if (∀ i, (s.proc i).parent ≠ some p) ∨ (s.proc p).killed = true then s.setPc p .user
      else (s.setProc p { s.proc p with chan := some (.proc p), state := .SLEEPING }).setPc p .waiting

/-- The slot `kill` finds. -/
def St.lookup (s : St) (pid : BitVec 32) : Option (Fin NPROC) :=
  (List.finRange NPROC).find? fun i => (s.proc i).pid = pid

/-- `kill`: what it returns, and the state after it. -/
def kill (s : St) (pid : BitVec 32) : Int × St :=
  match s.lookup pid with
  | some i =>
      (0, s.setProc i { s.proc i with
        killed := true
        -- wake process from sleep if necessary
        state := if (s.proc i).state = .SLEEPING then .RUNNABLE else (s.proc i).state })
  | none => (-1, s)

/-- `p` runs, outside the functions above. -/
abbrev St.Ready (s : St) (p : Fin NPROC) : Prop := (s.proc p).state = .RUNNING ∧ s.pc p = .user

/-- The system. `exit` of init panics. -/
def step (s : St) : Act → Option St
  | .run p => if (s.proc p).state = .RUNNABLE then some (s.setState p .RUNNING) else none
  | .yield p => if (s.proc p).state = .RUNNING then some (s.setState p .RUNNABLE) else none
  | .forkAlloc p => if s.Ready p then some (forkAlloc s p) else none
  | .forkFail p =>
      match s.pc p with
      | .forking np =>
          if (s.proc p).state = .RUNNING then some ((s.setState np .UNUSED).setPc p .user) else none
      | _ => none
  | .forkParent p =>
      match s.pc p with
      | .forking np =>
          if (s.proc p).state = .RUNNING then
            some ((s.setProc np { s.proc np with parent := some p }).setPc p (.copied np))
          else none
      | _ => none
  | .forkDone p =>
      match s.pc p with
      | .copied np =>
          if (s.proc p).state = .RUNNING then some ((s.setState np .RUNNABLE).setPc p .user)
          else none
      | _ => none
  | .exit p => if s.Ready p ∧ p ≠ initproc then some (exit s p) else none
  | .wait p =>
      if (s.proc p).state = .RUNNING ∧ (s.pc p = .user ∨ s.pc p = .waiting) then some (wait s p)
      else none
  | .kill p pid => if s.Ready p then some (kill s pid).2 else none
  | .sleep p addr =>
      if s.Ready p then
        some ((s.setProc p { s.proc p with chan := some (.other addr), state := .SLEEPING }).setPc
          p .asleep)
      else none
  | .resume p =>
      if (s.proc p).state = .RUNNING ∧ s.pc p = .asleep then
        some ((s.setProc p { s.proc p with chan := none }).setPc p .user)
      else none
  | .wakeup addr => some (wakeup1 s (some (.other addr)))
  | .settickets p num =>
      if s.Ready p then some (s.setProc p { s.proc p with tickets := num }) else none

/-- The states the kernel can be in. -/
abbrev Reachable (s : St) : Prop := Reaches step St.init s

end Xv6.Sched
