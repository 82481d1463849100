import Xv6.Lib.Exec
import Xv6.Lib.Runs

/-!
# Sleep — `sleep`, `wakeup` and the two locks

Processes on any number of CPUs wait for conditions and make them true,
statement by statement. Condition `k` is protected by a lock: a spinlock
of its own if `own k`, and `ptable.lock` if not. A waiter tests the
condition with the lock held and calls `sleep(chan k, lk)` until it is
true; a waker changes it with the lock held and calls `wakeup(chan k)`
(`wakeup1` if it holds `ptable.lock` already) before it releases the lock.
Two conditions may have the same channel.

A lock belongs to the CPU that acquired it, as `lk->cpu` has it: it stays
with the CPU when `swtch` goes from a process to the scheduler or back.
With a lock held interrupts are off, so the timer comes only to a process
without one.

`woken` is bookkeeping that no step reads: `wakeup` or `kill` made the
process RUNNABLE since it last tested a condition.
-/

namespace Xv6.Sleep

open Lib

inductive ProcState
  | SLEEPING
  | RUNNABLE
  | RUNNING
  deriving DecidableEq

/-- The statement a process is about to execute. -/
inductive Pc (P K : Type)
  | user
  -- a waiter
  | waitLock (k : K)                    -- `acquire(lk)`
  | test (k : K)
  | done (k : K)                        -- `release(lk)`
  -- in `sleep`
  | sleepPt (k : K)                     -- `acquire(&ptable.lock)`
  | sleepRelease (k : K)                -- `release(lk)`
  | sleepChan (k : K)                   -- `proc->chan = chan`
  | sleepState (k : K)                  -- `proc->state = SLEEPING`
  | sleepSched (k : K)                  -- `sched()`
  | asleep (k : K)                      -- not resumed yet
  | tidy (k : K)                        -- `proc->chan = 0`
  | tidyRelease (k : K)                 -- `release(&ptable.lock)`
  -- a waker
  | wakeLock (k : K) (v : Bool)         -- `acquire(lk)`
  | change (k : K) (v : Bool)
  | wakePt (k : K)                      -- `acquire(&ptable.lock)`
  | scan (k : K) (rest : List P)        -- the loop of `wakeup1`
  | wakeDone (k : K)                    -- `release(lk)`
  -- `kill`
  | killPt (p : P)
  | killSet (p : P)
  | killRelease
  -- `yield`, in a timer interrupt at `r`
  | yieldPt (r : Pc P K)
  | yieldState (r : Pc P K)
  | yieldSched (r : Pc P K)
  | yielded (r : Pc P K)
  | yieldRelease (r : Pc P K)

/-- What a CPU does: a statement of `scheduler()`, or its process. -/
inductive Cpu (P : Type)
  | acquire
  | choose
  | switch (p : P)                      -- `swtch`, after `p->state = RUNNING`
  | release
  | run (p : P)

structure St (C P K Ch : Type) where
  pt : Option C                         -- `ptable.lock`
  lk : K → Option C
  cpu : C → Cpu P
  pc : P → Pc P K
  state : P → ProcState
  chan : P → Option Ch
  val : K → Bool
  woken : P → Bool

inductive Act (C P K : Type)
  | go (c : C)
  | wait (c : C) (k : K)                -- a process starts to wait for `k`
  | wake (c : C) (k : K) (v : Bool)     -- a process starts to set `k` to `v`
  | kill (c : C) (p : P)
  | timer (c : C)
  | pick (c : C) (p : P)                -- the scheduler chooses `p`

section System

variable {C P K Ch : Type} [DecidableEq P] [DecidableEq K] [DecidableEq Ch]

/-- No process has run yet: all are in `forkret`, RUNNABLE. -/
def St.init (val : K → Bool) : St C P K Ch where
  pt := none
  lk := fun _ => none
  cpu := fun _ => .acquire
  pc := fun _ => .yielded .user
  state := fun _ => .RUNNABLE
  chan := fun _ => none
  val := val
  woken := fun _ => false

/-- The conditions, the table of processes. -/
structure Config (P K Ch : Type) where
  own : K → Bool
  chan : K → Ch
  procs : List P

variable (g : Config P K Ch)

namespace St

variable (s : St C P K Ch)

def setPc (p : P) (a : Pc P K) : St C P K Ch := { s with pc := upd s.pc p a }

/-! ## Locks: the statement, and the one after it -/

def acquirePt (c : C) (p : P) (next : Pc P K) : Option (St C P K Ch) :=
  if s.pt.isSome then none else some ({ s with pt := some c }.setPc p next)

def releasePt (p : P) (next : Pc P K) : St C P K Ch := { s with pt := none }.setPc p next

/-- `acquire(lk)`. -/
def acquireLk (c : C) (p : P) (k : K) (next : Pc P K) : Option (St C P K Ch) :=
  if g.own k then
    if (s.lk k).isSome then none else some ({ s with lk := upd s.lk k (some c) }.setPc p next)
  else s.acquirePt c p next

/-- `release(lk)`. -/
def releaseLk (p : P) (k : K) (next : Pc P K) : St C P K Ch :=
  if g.own k then { s with lk := upd s.lk k none }.setPc p next else s.releasePt p next

/-! ## Statements -/

/-- `p->state = RUNNABLE`, by `wakeup1` or `kill`. -/
def rouse (p : P) : St C P K Ch :=
  { s with state := upd s.state p .RUNNABLE, woken := upd s.woken p true }

variable [DecidableEq C]

/-- Set the state and call `swtch(&proc->context, cpu->scheduler)`. -/
def sched (c : C) (p : P) (a : Pc P K) : St C P K Ch :=
  { s with cpu := upd s.cpu c .release }.setPc p a

/-- The process `p` runs on CPU `c`. -/
def runProc (c : C) (p : P) : Option (St C P K Ch) :=
  match s.pc p with
  | .user => none
  | .waitLock k => s.acquireLk g c p k (.test k)
  | .test k =>
      if s.val k then some (s.setPc p (.done k))
      else
        some ({ s with woken := upd s.woken p false }.setPc p
          (if g.own k then .sleepPt k else .sleepChan k))
  | .done k => some (s.releaseLk g p k .user)
  | .sleepPt k => s.acquirePt c p (.sleepRelease k)
  | .sleepRelease k => some ({ s with lk := upd s.lk k none }.setPc p (.sleepChan k))
  | .sleepChan k =>
      some ({ s with chan := upd s.chan p (some (g.chan k)) }.setPc p (.sleepState k))
  | .sleepState k => some ({ s with state := upd s.state p .SLEEPING }.setPc p (.sleepSched k))
  | .sleepSched k => some (s.sched c p (.asleep k))
  | .asleep _ => none
  | .tidy k =>
      some ({ s with chan := upd s.chan p none }.setPc p
        (if g.own k then .tidyRelease k else .test k))
  | .tidyRelease k => some (s.releasePt p (.waitLock k))
  | .wakeLock k v => s.acquireLk g c p k (.change k v)
  | .change k v =>
      some ({ s with val := upd s.val k v }.setPc p
        (if g.own k then .wakePt k else .scan k g.procs))
  | .wakePt k => s.acquirePt c p (.scan k g.procs)
  | .scan k (q :: rest) =>
      some ((if s.state q = .SLEEPING ∧ s.chan q = some (g.chan k) then s.rouse q else s).setPc p
        (.scan k rest))
  | .scan k [] =>
      if g.own k then some (s.releasePt p (.wakeDone k)) else some (s.setPc p (.wakeDone k))
  | .wakeDone k => some (s.releaseLk g p k .user)
  | .killPt q => s.acquirePt c p (.killSet q)
  | .killSet q =>
      some ((if s.state q = .SLEEPING then s.rouse q else s).setPc p .killRelease)
  | .killRelease => some (s.releasePt p .user)
  | .yieldPt r => s.acquirePt c p (.yieldState r)
  | .yieldState r => some ({ s with state := upd s.state p .RUNNABLE }.setPc p (.yieldSched r))
  | .yieldSched r => some (s.sched c p (.yielded r))
  | .yielded _ => none
  | .yieldRelease r => some (s.releasePt p r)

/-- `swtch` to `p`: it goes on after its call of `sched`. -/
def resume (c : C) (p : P) : Option (St C P K Ch) :=
  match s.pc p with
  | .asleep k => some ({ s with cpu := upd s.cpu c (.run p) }.setPc p (.tidy k))
  | .yielded r => some ({ s with cpu := upd s.cpu c (.run p) }.setPc p (.yieldRelease r))
  | _ => none

/-- A statement of the scheduler, or of the process that runs. -/
def go (c : C) : Option (St C P K Ch) :=
  match s.cpu c with
  | .acquire =>
      if s.pt.isSome then none else some { s with pt := some c, cpu := upd s.cpu c .choose }
  | .choose => some { s with cpu := upd s.cpu c .release }
  | .switch p => s.resume c p
  | .release => some { s with pt := none, cpu := upd s.cpu c .acquire }
  | .run p => s.runProc g c p

end St

/-- A process without locks, between two statements. -/
def Pc.unlocked : Pc P K → Bool
  | .user | .waitLock _ | .wakeLock _ _ | .killPt _ => true
  | _ => false

variable [DecidableEq C]

/-- A process that runs in user mode starts something. -/
def St.start (s : St C P K Ch) (c : C) (a : Pc P K) : Option (St C P K Ch) :=
  match s.cpu c with
  | .run p =>
      match s.pc p with
      | .user => some (s.setPc p a)
      | _ => none
  | _ => none

def step (s : St C P K Ch) : Act C P K → Option (St C P K Ch)
  | .go c => s.go g c
  | .wait c k => s.start c (.waitLock k)
  | .wake c k v => s.start c (.wakeLock k v)
  | .kill c p => s.start c (.killPt p)
  | .timer c =>
      match s.cpu c with
      | .run p => if (s.pc p).unlocked then some (s.setPc p (.yieldPt (s.pc p))) else none
      | _ => none
  | .pick c p =>
      match s.cpu c with
      | .choose =>
          if s.state p = .RUNNABLE then
            some { s with state := upd s.state p .RUNNING, cpu := upd s.cpu c (.switch p) }
          else none
      | _ => none

end System

end Xv6.Sleep
