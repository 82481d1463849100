import Xv6.Lib.Ring
import Xv6.Lib.Runs

/-!
# Pipe — `pipewrite`, `piperead` and `pipeclose`

One pipe, and any number of processes that use it. A step is one
statement of `pipe.c` or of `sleep`, as finely as another process can
tell: `p->lock` is held from step to step, `ptable.lock` from `sleep`'s
`acquire` to the switch, and `kill` may come at any time in between. One
byte is stored or taken out per step.

Whether a process may call follows from the open files. An end is closed
once, by whoever closes its last file, and a call needs a file that is
open until it returns.

`calls`, `hist`, `handed` and `returned`, and `dirty` in a frame, are
bookkeeping that no step reads.
-/

namespace Xv6.Pipe

open Lib

def PIPESIZE : Nat := 512

instance : NeZero PIPESIZE := ⟨by decide⟩

/-- What processes sleep on: `&p->nread` or `&p->nwrite`. -/
inductive Chan
  | nread
  | nwrite
deriving DecidableEq

/-- A call of `pipewrite(p, addr, n)` or `piperead(p, ·, n)`. -/
inductive Call
  | write (addr : Nat → UInt8) (n : Int)
  | read (n : Int)

/-- The channel a call sleeps on. -/
def Call.chan : Call → Chan
  | .write .. => .nwrite
  | .read .. => .nread

/-- The channel it wakes up behind its loop. -/
def Call.wakes : Call → Chan
  | .write .. => .nread
  | .read .. => .nwrite

/-- A call in progress: its number, its loop variable, and whether it
stored a byte since it was entered or last slept. -/
structure Frame where
  id : Nat
  call : Call
  i : Nat
  dirty : Bool

/-- The call one byte further. -/
def Frame.next (f : Frame) (dirty : Bool) : Frame := { f with i := f.i + 1, dirty := dirty }

/-- The call when it sleeps. -/
def Frame.slept (f : Frame) : Frame := { f with dirty := false }

/-- Where a process stands. -/
inductive Pc
  | idle
  | acquire (f : Frame)        -- `acquire(&p->lock)`, first or in `sleep`
  | test (f : Frame)           -- `pipewrite`'s loops, `piperead`'s first
  | check (f : Frame)          -- `proc->killed`
  | wakeFull (f : Frame)       -- `wakeup(&p->nread)` of a full pipe
  | lockTable (f : Frame)      -- `sleep`: `acquire(&ptable.lock)`
  | unlock (f : Frame)         -- `sleep`: `release(lk)`
  | mark (f : Frame)           -- `sleep`: SLEEPING, and the switch
  | asleep (f : Frame)         -- until it runs again
  | copy (f : Frame)           -- `piperead`'s copy loop
  | wake (f : Frame)           -- the `wakeup` behind the loop
  | ret (f : Frame) (r : Int)  -- `release(&p->lock)`, and `return`
  | closing (w : Bool)         -- `pipeclose`: `acquire(&p->lock)`
  | closeSet (w : Bool)
  | closeWake (w : Bool)
  | closeRet (w : Bool)

/-- The call a process is in. -/
def Pc.frame : Pc → Option Frame
  | .acquire f | .test f | .check f | .wakeFull f | .lockTable f | .unlock f | .mark f | .asleep f
  | .copy f | .wake f | .ret f _ => some f
  | _ => none

/-- It uses the write end (`true`) or the read end. -/
def Pc.end? : Pc → Option Bool
  | .closing w | .closeSet w | .closeWake w | .closeRet w => some w
  | pc => pc.frame.map fun f => match f.call with
      | .write .. => true
      | .read .. => false

/-- What the writers did, call by call. -/
inductive Event
  | store (id : Nat) (x : UInt8)
  | sleep (id : Nat)
deriving DecidableEq

structure St (P : Type) where
  ring : Ring UInt8 PIPESIZE 32
  readopen : Bool
  writeopen : Bool
  lock : Option P
  tableLock : Option P
  pc : P → Pc
  sleeping : P → Option Chan
  killed : P → Bool
  -- an open file refers to the read end, to the write end
  files : Bool → Bool
  calls : Nat
  hist : List Event
  handed : List UInt8
  returned : List (Frame × Int)

/-- What can happen. -/
inductive Act (P : Type)
  | call (q : P) (c : Call)
  | close (q : P) (w : Bool)   -- `q` closes the last file of an end
  | kill (q : P)
  | go (q : P)                 -- `q` takes its next step

section Model

variable {P : Type} [DecidableEq P] [Fintype P]

/-- After `pipealloc`. -/
def St.init : St P where
  ring := ⟨fun _ => 0, 0, 0⟩
  readopen := true
  writeopen := true
  lock := none
  tableLock := none
  pc := fun _ => .idle
  sleeping := fun _ => none
  killed := fun _ => false
  files := fun _ => true
  calls := 0
  hist := []
  handed := []
  returned := []

def St.goto (s : St P) (q : P) (pc : Pc) : St P := { s with pc := Function.update s.pc q pc }

/-- `p->nread == p->nwrite`. -/
abbrev St.Empty (s : St P) : Prop := s.ring.nread = s.ring.nwrite

/-- `p->nwrite == p->nread + PIPESIZE`. -/
abbrev St.Full (s : St P) : Prop := s.ring.nwrite = s.ring.nread + BitVec.ofNat 32 PIPESIZE

/-- `wakeup1`. -/
def St.wakeup (s : St P) (chan : Chan) : St P :=
  { s with sleeping := fun q => if s.sleeping q = some chan then none else s.sleeping q }

/-- The loops of `pipewrite`, and the first loop of `piperead`. -/
def St.test (s : St P) (q : P) (f : Frame) : St P :=
  match f.call with
  | .write addr n =>
      if (f.i : Int) < n then
        if s.Full then s.goto q (.check f)
        else { s.goto q (.test (f.next true)) with
          ring := s.ring.push (addr f.i)
          hist := s.hist ++ [.store f.id (addr f.i)] }
      else s.goto q (.wake f)
  | .read _ => if s.Empty ∧ s.writeopen = true then s.goto q (.check f) else s.goto q (.copy f)

/-- In a loop with nothing to do: give up if killed, else sleep. -/
def St.check (s : St P) (q : P) (f : Frame) : St P :=
  match f.call with
  | .write .. =>
      if s.readopen = false ∨ s.killed q = true then s.goto q (.ret f (-1))
      else s.goto q (.wakeFull f)
  | .read _ =>
      if s.killed q = true then s.goto q (.ret f (-1)) else s.goto q (.lockTable f)

/-- `piperead`'s copy loop. -/
def St.copy (s : St P) (q : P) (f : Frame) : St P :=
  match f.call with
  | .read n =>
      if (f.i : Int) < n ∧ ¬ s.Empty then
        { s.goto q (.copy (f.next f.dirty)) with
          ring := s.ring.pop
          handed := s.handed ++ [s.ring.front] }
      else s.goto q (.wake f)
  | .write .. => s

/-- What a call returns that got through its loop. -/
def Frame.result (f : Frame) : Int :=
  match f.call with
  | .write _ n => n
  | .read _ => f.i

/-- One step of a process. A `wakeup` waits for `ptable.lock`. -/
def St.go (s : St P) (q : P) : Option (St P) :=
  match s.pc q with
  | .idle => none
  | .acquire f => if s.lock = none then some { s.goto q (.test f) with lock := some q } else none
  | .test f => some (s.test q f)
  | .check f => some (s.check q f)
  | .wakeFull f =>
      if s.tableLock = none then some ((s.wakeup .nread).goto q (.lockTable f)) else none
  | .lockTable f =>
      if s.tableLock = none then some { s.goto q (.unlock f) with tableLock := some q } else none
  | .unlock f =>
      some { s.goto q (.mark f.slept) with
        lock := none
        hist := s.hist ++ [.sleep f.id] }
  | .mark f =>
      some { s.goto q (.asleep f) with
        sleeping := Function.update s.sleeping q (some f.call.chan)
        tableLock := none }
  | .asleep f =>
      if s.sleeping q = none ∧ s.tableLock = none then some (s.goto q (.acquire f)) else none
  | .copy f => some (s.copy q f)
  | .wake f =>
      if s.tableLock = none then some ((s.wakeup f.call.wakes).goto q (.ret f f.result)) else none
  | .ret f r =>
      some { s.goto q .idle with lock := none, returned := s.returned ++ [(f, r)] }
  | .closing w => if s.lock = none then some { s.goto q (.closeSet w) with lock := some q } else none
  | .closeSet w =>
      some (if w then { s.goto q (.closeWake w) with writeopen := false }
        else { s.goto q (.closeWake w) with readopen := false })
  | .closeWake w =>
      if s.tableLock = none then
        some ((s.wakeup (if w then .nread else .nwrite)).goto q (.closeRet w))
      else none
  -- the pipe is freed here if both ends are closed; nobody has it any more
  | .closeRet _ => some { s.goto q .idle with lock := none }

/-- The end a call needs. -/
def Call.end : Call → Bool
  | .write .. => true
  | .read .. => false

/-- The system. -/
def step (s : St P) : Act P → Option (St P)
  | .call q c =>
      if (s.pc q).end? = none ∧ s.files c.end = true then
        some { s.goto q (.acquire ⟨s.calls, c, 0, false⟩) with calls := s.calls + 1 }
      else none
  | .close q w =>
      if (s.pc q).end? = none ∧ s.files w = true ∧ ∀ q, (s.pc q).end? ≠ some w then
        some { s.goto q (.closing w) with files := Function.update s.files w false }
      else none
  | .kill q =>
      -- wake process from sleep if necessary
      if s.tableLock = none then
        some { s with
          killed := Function.update s.killed q true
          sleeping := Function.update s.sleeping q none }
      else none
  | .go q => s.go q

abbrev Reachable (s : St P) : Prop := Reaches step St.init s

/-! ## Inversion -/

/-- What each enabled action does, with what it found. -/
inductive Step (s : St P) : Act P → St P → Prop
  | call (q c) (hpc : s.pc q = .idle) (hf : s.files c.end = true) :
      Step s (.call q c)
        { s.goto q (.acquire ⟨s.calls, c, 0, false⟩) with calls := s.calls + 1 }
  | close (q w) (hpc : s.pc q = .idle) (hf : s.files w = true)
      (hno : ∀ q, (s.pc q).end? ≠ some w) :
      Step s (.close q w)
        { s.goto q (.closing w) with files := Function.update s.files w false }
  | kill (q) (ht : s.tableLock = none) :
      Step s (.kill q) { s with
        killed := Function.update s.killed q true
        sleeping := Function.update s.sleeping q none }
  | acquire (q f) (hpc : s.pc q = .acquire f) (hl : s.lock = none) :
      Step s (.go q) { s.goto q (.test f) with lock := some q }
  | store (q f addr n) (hpc : s.pc q = .test f) (hc : f.call = .write addr n)
      (hi : (f.i : Int) < n) (hfull : ¬ s.Full) :
      Step s (.go q) { s.goto q (.test (f.next true)) with
        ring := s.ring.push (addr f.i)
        hist := s.hist ++ [.store f.id (addr f.i)] }
  | full (q f addr n) (hpc : s.pc q = .test f) (hc : f.call = .write addr n)
      (hi : (f.i : Int) < n) (hfull : s.Full) : Step s (.go q) (s.goto q (.check f))
  | stored (q f addr n) (hpc : s.pc q = .test f) (hc : f.call = .write addr n)
      (hi : n ≤ f.i) : Step s (.go q) (s.goto q (.wake f))
  | empty (q f n) (hpc : s.pc q = .test f) (hc : f.call = .read n) (he : s.Empty)
      (hw : s.writeopen = true) : Step s (.go q) (s.goto q (.check f))
  | copying (q f n) (hpc : s.pc q = .test f) (hc : f.call = .read n) :
      Step s (.go q) (s.goto q (.copy f))
  | fail (q f) (hpc : s.pc q = .check f)
      (hk : s.killed q = true ∨ s.readopen = false ∧ ∃ addr n, f.call = .write addr n) :
      Step s (.go q) (s.goto q (.ret f (-1)))
  | stuck (q f addr n) (hpc : s.pc q = .check f) (hc : f.call = .write addr n)
      (ho : s.readopen = true) : Step s (.go q) (s.goto q (.wakeFull f))
  | wait (q f n) (hpc : s.pc q = .check f) (hc : f.call = .read n) :
      Step s (.go q) (s.goto q (.lockTable f))
  | wakeFull (q f) (hpc : s.pc q = .wakeFull f) (ht : s.tableLock = none) :
      Step s (.go q) ((s.wakeup .nread).goto q (.lockTable f))
  | lockTable (q f) (hpc : s.pc q = .lockTable f) (ht : s.tableLock = none) :
      Step s (.go q) { s.goto q (.unlock f) with tableLock := some q }
  | unlock (q f) (hpc : s.pc q = .unlock f) :
      Step s (.go q) { s.goto q (.mark f.slept) with
        lock := none
        hist := s.hist ++ [.sleep f.id] }
  | mark (q f) (hpc : s.pc q = .mark f) :
      Step s (.go q) { s.goto q (.asleep f) with
        sleeping := Function.update s.sleeping q (some f.call.chan)
        tableLock := none }
  | resume (q f) (hpc : s.pc q = .asleep f) (hs : s.sleeping q = none) :
      Step s (.go q) (s.goto q (.acquire f))
  | pop (q f n) (hpc : s.pc q = .copy f) (hc : f.call = .read n) (he : ¬ s.Empty) :
      Step s (.go q) { s.goto q (.copy (f.next f.dirty)) with
        ring := s.ring.pop
        handed := s.handed ++ [s.ring.front] }
  | copied (q f n) (hpc : s.pc q = .copy f) (hc : f.call = .read n) :
      Step s (.go q) (s.goto q (.wake f))
  | wake (q f) (hpc : s.pc q = .wake f) (ht : s.tableLock = none) :
      Step s (.go q) ((s.wakeup f.call.wakes).goto q (.ret f f.result))
  | ret (q f r) (hpc : s.pc q = .ret f r) :
      Step s (.go q) { s.goto q .idle with lock := none, returned := s.returned ++ [(f, r)] }
  | closing (q w) (hpc : s.pc q = .closing w) (hl : s.lock = none) :
      Step s (.go q) { s.goto q (.closeSet w) with lock := some q }
  | closeWrite (q) (hpc : s.pc q = .closeSet true) :
      Step s (.go q) { s.goto q (.closeWake true) with writeopen := false }
  | closeRead (q) (hpc : s.pc q = .closeSet false) :
      Step s (.go q) { s.goto q (.closeWake false) with readopen := false }
  | closeWake (q w) (hpc : s.pc q = .closeWake w) (ht : s.tableLock = none) :
      Step s (.go q) ((s.wakeup (if w then .nread else .nwrite)).goto q (.closeRet w))
  | closeRet (q w) (hpc : s.pc q = .closeRet w) : Step s (.go q) { s.goto q .idle with lock := none }
  -- the copy loop in a `pipewrite`, where no process ever stands
  | skip (q f addr n) (hpc : s.pc q = .copy f) (hc : f.call = .write addr n) : Step s (.go q) s

theorem end?_eq_none {pc : Pc} (h : pc.end? = none) : pc = .idle := by
  cases pc <;> simp_all [Pc.end?, Pc.frame]

/-- **What a step can be.** -/
theorem step_cases {s s' : St P} {a : Act P} (h : step s a = some s') : Step s a s' := by
  cases a with
  | call q c =>
      obtain ⟨hg, he⟩ := Option.ite_none_right_eq_some.mp h
      cases he
      exact .call q c (end?_eq_none hg.1) hg.2
  | close q w =>
      obtain ⟨hg, he⟩ := Option.ite_none_right_eq_some.mp h
      cases he
      exact .close q w (end?_eq_none hg.1) hg.2.1 hg.2.2
  | kill q =>
      obtain ⟨hg, he⟩ := Option.ite_none_right_eq_some.mp h
      cases he
      exact .kill q hg
  | go q =>
      simp only [step, St.go] at h
      split at h <;> rename_i hpc
      · cases h
      · obtain ⟨hg, he⟩ := Option.ite_none_right_eq_some.mp h
        cases he
        exact .acquire q _ hpc hg
      · rename_i f
        cases h
        simp only [St.test]
        cases hc : f.call with
        | write addr n =>
            dsimp only
            split
            · split
              · exact .full q f addr n hpc hc (by assumption) (by assumption)
              · exact .store q f addr n hpc hc (by assumption) (by assumption)
            · exact .stored q f addr n hpc hc (by omega)
        | read n =>
            dsimp only
            split
            · rename_i hg
              exact .empty q f n hpc hc hg.1 hg.2
            · exact .copying q f n hpc hc
      · rename_i f
        cases h
        simp only [St.check]
        cases hc : f.call with
        | write addr n =>
            dsimp only
            split
            · rename_i hg
              exact .fail q f hpc (hg.symm.imp id fun h => ⟨h, addr, n, hc⟩)
            · rename_i hg
              exact .stuck q f addr n hpc hc (by simpa using fun h => hg (Or.inl h))
        | read n =>
            dsimp only
            split
            · exact .fail q f hpc (Or.inl (by assumption))
            · exact .wait q f n hpc hc
      · obtain ⟨hg, he⟩ := Option.ite_none_right_eq_some.mp h
        cases he
        exact .wakeFull q _ hpc hg
      · obtain ⟨hg, he⟩ := Option.ite_none_right_eq_some.mp h
        cases he
        exact .lockTable q _ hpc hg
      · cases h
        exact .unlock q _ hpc
      · cases h
        exact .mark q _ hpc
      · obtain ⟨hg, he⟩ := Option.ite_none_right_eq_some.mp h
        cases he
        exact .resume q _ hpc hg.1
      · rename_i f
        cases h
        simp only [St.copy]
        cases hc : f.call with
        | write addr n => exact .skip q f addr n hpc hc
        | read n =>
            dsimp only
            split
            · rename_i hg
              exact .pop q f n hpc hc hg.2
            · exact .copied q f n hpc hc
      · obtain ⟨hg, he⟩ := Option.ite_none_right_eq_some.mp h
        cases he
        exact .wake q _ hpc hg
      · cases h
        exact .ret q _ _ hpc
      · obtain ⟨hg, he⟩ := Option.ite_none_right_eq_some.mp h
        cases he
        exact .closing q _ hpc hg
      · rename_i w
        cases h
        cases w with
        | true => exact .closeWrite q hpc
        | false => exact .closeRead q hpc
      · obtain ⟨hg, he⟩ := Option.ite_none_right_eq_some.mp h
        cases he
        exact .closeWake q _ hpc hg
      · cases h
        exact .closeRet q _ hpc

end Model

end Xv6.Pipe
