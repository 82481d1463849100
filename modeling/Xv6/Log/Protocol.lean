import Xv6.Params
import Xv6.Lib.Runs

/-!
# Log — the transaction protocol

`begin_op`, `log_write`, `end_op` and `commit` as steps of a system of
any number of processes. A step is one critical section of `log.lock`,
one read outside the lock, or one piece of `commit()`, which runs
without the lock; between steps any other process may run.

`log_write` makes two steps, as in the code: its two checks read `log`
BEFORE the lock is taken, and only then comes the critical section with
the absorption loop.

Three fields are bookkeeping that the code does not have and that no
step reads: the operations begun so far, what each of them logged and
when (`logged`), and the block list each `commit()` committed
(`commits`). They are what "part of a commit" is stated with.
-/

namespace Xv6.Log

open Lib

/-- Where a process inside `commit()` stands. -/
inductive CommitPc
  | test                      -- about to test `log.lh.n > 0`
  | writeLog (tail : Nat)     -- in `write_log`'s loop
  | writeHead                 -- about to write the header: the real commit
  | install (tail : Nat)      -- in `install_trans`'s loop
  | clear                     -- about to set `log.lh.n = 0`
  | erase                     -- about to write the empty header
  | done                      -- back in `end_op`, about to clear `log.committing`
  deriving DecidableEq, Repr

/-- Where a process stands. -/
inductive Pc
  | idle                      -- outside every file-system call
  | sleeping                  -- in `begin_op`, asleep on `&log`
  | woken                     -- in `begin_op`, woken up, about to test again
  | inOp                      -- between `begin_op` and `end_op`
  | logging (b : Nat)         -- in `log_write`, past the checks, before the lock
  | commit (c : CommitPc)     -- in `end_op`, running `commit()`
  deriving DecidableEq, Repr

/-- The five situations the protocol tells apart. -/
inductive Phase
  | out                       -- not in an operation
  | op                        -- between `begin_op` and `end_op`
  | before                    -- in `commit()`, header not yet written
  | after                     -- in `commit()`, header written
  | cleared                   -- in `commit()`, `log.lh.n` is zero again
  deriving DecidableEq, Repr

def Pc.phase : Pc → Phase
  | .idle | .sleeping | .woken => .out
  | .inOp | .logging _ => .op
  | .commit .test | .commit (.writeLog _) | .commit .writeHead => .before
  | .commit (.install _) | .commit .clear => .after
  | .commit .erase | .commit .done => .cleared

/-- Between `begin_op` and `end_op`. -/
def Phase.active : Phase → Bool
  | .op => true
  | _ => false

def Phase.inCommit : Phase → Bool
  | .before | .after | .cleared => true
  | _ => false

/-- In `commit()` with the header written, or with nothing to write. -/
def Phase.pastHead : Phase → Bool
  | .after | .cleared => true
  | _ => false

/-- One `log_write`: which operation, which block, and how many commits
had happened before it. -/
structure Event where
  op : Nat
  block : Nat
  epoch : Nat
  deriving DecidableEq, Repr

/-- `struct log` without the constant fields, the program counters of
the processes, and the bookkeeping. -/
structure St (P : Type) where
  outstanding : Int
  committing : Bool
  lh : List Nat               -- `log.lh.block[0..n)`
  pc : P → Pc
  panicked : Option String
  nops : Nat                  -- operations begun so far
  op : P → Nat                -- the operation a process is in
  logged : List Event
  commits : List (List Nat)

/-- After `initlog`: the log is empty and no process is in a call. -/
def St.init (P : Type) : St P where
  outstanding := 0
  committing := false
  lh := []
  pc := fun _ => .idle
  panicked := none
  nops := 0
  op := fun _ => 0
  logged := []
  commits := []

/-- What the processes can do. -/
inductive Act (P : Type)
  | beginOp (p : P)           -- call `begin_op`
  | retry (p : P)             -- go round `begin_op`'s loop after a wakeup
  | logWrite (p : P) (b : Nat)  -- call `log_write`: the checks
  | absorb (p : P)            -- `log_write`'s critical section
  | endOp (p : P)             -- call `end_op`
  | commitStep (p : P)        -- the next piece of `commit()`

variable {P : Type} [DecidableEq P]

def St.setPc (s : St P) (p : P) (c : Pc) : St P := { s with pc := Function.update s.pc p c }

/-- `wakeup(&log)`. -/
def St.wakeup (s : St P) : St P :=
  { s with pc := fun p => if s.pc p = .sleeping then .woken else s.pc p }

/-- The phase of each process. -/
def St.ph (s : St P) : P → Phase := fun p => (s.pc p).phase

def St.panic (s : St P) (msg : String) : St P := { s with panicked := some msg }

/-- `log.outstanding += 1`: the process is in a new operation. -/
def St.letIn (s : St P) (p : P) : St P :=
  { s with
    outstanding := s.outstanding + 1
    pc := Function.update s.pc p .inOp
    nops := s.nops + 1
    op := Function.update s.op p s.nops }

/-- One round of `begin_op`'s loop. -/
def beginOp (s : St P) (p : P) : St P :=
  if s.committing then s.setPc p .sleeping
  else if s.lh.length + (s.outstanding + 1) * MAXOPBLOCKS > LOGSIZE then
    s.setPc p .sleeping       -- this op might exhaust log space; wait for commit
  else s.letIn p

/-- `log_write`'s checks, made without the lock. `size` is `log.size`. -/
def logWrite (size : Nat) (s : St P) (p : P) (b : Nat) : St P :=
  if s.lh.length ≥ LOGSIZE ∨ (s.lh.length : Int) ≥ (size : Int) - 1 then
    s.panic "too big a transaction"
  else if s.outstanding < 1 then s.panic "log_write outside of trans"
  else s.setPc p (.logging b)

/-- `log_write`'s critical section: absorb the block if it is already
in the header, else append it. -/
def absorb (s : St P) (p : P) (b : Nat) : St P :=
  { s.setPc p .inOp with
    lh := if b ∈ s.lh then s.lh else s.lh ++ [b]
    logged := ⟨s.op p, b, s.commits.length⟩ :: s.logged }

/-- `end_op`'s first critical section. -/
def endOp (s : St P) (p : P) : St P :=
  let s := { s with outstanding := s.outstanding - 1 }
  if s.committing then s.panic "log.committing"
  else if s.outstanding = 0 then { s.setPc p (.commit .test) with committing := true }
  else (s.setPc p .idle).wakeup     -- begin_op() may be waiting for log space

/-- One piece of `commit()`, and `end_op`'s second critical section. -/
def commitStep (s : St P) (p : P) : CommitPc → St P
  | .test =>
      if s.lh.length > 0 then s.setPc p (.commit (.writeLog 0))
      else { s.setPc p (.commit .done) with commits := s.commits ++ [[]] }
  | .writeLog tail =>
      if tail < s.lh.length then s.setPc p (.commit (.writeLog (tail + 1)))
      else s.setPc p (.commit .writeHead)
  | .writeHead => { s.setPc p (.commit (.install 0)) with commits := s.commits ++ [s.lh] }
  | .install tail =>
      if tail < s.lh.length then s.setPc p (.commit (.install (tail + 1)))
      else s.setPc p (.commit .clear)
  | .clear => { s.setPc p (.commit .erase) with lh := [] }
  | .erase => s.setPc p (.commit .done)
  | .done => ({ s.setPc p .idle with committing := false }).wakeup

/-- The system: which process may do what, and what it does. A panic
stops everything. Every process calls `log_write` and `end_op` only
between its own `begin_op` and `end_op`. -/
def step (size : Nat) (s : St P) (a : Act P) : Option (St P) :=
  if s.panicked.isSome then none
  else match a with
    | .beginOp p => if s.pc p = .idle then some (beginOp s p) else none
    | .retry p => if s.pc p = .woken then some (beginOp s p) else none
    | .logWrite p b => if s.pc p = .inOp then some (logWrite size s p b) else none
    | .absorb p =>
        match s.pc p with
        | .logging b => some (absorb s p b)
        | _ => none
    | .endOp p => if s.pc p = .inOp then some (endOp s p) else none
    | .commitStep p =>
        match s.pc p with
        | .commit c => some (commitStep s p c)
        | _ => none

/-- **What a step can be**: every enabled action is one of five
functions at a program counter that allows it. -/
theorem step_cases {size : Nat} {s s' : St P} {a : Act P} (h : step size s a = some s') :
    s.panicked = none ∧
      ((∃ p, (a = .beginOp p ∧ s.pc p = .idle ∨ a = .retry p ∧ s.pc p = .woken)
          ∧ s' = beginOp s p)
        ∨ (∃ p b, a = .logWrite p b ∧ s.pc p = .inOp ∧ s' = logWrite size s p b)
        ∨ (∃ p b, a = .absorb p ∧ s.pc p = .logging b ∧ s' = absorb s p b)
        ∨ (∃ p, a = .endOp p ∧ s.pc p = .inOp ∧ s' = endOp s p)
        ∨ (∃ p c, a = .commitStep p ∧ s.pc p = .commit c ∧ s' = commitStep s p c)) := by
  unfold step at h
  split at h
  · cases h
  · rename_i hp
    refine ⟨by simpa using hp, ?_⟩
    cases a with
    | beginOp p =>
        obtain ⟨hpc, he⟩ := Option.ite_none_right_eq_some.mp h
        exact Or.inl ⟨p, Or.inl ⟨rfl, hpc⟩, (Option.some.inj he).symm⟩
    | retry p =>
        obtain ⟨hpc, he⟩ := Option.ite_none_right_eq_some.mp h
        exact Or.inl ⟨p, Or.inr ⟨rfl, hpc⟩, (Option.some.inj he).symm⟩
    | logWrite p b =>
        obtain ⟨hpc, he⟩ := Option.ite_none_right_eq_some.mp h
        exact Or.inr (Or.inl ⟨p, b, rfl, hpc, (Option.some.inj he).symm⟩)
    | absorb p =>
        dsimp only at h
        split at h
        · rename_i b hpc
          exact Or.inr (Or.inr (Or.inl ⟨p, b, rfl, hpc, (Option.some.inj h).symm⟩))
        · cases h
    | endOp p =>
        obtain ⟨hpc, he⟩ := Option.ite_none_right_eq_some.mp h
        exact Or.inr (Or.inr (Or.inr (Or.inl ⟨p, rfl, hpc, (Option.some.inj he).symm⟩)))
    | commitStep p =>
        dsimp only at h
        split at h
        · rename_i c hpc
          exact Or.inr (Or.inr (Or.inr (Or.inr ⟨p, c, rfl, hpc, (Option.some.inj h).symm⟩)))
        · cases h

end Xv6.Log
