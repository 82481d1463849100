import Xv6.Sh.Parser
import Xv6.Params
import Xv6.Lib.Runs

/-!
# Sh — processes that run a command

`runcmd` as the processes of a machine. Each process has a descriptor table
of its own, which `fork` copies, and a place in `runcmd`; a step of a process
is one system call of it. A call that fails has no step, so the runs are
those in which none fails. A pointer to a command is the way to it from the
root of the tree, the last turn first.
-/

namespace Xv6.Sh

open Lib

variable {α : Type}

/-! ## Pointers to commands -/

/-- The fields of a `struct cmd` that point to another one. -/
inductive Sub
  | cmd
  | left
  | right
  deriving DecidableEq

abbrev Ptr := List Sub

def Cmd.child : Cmd α → Sub → Option (Cmd α)
  | .redir cmd _ _ _, .cmd => some cmd
  | .pipe left _, .left => some left
  | .pipe _ right, .right => some right
  | .list left _, .left => some left
  | .list _ right, .right => some right
  | .back cmd, .cmd => some cmd
  | _, _ => none

def Cmd.at (root : Cmd α) : Ptr → Option (Cmd α)
  | [] => some root
  | d :: a => (root.at a).bind fun cmd => cmd.child d

/-! ## Descriptor tables -/

/-- What a descriptor refers to: a file that was open before, one that
`runcmd` opened, or an end of a pipe. -/
inductive File (α : Type)
  | given (n : Nat)
  | file (name : α) (mode : Nat)
  | pipe (n : Nat) (writable : Bool)
  deriving DecidableEq

abbrev Table (α : Type) := Nat → Option (File α)

/-- `fdalloc`: the lowest free descriptor. -/
def fdalloc (t : Table α) (f : File α) : Option (Nat × Table α) :=
  (findFrom (fun fd => (t fd).isNone) NOFILE 0).map fun fd => (fd, upd t fd (some f))

def close (t : Table α) (fd : Nat) : Option (Table α) :=
  (t fd).map fun _ => upd t fd none

def dup (t : Table α) (fd : Nat) : Option (Table α) :=
  (t fd).bind fun f => (fdalloc t f).map Prod.snd

def openFile (t : Table α) (name : α) (mode : Nat) : Option (Table α) :=
  (fdalloc t (.file name mode)).map Prod.snd

/-- `pipe(p)` for the pipe `n`: `p[0]`, `p[1]` and the table. -/
def pipe (t : Table α) (n : Nat) : Option (Nat × Nat × Table α) :=
  (fdalloc t (.pipe n false)).bind fun r =>
    (fdalloc r.2 (.pipe n true)).map fun w => (r.1, w.1, w.2)

/-! ## Places -/

/-- The calls of a child of a pipe: `close(1)`, `dup(p[1])`, `close(p[0])`,
`close(p[1])` on the left, and the same with `close(0)`, `dup(p[0])` on the
right. -/
inductive Call
  | close
  | dup
  | close0
  | close1
  deriving DecidableEq

/-- The descriptor a child of a pipe gives up. -/
def Sub.fd : Sub → Nat
  | .left => 1
  | _ => 0

/-- The end of the pipe it takes instead. -/
def Sub.writes : Sub → Bool
  | .left => true
  | _ => false

/-- Where a process is in `runcmd(a)`, before the call named. -/
inductive Pc
  | run (a : Ptr)
  /-- `REDIR`: before `open`. -/
  | opening (a : Ptr)
  /-- `LIST`: in `wait`. -/
  | listWait (a : Ptr)
  /-- `PIPE`: before the first and the second `fork1`. -/
  | forkLeft (a : Ptr) (p0 p1 : Nat)
  | forkRight (a : Ptr) (p0 p1 : Nat)
  /-- `PIPE`: a child, on its side. -/
  | child (d : Sub) (c : Call) (a : Ptr) (p0 p1 : Nat)
  /-- `PIPE`: the parent, before `close(p[0])` and `close(p[1])`. -/
  | parent0 (a : Ptr) (p0 p1 : Nat)
  | parent1 (a : Ptr) (p0 p1 : Nat)
  /-- `PIPE`: in the first and the second `wait`. -/
  | pipeWait (a : Ptr)
  | pipeWait2 (a : Ptr)
  /-- `EXEC`: the program runs. -/
  | program (a : Ptr)
  /-- Before `exit`. -/
  | exiting (a : Ptr)
  | zombie
  deriving DecidableEq

structure Proc (α : Type) where
  parent : Nat
  pc : Pc
  ofile : Table α

structure St (α : Type) where
  procs : Nat → Option (Proc α)
  nextpid : Nat
  /-- The number of pipes made so far. -/
  pipes : Nat

/-- `initproc`, to which `exit` gives the children. -/
def initpid : Nat := 1

namespace St

variable (s : St α)

def set (pid : Nat) (p : Proc α) : St α :=
  { s with procs := upd s.procs pid (some p) }

/-- `fork`: the child, at the place given, has a copy of the table. -/
def fork (pid : Nat) (p : Proc α) (pc : Pc) : St α :=
  { s with
    procs := upd s.procs s.nextpid (some ⟨pid, pc, p.ofile⟩)
    nextpid := s.nextpid + 1 }

/-- `exit`: the files are closed and the children given to `initproc`. -/
def exit (pid : Nat) (p : Proc α) : St α :=
  { s with
    procs := upd (fun q => (s.procs q).map fun c =>
        if c.parent = pid then { c with parent := initpid } else c)
      pid (some ⟨p.parent, .zombie, fun _ => none⟩) }

end St

/-! ## Steps -/

/-- A child of a pipe makes its next call. -/
def Call.step (d : Sub) (a : Ptr) (p0 p1 : Nat) (t : Table α) : Call → Option (Pc × Table α)
  | .close => (Sh.close t d.fd).map fun t => (.child d .dup a p0 p1, t)
  | .dup => (Sh.dup t (if d.writes then p1 else p0)).map fun t => (.child d .close0 a p0 p1, t)
  | .close0 => (Sh.close t p0).map fun t => (.child d .close1 a p0 p1, t)
  | .close1 => (Sh.close t p1).map fun t => (.run (d :: a), t)

/-- The switch of `runcmd`. -/
def runNode (s : St α) (pid : Nat) (p : Proc α) (a : Ptr) : Cmd α → Option (St α)
  | .exec argv =>
      some (s.set pid { p with pc := if argv.isEmpty then .exiting a else .program a })
  | .redir _ _ _ fd =>
      (close p.ofile fd).map fun t => s.set pid { p with pc := .opening a, ofile := t }
  | .list _ _ =>
      some ((s.fork pid p (.run (.left :: a))).set pid { p with pc := .listWait a })
  | .pipe _ _ =>
      (pipe p.ofile s.pipes).map fun r =>
        { s with pipes := s.pipes + 1 }.set pid
          { p with pc := .forkLeft a r.1 r.2.1, ofile := r.2.2 }
  | .back _ =>
      some ((s.fork pid p (.run (.cmd :: a))).set pid { p with pc := .exiting a })

/-- What a process does next, where it does not wait. -/
def Proc.step (root : Cmd α) (s : St α) (pid : Nat) (p : Proc α) : Option (St α) :=
  match p.pc with
  | .run a => (root.at a).bind (runNode s pid p a)
  | .opening a =>
      match root.at a with
      | some (.redir _ file mode _) =>
          (openFile p.ofile file mode).map fun t =>
            s.set pid { p with pc := .run (.cmd :: a), ofile := t }
      | _ => none
  | .forkLeft a p0 p1 =>
      some ((s.fork pid p (.child .left .close a p0 p1)).set pid
        { p with pc := .forkRight a p0 p1 })
  | .forkRight a p0 p1 =>
      some ((s.fork pid p (.child .right .close a p0 p1)).set pid
        { p with pc := .parent0 a p0 p1 })
  | .child d c a p0 p1 =>
      (c.step d a p0 p1 p.ofile).map fun r => s.set pid { p with pc := r.1, ofile := r.2 }
  | .parent0 a p0 p1 =>
      (close p.ofile p0).map fun t => s.set pid { p with pc := .parent1 a p0 p1, ofile := t }
  | .parent1 a _ p1 =>
      (close p.ofile p1).map fun t => s.set pid { p with pc := .pipeWait a, ofile := t }
  | .program _ => some (s.exit pid p)
  | .exiting _ => some (s.exit pid p)
  | .listWait _ => none
  | .pipeWait _ => none
  | .pipeWait2 _ => none
  | .zombie => none

/-- Where `wait` returns to. -/
def Pc.waited : Pc → Option Pc
  | .listWait a => some (.run (.right :: a))
  | .pipeWait a => some (.pipeWait2 a)
  | .pipeWait2 a => some (.exiting a)
  | _ => none

inductive Act
  /-- The process makes its next call; a program ends. -/
  | step (pid : Nat)
  /-- `wait` of the process finds this child. -/
  | wait (pid child : Nat)

def step (root : Cmd α) (s : St α) : Act → Option (St α)
  | .step pid => (s.procs pid).bind fun p => p.step root s pid
  | .wait pid child =>
      (s.procs pid).bind fun p => (p.pc.waited).bind fun pc =>
        (s.procs child).bind fun c =>
          if c.pc = .zombie ∧ c.parent = pid then
            some ({ s with procs := upd s.procs child none }.set pid { p with pc := pc })
          else none

/-- One process, with the descriptors 0, 1 and 2 open, about to run the command. -/
def start (files : Nat → Nat) : St α where
  procs := upd (fun _ => none) 2
    (some ⟨initpid, .run [], fun fd => if fd < 3 then some (.given (files fd)) else none⟩)
  nextpid := 3
  pipes := 0

end Xv6.Sh
