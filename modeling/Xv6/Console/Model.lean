import Xv6.Lib.Ring
import Xv6.Lib.Runs

/-!
# Console — `consoleintr` and `consoleread`

The input buffer of the console, an interrupt handler that edits it and
any number of processes that read it. `cons.lock` is held from the start
of either function to its end, or to `sleep`, so a step is all that one
of them does under the lock: a batch of characters, or a read up to
where it sleeps or returns. Echoing and `procdump` are left out, and so
is the inode lock `consoleread` gives up meanwhile.

`editor`, `taken`, `calls` and `reads` are bookkeeping that no step
reads: a reference line editor that sees the same characters, what reads
took out of the buffer, and what they returned.
-/

namespace Xv6.Console

open Lib

def INPUT_BUF : Nat := 128

instance : NeZero INPUT_BUF := ⟨by decide⟩

/-- `C(x)`: Control-x. -/
def ctrl (x : Char) : UInt8 := x.toUInt8 - '@'.toUInt8

def newline : UInt8 := '\n'.toUInt8
def cr : UInt8 := '\r'.toUInt8

/-- `'\x7f'`. -/
def del : UInt8 := 0x7f

/-! ## The buffer -/

/-- `input`. -/
structure Input where
  buf : Fin INPUT_BUF → UInt8
  r : BitVec 32
  w : BitVec 32
  e : BitVec 32

namespace Input

/-- `input.buf[x % INPUT_BUF]`. -/
def get (i : Input) (x : BitVec 32) : UInt8 := i.buf (Fin.ofNat INPUT_BUF x.toNat)

/-- The loop of `C('U')`; `n` bounds its rounds. -/
def killLine : (n : Nat) → Input → Input
  | 0, i => i
  | n + 1, i =>
      if i.e ≠ i.w ∧ i.get (i.e - 1) ≠ newline then killLine n { i with e := i.e - 1 } else i

/-- `input.buf[input.e++ % INPUT_BUF] = c`. -/
def put (i : Input) (c : UInt8) : Input :=
  { i with buf := Function.update i.buf (Fin.ofNat INPUT_BUF i.e.toNat) c, e := i.e + 1 }

/-- The `default` case of `consoleintr`, and whether it calls `wakeup`. -/
def accept (i : Input) (c : UInt8) : Input × Bool :=
  if c ≠ 0 ∧ (i.e - i.r).toNat < INPUT_BUF then
    let c := if c = cr then newline else c
    let i := i.put c
    if c = newline ∨ c = ctrl 'D' ∨ i.e = i.r + BitVec.ofNat 32 INPUT_BUF then
      ({ i with w := i.e }, true)
    else (i, false)
  else (i, false)

/-- One character in `consoleintr`. -/
def intr (i : Input) (c : UInt8) : Input × Bool :=
  if c = ctrl 'P' then (i, false)
  else if c = ctrl 'U' then (i.killLine (i.e - i.w).toNat, false)
  else if c = ctrl 'H' ∨ c = del then
    (if i.e ≠ i.w then { i with e := i.e - 1 } else i, false)
  else i.accept c

end Input

/-- `consoleintr`: a batch of characters. -/
def consoleintr : List UInt8 → Input → Input × Bool
  | [], i => (i, false)
  | c :: cs, i =>
      let (i, wake) := i.intr c
      let (i, wake') := consoleintr cs i
      (i, wake || wake')

/-! ## Reading -/

/-- How the loop of `consoleread` stops, with what is left of `n` and the
bytes stored so far. -/
inductive Stop
  | ret (n : Nat) (dst : List UInt8)
  | sleep (n : Nat) (dst : List UInt8)
  | killed

/-- The loop of `consoleread`; `ts` are the characters taken out of the
buffer. -/
def readLoop (killed : Bool) (target : Nat) :
    (n : Nat) → Input → (dst ts : List UInt8) → Input × List UInt8 × Stop
  | 0, i, dst, ts => (i, ts, .ret 0 dst)
  | n + 1, i, dst, ts =>
      if i.r = i.w then (i, ts, if killed then .killed else .sleep (n + 1) dst)
      else
        let c := i.get i.r
        let i := { i with r := i.r + 1 }
        if c = ctrl 'D' then
          -- saved for next time if there is something to return
          if n + 1 < target then ({ i with r := i.r - 1 }, ts, .ret (n + 1) dst)
          else (i, ts ++ [c], .ret (n + 1) dst)
        else if c = newline then (i, ts ++ [c], .ret n (dst ++ [c]))
        else readLoop killed target n i (dst ++ [c]) (ts ++ [c])

/-- A call of `consoleread` in progress. -/
structure Frame where
  id : Nat
  target : Nat
  n : Nat
  dst : List UInt8

/-- A call that returned: its number, the value and the bytes. -/
structure Done where
  id : Nat
  value : Int
  dst : List UInt8

/-! ## The reference -/

/-- A line editor: what it has committed, and the line being edited. -/
structure Editor where
  committed : List UInt8
  line : List UInt8

namespace Editor

/-- The line is passed on. -/
def commit (d : Editor) : Editor := ⟨d.committed ++ d.line, []⟩

/-- There is room for another character, `k` having been taken. -/
def Room (d : Editor) (k : Nat) : Prop := d.committed.length + d.line.length < k + INPUT_BUF

instance (d : Editor) (k : Nat) : Decidable (d.Room k) := inferInstanceAs (Decidable (_ < _))

/-- A character enters the line; newline, Control-D and a full buffer
pass it on. -/
def enter (d : Editor) (k : Nat) (c : UInt8) : Editor :=
  let d : Editor := ⟨d.committed, d.line ++ [c]⟩
  if c = newline ∨ c = ctrl 'D' ∨ ¬d.Room k then d.commit else d

/-- **One character typed**, `k` having been taken. -/
def type (k : Nat) (d : Editor) (c : UInt8) : Editor :=
  if c = 0 ∨ c = ctrl 'P' then d
  else if c = ctrl 'U' then ⟨d.committed, []⟩
  else if c = ctrl 'H' ∨ c = del then ⟨d.committed, d.line.dropLast⟩
  else if d.Room k then d.enter k (if c = cr then newline else c)
  else d

end Editor

/-! ## The system -/

structure St (P : Type) where
  input : Input
  frame : P → Option Frame
  asleep : P → Bool
  killed : P → Bool
  editor : Editor
  taken : List (Nat × UInt8)
  calls : Nat
  reads : List Done

/-- What can happen. -/
inductive Act (P : Type)
  | intr (cs : List UInt8)
  | read (p : P) (n : Int)
  | go (p : P)               -- a process in `consoleread` runs again
  | kill (p : P)

section System

variable {P : Type} [DecidableEq P]

def St.init : St P where
  input := ⟨fun _ => 0, 0, 0, 0⟩
  frame := fun _ => none
  asleep := fun _ => false
  killed := fun _ => false
  editor := ⟨[], []⟩
  taken := []
  calls := 0
  reads := []

/-- Process `p` runs the loop of `consoleread` until it sleeps or
returns. -/
def St.run (s : St P) (p : P) (f : Frame) : St P :=
  let (i, ts, stop) := readLoop (s.killed p) f.target f.n s.input f.dst []
  let s := { s with input := i, taken := s.taken ++ ts.map fun c => (f.id, c) }
  match stop with
  | .ret n dst => { s with
      frame := Function.update s.frame p none
      reads := s.reads ++ [⟨f.id, (f.target : Int) - n, dst⟩] }
  | .sleep n dst => { s with
      frame := Function.update s.frame p (some { f with n := n, dst := dst })
      asleep := Function.update s.asleep p true }
  | .killed => { s with frame := Function.update s.frame p none }

/-- One step; `none` where it is not possible. -/
def step (s : St P) : Act P → Option (St P)
  | .intr cs =>
      let (i, wake) := consoleintr cs s.input
      some { s with
        input := i
        asleep := fun p => s.asleep p && !wake
        editor := cs.foldl (Editor.type s.taken.length) s.editor }
  | .read p n =>
      match s.frame p with
      | some _ => none
      | none => some ({ s with calls := s.calls + 1 }.run p ⟨s.calls, n.toNat, n.toNat, []⟩)
  | .go p =>
      match s.frame p with
      | none => none
      | some f => if s.asleep p then none else some (s.run p f)
  | .kill p => some { s with
      killed := Function.update s.killed p true
      asleep := Function.update s.asleep p false }

end System

end Xv6.Console
