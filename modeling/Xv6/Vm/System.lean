import Xv6.Vm.Model
import Xv6.Lib.Runs

/-!
# Vm — the owners of physical pages

The state of everything that holds a physical page: the free list, the
kernel's page directory, the stacks of the other CPUs, the processes and
the pipes. An action is one call of the kernel, by any process; `fork`
and `exec`, which other processes may interleave, are several actions.

`kalloc` takes the head of the free list, but it may fail at any call:
an action comes with the list of the answers that it is to refuse.

A panic halts the system with memory as it is then.
-/

namespace Xv6.Vm

open Lib

/-- The free list, and which of the next calls of `kalloc` fail. -/
structure Kmem where
  freelist : List Page
  fails : List Bool

/-- The layout of physical memory and of the kernel's mappings. -/
structure Config where
  /-- The first page after the kernel. -/
  first : Page
  /-- The page at 4 MB, where `kinit1` stops and `kinit2` starts. -/
  split : Page
  /-- The page at `PHYSTOP`. -/
  last : Page
  kmap : List Kmap
  /-- The code of the first process. -/
  initcode : List UInt8
  /-- Page 0 holds no page of the allocator. -/
  first_pos : 0 < first
  first_le : first ≤ split
  split_le : split ≤ last
  /-- The kernel's mappings are above the user's. -/
  kmap_high : ∀ k ∈ kmap, KERNPAGE ≤ k.virt

/-- The layout of `memlayout.h`, for a kernel whose data starts at page `data`
and ends before page `first`. -/
def memlayout (initcode : List UInt8) (data first : Page) (hdata : 256 < data) (hfirst : data ≤ first)
    (hsplit : first ≤ 1024) : Config where
  first := first
  split := 1024
  last := PHYSTOP
  kmap := kmap data
  initcode := initcode
  first_pos := Nat.lt_of_lt_of_le (Nat.lt_of_le_of_lt (Nat.zero_le _) hdata) hfirst
  first_le := hsplit
  split_le := by decide
  kmap_high := by
    simp only [kmap, List.forall_mem_cons, List.not_mem_nil, false_implies, implies_true, and_true]
    exact ⟨le_refl _, Nat.le_add_right _ _, Nat.le_add_right _ _, by decide⟩

/-- `kalloc` and `kfree` on the free list. -/
def kmem (cfg : Config) : Allocator Kmem where
  kalloc _ k :=
    match k.fails, k.freelist with
    | true :: fs, xs => (none, ⟨xs, fs⟩)
    | fs, [] => (none, ⟨[], fs.tail⟩)
    | fs, x :: xs => (some x, ⟨xs, fs.tail⟩)
  kfree x k := { k with freelist := x :: k.freelist }
  valid x := decide (cfg.first ≤ x) && decide (x < cfg.last)

/-! ## Processes -/

inductive ProcState
  | unused
  | embryo
  /-- Any of `RUNNABLE`, `RUNNING` and `SLEEPING`. -/
  | alive
  | zombie
  deriving DecidableEq

/-- What a process is in the middle of. -/
inductive Task
  | none
  /-- In `userinit`, or in `fork` with a new process. -/
  | userinit
  | fork (np : Nat)
  /-- In `exec`, with a new page directory and size; loading segments. -/
  | exec (pgdir : Page) (sz : Nat)
  /-- In `exec`, with the stack in place. -/
  | stack (pgdir : Page) (sz : Nat)
  /-- In `exec`, about to free the old page directory. -/
  | old (pgdir : Page)

structure Proc where
  state : ProcState
  kstack : Option Page
  pgdir : Option Page
  sz : Nat
  task : Task

structure State where
  heap : Heap Kmem
  /-- Whether `kinit1` and `kinit2` have run. -/
  low : Bool
  high : Bool
  kpgdir : Option Page
  cpuStack : Nat → Option Page
  proc : Nat → Proc
  /-- The page of the `n`-th pipe while it is open. -/
  pipe : Nat → Option Page
  /-- Why the system halted. -/
  halted : Option Stop

/-- The machine before `kinit1`. -/
def init : State where
  heap := ⟨fun _ => filled 0, ⟨[], []⟩, []⟩
  low := false
  high := false
  kpgdir := none
  cpuStack _ := none
  proc _ := ⟨.unused, none, none, 0, .none⟩
  pipe _ := none
  halted := none

namespace State

def setProc (s : State) (p : Nat) (q : Proc) : State := { s with proc := upd s.proc p q }

def setTask (s : State) (p : Nat) (t : Task) : State :=
  s.setProc p { s.proc p with task := t }

/-- Run a program of `Vm.Model`, and then go on with its result. -/
def run {α : Type} (s : State) (m : KernM Kmem α) (k : α → State → State) : State :=
  match m s.heap with
  | .ok (a, h) => k a { s with heap := h }
  | .error (e, h) => { s with heap := h, halted := some e }

end State

/-! ## The calls -/

/-- `freerange`: free `n` pages from `x`. -/
def freerange (cfg : Config) : Nat → Page → KernM Kmem Unit
  | 0, _ => return ()
  | n + 1, x => do
      kfree (kmem cfg) x
      freerange cfg n (x + 1)

/-- `allocproc` in the slot `np`, which was free; whether it has a stack. -/
def allocproc (cfg : Config) (s : State) (np : Nat) (k : State → State) : State :=
  s.run (kalloc (kmem cfg) .page) fun r s =>
    match r with
    | none => s
    | some x => k (s.setProc np { s.proc np with state := .embryo, kstack := some x })

/-- The memory of the first process. -/
def userinitMem (cfg : Config) : KernM Kmem Page := do
  match ← setupkvm (kmem cfg) cfg.kmap with
  | none => panic "userinit: out of memory?"
  | some d =>
      inituvm (kmem cfg) d cfg.initcode
      return d

/-- The rest of `userinit`. -/
def userinit (cfg : Config) (s : State) (p : Nat) : State :=
  s.run (userinitMem cfg) fun d s => s.setProc p
    { s.proc p with state := .alive, pgdir := some d, sz := PGSIZE, task := .none }

/-- The memory of a new process with the kernel stack `x`, which is freed if
there is none. -/
def forkMem (cfg : Config) (d : Page) (sz : Nat) (x : Page) : KernM Kmem (Option Page) := do
  match ← copyuvm (kmem cfg) cfg.kmap d sz with
  | none =>
      kfree (kmem cfg) x
      return none
  | some d' => return some d'

/-- The rest of `fork`, by `p`, into the slot `np`. -/
def forkCopy (cfg : Config) (s : State) (p np : Nat) (d x : Page) : State :=
  s.run (forkMem cfg d (s.proc p).sz x) fun r s =>
    match r with
    | none =>
        (s.setProc np { s.proc np with
          state := .unused, kstack := none, pgdir := none, task := .none }).setTask p .none
    | some d' =>
        (s.setProc np { s.proc np with
          state := .alive, pgdir := some d', sz := (s.proc p).sz, task := .none }).setTask p .none

/-- `growproc`. -/
def growproc (cfg : Config) (s : State) (p : Nat) (d : Page) (n : Int) : State :=
  let sz := (s.proc p).sz
  let newsz := ((sz + n) % 2 ^ 32).toNat
  if n = 0 then s
  else
    s.run (if n > 0 then allocuvm (kmem cfg) d sz newsz else deallocuvm (kmem cfg) d sz newsz)
      fun r s => if r = 0 then s else s.setProc p { s.proc p with sz := r }

/-- One segment of `exec`, which grows the new image to `newsz`. -/
def execSegment (cfg : Config) (s : State) (p : Nat) (d : Page) (sz newsz : Nat) : State :=
  s.run (do
      let r ← allocuvm (kmem cfg) d sz newsz
      if r = 0 then freevm (kmem cfg) d
      return r)
    fun r s => s.setTask p (if r = 0 then .none else .exec d r)

/-- The two pages of the stack of `exec`. -/
def execStack (cfg : Config) (s : State) (p : Nat) (d : Page) (sz : Nat) : State :=
  s.run (do
      let sz := pgup sz * PGSIZE
      let r ← allocuvm (kmem cfg) d sz (sz + 2 * PGSIZE)
      if r = 0 then freevm (kmem cfg) d
      else clearpteu (kmem cfg) d ((r - 2 * PGSIZE) / PGSIZE)
      return r)
    fun r s => s.setTask p (if r = 0 then .none else .stack d r)

/-- `wait`, which found the zombie `c`. -/
def reap (cfg : Config) (s : State) (c : Nat) (d x : Page) : State :=
  s.run (do
      kfree (kmem cfg) x
      freevm (kmem cfg) d)
    fun _ s => s.setProc c { s.proc c with state := .unused, kstack := none }

inductive Act
  | kinit1
  | kvmalloc
  /-- `startothers`, for one CPU. -/
  | startother (c : Nat)
  | kinit2
  | userAlloc (p : Nat)
  | userinit (p : Nat)
  | forkAlloc (p np : Nat)
  | forkCopy (p : Nat)
  | execSetup (p : Nat)
  | execSegment (p newsz : Nat)
  | execStack (p : Nat)
  /-- `exec` gives up, for any reason. -/
  | execBad (p : Nat)
  | execCommit (p : Nat)
  | execFree (p : Nat)
  | sbrk (p : Nat) (n : Int)
  | exit (p : Nat)
  | wait (p c : Nat)
  | pipealloc (n : Nat)
  /-- The last end of a pipe is closed. -/
  | pipeclose (n : Nat)

/-- A process may start a system call. -/
def Proc.ready (q : Proc) : Bool :=
  match q.state, q.task with
  | .alive, .none => true
  | _, _ => false

def act (cfg : Config) (s : State) : Act → Option State
  | .kinit1 =>
      if s.low then none
      else some (s.run (freerange cfg (cfg.split - cfg.first) cfg.first) fun _ s =>
        { s with low := true })
  | .kvmalloc =>
      if s.low ∧ s.kpgdir = none then
        some (s.run (setupkvm (kmem cfg) cfg.kmap) fun r s => { s with kpgdir := r })
      else none
  | .startother c =>
      if s.low ∧ s.cpuStack c = none then
        some (s.run (kalloc (kmem cfg) .page) fun r s => { s with cpuStack := upd s.cpuStack c r })
      else none
  | .kinit2 =>
      if s.low = true ∧ s.high = false then
        some (s.run (freerange cfg (cfg.last - cfg.split) cfg.split) fun _ s =>
          { s with high := true })
      else none
  | .userAlloc p =>
      if s.high ∧ (s.proc p).state = .unused then
        some (allocproc cfg s p fun s => s.setTask p .userinit)
      else none
  | .userinit p =>
      match (s.proc p).state, (s.proc p).task with
      | .embryo, .userinit => some (userinit cfg s p)
      | _, _ => none
  | .forkAlloc p np =>
      if (s.proc p).ready ∧ (s.proc np).state = .unused then
        some (allocproc cfg s np fun s => s.setTask p (.fork np))
      else none
  | .forkCopy p =>
      match (s.proc p).task, (s.proc p).pgdir with
      | .fork np, some d => (s.proc np).kstack.map fun x => forkCopy cfg s p np d x
      | _, _ => none
  | .execSetup p =>
      if (s.proc p).ready then
        some (s.run (setupkvm (kmem cfg) cfg.kmap) fun r s =>
          match r with
          | none => s
          | some d => s.setTask p (.exec d 0))
      else none
  | .execSegment p newsz =>
      match (s.proc p).task with
      | .exec d sz => some (execSegment cfg s p d sz newsz)
      | _ => none
  | .execStack p =>
      match (s.proc p).task with
      | .exec d sz => some (execStack cfg s p d sz)
      | _ => none
  | .execBad p =>
      match (s.proc p).task with
      | .exec d _ => some (s.run (freevm (kmem cfg) d) fun _ s => s.setTask p .none)
      | .stack d _ => some (s.run (freevm (kmem cfg) d) fun _ s => s.setTask p .none)
      | _ => none
  | .execCommit p =>
      match (s.proc p).task, (s.proc p).pgdir with
      | .stack d sz, some old =>
          some (s.setProc p { s.proc p with pgdir := some d, sz := sz, task := .old old })
      | _, _ => none
  | .execFree p =>
      match (s.proc p).task with
      | .old d => some (s.run (freevm (kmem cfg) d) fun _ s => s.setTask p .none)
      | _ => none
  | .sbrk p n =>
      if (s.proc p).ready then (s.proc p).pgdir.map fun d => growproc cfg s p d n else none
  | .exit p =>
      if (s.proc p).ready then some (s.setProc p { s.proc p with state := .zombie }) else none
  | .wait p c =>
      if (s.proc p).ready ∧ (s.proc c).state = .zombie then
        match (s.proc c).pgdir, (s.proc c).kstack with
        | some d, some x => some (reap cfg s c d x)
        | _, _ => none
      else none
  | .pipealloc n =>
      if s.low ∧ s.pipe n = none then
        some (s.run (kalloc (kmem cfg) .page) fun r s => { s with pipe := upd s.pipe n r })
      else none
  | .pipeclose n =>
      (s.pipe n).map fun x => s.run (kfree (kmem cfg) x) fun _ s =>
        { s with pipe := upd s.pipe n none }

/-- An action, with the calls of `kalloc` that fail in it. -/
def step (cfg : Config) (s : State) (a : Act × List Bool) : Option State :=
  if s.halted.isSome then none
  else act cfg { s with heap := { s.heap with kmem := ⟨s.heap.kmem.freelist, a.2⟩ } } a.1

/-! ## Roles -/

/-- Whoever holds a page by a pointer of their own. -/
inductive Ref
  | kpgdir
  | pgdir (p : Nat)
  /-- The directory that `exec` builds or frees. -/
  | exec (p : Nat)
  | kstack (p : Nat)
  | cpuStack (c : Nat)
  | pipe (n : Nat)
  deriving DecidableEq

def Ref.isDir : Ref → Bool
  | .kpgdir => true
  | .pgdir _ => true
  | .exec _ => true
  | _ => false

/-- The directory of `exec`. -/
def Task.dir : Task → Option Page
  | .exec d _ => some d
  | .stack d _ => some d
  | .old d => some d
  | _ => .none

/-- The page directory of a process. The pointer of a free slot means
nothing: `wait` leaves it as it was. -/
def Proc.dir (q : Proc) : Option Page :=
  match q.state with
  | .alive => q.pgdir
  | .zombie => q.pgdir
  | _ => none

def State.ref (s : State) : Ref → Option Page
  | .kpgdir => s.kpgdir
  | .pgdir p => (s.proc p).dir
  | .exec p => (s.proc p).task.dir
  | .kstack p => (s.proc p).kstack
  | .cpuStack c => s.cpuStack c
  | .pipe n => s.pipe n

/-- What a page can be used for. -/
inductive Role
  /-- The `n`-th page of the free list. -/
  | free (n : Nat)
  /-- A page directory, a kernel stack or a pipe. -/
  | ref (r : Ref)
  /-- The `i`-th page table of a directory. -/
  | table (r : Ref) (i : Nat)
  /-- Mapped at a page of the user part of a directory. -/
  | user (r : Ref) (i j : Nat)
  deriving DecidableEq

/-- `t` is the `i`-th page table of the directory of `r`. -/
def State.HasTable (s : State) (r : Ref) (i : Nat) (t : Page) : Prop :=
  ∃ d pde, r.isDir = true ∧ s.ref r = some d ∧ s.heap.content d = .dir pde ∧ pde i = some t

def State.Uses (s : State) (x : Page) : Role → Prop
  | .free n => s.heap.kmem.freelist[n]? = some x
  | .ref r => s.ref r = some x
  | .table r i => s.HasTable r i x
  | .user r i j => i < pdx KERNPAGE ∧
      ∃ t pte e, s.HasTable r i t ∧ s.heap.content t = .tab pte ∧ pte j = some e ∧ e.page = x

end Xv6.Vm
