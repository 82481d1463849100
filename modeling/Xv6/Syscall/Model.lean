import Xv6.Params
import Xv6.Lib.Exec

/-!
# Syscall — arguments, and what the calls do with user memory

`syscall.c` fetches the arguments of a system call from the user stack
and checks the pointers among them; the calls then read and write user
memory through those pointers. A call is a program over the user memory
of the process, which also records every byte it touches.

`Kernel` has the answers of everything else the call consults: open
files, inodes, pipes, the console, directories. They are asked for by
number where the answer may change during the call, so other processes
may do anything in the meantime.
-/

namespace Xv6.Syscall

open Lib

abbrev Word := BitVec 32
abbrev Addr := Word

def KERNBASE : Addr := 0x80000000#32
def MAXARG : Nat := 32
def CONSOLE : Int := 1

/-- User memory, and the bytes touched. -/
structure Mem where
  byte : Addr → UInt8
  log : List Addr

/-- A call returns, or stops with `panic` (or in a loop that does not
end), with the memory as it is then. -/
abbrev User := StateT Mem (Except (String × Mem))

/-- What a run touches. -/
def touched {α : Type} (m : User α) (s : Mem) : List Addr :=
  match m s with
  | .ok (_, t) => t.log
  | .error e => e.2.log

def panic {α : Type} (msg : String) : User α := do
  throw (msg, ← get)

def load (a : Addr) : User UInt8 := do
  modify fun s => { s with log := a :: s.log }
  return (← get).byte a

def store (a : Addr) (v : UInt8) : User Unit :=
  modify fun s => ⟨upd s.byte a v, a :: s.log⟩

/-- The macro `min`. -/
def umin (a b : Word) : Word := if a < b then a else b

/-! ## Moving bytes -/

/-- `memmove` out of user memory. -/
def moveIn : Nat → Addr → User (List UInt8)
  | 0, _ => return []
  | n + 1, src => do
      let c ← load src
      return c :: (← moveIn n (src + 1))

/-- `memmove` into user memory. -/
def moveOut : List UInt8 → Addr → User Unit
  | [], _ => return ()
  | c :: cs, dst => do
      store dst c
      moveOut cs (dst + 1)

/-- The bytes of an `int`. -/
def bytesOf (w : Word) : List UInt8 :=
  [⟨w.extractLsb' 0 8⟩, ⟨w.extractLsb' 8 8⟩, ⟨w.extractLsb' 16 8⟩, ⟨w.extractLsb' 24 8⟩]

def wordOf (a b c d : UInt8) : Word := d.toBitVec ++ c.toBitVec ++ b.toBitVec ++ a.toBitVec

/-- `*(int*)a`. -/
def loadInt (a : Addr) : User Word := do
  return wordOf (← load a) (← load (a + 1)) (← load (a + 2)) (← load (a + 3))

/-- `while(!stop(*s)) s++`, for at most `n` bytes. -/
def scan (stop : UInt8 → Bool) : Nat → Addr → User (Option Addr)
  | 0, _ => return none
  | n + 1, s => do
      if stop (← load s) then return some s else scan stop n (s + 1)

/-- The same with no bound: past the last address it starts again. -/
def scanAll (stop : UInt8 → Bool) (s : Addr) : User Addr := do
  match ← scan stop (2 ^ 32) s with
  | some s => return s
  | none => panic "loop"

/-! ## The arguments -/

structure Proc where
  sz : Addr
  esp : Addr

namespace Proc

variable (p : Proc)

def fetchint (addr : Addr) : User (Option Word) := do
  if p.sz ≤ addr ∨ p.sz < addr + 4 then return none
  return some (← loadInt addr)

/-- The length of the string at `addr`. -/
def fetchstr (addr : Addr) : User (Option Nat) := do
  if p.sz ≤ addr then return none
  match ← scan (· == 0) (p.sz - addr).toNat addr with
  | some s => return some (s - addr).toNat
  | none => return none

def argint (n : Word) : User (Option Word) := p.fetchint (p.esp + 4 + 4 * n)

def argptr (n : Word) (size : Word) : User (Option Addr) := do
  match ← p.argint n with
  | none => return none
  | some i => if p.sz ≤ i ∨ p.sz < i + size then return none else return some i

def argstr (n : Word) : User (Option Addr) := do
  match ← p.argint n with
  | none => return none
  | some addr =>
      match ← p.fetchstr addr with
      | none => return none
      | some _ => return some addr

end Proc

/-! ## The rest of the kernel -/

inductive FileType
  | FD_NONE
  | FD_PIPE
  | FD_INODE
  deriving DecidableEq

structure File where
  type : FileType
  readable : Bool
  writable : Bool

inductive InodeType
  | T_DIR
  | T_FILE
  | T_DEV
  deriving DecidableEq

structure Inode where
  dev : Word
  inum : Word
  type : InodeType
  major : Int
  nlink : BitVec 16
  size : Word

/-- The number the C code has for the type. -/
def InodeType.code : InodeType → BitVec 16
  | .T_DIR => 1
  | .T_FILE => 2
  | .T_DEV => 3

structure Kernel where
  ofile : Nat → Option File
  /-- `f->ip` and `f->off`, the i-th time the call has the inode locked. -/
  ip : Nat → Inode
  off : Nat → Word
  /-- What `readi` reads of the inode. -/
  content : Nat → UInt8
  /-- Whether `bmap` can allocate the block that byte of the file is in. -/
  bmap : Nat → Bool
  /-- What the console has; the process is killed when it waits for more. -/
  console : List UInt8
  /-- The process is killed before the pipe has something, or else what it has. -/
  piped : Option (List UInt8)
  /-- Whether the pipe takes the i-th byte. -/
  takes : Nat → Bool
  /-- In the w-th walk of a path, at the i-th element. -/
  isDir : Nat → Nat → Bool
  dirlookup : Nat → Nat → List UInt8 → Bool
  /-- Whether the inode to link to is a directory. -/
  oldIsDir : Bool
  /-- The descriptors of a new pipe. -/
  newPipe : Option (Word × Word)
  time : List UInt8
  /-- Whether `exec` could load the program. -/
  loads : Bool
  /-- How much `copyout` can copy of the i-th argument, and of what comes after them. -/
  copyout : Nat → Nat
  /-- What a call returns that is done with user memory. -/
  result : Int

variable (k : Kernel) (p : Proc)

/-- `argfd`. -/
def argfd (n : Word) : User (Option File) := do
  match ← p.argint n with
  | none => return none
  | some fd =>
      if fd.toInt < 0 ∨ (NOFILE : Int) ≤ fd.toInt then return none
      else return k.ofile fd.toNat

/-! ## Reading -/

/-- The loop of `consoleread`; `n` more bytes are wanted. -/
def consoleLoop (target : Int) : List UInt8 → Nat → Addr → User Int
  | _, 0, _ => return target
  | [], _ + 1, _ => return -1
  | c :: cs, n + 1, dst => do
      if c = 4 then return target - (n + 1)     -- C('D')
      store dst c
      if c = 10 then return target - n
      consoleLoop target cs n (dst + 1)

def consoleread (dst : Addr) (n : Word) : User Int :=
  if n.toInt ≤ 0 then return 0 else consoleLoop n.toInt k.console n.toInt.toNat dst

/-- The loop of `piperead`. -/
def pipereadLoop : List UInt8 → Nat → Nat → Addr → User Int
  | _, i, 0, _ => return i
  | [], i, _ + 1, _ => return i
  | c :: cs, i, n + 1, addr => do
      store addr c
      pipereadLoop cs (i + 1) n (addr + 1)

def piperead (addr : Addr) (n : Word) : User Int :=
  match k.piped with
  | none => return -1
  | some cs => pipereadLoop cs 0 n.toInt.toNat addr

/-- The loop of `readi`. -/
def readiLoop (n : Word) : Nat → (tot off : Word) → Addr → User Unit
  | 0, _, _, _ => return ()
  | fuel + 1, tot, off, dst => do
      if tot < n then
        let m := umin (n - tot) (BitVec.ofNat 32 BSIZE - off % BitVec.ofNat 32 BSIZE)
        moveOut ((List.range m.toNat).map fun j => k.content (off.toNat + j)) dst
        readiLoop n fuel (tot + m) (off + m) (dst + m)

def readi (ip : Inode) (dst : Addr) (off n : Word) : User Int := do
  if ip.type = .T_DEV then
    if ip.major < 0 ∨ (NDEV : Int) ≤ ip.major ∨ ip.major ≠ CONSOLE then return -1
    consoleread k dst n
  else
    if ip.size < off ∨ off + n < off then return -1
    let n := if ip.size < off + n then ip.size - off else n
    readiLoop k n n.toNat 0 off dst
    return n.toInt

def fileread (f : File) (addr : Addr) (n : Word) : User Int :=
  if f.readable = false then return -1
  else match f.type with
    | .FD_PIPE => piperead k addr n
    | .FD_INODE => readi k (k.ip 0) addr (k.off 0) n
    | .FD_NONE => panic "fileread"

def sysRead : User Int := do
  let some f ← argfd k p 0 | return -1
  let some n ← p.argint 2 | return -1
  let some addr ← p.argptr 1 n | return -1
  fileread k f addr n

/-! ## Writing -/

def consolewrite (buf : Addr) (n : Word) : User Int := do
  let _ ← moveIn n.toInt.toNat buf
  return n.toInt

/-- The loop of `pipewrite`: `addr[i]` is read once the pipe has room. -/
def pipewriteLoop (n : Int) : Nat → Nat → Addr → User Int
  | _, 0, _ => return n
  | i, m + 1, addr => do
      if k.takes i = false then return -1
      let _ ← load addr
      pipewriteLoop n (i + 1) m (addr + 1)

def pipewrite (addr : Addr) (n : Word) : User Int := pipewriteLoop k n.toInt 0 n.toInt.toNat addr

/-- The loop of `writei`. -/
def writeiLoop (n : Word) : Nat → (tot off : Word) → Addr → User Unit
  | 0, _, _, _ => return ()
  | fuel + 1, tot, off, src => do
      if tot < n then
        if k.bmap off.toNat = false then panic "balloc: out of blocks"
        let m := umin (n - tot) (BitVec.ofNat 32 BSIZE - off % BitVec.ofNat 32 BSIZE)
        let _ ← moveIn m.toNat src
        writeiLoop n fuel (tot + m) (off + m) (src + m)

def writei (ip : Inode) (src : Addr) (off n : Word) : User Int := do
  if ip.type = .T_DEV then
    if ip.major < 0 ∨ (NDEV : Int) ≤ ip.major ∨ ip.major ≠ CONSOLE then return -1
    consolewrite src n
  else
    if ip.size < off ∨ off + n < off then return -1
    if (MAXFILE * BSIZE : Nat) < (off + n).toNat then return -1
    writeiLoop k n n.toNat 0 off src
    return n.toInt

/-- The loop of `filewrite` in its `j`-th round. -/
def filewriteLoop (addr : Addr) (n : Int) : Nat → Nat → Int → User Int
  | 0, _, i => return if i = n then n else -1
  | fuel + 1, j, i => do
      if i < n then
        let max : Int := (LOGSIZE - 1 - 1 - 2) / 2 * 512
        let n1 := if max < n - i then max else n - i
        let r ← writei k (k.ip j) (addr + BitVec.ofInt 32 i) (k.off j) (BitVec.ofInt 32 n1)
        if r < 0 then return if i = n then n else -1
        if r ≠ n1 then panic "short filewrite"
        filewriteLoop addr n fuel (j + 1) (i + r)
      else return if i = n then n else -1

def filewrite (f : File) (addr : Addr) (n : Word) : User Int :=
  if f.writable = false then return -1
  else match f.type with
    | .FD_PIPE => pipewrite k addr n
    | .FD_INODE => filewriteLoop k addr n.toInt n.toInt.toNat 0 0
    | .FD_NONE => panic "filewrite"

def sysWrite : User Int := do
  let some f ← argfd k p 0 | return -1
  let some n ← p.argint 2 | return -1
  let some addr ← p.argptr 1 n | return -1
  filewrite k f addr n

/-! ## Results of fixed size -/

/-- `stati`; `struct stat` has 20 bytes. -/
def stati (ip : Inode) (st : Addr) : User Unit := do
  moveOut (bytesOf ip.dev) (st + 4)
  moveOut (bytesOf ip.inum) (st + 8)
  moveOut ((bytesOf (ip.type.code.setWidth 32)).take 2) st
  moveOut ((bytesOf (ip.nlink.setWidth 32)).take 2) (st + 12)
  moveOut (bytesOf ip.size) (st + 16)

def filestat (f : File) (st : Addr) : User Int := do
  if f.type = .FD_INODE then
    stati (k.ip 0) st
    return 0
  else return -1

def sysFstat : User Int := do
  let some f ← argfd k p 0 | return -1
  let some st ← p.argptr 1 20 | return -1
  filestat k f st

def sysPipe : User Int := do
  let some fd ← p.argptr 0 8 | return -1
  match k.newPipe with
  | none => return -1
  | some (fd0, fd1) =>
      moveOut (bytesOf fd0) fd
      moveOut (bytesOf fd1) (fd + 4)
      return 0

/-- The end of `cmostime`: `*r = t1; r->year += 2000`. -/
def cmostime (r : Addr) : User Unit := do
  moveOut (k.time.take 24) r
  let year ← loadInt (r + 20)
  moveOut (bytesOf (year + 2000)) (r + 20)

def sysGettime : User Int := do
  let some d ← p.argptr 0 24 | return -1
  cmostime k d
  return 0

/-! ## Paths -/

def slash : UInt8 := 47

/-- `skipelem`: the name, and the rest of the path. -/
def skipelem (path : Addr) : User (Option (List UInt8 × Addr)) := do
  let s ← scanAll (· != slash) path
  if (← load s) = 0 then return none
  let e ← scanAll (fun c => c == slash || c == 0) s
  let name ← moveIn (min (e - s).toNat DIRSIZ) s
  return some (name, ← scanAll (· != slash) e)

/-- The loop of `namex`, the `w`-th of the call, at its `i`-th element;
whether it finds an inode. -/
def namexLoop (w : Nat) (nameiparent : Bool) : Nat → Nat → Addr → User Bool
  | 0, _, _ => panic "loop"
  | fuel + 1, i, path => do
      let some (name, path) ← skipelem path | return !nameiparent
      if k.isDir w i = false then return false
      if nameiparent then
        if (← load path) = 0 then return true
      if k.dirlookup w i name = false then return false
      namexLoop w nameiparent fuel (i + 1) path

def namex (w : Nat) (path : Addr) (nameiparent : Bool) : User Bool := do
  let _ ← load path                        -- `*path == '/'`
  namexLoop k w nameiparent (2 ^ 32) 0 path

def sysLink : User Int := do
  let some old ← p.argstr 0 | return -1
  let some new ← p.argstr 1 | return -1
  if (← namex k 0 old false) = false then return -1
  if k.oldIsDir then return -1
  let _ ← namex k 1 new true
  return k.result

def sysUnlink : User Int := do
  let some path ← p.argstr 0 | return -1
  let _ ← namex k 0 path true
  return k.result

def sysOpen : User Int := do
  let some path ← p.argstr 0 | return -1
  let some omode ← p.argint 1 | return -1
  let create := omode &&& 0x200 != 0       -- `O_CREATE`
  let _ ← namex k 0 path create
  return k.result

def sysMkdir : User Int := do
  let some path ← p.argstr 0 | return -1
  let _ ← namex k 0 path true
  return k.result

def sysMknod : User Int := do
  let some path ← p.argstr 0 | return -1
  let some _ ← p.argint 1 | return -1
  let some _ ← p.argint 2 | return -1
  let _ ← namex k 0 path true
  return k.result

def sysChdir : User Int := do
  let some path ← p.argstr 0 | return -1
  let _ ← namex k 0 path false
  return k.result

/-! ## `exec` -/

/-- `strlen`. -/
def strlen (s : Addr) : User Nat := do
  return ((← scanAll (· == 0) s) - s).toNat

/-- The loop that copies the arguments to the new stack, and the copy of
the pointers to them. -/
def pushArgs : Nat → List Addr → User Bool
  | argc, [] => return (3 + argc + 1) * 4 ≤ k.copyout argc
  | argc, s :: argv => do
      if MAXARG ≤ argc then return false
      let _ ← strlen s
      let n ← strlen s
      let _ ← moveIn (min (n + 1) (k.copyout argc)) s
      if k.copyout argc < n + 1 then return false
      pushArgs (argc + 1) argv

/-- `for(last=s=path; *s; s++) if(*s == '/') last = s+1;`. -/
def lastElem : Nat → Addr → Addr → User Addr
  | 0, _, _ => panic "loop"
  | fuel + 1, s, last => do
      let c ← load s
      if c = 0 then return last
      lastElem fuel (s + 1) (if c = slash then s + 1 else last)

/-- `safestrcpy`, which reads at most `n - 1` bytes. -/
def safestrcpy : Nat → Addr → User Unit
  | 0, _ => return ()
  | 1, _ => return ()
  | n + 2, t => do
      if (← load t) = 0 then return ()
      safestrcpy (n + 1) (t + 1)

def exec (path : Addr) (argv : List Addr) : User Int := do
  if (← namex k 0 path false) = false then return -1
  if k.loads = false then return -1
  if (← pushArgs k 0 argv) = false then return -1
  let last ← lastElem (2 ^ 32) path path
  safestrcpy 16 last
  return 0

/-- The loop of `sys_exec` at `argv[i]`, with `n` more entries in `argv`. -/
def fetchArgs (uargv : Addr) : Nat → Nat → User (Option (List Addr))
  | 0, _ => return none
  | n + 1, i => do
      let some uarg ← p.fetchint (uargv + 4 * BitVec.ofNat 32 i) | return none
      if uarg = 0 then return some []
      let some _ ← p.fetchstr uarg | return none
      let some argv ← fetchArgs uargv n (i + 1) | return none
      return some (uarg :: argv)

def sysExec : User Int := do
  let some path ← p.argstr 0 | return -1
  let some uargv ← p.argint 1 | return -1
  let some argv ← fetchArgs p uargv MAXARG 0 | return -1
  exec k path argv

/-! ## The calls with user pointers -/

inductive Call
  | read | write | fstat | pipe | gettime | exec
  | link | unlink | open | mkdir | mknod | chdir
  deriving DecidableEq

def run : Call → User Int
  | .read => sysRead k p
  | .write => sysWrite k p
  | .fstat => sysFstat k p
  | .pipe => sysPipe k p
  | .gettime => sysGettime k p
  | .exec => sysExec k p
  | .link => sysLink k p
  | .unlink => sysUnlink k p
  | .open => sysOpen k p
  | .mkdir => sysMkdir k p
  | .mknod => sysMknod k p
  | .chdir => sysChdir k p

end Xv6.Syscall
