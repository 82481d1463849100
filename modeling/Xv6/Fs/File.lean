import Xv6.Fs.State

/-!
# Fs — directories, paths and files

The lookups of `fs.c`, and `fileread` and `filewrite` of `file.c` on
inodes. A path is the list of its bytes.
-/

namespace Xv6.Fs

open Lib

/-! ## Directories -/

/-- The loop of `dirlookup`, from entry offset `off` on. -/
def lookupLoop (k : Fin NINODE) (name : List UInt8) :
    (fuel off : Nat) → Prog (Option (Fin NINODE × Nat))
  | 0, _ => pure none
  | fuel + 1, off => do
      let s ← get
      if off < (s.icache k).din.size then
        let (n, de) ← readi k off DIRENT
        if n ≠ DIRENT then panic "dirlink read"
        else if direntInum de = 0 then lookupLoop k name fuel (off + DIRENT)
        else if namecmp name (direntName de) then do
          let ip ← iget (direntInum de)
          return some (ip, off)
        else lookupLoop k name fuel (off + DIRENT)
      else pure none

/-- `dirlookup`: the inode the name stands for and the offset of its
entry. -/
def dirlookup (k : Fin NINODE) (name : List UInt8) : Prog (Option (Fin NINODE × Nat)) := do
  let s ← get
  let d := (s.icache k).din
  if d.type ≠ T_DIR then panic "dirlookup not DIR"
  else lookupLoop k name (d.size / DIRENT + 1) 0

/-! ## Paths -/

def slash : UInt8 := 47

def dot : List UInt8 := [46]

def dotdot : List UInt8 := [46, 46]

/-- `skipelem`: the first element of the path and what follows it. -/
def skipelem (path : List UInt8) : Option (List UInt8 × List UInt8) :=
  let p := path.dropWhile (· = slash)
  if p = [] then none
  else some ((p.takeWhile (· ≠ slash)).take DIRSIZ,
    (p.dropWhile (· ≠ slash)).dropWhile (· = slash))

/-- The loop of `namex`; every round shortens the path. -/
def namexLoop (parent : Bool) :
    (fuel : Nat) → Fin NINODE → List UInt8 → Prog (Option (Fin NINODE × List UInt8))
  | 0, k, _ => pure (some (k, []))
  | fuel + 1, k, path =>
      match skipelem path with
      | none =>
          if parent then do
            iput k
            return none
          else return some (k, [])
      | some (name, path) => do
          ilock k
          let s ← get
          if (s.icache k).din.type ≠ T_DIR then do
            iunlockput k
            return none
          else if parent ∧ path = [] then do
            -- stop one level early
            iunlock k
            return some (k, name)
          else do
            match ← dirlookup k name with
            | none =>
                iunlockput k
                return none
            | some (next, _) =>
                iunlockput k
                namexLoop parent fuel next path

/-- Where `namex` starts: the root or the current directory. -/
def namexStart (p : Fin NPROC) (path : List UInt8) : Prog (Fin NINODE) :=
  if path.head? = some slash then iget ROOTINO
  else do
    match ((← get).proc p).cwd with
    | some k => idup k
    | none => throw .fault

/-- `namex`: the inode of a path, or of its parent and the last element. -/
def namex (p : Fin NPROC) (path : List UInt8) (parent : Bool) :
    Prog (Option (Fin NINODE × List UInt8)) := do
  let k ← namexStart p path
  namexLoop parent (path.length + 1) k path

/-- `namei`. -/
def namei (p : Fin NPROC) (path : List UInt8) : Prog (Option (Fin NINODE)) := do
  return (← namex p path false).map Prod.fst

/-- `nameiparent`. -/
def nameiparent (p : Fin NPROC) (path : List UInt8) :
    Prog (Option (Fin NINODE × List UInt8)) := namex p path true

/-! ## Files -/

def St.setFile (s : St) (f : Fin NFILE) (v : File) : St :=
  { s with ftable := upd s.ftable f v }

/-- `fileread`: the count, or -1, and the bytes. -/
def fileread (f : Fin NFILE) (n : Nat) : Prog (Int × List UInt8) := do
  let s ← get
  let ff := s.ftable f
  if ff.readable = false then return (-1, [])
  else if ff.type = .FD_INODE then do
    ilock ff.ip
    let r ← readi ff.ip ff.off n
    modify fun s => s.setFile f { s.ftable f with
      off := if r.1 > 0 then (s.ftable f).off + r.1.toNat else (s.ftable f).off }
    iunlock ff.ip
    return r
  else panic "fileread"

/-- The most bytes `filewrite` puts into one transaction. -/
def maxWrite : Nat := ((LOGSIZE - 1 - 1 - 2) / 2) * 512

/-- One transaction of `filewrite`: what `writei` returned. -/
def writeSection (f : Fin NFILE) (src : List UInt8) : Prog Int := do
  let ff := (← get).ftable f
  beginOp
  ilock ff.ip
  let r ← writei ff.ip src ff.off
  modify fun s => s.setFile f { s.ftable f with
    off := if r > 0 then (s.ftable f).off + r.toNat else (s.ftable f).off }
  iunlock ff.ip
  endOp
  return r

/-- The loop of `filewrite`: the number of bytes written before it ended. -/
def filewriteLoop (f : Fin NFILE) : (fuel : Nat) → List UInt8 → Prog Nat
  | 0, _ => pure 0
  | fuel + 1, src =>
      if src.length = 0 then pure 0
      else do
        let n1 := min src.length maxWrite
        let r ← writeSection f (src.take n1)
        if r < 0 then pure 0
        else if r ≠ n1 then panic "short filewrite"
        else do
          let i ← filewriteLoop f fuel (src.drop n1)
          return n1 + i

/-- `filewrite`. -/
def filewrite (f : Fin NFILE) (src : List UInt8) : Prog Int := do
  let s ← get
  let ff := s.ftable f
  if ff.writable = false then return -1
  else if ff.type = .FD_INODE then do
    let i ← filewriteLoop f src.length src
    return if i = src.length then (src.length : Int) else -1
  else panic "filewrite"

end Xv6.Fs
