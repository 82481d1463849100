import Xv6.Params
import Xv6.Lib.Writes

/-!
# Log — commit and recovery

`log.c` below its lock: the on-disk header format, the four steps of
`commit()` and the recovery that `initlog` runs. Each function is a
transformer of what the code can see and do: the block contents `bread`
returns, and the single-block disk writes `bwrite` has issued so far, in
order. A crash between two disk writes keeps a prefix of that sequence.

The buffer cache is taken here as the plain array it is for its clients:
`bread` shows the last contents stored for a block. After a crash the
cache is gone, so recovery starts with `bread` showing the disk.
-/

namespace Xv6.Log

open Lib

/-- Where the log lives: block `start` is the header, the blocks
`start + 1 .. start + size - 1` hold logged contents. -/
structure Area where
  start : Nat
  size : Nat
  hasHeader : 0 < size

/-- Block `b` belongs to the log area. -/
def Area.Contains (log : Area) (b : Nat) : Prop :=
  log.start ≤ b ∧ b < log.start + log.size

/-- The in-memory `struct logheader`: the entries `block[0..n)`, in an
array of `LOGSIZE` ints. -/
structure Header where
  block : List Nat
  len_le : block.length ≤ LOGSIZE
  int : ∀ b ∈ block, b < 2 ^ 32

/-! ## The on-disk header -/

/-- The count a reader of the header loops up to. `n` is a signed `int`:
a negative one makes the loops run zero times. -/
def headCount (buf : Block) : Nat :=
  if buf.rd32 0 < 2 ^ 31 then buf.rd32 0 else 0

/-- `read_head`: the entries `lh->block[0..n)` of a header block. -/
def readHead (buf : Block) : List Nat :=
  (List.range (headCount buf)).map fun i => buf.rd32 (4 + 4 * i)

/-- `write_head`'s stores into the header buffer: `hb->n` and
`hb->block[0..n)`; the rest of the buffer stays. -/
def headBlock (buf : Block) (lh : List Nat) : Block :=
  (buf.wr32 0 lh.length).wr32s 4 (fun i => lh.getD i 0) lh.length

theorem rd32_zero_headBlock {buf : Block} {lh : List Nat} (hlen : lh.length ≤ LOGSIZE) :
    (headBlock buf lh).rd32 0 = lh.length := by
  have h30 : lh.length ≤ 30 := hlen
  rw [headBlock, Bytes.rd32_wr32s_out (by omega), Bytes.rd32_wr32 (by decide)]
  exact Nat.mod_eq_of_lt (by omega)

theorem headCount_headBlock {buf : Block} {lh : List Nat} (hlen : lh.length ≤ LOGSIZE) :
    headCount (headBlock buf lh) = lh.length := by
  have h30 : lh.length ≤ 30 := hlen
  rw [headCount, rd32_zero_headBlock hlen, if_pos (by omega)]

/-- **The header round trip**: what `write_head` stores, `read_head`
reads back. -/
theorem readHead_headBlock {buf : Block} (lh : Header) :
    readHead (headBlock buf lh.block) = lh.block := by
  have hlen : lh.block.length ≤ 30 := lh.len_le
  have hB : BSIZE = 512 := rfl
  rw [readHead, headCount_headBlock lh.len_le]
  apply List.ext_getElem (by simp)
  intro i h1 h2
  have hlt : lh.block[i] < 2 ^ 32 := lh.int _ (List.getElem_mem h2)
  rw [List.getElem_map, List.getElem_range, headBlock,
    Bytes.rd32_wr32s (by omega) h2, List.getD_eq_getElem _ _ h2, Nat.mod_eq_of_lt hlt]

/-! ## Disk writes -/

/-- What the code sees and has done: the contents `bread` returns, and
the disk writes issued so far. -/
structure Io where
  cache : Disk
  writes : List (Nat × Block)

/-- Nothing written yet. -/
def Io.boot (cache : Disk) : Io := ⟨cache, []⟩

def Io.bread (io : Io) (b : Nat) : Block := io.cache b

/-- `bwrite` of a buffer holding `data`. -/
def Io.bwrite (io : Io) (b : Nat) (data : Block) : Io :=
  ⟨Function.update io.cache b data, io.writes ++ [(b, data)]⟩

/-- The common loop of `write_log` and `install_trans`: for each pair
read both blocks, copy the second over the first and write the first. -/
def Io.copyBlocks (io : Io) (pairs : List (Nat × Nat)) : Io :=
  pairs.foldl (fun io p => io.bwrite p.1 (io.bread p.2)) io

/-- Copy modified blocks from the cache to the log. -/
def writeLog (log : Area) (lh : List Nat) (io : Io) : Io :=
  io.copyBlocks ((List.range lh.length).map fun tail => (log.start + tail + 1, lh.getD tail 0))

/-- Copy committed blocks from the log to their home location. -/
def installTrans (log : Area) (lh : List Nat) (io : Io) : Io :=
  io.copyBlocks ((List.range lh.length).map fun tail => (lh.getD tail 0, log.start + tail + 1))

/-- Write the in-memory header to disk. -/
def writeHead (log : Area) (lh : List Nat) (io : Io) : Io :=
  io.bwrite log.start (headBlock (io.bread log.start) lh)

def commit (log : Area) (lh : List Nat) (io : Io) : Io :=
  if lh.length > 0 then
    let io := writeLog log lh io      -- write modified blocks from cache to log
    let io := writeHead log lh io     -- the real commit
    let io := installTrans log lh io
    writeHead log [] io               -- erase the transaction from the log
  else io

def recoverFromLog (log : Area) (io : Io) : Io :=
  let lh := readHead (io.bread log.start)
  let io := installTrans log lh io    -- if committed, copy from log to disk
  writeHead log [] io                 -- clear the log

/-- The disk writes of one `commit()` with the given cache contents. -/
def commitWrites (log : Area) (lh : List Nat) (cache : Disk) : List (Nat × Block) :=
  (commit log lh (Io.boot cache)).writes

/-- The disk writes of one recovery from the given disk: the cache is
empty, so `bread` shows the disk. -/
def recoverWrites (log : Area) (disk : Disk) : List (Nat × Block) :=
  (recoverFromLog log (Io.boot disk)).writes

/-! ## What the loops write -/

theorem copyBlocks_cons (io : Io) (p : Nat × Nat) (pairs : List (Nat × Nat)) :
    io.copyBlocks (p :: pairs) = (io.bwrite p.1 (io.bread p.2)).copyBlocks pairs := rfl

/-- When no block is both a source and a target, the loop writes each
target with what its source held at the start. -/
theorem copyBlocks_eq {io : Io} {pairs : List (Nat × Nat)}
    (h : ∀ p ∈ pairs, ∀ q ∈ pairs, p.1 ≠ q.2) :
    io.copyBlocks pairs =
      ⟨applyWrites io.cache (pairs.map fun p => (p.1, io.cache p.2)),
        io.writes ++ pairs.map fun p => (p.1, io.cache p.2)⟩ := by
  induction pairs generalizing io with
  | nil => simp [Io.copyBlocks]
  | cons p pairs ih =>
      have htl : ∀ q ∈ pairs, ∀ r ∈ pairs, q.1 ≠ r.2 := fun q hq r hr =>
        h q (List.mem_cons_of_mem _ hq) r (List.mem_cons_of_mem _ hr)
      -- the first copy leaves every later source alone
      have hsrc : ∀ q ∈ pairs, (io.bwrite p.1 (io.bread p.2)).cache q.2 = io.cache q.2 :=
        fun q hq => Function.update_of_ne
          (h p List.mem_cons_self q (List.mem_cons_of_mem _ hq)).symm _ _
      have hmap : (pairs.map fun q => (q.1, (io.bwrite p.1 (io.bread p.2)).cache q.2))
          = pairs.map fun q => (q.1, io.cache q.2) :=
        List.map_congr_left fun q hq => by rw [hsrc q hq]
      rw [copyBlocks_cons, ih htl, hmap]
      simp [Io.bwrite, Io.bread]

/-- A header the code can commit: its home blocks are distinct, lie
outside the log area, and fit in it after the header block. -/
structure Loggable (log : Area) (lh : List Nat) : Prop where
  nodup : lh.Nodup
  outside : ∀ b ∈ lh, ¬ log.Contains b
  fits : lh.length ≤ log.size - 1

theorem Loggable.nil (log : Area) : Loggable log [] := ⟨by simp, by simp, by simp⟩

/-- The writes `install_trans` issues when `bread` shows `view`. -/
def installWrites (log : Area) (lh : List Nat) (view : Disk) : List (Nat × Block) :=
  (List.range lh.length).map fun tail => (lh.getD tail 0, view (log.start + tail + 1))

/-- The writes `write_log` issues when `bread` shows `view`. -/
def logWrites (log : Area) (lh : List Nat) (view : Disk) : List (Nat × Block) :=
  (List.range lh.length).map fun tail => (log.start + tail + 1, view (lh.getD tail 0))

@[simp] theorem length_installWrites (log : Area) (lh : List Nat) (view : Disk) :
    (installWrites log lh view).length = lh.length := by simp [installWrites]

@[simp] theorem length_logWrites (log : Area) (lh : List Nat) (view : Disk) :
    (logWrites log lh view).length = lh.length := by simp [logWrites]

section Loops

variable {log : Area} {lh : List Nat}

theorem getD_mem {tail : Nat} (h : tail < lh.length) : lh.getD tail 0 ∈ lh := by
  rw [List.getD_eq_getElem _ _ h]
  exact List.getElem_mem h

/-- A log slot is never one of the home blocks. -/
theorem Loggable.slot_ne (hl : Loggable log lh) {t u : Nat} (ht : t < lh.length)
    (hu : u < lh.length) : lh.getD t 0 ≠ log.start + u + 1 := by
  intro he
  have hfit := hl.fits
  exact hl.outside _ (getD_mem ht) ⟨by omega, by omega⟩

theorem installTrans_eq (hl : Loggable log lh) (io : Io) :
    installTrans log lh io =
      ⟨applyWrites io.cache (installWrites log lh io.cache),
        io.writes ++ installWrites log lh io.cache⟩ := by
  have h : ∀ p ∈ (List.range lh.length).map fun tail => (lh.getD tail 0, log.start + tail + 1),
      ∀ q ∈ (List.range lh.length).map fun tail => (lh.getD tail 0, log.start + tail + 1),
      p.1 ≠ q.2 := by
    intro p hp q hq
    obtain ⟨t, ht, rfl⟩ := List.mem_map.mp hp
    obtain ⟨u, hu, rfl⟩ := List.mem_map.mp hq
    exact hl.slot_ne (List.mem_range.mp ht) (List.mem_range.mp hu)
  rw [installTrans, copyBlocks_eq h]
  simp [installWrites, List.map_map, Function.comp_def]

theorem writeLog_eq (hl : Loggable log lh) (io : Io) :
    writeLog log lh io =
      ⟨applyWrites io.cache (logWrites log lh io.cache),
        io.writes ++ logWrites log lh io.cache⟩ := by
  have h : ∀ p ∈ (List.range lh.length).map fun tail => (log.start + tail + 1, lh.getD tail 0),
      ∀ q ∈ (List.range lh.length).map fun tail => (log.start + tail + 1, lh.getD tail 0),
      p.1 ≠ q.2 := by
    intro p hp q hq
    obtain ⟨t, ht, rfl⟩ := List.mem_map.mp hp
    obtain ⟨u, hu, rfl⟩ := List.mem_map.mp hq
    exact (hl.slot_ne (List.mem_range.mp hu) (List.mem_range.mp ht)).symm
  rw [writeLog, copyBlocks_eq h]
  simp [logWrites, List.map_map, Function.comp_def]

end Loops

end Xv6.Log
