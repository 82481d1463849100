import Xv6.Fs.State
import Xv6.Fs.Own

/-!
# Fs — the log list and the bitmap

What `log_write` does to the state, and what taking a block does to the
disk. A `log_write` inside a transaction stops only when the log is full.
-/

namespace Xv6.Fs

open Lib

def tooBig : Stop := .panic "too big a transaction"

def outOfBlocks : Stop := .panic "balloc: out of blocks"

/-- With `n` blocks in the header, `log_write` panics. -/
def LogFull (sb : Superblock) (n : Nat) : Prop := LOGSIZE ≤ n ∨ sb.nlog - 1 ≤ n

theorem LogFull.mono {sb : Superblock} {m n : Nat} (h : LogFull sb m) (hmn : m ≤ n) :
    LogFull sb n := h.imp (fun h => by omega) (fun h => by omega)

theorem length_absorb_le (lh : List Nat) (b : Nat) : (absorb lh b).length ≤ lh.length + 1 := by
  unfold absorb
  split <;> simp

theorem le_length_absorb (lh : List Nat) (b : Nat) : lh.length ≤ (absorb lh b).length := by
  unfold absorb
  split <;> simp

variable {s : St} {E : Stop → Prop}

theorem logWrite_spec {b : Nat} (hout : 1 ≤ s.outstanding)
    (hbig : LogFull s.sb s.lh.length → E tooBig) :
    Ensures (logWrite b) s E fun _ t => t = { s with lh := absorb s.lh b } := by
  simp only [logWrite, ensures_bind, ensures_get]
  split
  · rename_i hfull
    exact hbig hfull
  · rw [if_neg (by omega)]
    simp

/-- The disk with free block `b` marked and zeroed. -/
def allocDisk (sb : Superblock) (disk : Disk) (b : Nat) : Disk :=
  upd (upd disk (BBLOCK b sb) ((disk (BBLOCK b sb)).setBit (b % BPB))) b (Bytes.zero BSIZE)

theorem BBLOCK_add (sb : Superblock) (q : Nat) {bi : Nat} (hbi : bi < BPB) :
    BBLOCK (q * BPB + bi) sb = BBLOCK (q * BPB) sb ∧ (q * BPB + bi) % BPB = bi := by
  simp only [BBLOCK, BPB_eq] at *
  omega

end Xv6.Fs
