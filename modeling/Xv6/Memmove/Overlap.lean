import Xv6.Lib.Exec
import Mathlib.Algebra.Order.Ring.Nat

/-!
# Memmove — overlapping ranges

`memmove` of the user library copies upwards whatever the ranges are; that
of the kernel copies downwards where the destination starts inside of the
source. Upwards a byte of the source may be read after it was overwritten:
the destination then repeats the first bytes of the source.
-/

namespace Xv6.Memmove

open Lib

/-! ## The code -/

abbrev Mem := Nat → UInt8

def inc (p : Nat) : Nat := (p + 1) % 2 ^ 32

def dec (p : Nat) : Nat := if p = 0 then 2 ^ 32 - 1 else p - 1

/-- `while(n-- > 0) *d++ = *s++` -/
def copyUp : (n : Nat) → Mem → (d s : Nat) → Mem
  | 0, m, _, _ => m
  | n + 1, m, d, s => copyUp n (upd m d (m s)) (inc d) (inc s)

/-- `while(n-- > 0) *--d = *--s` -/
def copyDown : (n : Nat) → Mem → (d s : Nat) → Mem
  | 0, m, _, _ => m
  | n + 1, m, d, s => copyDown n (upd m (dec d) (m (dec s))) (dec d) (dec s)

/-- `memmove` of ulib.c. -/
def userMemmove (m : Mem) (dst src : Nat) (n : Int) : Mem := copyUp n.toNat m dst src

/-- `memmove` of string.c. -/
def kernelMemmove (m : Mem) (dst src n : Nat) : Mem :=
  if src < dst ∧ (src + n) % 2 ^ 32 > dst then
    copyDown n m ((dst + n) % 2 ^ 32) ((src + n) % 2 ^ 32)
  else copyUp n m dst src

/-! ## What they are for -/

variable {m : Mem} {dst src n : Nat}

/-- The memory with the `n` bytes from `src` on at `dst`. -/
def moved (m : Mem) (dst src n : Nat) : Mem :=
  fun a => if dst ≤ a ∧ a < dst + n then m (src + (a - dst)) else m a

/-- The memory with the bytes between `src` and `dst` at `dst`, again and
again. -/
def repeated (m : Mem) (dst src n : Nat) : Mem :=
  fun a => if dst ≤ a ∧ a < dst + n then m (src + (a - dst) % (dst - src)) else m a

theorem inc_eq (h : dst + 1 < 2 ^ 32) : inc dst = dst + 1 := Nat.mod_eq_of_lt h

theorem dec_mod (h : dst < 2 ^ 32) : dec ((dst + 1) % 2 ^ 32) = dst := by
  rw [dec]
  split <;> omega

/-- The last step upwards may leave the address space, and is not used. -/
theorem copyUp_inc (hd : dst + 1 + n ≤ 2 ^ 32) (hs : src + 1 + n ≤ 2 ^ 32) :
    copyUp n m (inc dst) (inc src) = copyUp n m (dst + 1) (src + 1) := by
  cases n with
  | zero => rfl
  | succ n => rw [inc_eq (by omega), inc_eq (by omega)]

/-- **Upwards to a lower address** every byte is read before it is
overwritten. -/
theorem copyUp_eq_moved (hd : dst + n ≤ 2 ^ 32) (hs : src + n ≤ 2 ^ 32) (hle : dst ≤ src) :
    copyUp n m dst src = moved m dst src n := by
  induction n generalizing m dst src with
  | zero =>
      funext a
      rw [copyUp, moved, if_neg (by omega)]
  | succ n ih =>
      rw [copyUp, copyUp_inc (by omega) (by omega), ih (by omega) (by omega) (by omega)]
      funext a
      rw [moved, moved]
      by_cases hfirst : a = dst
      · rw [if_neg (by omega), if_pos (by omega), hfirst, upd_self, Nat.sub_self, Nat.add_zero]
      · by_cases hin : dst + 1 ≤ a ∧ a < dst + 1 + n
        · have haddr : src + 1 + (a - (dst + 1)) = src + (a - dst) := by omega
          rw [if_pos hin, if_pos (by omega), haddr, upd_of_ne (by omega)]
        · rw [if_neg hin, if_neg (by omega), upd_of_ne hfirst]

theorem mod_succ_of_eq {k d : Nat} (h : k % d + 1 = d) : (k + 1) % d = 0 := by
  have hdm := Nat.div_add_mod k d
  refine Nat.mod_eq_zero_of_dvd ⟨k / d + 1, ?_⟩
  rw [Nat.mul_add, Nat.mul_one]
  omega

theorem mod_succ_of_lt {k d : Nat} (h : k % d + 1 < d) : (k + 1) % d = k % d + 1 := by
  rw [Nat.add_mod, Nat.mod_eq_of_lt (show 1 < d by omega), Nat.mod_eq_of_lt h]

/-- **Upwards to a higher address** the bytes read are those that were
written, from the distance of the two on. -/
theorem copyUp_eq_repeated (hd : dst + n ≤ 2 ^ 32) (hs : src + n ≤ 2 ^ 32) (hlt : src < dst) :
    copyUp n m dst src = repeated m dst src n := by
  induction n generalizing m dst src with
  | zero =>
      funext a
      rw [copyUp, repeated, if_neg (by omega)]
  | succ n ih =>
      rw [copyUp, copyUp_inc (by omega) (by omega), ih (by omega) (by omega) (by omega)]
      funext a
      have hdist : dst + 1 - (src + 1) = dst - src := by omega
      rw [repeated, repeated, hdist]
      by_cases hfirst : a = dst
      · rw [if_neg (by omega), if_pos (by omega), hfirst, upd_self, Nat.sub_self, Nat.zero_mod,
          Nat.add_zero]
      · by_cases hin : dst + 1 ≤ a ∧ a < dst + 1 + n
        · rw [if_pos hin, if_pos (by omega)]
          obtain ⟨k, rfl⟩ : ∃ k, a = dst + 1 + k := ⟨a - (dst + 1), by omega⟩
          have hk : dst + 1 + k - (dst + 1) = k := by omega
          have hk' : dst + 1 + k - dst = k + 1 := by omega
          rw [hk, hk']
          have hmod : k % (dst - src) < dst - src := Nat.mod_lt _ (by omega)
          -- the byte read is the first one written, or not written yet
          by_cases hlast : k % (dst - src) + 1 = dst - src
          · have haddr : src + 1 + k % (dst - src) = dst := by omega
            rw [haddr, upd_self, mod_succ_of_eq hlast, Nat.add_zero]
          · have haddr : src + 1 + k % (dst - src) = src + (k % (dst - src) + 1) := by omega
            rw [haddr, upd_of_ne (by omega), mod_succ_of_lt (by omega)]
        · rw [if_neg hin, if_neg (by omega), upd_of_ne hfirst]

/-- **Downwards to a higher address** every byte is read before it is
overwritten. -/
theorem copyDown_eq_moved (hd : dst + n ≤ 2 ^ 32) (hs : src + n ≤ 2 ^ 32) (hle : src ≤ dst) :
    copyDown n m ((dst + n) % 2 ^ 32) ((src + n) % 2 ^ 32) = moved m dst src n := by
  induction n generalizing m with
  | zero =>
      funext a
      rw [copyDown, moved, if_neg (by omega)]
  | succ n ih =>
      have hdec : dec ((dst + (n + 1)) % 2 ^ 32) = (dst + n) % 2 ^ 32 := by
        rw [← Nat.add_assoc, dec_mod (by omega), Nat.mod_eq_of_lt (by omega)]
      have hdec' : dec ((src + (n + 1)) % 2 ^ 32) = (src + n) % 2 ^ 32 := by
        rw [← Nat.add_assoc, dec_mod (by omega), Nat.mod_eq_of_lt (by omega)]
      rw [copyDown, hdec, hdec', ih (by omega) (by omega), Nat.mod_eq_of_lt (show dst + n < _ by omega),
        Nat.mod_eq_of_lt (show src + n < _ by omega)]
      funext a
      rw [moved, moved]
      by_cases hlast : a = dst + n
      · have haddr : src + (dst + n - dst) = src + n := by omega
        rw [if_neg (by omega), if_pos (by omega), hlast, upd_self, haddr]
      · by_cases hin : dst ≤ a ∧ a < dst + n
        · rw [if_pos hin, if_pos (by omega), upd_of_ne (by omega)]
        · rw [if_neg hin, if_neg (by omega), upd_of_ne hlast]

/-- The ranges share no byte, so the direction is of no matter. -/
theorem repeated_eq_moved_of_le (h : n ≤ dst - src) :
    repeated m dst src n = moved m dst src n := by
  funext a
  rw [repeated, moved]
  by_cases hin : dst ≤ a ∧ a < dst + n
  · rw [if_pos hin, if_pos hin, Nat.mod_eq_of_lt (by omega)]
  · rw [if_neg hin, if_neg hin]

/-- **`memmove` of the kernel** moves the bytes, however the ranges overlap. -/
theorem kernelMemmove_eq (hd : dst + n ≤ 2 ^ 32) (hs : src + n ≤ 2 ^ 32) :
    kernelMemmove m dst src n = moved m dst src n := by
  rw [kernelMemmove]
  by_cases hover : src < dst ∧ (src + n) % 2 ^ 32 > dst
  · rw [if_pos hover]
    exact copyDown_eq_moved hd hs (by omega)
  · rw [if_neg hover]
    rcases Nat.lt_or_ge src dst with hlt | hge
    · rw [copyUp_eq_repeated hd hs hlt]
      exact repeated_eq_moved_of_le (by omega)
    · exact copyUp_eq_moved hd hs hge

/-- The bytes of the source repeat with the distance of the two ranges, as
far as they go. -/
def Periodic (m : Mem) (dst src n : Nat) : Prop :=
  ∀ i, i + (dst - src) < n → m (src + i + (dst - src)) = m (src + i)

theorem Periodic.eq_mod (h : Periodic m dst src n) (hlt : src < dst) {k : Nat} (hk : k < n) :
    m (src + k % (dst - src)) = m (src + k) := by
  induction k using Nat.strongRecOn with
  | ind k ih =>
      rcases Nat.lt_or_ge k (dst - src) with hsmall | hbig
      · rw [Nat.mod_eq_of_lt hsmall]
      · -- one distance further down
        have hprev := ih (k - (dst - src)) (by omega) (by omega)
        have hstep := h (k - (dst - src)) (by omega)
        have haddr : src + (k - (dst - src)) + (dst - src) = src + k := by omega
        rw [haddr] at hstep
        rw [Nat.mod_eq_sub_mod hbig, hprev, hstep]

theorem repeated_eq_moved_iff (hlt : src < dst) :
    repeated m dst src n = moved m dst src n ↔ Periodic m dst src n := by
  constructor
  · intro heq i hi
    have hat : ∀ k, k < n → m (src + k % (dst - src)) = m (src + k) := by
      intro k hk
      have := congrFun heq (dst + k)
      rwa [repeated, moved, if_pos (by omega), if_pos (by omega), Nat.add_sub_cancel_left] at this
    have h1 := hat (i + (dst - src)) hi
    have h2 := hat i (by omega)
    rw [Nat.add_mod_right, h2] at h1
    rw [Nat.add_assoc]
    exact h1.symm
  · intro hper
    funext a
    rw [repeated, moved]
    by_cases hin : dst ≤ a ∧ a < dst + n
    · rw [if_pos hin, if_pos hin]
      exact hper.eq_mod hlt (by omega)
    · rw [if_neg hin, if_neg hin]

/-- **The two agree** and move the bytes if and only if the destination does
not start above the source, or the source repeats with the distance of the
two; the latter holds of ranges that share no byte. -/
theorem memmove_agree_iff (m : Mem) (hd : dst + n ≤ 2 ^ 32) (hs : src + n ≤ 2 ^ 32) :
    (userMemmove m dst src n = kernelMemmove m dst src n ∧
      kernelMemmove m dst src n = moved m dst src n) ↔
    dst ≤ src ∨ Periodic m dst src n := by
  have hkernel : kernelMemmove m dst src n = moved m dst src n := kernelMemmove_eq hd hs
  have huser : userMemmove m dst src n = copyUp n m dst src := rfl
  rw [and_iff_left hkernel, hkernel, huser]
  rcases Nat.lt_or_ge src dst with hlt | hge
  · rw [copyUp_eq_repeated hd hs hlt, repeated_eq_moved_iff hlt]
    exact ⟨.inr, fun h => h.resolve_left (by omega)⟩
  · exact ⟨fun _ => .inl hge, fun _ => copyUp_eq_moved hd hs hge⟩

/-- Overlapping ranges, and the destination below. -/
theorem memmove_agree_down :
    userMemmove (fun a => a.toUInt8) 10 12 5 = kernelMemmove (fun a => a.toUInt8) 10 12 5 ∧
      kernelMemmove (fun a => a.toUInt8) 10 12 5 = moved (fun a => a.toUInt8) 10 12 5 :=
  (@memmove_agree_iff 10 12 5 (fun a => a.toUInt8) (by decide) (by decide)).mpr
    (.inl (by decide))

/-- The destination is one byte above: the user library writes the first
byte everywhere. -/
theorem memmove_user_repeats :
    userMemmove (fun a => a.toUInt8) 11 10 3 13 = 10 ∧
      kernelMemmove (fun a => a.toUInt8) 11 10 3 13 = 12 ∧
      moved (fun a => a.toUInt8) 11 10 3 13 = 12 := by decide

end Xv6.Memmove
