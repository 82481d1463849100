import Mathlib.Logic.Function.Basic
import Mathlib.Data.Nat.Bitwise

/-!
# Bytes — fixed-size byte buffers

A buffer of `n` bytes, kept as ONE number so that it evaluates fast,
with the accesses C code makes through casts: block copies (`blit`),
little-endian 16- and 32-bit words, arrays of words, and single bits.
Past `get_blit` and `ext_get` nothing looks at the number. Every access is by a natural-number offset;
reads past the end give `0` and writes past the end are dropped, so a
read-back lemma always asks for the offset to be inside the buffer.

Nothing here knows what the bytes mean.
-/

namespace Xv6.Lib

/-- A buffer of `n` bytes. -/
abbrev Bytes (n : Nat) := BitVec (8 * n)

namespace Bytes

variable {n : Nat}

/-- The byte at offset `i`. -/
def get (b : Bytes n) (i : Nat) : UInt8 := ⟨b.extractLsb' (8 * i) 8⟩

/-- `memset(b, 0, n)`. -/
def zero (n : Nat) : Bytes n := 0

/-- Store one byte. -/
def set (b : Bytes n) (i : Nat) (x : UInt8) : Bytes n :=
  (b &&& ~~~(BitVec.ofNat (8 * n) 255 <<< (8 * i))) ||| (BitVec.ofNat (8 * n) x.toNat <<< (8 * i))

/-- `memmove(b + off, src, src.length)`. -/
def blit (b : Bytes n) (off : Nat) : List UInt8 → Bytes n
  | [] => b
  | x :: src => (b.set off x).blit (off + 1) src

/-- The `len` bytes from offset `off` on. -/
def slice (b : Bytes n) (off len : Nat) : List UInt8 :=
  (List.range len).map fun i => b.get (off + i)

@[simp] theorem get_zero (i : Nat) : (zero n).get i = 0 := by
  simp only [get, zero]
  apply UInt8.toBitVec_inj.mp
  simp

theorem testBit_byteMask (t : Nat) : Nat.testBit 255 t = decide (t < 8) := by
  rw [show (255 : Nat) = 2 ^ 8 - 1 from rfl, Nat.testBit_two_pow_sub_one]

theorem get_set (b : Bytes n) {i : Nat} (x : UInt8) {j : Nat} (hj : j < n) :
    (b.set i x).get j = if j = i then x else b.get j := by
  apply UInt8.toBitVec_inj.mp
  apply BitVec.eq_of_getLsbD_eq
  intro t ht
  have hlt : 8 * j + t < 8 * n := by omega
  simp only [get, set, BitVec.getLsbD_extractLsb', ht, decide_true, Bool.true_and, BitVec.getLsbD_or,
    BitVec.getLsbD_and, BitVec.getLsbD_not, BitVec.getLsbD_shiftLeft, BitVec.getLsbD_ofNat, hlt,
    testBit_byteMask]
  rcases Nat.lt_trichotomy j i with h | rfl | h
  · have h1 : 8 * j + t < 8 * i := by omega
    simp [h1, Nat.ne_of_lt h, ht]
  · have h1 : ¬ 8 * j + t < 8 * j := by omega
    have h2 : t < 8 * n := by omega
    have h3 : 8 * j + t - 8 * j = t := by omega
    simp only [h1, h2, h3, ht, decide_true, decide_false, Bool.not_false, Bool.true_and, Bool.not_true,
      Bool.and_false, Bool.false_or, if_true]
    rfl
  · have h1 : ¬ 8 * j + t < 8 * i := by omega
    have h2 : ¬ 8 * j + t - 8 * i < 8 := by omega
    have h3 : x.toNat.testBit (8 * j + t - 8 * i) = false := by
      apply Nat.testBit_lt_two_pow
      calc x.toNat < 2 ^ 8 := x.toNat_lt
        _ ≤ _ := Nat.pow_le_pow_right (by decide) (by omega)
    simp [h1, h2, h3, Nat.ne_of_gt h, ht]

theorem get_of_le {b : Bytes n} {i : Nat} (h : n ≤ i) : b.get i = 0 := by
  apply UInt8.toBitVec_inj.mp
  apply BitVec.eq_of_getLsbD_eq
  intro t ht
  simp only [get, BitVec.getLsbD_extractLsb', ht, decide_true, Bool.true_and]
  rw [BitVec.getLsbD_of_ge _ _ (by omega)]
  simp

theorem get_blit (b : Bytes n) (off : Nat) (src : List UInt8) {i : Nat} (hi : i < n) :
    (b.blit off src).get i =
      if off ≤ i ∧ i < off + src.length then src.getD (i - off) 0 else b.get i := by
  induction src generalizing b off with
  | nil => simp [blit]
  | cons x src ih =>
      rw [blit, ih, get_set b x hi]
      rcases Nat.lt_trichotomy i off with h | rfl | h
      · rw [if_neg (by omega), if_neg (by omega), if_neg (by omega)]
      · simp
      · obtain ⟨t, rfl⟩ : ∃ t, i = off + 1 + t := ⟨i - (off + 1), by omega⟩
        have h1 : off + 1 + t - (off + 1) = t := by omega
        have h2 : off + 1 + t - off = t + 1 := by omega
        rw [if_neg (by omega : ¬ off + 1 + t = off), h1, h2, List.getD_cons_succ]
        simp only [List.length_cons]
        congr 1
        simp only [eq_iff_iff]
        omega

theorem get_blit_in {b : Bytes n} {off : Nat} {src : List UInt8} {i : Nat}
    (hi : i < n) (h1 : off ≤ i) (h2 : i < off + src.length) :
    (b.blit off src).get i = src.getD (i - off) 0 := by
  rw [get_blit b off src hi, if_pos ⟨h1, h2⟩]

theorem get_blit_out {b : Bytes n} {off : Nat} {src : List UInt8} {i : Nat}
    (h : i < off ∨ off + src.length ≤ i) :
    (b.blit off src).get i = b.get i := by
  by_cases hi : i < n
  · rw [get_blit b off src hi, if_neg (by omega)]
  · rw [get_of_le (by omega), get_of_le (by omega)]

/-! ## Little-endian words -/

/-- The two bytes of a 16-bit value, low byte first. -/
def le16 (v : Nat) : List UInt8 := [UInt8.ofNat v, UInt8.ofNat (v / 256)]

/-- The four bytes of a 32-bit value, low byte first. -/
def le32 (v : Nat) : List UInt8 :=
  [UInt8.ofNat v, UInt8.ofNat (v / 256), UInt8.ofNat (v / 65536), UInt8.ofNat (v / 16777216)]

@[simp] theorem length_le16 (v : Nat) : (le16 v).length = 2 := rfl

@[simp] theorem length_le32 (v : Nat) : (le32 v).length = 4 := rfl

/-- The 16-bit word at offset `off`. -/
def rd16 (b : Bytes n) (off : Nat) : Nat :=
  (b.get off).toNat + 256 * (b.get (off + 1)).toNat

/-- The 32-bit word at offset `off`. -/
def rd32 (b : Bytes n) (off : Nat) : Nat :=
  (b.get off).toNat + 256 * (b.get (off + 1)).toNat + 65536 * (b.get (off + 2)).toNat
    + 16777216 * (b.get (off + 3)).toNat

/-- Store a 16-bit word. -/
def wr16 (b : Bytes n) (off v : Nat) : Bytes n := b.blit off (le16 v)

/-- Store a 32-bit word. -/
def wr32 (b : Bytes n) (off v : Nat) : Bytes n := b.blit off (le32 v)

theorem rd16_lt (b : Bytes n) (off : Nat) : b.rd16 off < 2 ^ 16 := by
  have h0 := (b.get off).toNat_lt
  have h1 := (b.get (off + 1)).toNat_lt
  simp only [rd16]
  omega

theorem rd32_lt (b : Bytes n) (off : Nat) : b.rd32 off < 2 ^ 32 := by
  have h0 := (b.get off).toNat_lt
  have h1 := (b.get (off + 1)).toNat_lt
  have h2 := (b.get (off + 2)).toNat_lt
  have h3 := (b.get (off + 3)).toNat_lt
  simp only [rd32]
  omega

@[simp] theorem rd16_zero (off : Nat) : (zero n).rd16 off = 0 := by simp [rd16]

@[simp] theorem rd32_zero (off : Nat) : (zero n).rd32 off = 0 := by simp [rd32]

/-- A word read looks at its own bytes only. -/
theorem rd16_congr {m : Nat} {b : Bytes n} {c : Bytes m} {off off' : Nat}
    (h : ∀ i, i < 2 → b.get (off + i) = c.get (off' + i)) : b.rd16 off = c.rd16 off' := by
  have h0 := h 0 (by omega)
  have h1 := h 1 (by omega)
  simp only [Nat.add_zero] at h0
  simp only [rd16, h0, h1]

theorem rd32_congr {m : Nat} {b : Bytes n} {c : Bytes m} {off off' : Nat}
    (h : ∀ i, i < 4 → b.get (off + i) = c.get (off' + i)) : b.rd32 off = c.rd32 off' := by
  have h0 := h 0 (by omega)
  have h1 := h 1 (by omega)
  have h2 := h 2 (by omega)
  have h3 := h 3 (by omega)
  simp only [Nat.add_zero] at h0
  simp only [rd32, h0, h1, h2, h3]

theorem rd16_blit_out {b : Bytes n} {off off' : Nat} {src : List UInt8}
    (h : off' + 2 ≤ off ∨ off + src.length ≤ off') :
    (b.blit off src).rd16 off' = b.rd16 off' :=
  rd16_congr fun i hi => get_blit_out (by omega)

theorem rd32_blit_out {b : Bytes n} {off off' : Nat} {src : List UInt8}
    (h : off' + 4 ≤ off ∨ off + src.length ≤ off') :
    (b.blit off src).rd32 off' = b.rd32 off' :=
  rd32_congr fun i hi => get_blit_out (by omega)

theorem rd16_wr16 {b : Bytes n} {off v : Nat} (h : off + 2 ≤ n) :
    (b.wr16 off v).rd16 off = v % 2 ^ 16 := by
  have h0 : (b.wr16 off v).get off = UInt8.ofNat v := by
    rw [wr16, get_blit_in (by omega) (by omega) (by simp)]; simp [le16]
  have h1 : (b.wr16 off v).get (off + 1) = UInt8.ofNat (v / 256) := by
    rw [wr16, get_blit_in (by omega) (by omega) (by simp)]; simp [le16]
  simp only [rd16, h0, h1, UInt8.toNat_ofNat']
  omega

theorem rd32_wr32 {b : Bytes n} {off v : Nat} (h : off + 4 ≤ n) :
    (b.wr32 off v).rd32 off = v % 2 ^ 32 := by
  have hb : ∀ i, i < 4 → (b.wr32 off v).get (off + i) = (le32 v).getD i 0 := by
    intro i hi
    rw [wr32, get_blit_in (by omega) (by omega) (by simp; omega), Nat.add_sub_cancel_left]
  have h0 := hb 0 (by omega)
  have h1 := hb 1 (by omega)
  have h2 := hb 2 (by omega)
  have h3 := hb 3 (by omega)
  simp only [le32, List.getD_cons_zero, List.getD_cons_succ, Nat.add_zero] at h0 h1 h2 h3
  simp only [rd32, h0, h1, h2, h3, UInt8.toNat_ofNat']
  omega

theorem rd16_wr16_out {b : Bytes n} {off off' v : Nat} (h : off' + 2 ≤ off ∨ off + 2 ≤ off') :
    (b.wr16 off v).rd16 off' = b.rd16 off' :=
  rd16_blit_out (by simpa using h)

theorem rd16_wr32_out {b : Bytes n} {off off' v : Nat} (h : off' + 2 ≤ off ∨ off + 4 ≤ off') :
    (b.wr32 off v).rd16 off' = b.rd16 off' :=
  rd16_blit_out (by simpa using h)

theorem rd32_wr16_out {b : Bytes n} {off off' v : Nat} (h : off' + 4 ≤ off ∨ off + 2 ≤ off') :
    (b.wr16 off v).rd32 off' = b.rd32 off' :=
  rd32_blit_out (by simpa using h)

theorem rd32_wr32_out {b : Bytes n} {off off' v : Nat} (h : off' + 4 ≤ off ∨ off + 4 ≤ off') :
    (b.wr32 off v).rd32 off' = b.rd32 off' :=
  rd32_blit_out (by simpa using h)

/-! ## Arrays of 32-bit words -/

/-- Store the words `f 0, …, f (k - 1)`. -/
def wr32s (b : Bytes n) (off : Nat) (f : Nat → Nat) : Nat → Bytes n
  | 0 => b
  | k + 1 => (b.wr32s off f k).wr32 (off + 4 * k) (f k)

theorem rd32_wr32s_out {b : Bytes n} {off off' k : Nat} {f : Nat → Nat}
    (h : off' + 4 ≤ off ∨ off + 4 * k ≤ off') :
    (b.wr32s off f k).rd32 off' = b.rd32 off' := by
  induction k with
  | zero => rfl
  | succ k ih => rw [wr32s, rd32_wr32_out (by omega), ih (by omega)]

theorem rd16_wr32s_out {b : Bytes n} {off off' k : Nat} {f : Nat → Nat}
    (h : off' + 2 ≤ off ∨ off + 4 * k ≤ off') :
    (b.wr32s off f k).rd16 off' = b.rd16 off' := by
  induction k with
  | zero => rfl
  | succ k ih => rw [wr32s, rd16_wr32_out (by omega), ih (by omega)]

theorem rd32_wr32s {b : Bytes n} {off k j : Nat} {f : Nat → Nat}
    (h : off + 4 * k ≤ n) (hj : j < k) :
    (b.wr32s off f k).rd32 (off + 4 * j) = f j % 2 ^ 32 := by
  induction k with
  | zero => omega
  | succ k ih =>
      rw [wr32s]
      rcases Nat.lt_or_eq_of_le (Nat.le_of_lt_succ hj) with hlt | rfl
      · rw [rd32_wr32_out (by omega), ih (by omega) hlt]
      · rw [rd32_wr32 (by omega)]

/-! ## Bits -/

/-- The mask `1 << (k % 8)`. -/
def mask (k : Nat) : UInt8 := 1 <<< UInt8.ofNat (k % 8)

/-- Whether bit `k` of the buffer is set: `b[k/8] & (1 << (k%8))` is nonzero. -/
def testBit (b : Bytes n) (k : Nat) : Bool := b.get (k / 8) &&& mask k != 0

/-- `b[k/8] |= 1 << (k%8)`. -/
def setBit (b : Bytes n) (k : Nat) : Bytes n := b.blit (k / 8) [b.get (k / 8) ||| mask k]

/-- `b[k/8] &= ~(1 << (k%8))`. -/
def clearBit (b : Bytes n) (k : Nat) : Bytes n := b.blit (k / 8) [b.get (k / 8) &&& ~~~ mask k]

theorem toNat_mask (k : Nat) : (mask k).toNat = 2 ^ (k % 8) := by
  have hlt : k % 8 < 8 := Nat.mod_lt _ (by decide)
  have hpow : 2 ^ (k % 8) < 2 ^ 8 := Nat.pow_lt_pow_right (by decide) hlt
  simp only [mask, UInt8.toNat_shiftLeft, UInt8.toNat_ofNat', UInt8.toNat_one, Nat.shiftLeft_eq]
  rw [Nat.mod_eq_of_lt (a := k % 8) (by omega), Nat.mod_mod, Nat.one_mul, Nat.mod_eq_of_lt hpow]

theorem testBit_eq (b : Bytes n) (k : Nat) :
    b.testBit k = (b.get (k / 8)).toNat.testBit (k % 8) := by
  have h : (b.get (k / 8) &&& mask k = 0) ↔ (b.get (k / 8)).toNat.testBit (k % 8) = false := by
    rw [← UInt8.toNat_inj, UInt8.toNat_and, toNat_mask, UInt8.toNat_zero, Nat.and_two_pow]
    cases (b.get (k / 8)).toNat.testBit (k % 8) <;> simp
  rw [testBit]
  cases hb : (b.get (k / 8)).toNat.testBit (k % 8) with
  | false => simpa using h.mpr hb
  | true =>
      have hne : b.get (k / 8) &&& mask k ≠ 0 := fun h0 => by simp [h.mp h0] at hb
      simpa using hne

@[simp] theorem testBit_zero_buf (k : Nat) : (zero n).testBit k = false := by
  simp [testBit_eq]

theorem testBit_setBit {b : Bytes n} {k : Nat} (j : Nat) (hk : k / 8 < n) :
    (b.setBit k).testBit j = (decide (j = k) || b.testBit j) := by
  rw [testBit_eq, testBit_eq]
  by_cases hbyte : j / 8 = k / 8
  · rw [setBit, hbyte, get_blit_in hk (Nat.le_refl _) (by simp)]
    simp only [Nat.sub_self, List.getD_cons_zero, UInt8.toNat_or, toNat_mask, Nat.testBit_or,
      Nat.testBit_two_pow]
    have hiff : (k % 8 = j % 8) ↔ (j = k) := by omega
    simp only [hiff]
    exact Bool.or_comm _ _
  · rw [setBit, get_blit_out (by simp; omega)]
    have hne : ¬ j = k := fun h => hbyte (by rw [h])
    simp [hne]

theorem testBit_clearBit {b : Bytes n} {k : Nat} (j : Nat) (hk : k / 8 < n) :
    (b.clearBit k).testBit j = (!decide (j = k) && b.testBit j) := by
  rw [testBit_eq, testBit_eq]
  by_cases hbyte : j / 8 = k / 8
  · rw [clearBit, hbyte, get_blit_in hk (Nat.le_refl _) (by simp)]
    have hj : j % 8 < 8 := Nat.mod_lt _ (by decide)
    have hmask := toNat_mask k
    have hk8 : k % 8 < 8 := Nat.mod_lt _ (by decide)
    have hnot : (~~~ mask k).toNat.testBit (j % 8) = !decide (k % 8 = j % 8) := by
      have hpow : 2 ^ (k % 8) < 2 ^ 8 := Nat.pow_lt_pow_right (by decide) hk8
      have hval : (~~~ mask k).toNat = 2 ^ 8 - (2 ^ (k % 8) + 1) := by
        rw [UInt8.toNat_not, hmask, UInt8.size]
        omega
      rw [hval, Nat.testBit_two_pow_sub_succ hpow]
      simp [hj, Nat.testBit_two_pow]
    simp only [Nat.sub_self, List.getD_cons_zero, UInt8.toNat_and, Nat.testBit_and, hnot]
    have hiff : (k % 8 = j % 8) ↔ (j = k) := by omega
    simp only [hiff]
    exact Bool.and_comm _ _
  · rw [clearBit, get_blit_out (by simp; omega)]
    have hne : ¬ j = k := fun h => hbyte (by rw [h])
    simp [hne]

end Bytes

end Xv6.Lib
