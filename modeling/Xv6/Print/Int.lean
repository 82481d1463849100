import Xv6.Print.Long
import Mathlib.Data.Nat.Digits.Lemmas

/-!
# Print — what %d and %x write

`printint` writes the digits from the lowest on into a buffer, and prints
the buffer from its end. The most negative `int` is its own negation, and
as a `uint` it is the absolute value that is to be printed.
-/

namespace Xv6.Print

/-! ## The code -/

/-- `printint` of console.c. -/
def kernelPrintint (xx base : UInt32) (sign : Bool) : List Char := printint kernelDigits xx base sign

/-- `printint` of printf.c. -/
def userPrintint (xx base : UInt32) (sign : Bool) : List Char := printint userDigits xx base sign

/-! ## Numerals -/

/-- The argument, as signed or unsigned. -/
def readAs (sign : Bool) (xx : UInt32) : Int := if sign then xx.toInt32.toInt else xx.toNat

/-- The digits of a number, the highest first; zero has one. -/
def numeralOf (digits : List Char) (base n : Nat) : List Char :=
  if n = 0 then [digits.getD 0 '?'] else ((Nat.digits base n).map (digits.getD · '?')).reverse

/-- **The canonical numeral** of a number: the sign only if it is negative,
and no zero at the front. -/
structure Canonical (digits : List Char) (base : Nat) (z : Int) (text : List Char) : Prop where
  text_eq : text = (if z < 0 then ['-'] else []) ++ numeralOf digits base z.natAbs
  leading : (numeralOf digits base z.natAbs).head? = some '0' → z = 0

section Loop

variable {digits : List Char} {x base : UInt32} {fuel : Nat}

/-- **The loop** is division with remainder. -/
theorem digitLoop_eq_digits (hb : 1 < base.toNat) (hx : x.toNat < base.toNat ^ fuel)
    (h0 : 0 < x.toNat) :
    digitLoop digits base fuel x = (Nat.digits base.toNat x.toNat).map (digits.getD · '?') := by
  induction fuel generalizing x with
  | zero =>
      rw [Nat.pow_zero] at hx
      omega
  | succ fuel ih =>
      have hdiv : (x / base).toNat = x.toNat / base.toNat := UInt32.toNat_div x base
      have hzero : x / base = 0 ↔ x.toNat / base.toNat = 0 := by
        rw [← UInt32.toNat_inj, hdiv]
        rfl
      rw [digitLoop, Nat.digits_def' hb h0, List.map_cons, UInt32.toNat_mod]
      by_cases hq : x / base = 0
      · rw [if_neg fun h => h hq, hzero.mp hq, Nat.digits_zero, List.map_nil]
      · have hpos : 0 < x.toNat / base.toNat := Nat.pos_of_ne_zero fun h => hq (hzero.mpr h)
        have hlt : x.toNat / base.toNat < base.toNat ^ fuel := by
          rw [Nat.pow_succ] at hx
          exact Nat.div_lt_of_lt_mul (Nat.mul_comm _ base.toNat ▸ hx)
        rw [if_pos hq, ih (hdiv.symm ▸ hlt) (hdiv.symm ▸ hpos), hdiv]

theorem digitLoop_zero (digits : List Char) (base : UInt32) (fuel : Nat) :
    digitLoop digits base (fuel + 1) 0 = [digits.getD 0 '?'] := by
  have hdiv : ¬ (0 : UInt32) / base ≠ 0 := by
    rw [not_not, ← UInt32.toNat_inj, UInt32.toNat_div]
    exact Nat.zero_div _
  have hmod : ((0 : UInt32) % base).toNat = 0 := by
    rw [UInt32.toNat_mod]
    exact Nat.zero_mod _
  rw [digitLoop, if_neg hdiv, hmod]

theorem toNat_lt_base_pow (hb : 1 < base.toNat) (x : UInt32) : x.toNat < base.toNat ^ 32 :=
  Nat.lt_of_lt_of_le x.toNat_lt (Nat.pow_le_pow_left hb 32)

/-- The buffer holds the numeral, from its end. -/
theorem digitLoop_eq_numeralOf (hb : 1 < base.toNat) (x : UInt32) :
    (digitLoop digits base 32 x).reverse = numeralOf digits base.toNat x.toNat := by
  by_cases h0 : x.toNat = 0
  · obtain rfl : x = 0 := UInt32.toNat_inj.mp h0
    rw [digitLoop_zero]
    rfl
  · rw [digitLoop_eq_digits hb (toNat_lt_base_pow hb x) (Nat.pos_of_ne_zero h0), numeralOf,
      if_neg h0]

theorem length_numeralOf_le {b n k : Nat} (hb : 1 < b) (hk : 0 < k) (hn : n < b ^ k) :
    (numeralOf digits b n).length ≤ k := by
  rw [numeralOf]
  split
  · exact hk
  · rw [List.length_reverse, List.length_map]
    exact (Nat.digits_length_le_iff hb n).mpr hn

end Loop

/-- The base is that of %d or that of %x. -/
def IsBase (base : UInt32) : Prop := base = 10 ∨ base = 16

theorem IsBase.bounds {base : UInt32} (h : IsBase base) : 1 < base.toNat ∧ base.toNat ≤ 16 ∧
    2 ^ 32 ≤ base.toNat ^ 10 := by
  rcases h with rfl | rfl <;> decide

/-- A table whose only zero is the first digit. -/
def OneZero (digits : List Char) : Prop := ∀ k, k < 16 → digits.getD k '?' = '0' → k = 0

instance (digits : List Char) : Decidable (OneZero digits) :=
  inferInstanceAs (Decidable (∀ k, k < 16 → _))

theorem numeralOf_leading {digits : List Char} {b n : Nat} (hd : OneZero digits) (hb : 1 < b)
    (hb16 : b ≤ 16) (h : (numeralOf digits b n).head? = some '0') : n = 0 := by
  by_contra hn
  rw [numeralOf, if_neg hn, List.head?_reverse, List.getLast?_map] at h
  obtain ⟨d, hd', hzero⟩ := Option.map_eq_some_iff.mp h
  have hne : Nat.digits b n ≠ [] := Nat.digits_ne_nil_iff_ne_zero.mpr hn
  have hlast : (Nat.digits b n).getLast hne = d := by
    rw [List.getLast?_eq_some_getLast hne] at hd'
    exact Option.some.inj hd'
  have hlt : d < b := Nat.digits_lt_base hb (hlast ▸ List.getLast_mem hne)
  have hd0 : d = 0 := hd d (by omega) hzero
  exact Nat.getLast_digit_ne_zero b hn (hlast.trans hd0)

/-! ## `printint` -/

/-- The argument is negative, and the sign asked for. -/
theorem readAs_neg_iff (sign : Bool) (xx : UInt32) :
    readAs sign xx < 0 ↔ (sign && decide (2 ^ 31 ≤ xx.toNat)) = true := by
  have hlt := xx.toNat_lt
  have hint : xx.toInt32.toInt = if 2 * xx.toNat < 2 ^ 32 then (xx.toNat : Int)
      else (xx.toNat : Int) - 2 ^ 32 := BitVec.toInt_eq_toNat_cond xx.toBitVec
  cases sign with
  | false =>
      rw [readAs, if_neg Bool.false_ne_true, Bool.false_and]
      exact ⟨fun h => absurd h (by omega), fun h => absurd h Bool.false_ne_true⟩
  | true =>
      rw [readAs, if_pos rfl, hint, Bool.true_and, decide_eq_true_eq]
      split <;> omega

/-- **What is printed after the sign** is the absolute value, also of the
most negative `int`. -/
theorem natAbs_readAs (sign : Bool) (xx : UInt32) :
    (readAs sign xx).natAbs =
      (if sign && decide (2 ^ 31 ≤ xx.toNat) then -xx else xx).toNat := by
  have hlt := xx.toNat_lt
  have hint : xx.toInt32.toInt = if 2 * xx.toNat < 2 ^ 32 then (xx.toNat : Int)
      else (xx.toNat : Int) - 2 ^ 32 := BitVec.toInt_eq_toNat_cond xx.toBitVec
  by_cases hneg : (sign && decide (2 ^ 31 ≤ xx.toNat)) = true
  · obtain ⟨rfl, hge⟩ := Bool.and_eq_true_iff.mp hneg
    rw [decide_eq_true_eq] at hge
    rw [if_pos hneg, readAs, if_pos rfl, hint, if_neg (by omega), UInt32.toNat_neg]
    show _ = (2 ^ 32 - xx.toNat) % 2 ^ 32
    omega
  · rw [if_neg hneg, readAs]
    cases sign with
    | false => rfl
    | true =>
        rw [Bool.true_and, decide_eq_true_eq] at hneg
        rw [if_pos rfl, hint, if_pos (by omega)]
        rfl

section Printint

variable {digits : List Char} {base : UInt32}

theorem printint_canonical_of (hd : OneZero digits) (hb : IsBase base) (xx : UInt32) (sign : Bool) :
    Canonical digits base.toNat (readAs sign xx) (printint digits xx base sign) := by
  obtain ⟨h1, h16, _⟩ := hb.bounds
  constructor
  · rw [printint, intBuf, natAbs_readAs, ← digitLoop_eq_numeralOf h1, List.reverse_append]
    by_cases hneg : (sign && decide (2 ^ 31 ≤ xx.toNat)) = true
    · rw [if_pos hneg, if_pos hneg, if_pos ((readAs_neg_iff sign xx).mpr hneg)]
      rfl
    · rw [if_neg hneg, if_neg hneg, if_neg fun h => hneg ((readAs_neg_iff sign xx).mp h)]
      rfl
  · intro hzero
    exact Int.natAbs_eq_zero.mp (numeralOf_leading hd h1 h16 hzero)

/-- Eleven characters are the most. -/
theorem length_intBuf_le (hb : IsBase base) (xx : UInt32) (sign : Bool) :
    (intBuf digits xx base sign).length ≤ 16 := by
  obtain ⟨h1, _, hpow⟩ := hb.bounds
  rw [intBuf, List.length_append]
  generalize (if sign && decide (2 ^ 31 ≤ xx.toNat) then -xx else xx) = x
  have hlen : (digitLoop digits base 32 x).length ≤ 10 := by
    rw [← List.length_reverse, digitLoop_eq_numeralOf h1]
    exact length_numeralOf_le h1 (by decide) (Nat.lt_of_lt_of_le x.toNat_lt hpow)
  have hsign : (if (sign && decide (2 ^ 31 ≤ xx.toNat)) = true then ['-'] else []).length ≤ 1 := by
    split
    · exact Nat.le_refl 1
    · exact Nat.zero_le 1
  omega

theorem printint_case (hb : IsBase base) (xx : UInt32) (sign : Bool) :
    (userPrintint xx base sign).map Char.toLower = kernelPrintint xx base sign := by
  obtain ⟨h1, h16, _⟩ := hb.bounds
  rw [userPrintint, kernelPrintint, printint, printint, List.map_reverse, intBuf, intBuf,
    List.map_append, digitLoop_case (by omega) h16]
  congr 2
  split <;> rfl

/-- **`printint`**, of the kernel and of the user library: for each word, as
signed or unsigned, in base 10 or 16, at most 16 characters are written
into the buffer, and the text is the canonical numeral, the same up to the
case of its letters. -/
theorem printint_canonical (hb : IsBase base) (xx : UInt32) (sign : Bool) :
    (intBuf kernelDigits xx base sign).length ≤ 16 ∧
    (intBuf userDigits xx base sign).length ≤ 16 ∧
    Canonical kernelDigits base.toNat (readAs sign xx) (kernelPrintint xx base sign) ∧
    Canonical userDigits base.toNat (readAs sign xx) (userPrintint xx base sign) ∧
    (userPrintint xx base sign).map Char.toLower = kernelPrintint xx base sign :=
  ⟨length_intBuf_le hb xx sign, length_intBuf_le hb xx sign,
    printint_canonical_of (by decide) hb xx sign, printint_canonical_of (by decide) hb xx sign,
    printint_case hb xx sign⟩

/-- The most negative `int`. -/
theorem printint_canonical_least :
    kernelPrintint 0x80000000 10 true = "-2147483648".toList ∧
      Canonical kernelDigits 10 (-2147483648) (kernelPrintint 0x80000000 10 true) :=
  ⟨by decide, (printint_canonical (.inl rfl) 0x80000000 true).2.2.1⟩

end Printint

end Xv6.Print
