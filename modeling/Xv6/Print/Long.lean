import Mathlib.Algebra.Order.Ring.Nat
import Mathlib.Data.Nat.Log

/-!
# Print — what %l writes

`printlong` prints a 64-bit value as two 32-bit halves, each with as many
digits as it needs and none to fill up. Read as one numeral the text is
the value if and only if the lower half needs all its eight digits, or the
upper one is zero and not printed.

The kernel and the user library have each a copy of the code, which differ
in the letters for the digits.
-/

namespace Xv6.Print

/-! ## The code -/

/-- `digits` of console.c. -/
def kernelDigits : List Char :=
  ['0', '1', '2', '3', '4', '5', '6', '7', '8', '9', 'a', 'b', 'c', 'd', 'e', 'f']

/-- `digits` of printf.c. -/
def userDigits : List Char :=
  ['0', '1', '2', '3', '4', '5', '6', '7', '8', '9', 'A', 'B', 'C', 'D', 'E', 'F']

/-- The loop of `printint`: what it stores in `buf`. A `uint` has at most
32 digits. -/
def digitLoop (digits : List Char) (base : UInt32) : (fuel : Nat) → UInt32 → List Char
  | 0, _ => []
  | fuel + 1, x =>
      digits.getD (x % base).toNat '?' ::
        if x / base ≠ 0 then digitLoop digits base fuel (x / base) else []

/-- What `printint` leaves in `buf`. -/
def intBuf (digits : List Char) (xx base : UInt32) (sign : Bool) : List Char :=
  let neg := sign && decide (2 ^ 31 ≤ xx.toNat)
  let x := if neg then -xx else xx
  digitLoop digits base 32 x ++ if neg then ['-'] else []

/-- `printint`; `buf` is printed from its end. -/
def printint (digits : List Char) (xx base : UInt32) (sign : Bool) : List Char :=
  (intBuf digits xx base sign).reverse

/-- `printlong`, which prints hexadecimal whatever its other arguments. -/
def printlong (digits : List Char) (xx : UInt64) : List Char :=
  let upper := (xx >>> 32).toUInt32
  let lower := (xx &&& 0xffffffff).toUInt32
  (if upper ≠ 0 then printint digits upper 16 false else []) ++ printint digits lower 16 false

/-- `printlong` of console.c. -/
def kernelPrintlong (xx : UInt64) : List Char := printlong kernelDigits xx

/-- `printlong` of printf.c. -/
def userPrintlong (xx : UInt64) : List Char := printlong userDigits xx

/-! ## Hexadecimal numerals -/

/-- The value of a digit, in either case. -/
def hexDigit (c : Char) : Option Nat :=
  if '0' ≤ c ∧ c ≤ '9' then some (c.toNat - '0'.toNat)
  else if 'a' ≤ c ∧ c ≤ 'f' then some (c.toNat - 'a'.toNat + 10)
  else if 'A' ≤ c ∧ c ≤ 'F' then some (c.toNat - 'A'.toNat + 10)
  else none

/-- Read on, `n` being the value of the digits so far. -/
def readFrom : Nat → List Char → Option Nat
  | n, [] => some n
  | n, c :: cs => (hexDigit c).bind fun d => readFrom (16 * n + d) cs

/-- The number a text denotes as a hexadecimal numeral. -/
def numeral (text : List Char) : Option Nat := if text = [] then none else readFrom 0 text

theorem readFrom_append (n : Nat) (s t : List Char) :
    readFrom n (s ++ t) = (readFrom n s).bind fun m => readFrom m t := by
  induction s generalizing n with
  | nil => rfl
  | cons c s ih =>
      rw [List.cons_append, readFrom, readFrom]
      cases hexDigit c with
      | none => rfl
      | some d => exact ih (16 * n + d)

/-- A table of digits, in either case. -/
def IsDigits (digits : List Char) : Prop := ∀ k, k < 16 → hexDigit (digits.getD k '?') = some k

instance (digits : List Char) : Decidable (IsDigits digits) :=
  inferInstanceAs (Decidable (∀ k, k < 16 → _))

theorem isDigits_kernel : IsDigits kernelDigits := by decide

theorem isDigits_user : IsDigits userDigits := by decide

/-! ## `printint` -/

section Printint

variable {digits : List Char} {x : UInt32} {fuel : Nat}

theorem toNat_div_sixteen (x : UInt32) : (x / 16).toNat = x.toNat / 16 := UInt32.toNat_div x 16

theorem div_sixteen_ne_zero : x / 16 ≠ 0 ↔ 16 ≤ x.toNat := by
  rw [Ne, ← UInt32.toNat_inj, toNat_div_sixteen]
  show ¬x.toNat / 16 = 0 ↔ _
  omega

/-- **The loop writes the digits**: read from the other end they denote
`x`. -/
theorem readFrom_digitLoop (hd : IsDigits digits) (hx : x.toNat < 16 ^ fuel) (hf : 0 < fuel)
    (n : Nat) : readFrom n (digitLoop digits 16 fuel x).reverse =
      some (n * 16 ^ (digitLoop digits 16 fuel x).length + x.toNat) := by
  induction fuel generalizing x n with
  | zero => omega
  | succ fuel ih =>
      have hmod : (x % 16).toNat = x.toNat % 16 := UInt32.toNat_mod x 16
      have hdigit : hexDigit (digits.getD (x % 16).toNat '?') = some (x.toNat % 16) := by
        rw [hmod]
        exact hd _ (Nat.mod_lt _ (by decide))
      rw [digitLoop, List.reverse_cons, readFrom_append]
      by_cases h16 : 16 ≤ x.toNat
      · have hq : x / 16 ≠ 0 := div_sixteen_ne_zero.mpr h16
        have hlt : (x / 16).toNat < 16 ^ fuel := by
          rw [toNat_div_sixteen]
          rw [Nat.pow_succ] at hx
          omega
        have hf' : 0 < fuel := by
          by_contra h0
          obtain rfl : fuel = 0 := by omega
          omega
        rw [if_pos hq, ih hlt hf', toNat_div_sixteen, List.length_cons, Option.bind_some, readFrom,
          hdigit, Option.bind_some, readFrom, Nat.pow_succ]
        have hdm := Nat.div_add_mod x.toNat 16
        have hmul : n * (16 ^ (digitLoop digits 16 fuel (x / 16)).length * 16) =
            16 * (n * 16 ^ (digitLoop digits 16 fuel (x / 16)).length) := by
          rw [← Nat.mul_assoc, Nat.mul_comm]
        rw [hmul]
        congr 1
        omega
      · rw [if_neg fun h0 => h16 (div_sixteen_ne_zero.mp h0), List.reverse_nil, readFrom,
          Option.bind_some, readFrom, hdigit, Option.bind_some, readFrom, List.length_singleton,
          Nat.pow_one, Nat.mod_eq_of_lt (by omega), Nat.mul_comm]

/-- The loop writes no digit too many or too few. -/
theorem length_digitLoop (hx : x.toNat < 16 ^ fuel) (hf : 0 < fuel) :
    x.toNat < 16 ^ (digitLoop digits 16 fuel x).length ∧
      (1 < (digitLoop digits 16 fuel x).length →
        16 ^ (digitLoop digits 16 fuel x).length ≤ 16 * x.toNat) := by
  induction fuel generalizing x with
  | zero => omega
  | succ fuel ih =>
      rw [digitLoop, List.length_cons]
      by_cases h16 : 16 ≤ x.toNat
      · have hlt : (x / 16).toNat < 16 ^ fuel := by
          rw [toNat_div_sixteen]
          rw [Nat.pow_succ] at hx
          omega
        have hf' : 0 < fuel := by
          by_contra h0
          obtain rfl : fuel = 0 := by omega
          omega
        obtain ⟨h1, h2⟩ := ih hlt hf'
        rw [if_pos (div_sixteen_ne_zero.mpr h16)]
        rw [toNat_div_sixteen] at h1 h2
        set n := (digitLoop digits 16 fuel (x / 16)).length with hn
        rw [Nat.pow_succ]
        refine ⟨by omega, fun _ => ?_⟩
        by_cases hone : 1 < n
        · have := h2 hone
          omega
        · have hle : 16 ^ n ≤ 16 ^ 1 := Nat.pow_le_pow_right (by decide) (by omega)
          omega
      · rw [if_neg fun h0 => h16 (div_sixteen_ne_zero.mp h0)]
        exact ⟨by rw [List.length_nil, Nat.zero_add, Nat.pow_one]; omega,
          fun h => absurd h (by decide)⟩

theorem printint_hex (digits : List Char) (x : UInt32) :
    printint digits x 16 false = (digitLoop digits 16 32 x).reverse := by
  rw [printint, intBuf, Bool.false_and]
  simp

theorem toNat_lt_pow (x : UInt32) : x.toNat < 16 ^ 32 :=
  Nat.lt_trans (UInt32.toNat_lt x) (by decide)

/-- **`printint`** writes its argument in hexadecimal. -/
theorem readFrom_printint (hd : IsDigits digits) (x : UInt32) (n : Nat) :
    readFrom n (printint digits x 16 false) =
      some (n * 16 ^ (printint digits x 16 false).length + x.toNat) := by
  rw [printint_hex, List.length_reverse]
  exact readFrom_digitLoop hd (toNat_lt_pow x) (by decide) n

/-- Eight digits are what the largest values need. -/
theorem length_printint_eq_eight (digits : List Char) (x : UInt32) :
    (printint digits x 16 false).length = 8 ↔ 2 ^ 28 ≤ x.toNat := by
  obtain ⟨h1, h2⟩ := @length_digitLoop digits x 32 (toNat_lt_pow x) (by decide)
  rw [printint_hex, List.length_reverse]
  set n := (digitLoop digits 16 32 x).length with hn
  have h32 := UInt32.toNat_lt x
  constructor
  · intro h8
    have := h2 (by omega)
    rw [h8] at this
    omega
  · intro hge
    have hlo : 8 ≤ n := by
      by_contra hlt
      have hle : 16 ^ n ≤ 16 ^ 7 := Nat.pow_le_pow_right (by decide) (by omega)
      omega
    by_contra hne
    have hle : 16 ^ 9 ≤ 16 ^ n := Nat.pow_le_pow_right (by decide) (by omega)
    have := h2 (by omega)
    omega

theorem printint_ne_nil (digits : List Char) (x : UInt32) : printint digits x 16 false ≠ [] := by
  rw [printint_hex, digitLoop, List.reverse_cons]
  exact List.concat_ne_nil _ _

end Printint

/-! ## `printlong` -/

section Printlong

variable {digits : List Char}

theorem toNat_upper (xx : UInt64) : (xx >>> 32).toUInt32.toNat = xx.toNat / 2 ^ 32 := by
  have hlt := UInt64.toNat_lt xx
  rw [UInt64.toNat_toUInt32, UInt64.toNat_shiftRight]
  show xx.toNat >>> 32 % 2 ^ 32 = _
  rw [Nat.shiftRight_eq_div_pow, Nat.mod_eq_of_lt (by omega)]

theorem toNat_lower (xx : UInt64) : (xx &&& 0xffffffff).toUInt32.toNat = xx.toNat % 2 ^ 32 := by
  rw [UInt64.toNat_toUInt32, UInt64.toNat_and]
  show (xx.toNat &&& 2 ^ 32 - 1) % 2 ^ 32 = _
  rw [Nat.and_two_pow_sub_one_eq_mod, Nat.mod_mod]

/-- **What the text denotes**: the upper half is shifted by as many digits
as the lower one has. -/
theorem numeral_printlong (hd : IsDigits digits) (xx : UInt64) :
    numeral (printlong digits xx) =
      some (xx.toNat / 2 ^ 32 *
        16 ^ (printint digits (xx &&& 0xffffffff).toUInt32 16 false).length +
          xx.toNat % 2 ^ 32) := by
  have hne : printlong digits xx ≠ [] := fun h =>
    printint_ne_nil digits _ (List.append_eq_nil_iff.mp h).2
  rw [numeral, if_neg hne, printlong, readFrom_append]
  by_cases hup : (xx >>> 32).toUInt32 = 0
  · have hzero : xx.toNat / 2 ^ 32 = 0 := by rw [← toNat_upper, hup]; rfl
    rw [if_neg (fun h => h hup), readFrom, Option.bind_some, readFrom_printint hd, toNat_lower,
      hzero]
  · rw [if_pos hup, readFrom_printint hd, Option.bind_some, Nat.zero_mul, Nat.zero_add,
      readFrom_printint hd, toNat_lower, toNat_upper]

/-- Where the text is a numeral of the value. -/
theorem numeral_printlong_eq (hd : IsDigits digits) (xx : UInt64) :
    numeral (printlong digits xx) = some xx.toNat ↔
      xx.toNat < 2 ^ 32 ∨ 2 ^ 28 ≤ xx.toNat % 2 ^ 32 := by
  rw [numeral_printlong hd, ← toNat_lower, ← length_printint_eq_eight digits, toNat_lower,
    Option.some_inj]
  set n := (printint digits (xx &&& 0xffffffff).toUInt32 16 false).length
  have hdm := Nat.div_add_mod xx.toNat (2 ^ 32)
  constructor
  · intro h
    by_cases hlt : xx.toNat < 2 ^ 32
    · exact .inl hlt
    -- the upper half is not zero: its factors on the two sides are equal
    · have hpos : 0 < xx.toNat / 2 ^ 32 := Nat.div_pos (by omega) (by decide)
      have heq : xx.toNat / 2 ^ 32 * 16 ^ n = xx.toNat / 2 ^ 32 * 16 ^ 8 := by
        rw [Nat.mul_comm _ (16 ^ 8)]
        show _ = 2 ^ 32 * _
        omega
      exact .inr (Nat.pow_right_injective (le_refl 16 |>.trans' (by decide))
        (Nat.eq_of_mul_eq_mul_left hpos heq))
  · rintro (hlt | h8)
    · rw [Nat.div_eq_of_lt hlt, Nat.zero_mul, Nat.zero_add, Nat.mod_eq_of_lt hlt]
    · rw [h8, Nat.mul_comm]
      show 2 ^ 32 * _ + _ = _
      exact hdm

/-- The two tables are one up to the case of the letters, and so are the
texts. -/
theorem digitLoop_case {base : UInt32} (h0 : 0 < base.toNat) (hbase : base.toNat ≤ 16) (fuel : Nat)
    (x : UInt32) :
    (digitLoop userDigits base fuel x).map Char.toLower = digitLoop kernelDigits base fuel x := by
  have hcase : ∀ k, k < 16 → (userDigits.getD k '?').toLower = kernelDigits.getD k '?' := by decide
  induction fuel generalizing x with
  | zero => rfl
  | succ fuel ih =>
      have hmod : (x % base).toNat < 16 := by
        rw [UInt32.toNat_mod]
        exact Nat.lt_of_lt_of_le (Nat.mod_lt _ h0) hbase
      rw [digitLoop, digitLoop, List.map_cons, hcase _ hmod]
      by_cases hq : x / base ≠ 0
      · rw [if_pos hq, if_pos hq, ih]
      · rw [if_neg hq, if_neg hq, List.map_nil]

theorem printlong_case (xx : UInt64) :
    (userPrintlong xx).map Char.toLower = kernelPrintlong xx := by
  rw [userPrintlong, kernelPrintlong, printlong, printlong, List.map_append, printint_hex,
    printint_hex, printint_hex, printint_hex, List.map_reverse,
    digitLoop_case (by decide) (by decide)]
  by_cases hup : (xx >>> 32).toUInt32 ≠ 0
  · rw [if_pos hup, if_pos hup, List.map_reverse, digitLoop_case (by decide) (by decide)]
  · rw [if_neg hup, if_neg hup, List.map_nil]

end Printlong

/-- The values that `printlong` writes with all the digits needed. -/
def Padded (xx : UInt64) : Prop := xx.toNat < 2 ^ 32 ∨ 2 ^ 28 ≤ xx.toNat % 2 ^ 32

/-- Two of them are told apart by their texts. -/
theorem Padded.text_inj {digits : List Char} {xx yy : UInt64} (hx : Padded xx) (hy : Padded yy)
    (hd : IsDigits digits) (heq : printlong digits xx = printlong digits yy) : xx = yy := by
  have hxx := (numeral_printlong_eq hd xx).mpr hx
  have hyy := (numeral_printlong_eq hd yy).mpr hy
  rw [heq, hyy, Option.some_inj] at hxx
  exact (UInt64.toNat_inj.mp hxx).symm

/-- **%l**: that the kernel and a user program both write a numeral that
denotes the value, the same one up to the case of its letters, holds for
the values below 2³² and for those whose lower half needs eight digits, and
for no other; no two of these have one text. -/
theorem printlong_denotes (xx : UInt64) :
    ((numeral (kernelPrintlong xx) = some xx.toNat ∧ numeral (userPrintlong xx) = some xx.toNat ∧
        (userPrintlong xx).map Char.toLower = kernelPrintlong xx) ↔ Padded xx) ∧
      ∀ yy, Padded xx → Padded yy →
        kernelPrintlong xx = kernelPrintlong yy ∨ userPrintlong xx = userPrintlong yy →
          xx = yy := by
  refine ⟨⟨fun h => (numeral_printlong_eq isDigits_kernel xx).mp h.1, fun h => ?_⟩, ?_⟩
  · exact ⟨(numeral_printlong_eq isDigits_kernel xx).mpr h,
      (numeral_printlong_eq isDigits_user xx).mpr h, printlong_case xx⟩
  · rintro yy hx hy (heq | heq)
    · exact hx.text_inj hy isDigits_kernel heq
    · exact hx.text_inj hy isDigits_user heq

/-- 2³² + 1 is written as 11, like seventeen. -/
theorem printlong_unpadded :
    kernelPrintlong 0x100000001 = ['1', '1'] ∧ userPrintlong 0x100000001 = ['1', '1'] ∧
      numeral (kernelPrintlong 0x100000001) ≠ some (0x100000001 : UInt64).toNat ∧
      kernelPrintlong 0x100000001 = kernelPrintlong 0x11 := by
  decide

end Xv6.Print
