import Mathlib.Order.Interval.Finset.Nat

/-!
# Rand — a uniform draw

`random_at_most` cuts the raw outputs of the generator into bins of one
size, one for each value, and draws again where an output falls behind
the last bin. In 32-bit arithmetic the number of raw outputs, 2^31, only
just fits.
-/

namespace Xv6.Rand

/-- `RAND_MAX`. -/
def RAND_MAX : UInt32 := 0x7fffffff

/-- `num_bins`. -/
def numBins (max : UInt32) : UInt32 := max + 1

/-- `num_rand`. -/
def numRand : UInt32 := RAND_MAX + 1

/-- `bin_size`. -/
def binSize (max : UInt32) : UInt32 := numRand / numBins max

/-- `defect`. -/
def defect (max : UInt32) : UInt32 := numRand % numBins max

/-- The condition of the loop: the output is drawn again. -/
def rejects (max x : UInt32) : Bool := numRand - defect max ≤ x

/-- `random_at_most`, on a generator that returns `genrand 0`, `genrand 1`,
… and from output `i` on: at most `fuel` rounds. -/
def randomAtMost (max : UInt32) (genrand : Nat → UInt32) : (fuel i : Nat) → Option UInt32
  | 0, _ => none
  | fuel + 1, i =>
      if rejects max (genrand i) then randomAtMost max genrand fuel (i + 1)
      else some (genrand i / binSize max)

/-! ## The bins -/

section Bins

variable {max : UInt32}

theorem toNat_numRand : numRand.toNat = 2 ^ 31 := rfl

theorem toNat_numBins (h : max ≤ RAND_MAX) : (numBins max).toNat = max.toNat + 1 := by
  have hle : max.toNat ≤ 2147483647 := UInt32.le_iff_toNat_le.mp h
  rw [numBins, UInt32.toNat_add, UInt32.toNat_one, Nat.mod_eq_of_lt (by omega)]

theorem toNat_binSize (h : max ≤ RAND_MAX) : (binSize max).toNat = 2 ^ 31 / (max.toNat + 1) := by
  rw [binSize, UInt32.toNat_div, toNat_numRand, toNat_numBins h]

theorem toNat_defect (h : max ≤ RAND_MAX) : (defect max).toNat = 2 ^ 31 % (max.toNat + 1) := by
  rw [defect, UInt32.toNat_mod, toNat_numRand, toNat_numBins h]

theorem defect_le (h : max ≤ RAND_MAX) : defect max ≤ numRand := by
  rw [UInt32.le_iff_toNat_le, toNat_defect h, toNat_numRand]
  exact Nat.mod_le _ _

theorem binSize_pos (h : max ≤ RAND_MAX) : 0 < (binSize max).toNat := by
  have hle : max.toNat ≤ 2147483647 := UInt32.le_iff_toNat_le.mp h
  rw [toNat_binSize h]
  exact Nat.div_pos (by omega) (by omega)

/-- The subtraction in the loop condition does not wrap: what is accepted
is what lies in a bin. -/
theorem toNat_numRand_sub (h : max ≤ RAND_MAX) :
    (numRand - defect max).toNat = (binSize max).toNat * (max.toNat + 1) := by
  rw [UInt32.toNat_sub_of_le _ _ (defect_le h), toNat_defect h, toNat_numRand, toNat_binSize h]
  have := Nat.div_add_mod (2 ^ 31) (max.toNat + 1)
  rw [Nat.mul_comm] at this
  omega

theorem rejects_eq_false_iff (h : max ≤ RAND_MAX) {x : UInt32} :
    rejects max x = false ↔ x.toNat < (binSize max).toNat * (max.toNat + 1) := by
  rw [rejects, decide_eq_false_iff_not, UInt32.le_iff_toNat_le, toNat_numRand_sub h, Nat.not_le]

/-- An accepted output is mapped into the range. -/
theorem div_binSize_le (h : max ≤ RAND_MAX) {x : UInt32} (hx : rejects max x = false) :
    x / binSize max ≤ max := by
  rw [rejects_eq_false_iff h] at hx
  rw [UInt32.le_iff_toNat_le, UInt32.toNat_div]
  exact Nat.lt_succ_iff.mp (Nat.div_lt_of_lt_mul hx)

/-- What one round makes of an output: the value that it is mapped to, or
`none` where it is drawn again. -/
def draw (max x : UInt32) : Option UInt32 := randomAtMost max (fun _ => x) 1 0

theorem draw_eq_some_iff {x v : UInt32} :
    draw max x = some v ↔ rejects max x = false ∧ x / binSize max = v := by
  simp only [draw, randomAtMost]
  cases rejects max x with
  | true => simp
  | false => simp

theorem draw_eq_none_iff {x : UInt32} : draw max x = none ↔ rejects max x = true := by
  simp only [draw, randomAtMost]
  cases rejects max x with
  | true => simp
  | false => simp

/-- The raw outputs of `genrand`. -/
def outputs : Finset Nat := Finset.range (2 ^ 31)

/-- The raw outputs that are mapped to `v`. -/
def bin (max v : UInt32) : Finset Nat :=
  outputs.filter fun n => draw max (UInt32.ofNat n) = some v

/-- **A bin is an interval** of the raw outputs. -/
theorem bin_eq (h : max ≤ RAND_MAX) {v : UInt32} (hv : v ≤ max) :
    bin max v = Finset.Ico (v.toNat * (binSize max).toNat) ((v.toNat + 1) * (binSize max).toNat) := by
  have hb := binSize_pos h
  have hv' : v.toNat ≤ max.toNat := UInt32.le_iff_toNat_le.mp hv
  -- the last bin ends before the raw outputs do
  have hend : (v.toNat + 1) * (binSize max).toNat ≤ (binSize max).toNat * (max.toNat + 1) := by
    rw [Nat.mul_comm]
    exact Nat.mul_le_mul_left _ (by omega)
  have hall : (binSize max).toNat * (max.toNat + 1) ≤ 2 ^ 31 := by
    rw [toNat_binSize h]
    exact Nat.div_mul_le_self _ _
  ext n
  rw [bin, outputs, Finset.mem_filter, Finset.mem_range, Finset.mem_Ico, draw_eq_some_iff]
  constructor
  · rintro ⟨hn, hacc, hdiv⟩
    have hto : (UInt32.ofNat n).toNat = n := UInt32.toNat_ofNat_of_lt' (Nat.lt_trans hn (by decide))
    have hq := congrArg UInt32.toNat hdiv
    rw [UInt32.toNat_div, hto] at hq
    rw [← hq]
    exact ⟨Nat.div_mul_le_self _ _, (Nat.div_lt_iff_lt_mul hb).mp (Nat.lt_succ_self _)⟩
  · rintro ⟨hlo, hhi⟩
    have hn : n < 2 ^ 31 := by omega
    have hto : (UInt32.ofNat n).toNat = n := UInt32.toNat_ofNat_of_lt' (Nat.lt_trans hn (by decide))
    refine ⟨hn, ?_, UInt32.toNat_inj.mp ?_⟩
    · rw [rejects_eq_false_iff h, hto]
      omega
    · rw [UInt32.toNat_div, hto]
      exact Nat.div_eq_of_lt_le hlo hhi

/-- **Every value has as many raw outputs.** -/
theorem card_bin (h : max ≤ RAND_MAX) {v : UInt32} (hv : v ≤ max) :
    (bin max v).card = (binSize max).toNat := by
  rw [bin_eq h hv, Nat.card_Ico, Nat.succ_mul, Nat.add_sub_cancel_left]

/-- The raw outputs that are drawn again. -/
def rejected (max : UInt32) : Finset Nat :=
  outputs.filter fun n => draw max (UInt32.ofNat n) = none

theorem card_rejected (h : max ≤ RAND_MAX) : (rejected max).card < max.toNat + 1 := by
  have hlo : rejected max ⊆ Finset.Ico ((binSize max).toNat * (max.toNat + 1)) (2 ^ 31) := by
    intro n hn
    obtain ⟨hn, hrej⟩ := Finset.mem_filter.mp hn
    have hn : n < 2 ^ 31 := Finset.mem_range.mp hn
    have hto : (UInt32.ofNat n).toNat = n :=
      UInt32.toNat_ofNat_of_lt' (Nat.lt_trans hn (by decide))
    rw [Finset.mem_Ico]
    refine ⟨?_, hn⟩
    by_contra hlt
    rw [draw_eq_none_iff, ← Bool.not_eq_false, rejects_eq_false_iff h, hto] at hrej
    omega
  have hcard := Finset.card_le_card hlo
  rw [Nat.card_Ico, toNat_binSize h] at hcard
  have hdiv := Nat.div_add_mod (2 ^ 31) (max.toNat + 1)
  have hmod := Nat.mod_lt (2 ^ 31) (Nat.succ_pos max.toNat)
  rw [Nat.mul_comm] at hdiv
  rw [Nat.succ_eq_add_one] at hmod
  omega

end Bins

/-! ## The loop -/

section Loop

variable {max : UInt32} {genrand : Nat → UInt32}

/-- The loop returns what the first accepted output is mapped to. -/
theorem randomAtMost_eq_some_iff {fuel i : Nat} {v : UInt32} :
    randomAtMost max genrand fuel i = some v ↔
      ∃ n, n < fuel ∧ (∀ j, j < n → draw max (genrand (i + j)) = none) ∧
        draw max (genrand (i + n)) = some v := by
  induction fuel generalizing i with
  | zero => simp [randomAtMost]
  | succ fuel ih =>
      have hshift : ∀ j, i + (j + 1) = i + 1 + j := fun j => by omega
      rw [randomAtMost]
      cases hrej : rejects max (genrand i) with
      | true =>
          -- the output is drawn again, and the rest of the stream decides
          have hfirst : draw max (genrand i) = none := draw_eq_none_iff.mpr hrej
          rw [if_pos rfl, ih]
          constructor
          · rintro ⟨n, hn, hnone, hsome⟩
            refine ⟨n + 1, by omega, fun j hj => ?_, by rwa [hshift]⟩
            cases j with
            | zero => exact hfirst
            | succ j =>
                rw [hshift]
                exact hnone j (by omega)
          · rintro ⟨n, hn, hnone, hsome⟩
            cases n with
            | zero =>
                rw [Nat.add_zero, hfirst] at hsome
                cases hsome
            | succ n =>
                refine ⟨n, by omega, fun j hj => ?_, by rwa [← hshift]⟩
                rw [← hshift]
                exact hnone (j + 1) (by omega)
      | false =>
          have hfirst : draw max (genrand i) = some (genrand i / binSize max) :=
            draw_eq_some_iff.mpr ⟨hrej, rfl⟩
          rw [if_neg Bool.false_ne_true]
          constructor
          · intro heq
            exact ⟨0, by omega, fun j hj => by omega, hfirst.trans heq⟩
          · rintro ⟨n, _, hnone, hsome⟩
            cases n with
            | zero => exact hfirst.symm.trans hsome
            | succ n =>
                have hno := hnone 0 (by omega)
                rw [Nat.add_zero, hfirst] at hno
                cases hno

end Loop

/-- **`random_at_most` is uniform.** For every bound nothing wraps and the
divisor is not zero; every value of the range is drawn from `bin_size` raw
outputs, every accepted output is mapped into the range, fewer outputs are
drawn again than there are values; the call returns what the first accepted
output is mapped to, so on a stream that has one it returns a value of the
range. -/
theorem random_at_most_uniform (max : UInt32) (h : max ≤ RAND_MAX) :
    (numBins max).toNat = max.toNat + 1 ∧ numRand.toNat = 2 ^ 31 ∧
      (binSize max).toNat = 2 ^ 31 / (max.toNat + 1) ∧ binSize max ≠ 0 ∧
      (numRand - defect max).toNat = 2 ^ 31 - (defect max).toNat ∧
      (∀ v, v ≤ max → (bin max v).card = (binSize max).toNat) ∧
      (∀ x v, draw max x = some v → v ≤ max) ∧
      (rejected max).card < max.toNat + 1 ∧
      ∀ genrand : Nat → UInt32,
        (∀ fuel v, randomAtMost max genrand fuel 0 = some v ↔
          ∃ n, n < fuel ∧ (∀ j, j < n → draw max (genrand j) = none) ∧
            draw max (genrand n) = some v) ∧
        ((∃ n, draw max (genrand n) ≠ none) →
          ∃ v, v ≤ max ∧ ∃ rounds, ∀ fuel, rounds ≤ fuel →
            randomAtMost max genrand fuel 0 = some v) := by
  have hrange : ∀ x v, draw max x = some v → v ≤ max := by
    intro x v hx
    obtain ⟨hacc, rfl⟩ := draw_eq_some_iff.mp hx
    exact div_binSize_le h hacc
  have hcall : ∀ (genrand : Nat → UInt32) fuel v, randomAtMost max genrand fuel 0 = some v ↔
      ∃ n, n < fuel ∧ (∀ j, j < n → draw max (genrand j) = none) ∧
        draw max (genrand n) = some v := by
    intro genrand fuel v
    rw [randomAtMost_eq_some_iff]
    simp only [Nat.zero_add]
  refine ⟨toNat_numBins h, toNat_numRand, toNat_binSize h, fun h0 => ?_, ?_,
    fun v hv => card_bin h hv, hrange, card_rejected h, fun genrand => ⟨hcall genrand, fun hex => ?_⟩⟩
  · have := binSize_pos h
    rw [h0] at this
    exact absurd this (by decide)
  · rw [UInt32.toNat_sub_of_le _ _ (defect_le h), toNat_numRand]
  · -- the first accepted output
    obtain ⟨v, hv⟩ := Option.ne_none_iff_exists'.mp (Nat.find_spec hex)
    refine ⟨v, hrange _ v hv, Nat.find hex + 1, fun fuel hfuel => ?_⟩
    refine (hcall genrand fuel v).mpr ⟨Nat.find hex, by omega, fun j hj => ?_, hv⟩
    exact not_not.mp (Nat.find_min hex hj)

/-- The bound of the scheduler's lottery, and a stream whose first output is
drawn again. -/
theorem random_at_most_uniform_lottery : (982343221 : UInt32) ≤ RAND_MAX ∧
    (bin 982343221 0).card = 2 ∧
    randomAtMost 982343221 (fun i => if i = 0 then 0x7fffffff else 7) 2 0 = some 3 := by
  have h : (982343221 : UInt32) ≤ RAND_MAX := by decide
  obtain ⟨_, _, _, _, _, hbin, _, _, hstream⟩ := random_at_most_uniform 982343221 h
  refine ⟨h, (hbin 0 (by decide)).trans (by decide), ((hstream _).1 2 3).mpr ⟨1, by decide, ?_, ?_⟩⟩
  · intro j hj
    obtain rfl : j = 0 := by omega
    decide
  · decide

end Xv6.Rand
