import Mathlib.Data.Int.CardIntervalMod
import Mathlib.Algebra.Order.BigOperators.Group.Finset

/-!
# Residues — how often a draw falls into a range of residues

Of the numbers below `n`, each residue modulo `m` is taken `n / m` times
or once more. A range of `t` residues is therefore hit between
`n / m * t` and `⌈n / m⌉ * t` times.
-/

namespace Xv6.Lib

/-- The numbers below `n` with residue `v`. -/
theorem card_mod_eq {n m v : Nat} (hv : v < m) :
    n / m ≤ ((Finset.range n).filter fun x => x % m = v).card ∧
      ((Finset.range n).filter fun x => x % m = v).card ≤ (n + m - 1) / m := by
  have hcount : ((Finset.range n).filter fun x => x % m = v).card =
      n / m + if v < n % m then 1 else 0 := by
    have := Nat.count_modEq_card n (r := m) (by omega) v
    rw [Nat.count_eq_card_filter_range, Nat.mod_eq_of_lt hv] at this
    rw [← this]
    congr 1
    ext x
    simp [Nat.ModEq, Nat.mod_eq_of_lt hv]
  rw [hcount]
  refine ⟨by omega, ?_⟩
  split
  · rename_i hlt
    -- a residue above `v` is left over, so the division is not exact
    have hdm := Nat.div_add_mod n m
    rw [Nat.le_div_iff_mul_le (by omega), Nat.add_mul, Nat.one_mul, Nat.mul_comm]
    omega
  · exact Nat.div_le_div_right (by omega)

/-- **A range of residues.** -/
theorem card_mod_range {n m a t : Nat} (h : a + t ≤ m) :
    n / m * t ≤ ((Finset.range n).filter fun x => a ≤ x % m ∧ x % m < a + t).card ∧
      ((Finset.range n).filter fun x => a ≤ x % m ∧ x % m < a + t).card ≤ (n + m - 1) / m * t := by
  have hfib : ((Finset.range n).filter fun x => a ≤ x % m ∧ x % m < a + t).card =
      ∑ v ∈ Finset.Ico a (a + t), ((Finset.range n).filter fun x => x % m = v).card := by
    rw [Finset.card_eq_sum_card_fiberwise (f := (· % m)) (t := Finset.Ico a (a + t))]
    · refine Finset.sum_congr rfl fun v hv => ?_
      rw [Finset.filter_filter]
      congr 1
      refine Finset.filter_congr fun x _ => ?_
      have := Finset.mem_Ico.mp hv
      constructor
      · exact And.right
      · intro hx
        exact ⟨by omega, hx⟩
    · intro x hx
      have := (Finset.mem_filter.mp hx).2
      exact Finset.mem_coe.mpr (Finset.mem_Ico.mpr this)
  have hcard : (Finset.Ico a (a + t)).card = t := by simp
  rw [hfib]
  constructor
  · calc n / m * t = ∑ _v ∈ Finset.Ico a (a + t), n / m := by
          rw [Finset.sum_const_nat fun _ _ => rfl, hcard, Nat.mul_comm]
      _ ≤ _ := Finset.sum_le_sum fun v hv => (card_mod_eq (by have := Finset.mem_Ico.mp hv; omega)).1
  · calc _ ≤ ∑ _v ∈ Finset.Ico a (a + t), (n + m - 1) / m :=
          Finset.sum_le_sum fun v hv => (card_mod_eq (by have := Finset.mem_Ico.mp hv; omega)).2
      _ = (n + m - 1) / m * t := by rw [Finset.sum_const_nat fun _ _ => rfl, hcard, Nat.mul_comm]

end Xv6.Lib
