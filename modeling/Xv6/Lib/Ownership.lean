import Mathlib.Data.Set.Insert
import Mathlib.Data.Finset.Card
import Mathlib.Order.Interval.Finset.Nat
import Xv6.Lib.Exec

/-!
# Ownership — a bitmap and the slots that refer to its cells

Cells `lo ≤ b < hi` are handed out by a bitmap and referred to by slots
of any type `κ`; a slot that refers to nothing holds `0`. `Owned` says
that the bitmap marks exactly the cells below `lo`, the cells some slot
refers to and the cells of `extra`, and that no cell is referred to
twice. `extra` are cells in transit: allocated and not yet attached to a
slot, or detached and not yet freed.
-/

namespace Xv6.Lib

variable {κ : Type} {lo hi : Nat} {bit : Nat → Bool} {ref : κ → Nat} {extra : Set Nat}

structure Owned (lo hi : Nat) (bit : Nat → Bool) (ref : κ → Nat) (extra : Set Nat) : Prop where
  pos : 0 < lo
  range : ∀ k, ref k ≠ 0 → lo ≤ ref k ∧ ref k < hi
  inj : ∀ k l, ref k ≠ 0 → ref k = ref l → k = l
  extra_range : ∀ b ∈ extra, lo ≤ b ∧ b < hi
  extra_new : ∀ b ∈ extra, ∀ k, ref k ≠ b
  bit_iff : ∀ b, b < hi → (bit b = true ↔ b < lo ∨ b ∈ extra ∨ ∃ k, ref k = b)

namespace Owned

/-- Only the bits below `hi` matter. -/
theorem congr {bit' : Nat → Bool} {ref' : κ → Nat} (h : Owned lo hi bit ref extra)
    (hbit : ∀ b, b < hi → bit' b = bit b) (href : ∀ k, ref' k = ref k) :
    Owned lo hi bit' ref' extra := by
  obtain rfl : ref' = ref := funext href
  exact ⟨h.pos, h.range, h.inj, h.extra_range, h.extra_new,
    fun b hb => by rw [hbit b hb]; exact h.bit_iff b hb⟩

/-- A clear bit is a cell in range that nothing refers to. -/
theorem of_clear (h : Owned lo hi bit ref extra) {b : Nat} (hb : b < hi) (hclear : bit b = false) :
    lo ≤ b ∧ b ∉ extra ∧ ∀ k, ref k ≠ b := by
  have hno : ¬(b < lo ∨ b ∈ extra ∨ ∃ k, ref k = b) := by
    rw [← h.bit_iff b hb, hclear]
    simp
  refine ⟨by by_contra hlt; exact hno (Or.inl (by omega)), fun hx => hno (Or.inr (Or.inl hx)),
    fun k hk => hno (Or.inr (Or.inr ⟨k, hk⟩))⟩

/-- A cell in use has its bit set. -/
theorem bit_of_ref (h : Owned lo hi bit ref extra) {k : κ} (hk : ref k ≠ 0) :
    bit (ref k) = true :=
  (h.bit_iff _ (h.range k hk).2).mpr (Or.inr (Or.inr ⟨k, rfl⟩))

/-- Mark a free cell. -/
theorem alloc (h : Owned lo hi bit ref extra) {b : Nat} (hb : b < hi) (hclear : bit b = false)
    {bit' : Nat → Bool} (hbit : ∀ c, c < hi → bit' c = (decide (c = b) || bit c)) :
    Owned lo hi bit' ref (insert b extra) := by
  obtain ⟨hlo, _, hnew⟩ := h.of_clear hb hclear
  refine ⟨h.pos, h.range, h.inj, ?_, ?_, ?_⟩
  · rintro c (rfl | hc)
    · exact ⟨hlo, hb⟩
    · exact h.extra_range c hc
  · rintro c (rfl | hc)
    · exact hnew
    · exact h.extra_new c hc
  · intro c hc
    rw [hbit c hc, Bool.or_eq_true, decide_eq_true_iff, h.bit_iff c hc, Set.mem_insert_iff]
    constructor
    · rintro (h1 | h2 | h3 | h4) <;> simp_all
    · rintro (h1 | (h2 | h3) | h4) <;> simp_all

variable [DecidableEq κ]

/-- Let an empty slot refer to a cell in transit. -/
theorem attach (h : Owned lo hi bit ref extra) {b : Nat} (hb : b ∈ extra) {k : κ}
    (hk : ref k = 0) : Owned lo hi bit (upd ref k b) (extra \ {b}) := by
  have hnew := h.extra_new b hb
  obtain ⟨hlo, hhi⟩ := h.extra_range b hb
  have hlo' := h.pos
  refine ⟨h.pos, fun l hl => ?_, fun l m hl he => ?_, fun c hc => h.extra_range c hc.1, ?_, ?_⟩
  · by_cases hlk : l = k
    · rw [hlk, upd_self]; exact ⟨hlo, hhi⟩
    · rw [upd_of_ne hlk] at hl ⊢; exact h.range l hl
  · by_cases hlk : l = k <;> by_cases hmk : m = k
    · rw [hlk, hmk]
    · rw [hlk, upd_self, upd_of_ne hmk] at he
      exact absurd he.symm (hnew m)
    · rw [hmk, upd_self, upd_of_ne hlk] at he
      exact absurd he (hnew l)
    · rw [upd_of_ne hlk] at hl he
      rw [upd_of_ne hmk] at he
      exact h.inj l m hl he
  · rintro c ⟨hc, hcb⟩ l
    by_cases hlk : l = k
    · rw [hlk, upd_self]; exact fun he => hcb he.symm
    · rw [upd_of_ne hlk]; exact h.extra_new c hc l
  · intro c hc
    rw [h.bit_iff c hc]
    have hiff : (∃ l, upd ref k b l = c) ↔ c = b ∨ ∃ l, l ≠ k ∧ ref l = c := by
      constructor
      · rintro ⟨l, hl⟩
        by_cases hlk : l = k
        · rw [hlk, upd_self] at hl; exact Or.inl hl.symm
        · rw [upd_of_ne hlk] at hl; exact Or.inr ⟨l, hlk, hl⟩
      · rintro (rfl | ⟨l, hlk, hl⟩)
        · exact ⟨k, upd_self ..⟩
        · exact ⟨l, by rw [upd_of_ne hlk]; exact hl⟩
    rw [hiff]
    constructor
    · rintro (hlt | hx | ⟨l, hl⟩)
      · exact Or.inl hlt
      · by_cases hcb : c = b
        · exact Or.inr (Or.inr (Or.inl hcb))
        · exact Or.inr (Or.inl ⟨hx, hcb⟩)
      · by_cases hlk : l = k
        · exact Or.inl (by rw [← hl, hlk, hk]; exact h.pos)
        · exact Or.inr (Or.inr (Or.inr ⟨l, hlk, hl⟩))
    · rintro (hlt | hx | rfl | ⟨l, _, hl⟩)
      · exact Or.inl hlt
      · exact Or.inr (Or.inl hx.1)
      · exact Or.inr (Or.inl hb)
      · exact Or.inr (Or.inr ⟨l, hl⟩)

end Owned

/-! ## Counting free cells -/

/-- The number of clear bits below `hi`. -/
def freeCount (hi : Nat) (bit : Nat → Bool) : Nat :=
  ((Finset.range hi).filter fun b => bit b = false).card

theorem freeCount_congr {bit' : Nat → Bool} (h : ∀ b, b < hi → bit' b = bit b) :
    freeCount hi bit' = freeCount hi bit := by
  unfold freeCount
  congr 1
  exact Finset.filter_congr fun b hb => by rw [h b (Finset.mem_range.mp hb)]

/-- Marking a free cell leaves one fewer. -/
theorem freeCount_alloc {b : Nat} (hb : b < hi) (hclear : bit b = false) {bit' : Nat → Bool}
    (hbit : ∀ c, c < hi → bit' c = (decide (c = b) || bit c)) :
    freeCount hi bit' + 1 = freeCount hi bit := by
  have hset : (Finset.range hi).filter (fun c => bit' c = false) =
      ((Finset.range hi).filter fun c => bit c = false).erase b := by
    ext c
    simp only [Finset.mem_filter, Finset.mem_range, Finset.mem_erase]
    constructor
    · rintro ⟨hc, hz⟩
      rw [hbit c hc, Bool.or_eq_false_iff, decide_eq_false_iff_not] at hz
      exact ⟨hz.1, hc, hz.2⟩
    · rintro ⟨hne, hc, hz⟩
      exact ⟨hc, by rw [hbit c hc, hz]; simp [hne]⟩
  have hmem : b ∈ (Finset.range hi).filter fun c => bit c = false := by
    simp [hb, hclear]
  unfold freeCount
  rw [hset]
  exact Finset.card_erase_add_one hmem

end Xv6.Lib
