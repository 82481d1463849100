import Mathlib.Algebra.GroupWithZero.Nat
import Mathlib.Data.Fin.Basic
import Mathlib.Data.List.Basic

/-!
# Ring — a ring buffer with free-running counters

`cap` cells, indexed by two counters of `w` bits that are never reset:
the cell of a count is its remainder. The counters may wrap, which is
harmless as long as `cap` divides `2 ^ w`.

`Ring.Holds` relates a ring to the unbounded history: all elements ever
put in, and how many of them were taken out again.
-/

namespace Xv6.Lib

structure Ring (α : Type*) (cap w : Nat) where
  data : Fin cap → α
  nread : BitVec w
  nwrite : BitVec w

namespace Ring

variable {α : Type*} {cap w : Nat} [NeZero cap]

/-- Put an element in. -/
def push (r : Ring α cap w) (x : α) : Ring α cap w :=
  { r with data := Function.update r.data (Fin.ofNat cap r.nwrite.toNat) x, nwrite := r.nwrite + 1 }

/-- The element that is taken out next. -/
def front (r : Ring α cap w) : α := r.data (Fin.ofNat cap r.nread.toNat)

/-- Take an element out. -/
def pop (r : Ring α cap w) : Ring α cap w := { r with nread := r.nread + 1 }

/-- `l` was put in so far, and `k` elements of it were taken out. -/
structure Holds (r : Ring α cap w) (l : List α) (k : Nat) : Prop where
  nread : r.nread = BitVec.ofNat w k
  nwrite : r.nwrite = BitVec.ofNat w l.length
  le : k ≤ l.length
  fits : l.length ≤ k + cap
  cells : ∀ j x, k ≤ j → l[j]? = some x → r.data (Fin.ofNat cap j) = x

section

variable {r : Ring α cap w} {l : List α} {k : Nat}

/-- The cell of a wrapped count is the cell of the count. -/
theorem cell_ofNat (hdvd : cap ∣ 2 ^ w) (j : Nat) :
    Fin.ofNat cap (BitVec.ofNat w j).toNat = Fin.ofNat cap j := by
  apply Fin.ext
  simp only [Fin.ofNat, BitVec.toNat_ofNat]
  exact Nat.mod_mod_of_dvd j hdvd

/-- The counters differ by what the ring holds. -/
theorem Holds.toNat_sub (h : r.Holds l k) (hcap : cap < 2 ^ w) :
    (r.nwrite - r.nread).toNat = l.length - k := by
  have hlen : l.length = k + (l.length - k) := (Nat.add_sub_of_le h.le).symm
  have hsub : r.nwrite - r.nread = BitVec.ofNat w (l.length - k) := by
    rw [h.nwrite, h.nread, hlen, BitVec.ofNat_add, BitVec.add_comm, BitVec.add_sub_cancel,
      Nat.add_sub_cancel_left]
  have hfits := h.fits
  rw [hsub, BitVec.toNat_ofNat, Nat.mod_eq_of_lt (by omega)]

theorem Holds.empty_iff (h : r.Holds l k) (hcap : cap < 2 ^ w) :
    r.nread = r.nwrite ↔ l.length = k := by
  constructor
  · intro he
    have := h.toNat_sub hcap
    rw [he, BitVec.sub_self, BitVec.toNat_zero] at this
    have := h.le
    omega
  · intro he
    rw [h.nread, h.nwrite, he]

theorem Holds.full_iff (h : r.Holds l k) (hcap : cap < 2 ^ w) :
    r.nwrite = r.nread + BitVec.ofNat w cap ↔ l.length = k + cap := by
  constructor
  · intro he
    have hsub := h.toNat_sub hcap
    rw [he, BitVec.add_comm, BitVec.add_sub_cancel, BitVec.toNat_ofNat, Nat.mod_eq_of_lt hcap]
      at hsub
    have := h.le
    omega
  · intro he
    rw [h.nread, h.nwrite, he, BitVec.ofNat_add]

/-- **Putting in.** -/
theorem Holds.push (h : r.Holds l k) (hdvd : cap ∣ 2 ^ w) (hroom : l.length < k + cap) (x : α) :
    (r.push x).Holds (l ++ [x]) k := by
  refine ⟨h.nread, ?_, ?_, ?_, fun j y hj hy => ?_⟩
  · show r.nwrite + 1 = _
    rw [h.nwrite, List.length_append, List.length_singleton, BitVec.ofNat_add]
    rfl
  · rw [List.length_append]
    exact h.le.trans (Nat.le_add_right _ _)
  · rw [List.length_append, List.length_singleton]
    omega
  · have hcell : Fin.ofNat cap r.nwrite.toNat = Fin.ofNat cap l.length := by
      rw [h.nwrite, cell_ofNat hdvd]
    simp only [Ring.push, hcell]
    rcases Nat.lt_trichotomy j l.length with hlt | rfl | hgt
    · -- an older element: fewer than `cap` counts back, so in another cell
      have hne : (Fin.ofNat cap j : Fin cap) ≠ Fin.ofNat cap l.length := fun he => by
        have he' : j % cap = l.length % cap := congrArg Fin.val he
        have hd := Nat.div_add_mod j cap
        have hd' := Nat.div_add_mod l.length cap
        rw [he'] at hd
        have hlt' : cap * (j / cap) < cap * (l.length / cap) := by omega
        have := Nat.lt_of_mul_lt_mul_left hlt'
        have := Nat.mul_le_mul_left cap (Nat.succ_le_of_lt this)
        rw [Nat.mul_succ] at this
        omega
      rw [Function.update_of_ne hne]
      exact h.cells j y hj (by rwa [List.getElem?_append_left hlt] at hy)
    · rw [Function.update_self]
      simpa using hy
    · rw [List.getElem?_eq_none (by simp; omega)] at hy
      cases hy

/-- **Taking out.** -/
theorem Holds.pop (h : r.Holds l k) (hdvd : cap ∣ 2 ^ w) (hsome : k < l.length) :
    l[k]? = some r.front ∧ r.pop.Holds l (k + 1) := by
  obtain ⟨x, hx⟩ : ∃ x, l[k]? = some x := ⟨l[k], List.getElem?_eq_getElem hsome⟩
  have hfront : r.front = x := by
    rw [front, h.nread, cell_ofNat hdvd]
    exact h.cells k x (Nat.le_refl k) hx
  have hfits := h.fits
  refine ⟨by rw [hx, hfront], ?_, h.nwrite, hsome, by omega, fun j y hj hy => ?_⟩
  · show r.nread + 1 = _
    rw [h.nread, BitVec.ofNat_add]
    rfl
  · exact h.cells j y (by omega) hy

/-- The element that was put in last. -/
theorem Holds.back {x : α} (h : r.Holds (l ++ [x]) k) (hdvd : cap ∣ 2 ^ w) (hk : k ≤ l.length) :
    r.data (Fin.ofNat cap (r.nwrite - 1).toNat) = x := by
  have hcount : r.nwrite - 1 = BitVec.ofNat w l.length := by
    rw [h.nwrite, List.length_append, List.length_singleton, BitVec.ofNat_add]
    exact BitVec.add_sub_cancel ..
  rw [hcount, cell_ofNat hdvd]
  exact h.cells l.length x hk (by simp)

/-- **Taking back** what was put in last. -/
theorem Holds.retract {x : α} (h : r.Holds (l ++ [x]) k) (hk : k ≤ l.length) :
    Holds { r with nwrite := r.nwrite - 1 } l k := by
  have hfits := h.fits
  rw [List.length_append, List.length_singleton] at hfits
  refine ⟨h.nread, ?_, hk, by omega, fun j y hj hy => ?_⟩
  · show r.nwrite - 1 = _
    rw [h.nwrite, List.length_append, List.length_singleton, BitVec.ofNat_add]
    exact BitVec.add_sub_cancel ..
  · have hlt : j < l.length := (List.getElem?_eq_some_iff.mp hy).1
    exact h.cells j y hj (by rwa [List.getElem?_append_left hlt])

end

end Ring

end Xv6.Lib
