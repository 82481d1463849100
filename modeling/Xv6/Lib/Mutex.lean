import Mathlib.Logic.Function.Basic

/-!
# Mutex — a lock whose holder stands in a critical section

`lock : Option P` is a spin lock's holder. `Owns` says that the holder is
the party that stands in a section of the lock, so that mutual exclusion
can be read off the program counters.
-/

namespace Xv6.Lib

variable {P β : Type*} {inside : β → Bool} {pc : P → β} {lock : Option P}

/-- The parties inside are the holder. -/
def Owns (inside : β → Bool) (pc : P → β) (lock : Option P) : Prop :=
  ∀ q, inside (pc q) = true ↔ lock = some q

theorem Owns.unique (h : Owns inside pc lock) {p q : P} (hp : inside (pc p) = true)
    (hq : inside (pc q) = true) : p = q :=
  Option.some.inj (((h p).mp hp).symm.trans ((h q).mp hq))

theorem Owns.outside_of_free (h : Owns inside pc none) (q : P) : inside (pc q) = false := by
  by_contra hq
  have := (h q).mp (by simpa using hq)
  cases this

variable [DecidableEq P]

/-- A party moves and stays on its side. -/
theorem Owns.keep (h : Owns inside pc lock) {p : P} {v : β} (hv : inside v = inside (pc p)) :
    Owns inside (Function.update pc p v) lock := by
  intro q
  rcases eq_or_ne q p with rfl | hne
  · rw [Function.update_self, hv]
    exact h q
  · rw [Function.update_of_ne hne]
    exact h q

theorem Owns.acquire (h : Owns inside pc none) {p : P} {v : β} (hv : inside v = true) :
    Owns inside (Function.update pc p v) (some p) := by
  intro q
  rcases eq_or_ne q p with rfl | hne
  · rw [Function.update_self, hv]
    simp
  · rw [Function.update_of_ne hne, h.outside_of_free q]
    simpa using hne.symm

theorem Owns.release (h : Owns inside pc lock) {p : P} {v : β} (hp : inside (pc p) = true)
    (hv : inside v = false) : Owns inside (Function.update pc p v) none := by
  intro q
  rcases eq_or_ne q p with rfl | hne
  · rw [Function.update_self, hv]
    simp
  · rw [Function.update_of_ne hne]
    constructor
    · intro hq
      exact absurd (h.unique hq hp) hne
    · intro hq
      cases hq

end Xv6.Lib
