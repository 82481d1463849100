import Mathlib.Logic.Function.Basic

/-!
# Exec — programs over a state that can stop

A program is `StateT σ (Except ε) α`: it returns a value and a new state,
or stops with an `ε`. `Ensures m s E Q` says what a run from `s` does: it
returns with `Q`, or stops with `E`. The simp lemmas push it through the
program constructs, so that a proof about a function meets only the
calls the function makes; a call is then replaced by its specification
with `Ensures.imp` or `Ensures.next`.
-/

namespace Xv6.Lib

variable {σ ε α β : Type}

/-- A run of `m` from `s` returns with `Q` or stops with `E`. -/
def Ensures (m : StateT σ (Except ε) α) (s : σ) (E : ε → Prop) (Q : α → σ → Prop) : Prop :=
  match m s with
  | .ok (a, t) => Q a t
  | .error e => E e

section Rules

variable {s : σ} {E : ε → Prop} {Q : α → σ → Prop}

@[simp] theorem ensures_pure (a : α) :
    Ensures (pure a : StateT σ (Except ε) α) s E Q ↔ Q a s := Iff.rfl

@[simp] theorem ensures_bind (m : StateT σ (Except ε) β) (f : β → StateT σ (Except ε) α) :
    Ensures (m >>= f) s E Q ↔ Ensures m s E fun b t => Ensures (f b) t E Q := by
  simp only [Ensures, bind, StateT.bind, Except.bind]
  cases m s <;> rfl

@[simp] theorem ensures_get {Q : σ → σ → Prop} :
    Ensures (get : StateT σ (Except ε) σ) s E Q ↔ Q s s := Iff.rfl

@[simp] theorem ensures_set (t : σ) {Q : PUnit → σ → Prop} :
    Ensures (set t : StateT σ (Except ε) PUnit) s E Q ↔ Q ⟨⟩ t := Iff.rfl

@[simp] theorem ensures_modify (f : σ → σ) {Q : PUnit → σ → Prop} :
    Ensures (modify f : StateT σ (Except ε) PUnit) s E Q ↔ Q ⟨⟩ (f s) := Iff.rfl

@[simp] theorem ensures_throw (e : ε) :
    Ensures (throw e : StateT σ (Except ε) α) s E Q ↔ E e := Iff.rfl

theorem ensures_ite {c : Prop} [Decidable c] {m n : StateT σ (Except ε) α} :
    Ensures (if c then m else n) s E Q ↔ (c → Ensures m s E Q) ∧ (¬c → Ensures n s E Q) := by
  by_cases h : c <;> simp [h]

/-- **The rule of consequence.** -/
theorem Ensures.imp {m : StateT σ (Except ε) α} {E' : ε → Prop} {Q' : α → σ → Prop}
    (h : Ensures m s E Q) (hE : ∀ e, E e → E' e) (hQ : ∀ a t, Q a t → Q' a t) :
    Ensures m s E' Q' := by
  unfold Ensures at *
  split at h
  · exact hQ _ _ h
  · exact hE _ h

/-- The rule of consequence with the same stops. -/
theorem Ensures.next {m : StateT σ (Except ε) α} {Q' : α → σ → Prop}
    (h : Ensures m s E Q) (hQ : ∀ a t, Q a t → Q' a t) : Ensures m s E Q' :=
  h.imp (fun _ he => he) hQ

theorem Ensures.and {m : StateT σ (Except ε) α} {E' : ε → Prop} {Q' : α → σ → Prop}
    (h : Ensures m s E Q) (h' : Ensures m s E' Q') :
    Ensures m s (fun e => E e ∧ E' e) fun a t => Q a t ∧ Q' a t := by
  unfold Ensures at *
  cases hm : m s with
  | ok r => exact ⟨by simpa only [hm] using h, by simpa only [hm] using h'⟩
  | error e => exact ⟨by simpa only [hm] using h, by simpa only [hm] using h'⟩

theorem ensures_true (m : StateT σ (Except ε) α) (s : σ) :
    Ensures m s (fun _ => True) fun _ _ => True := by
  unfold Ensures
  split <;> trivial

theorem Ensures.of_ok {m : StateT σ (Except ε) α} {a : α} {t : σ}
    (h : Ensures m s E Q) (hm : m s = .ok (a, t)) : Q a t := by
  simpa only [Ensures, hm] using h

theorem Ensures.of_error {m : StateT σ (Except ε) α} {e : ε}
    (h : Ensures m s E Q) (hm : m s = .error e) : E e := by
  simpa only [Ensures, hm] using h

/-- A program that cannot stop returns. -/
theorem Ensures.exists_ok {m : StateT σ (Except ε) α} (h : Ensures m s (fun _ => False) Q) :
    ∃ a t, m s = .ok (a, t) ∧ Q a t := by
  unfold Ensures at h
  split at h
  · exact ⟨_, _, ‹_›, h⟩
  · exact h.elim

/-- A program whose first part returns goes on with the rest. -/
theorem bind_of_ok {m : StateT σ (Except ε) β} {f : β → StateT σ (Except ε) α} {b : β} {t : σ}
    (h : m s = .ok (b, t)) : (m >>= f) s = f b t := by
  simp only [bind, StateT.bind, h, Except.bind]

/-- A program whose first part stops has stopped. -/
theorem bind_of_error {m : StateT σ (Except ε) β} {f : β → StateT σ (Except ε) α} {e : ε}
    (h : m s = .error e) : (m >>= f) s = .error e := by
  simp only [bind, StateT.bind, h, Except.bind]

/-- A program that ran to its end ran its first part. -/
theorem ok_of_bind_pure {m : StateT σ (Except ε) α} {f : α → β} {b : β} {t : σ}
    (h : (m >>= fun a => pure (f a)) s = .ok (b, t)) : ∃ a, m s = .ok (a, t) ∧ f a = b := by
  simp only [bind, StateT.bind] at h
  cases hm : m s with
  | error e =>
      rw [hm] at h
      cases h
  | ok r =>
      rw [hm] at h
      cases h
      exact ⟨r.1, rfl, rfl⟩

end Rules

/-! ## Arrays kept as functions -/

/-- Assign to one cell. `Function.update` is the same function; this one
has no cast in it and so evaluates. -/
def upd {ι β : Type} [DecidableEq ι] (f : ι → β) (i : ι) (v : β) : ι → β :=
  fun j => if j = i then v else f j

theorem upd_eq_update {ι β : Type} [DecidableEq ι] (f : ι → β) (i : ι) (v : β) :
    upd f i v = Function.update f i v := by
  funext j
  rw [Function.update_apply, upd]

@[simp] theorem upd_self {ι β : Type} [DecidableEq ι] (f : ι → β) (i : ι) (v : β) :
    upd f i v i = v := if_pos rfl

theorem upd_of_ne {ι β : Type} [DecidableEq ι] {f : ι → β} {i j : ι} {v : β} (h : j ≠ i) :
    upd f i v j = f j := if_neg h

/-- What is read is not what was put there, so it was there before. -/
theorem of_upd_eq {ι β : Type} [DecidableEq ι] {f : ι → β} {i j : ι} {v w : β}
    (h : upd f i v j = w) (hne : v ≠ w) : j ≠ i ∧ f j = w := by
  by_cases hji : j = i
  · rw [hji, upd_self] at h
    exact absurd h hne
  · rw [upd_of_ne hji] at h
    exact ⟨hji, h⟩

@[simp] theorem upd_upd {ι β : Type} [DecidableEq ι] (f : ι → β) (i : ι) (v w : β) :
    upd (upd f i v) i w = upd f i w := by
  simp only [upd_eq_update, Function.update_idem]

theorem upd_comm {ι β : Type} [DecidableEq ι] {i j : ι} (h : i ≠ j) (f : ι → β) (v w : β) :
    upd (upd f i v) j w = upd (upd f j w) i v := by
  simp only [upd_eq_update, Function.update_comm h]

@[simp] theorem upd_eq_self {ι β : Type} [DecidableEq ι] (f : ι → β) (i : ι) :
    upd f i (f i) = f := by
  simp only [upd_eq_update, Function.update_eq_self]

/-! ## Loops -/

/-- `for(i = …; n more times; i++) body(i)`. -/
def forLoop (body : Nat → StateT σ (Except ε) Unit) : (n i : Nat) → StateT σ (Except ε) Unit
  | 0, _ => pure ()
  | n + 1, i => do
      body i
      forLoop body n (i + 1)

/-- The first index from `i` on, among `n`, that meets `p`. -/
def findFrom (p : Nat → Bool) : (n i : Nat) → Option Nat
  | 0, _ => none
  | n + 1, i => if p i then some i else findFrom p n (i + 1)

theorem findFrom_eq_some {p : Nat → Bool} {n i j : Nat} (h : findFrom p n i = some j) :
    i ≤ j ∧ j < i + n ∧ p j = true := by
  induction n generalizing i with
  | zero => cases h
  | succ n ih =>
      rw [findFrom] at h
      split at h
      · cases h
        exact ⟨by omega, by omega, ‹_›⟩
      · obtain ⟨h1, h2, h3⟩ := ih h
        exact ⟨by omega, by omega, h3⟩

theorem findFrom_eq_none {p : Nat → Bool} {n i : Nat} (h : findFrom p n i = none) {j : Nat}
    (h1 : i ≤ j) (h2 : j < i + n) : p j = false := by
  induction n generalizing i with
  | zero => omega
  | succ n ih =>
      rw [findFrom] at h
      split at h
      · cases h
      · rename_i hp
        rcases Nat.lt_or_eq_of_le h1 with hlt | rfl
        · exact ih h hlt (by omega)
        · simpa using hp

/-- Before the index that was found there is none. -/
theorem findFrom_lt {p : Nat → Bool} {n i j k : Nat} (h : findFrom p n i = some j) (hk : i ≤ k)
    (hlt : k < j) : p k = false := by
  induction n generalizing i with
  | zero => cases h
  | succ n ih =>
      rw [findFrom] at h
      split at h
      · cases h
        omega
      · rename_i hp
        rcases Nat.lt_or_eq_of_le hk with hik | rfl
        · exact ih h hik
        · simpa using hp

/-- The first index is found. -/
theorem findFrom_eq_of_first {p : Nat → Bool} {n i j : Nat} (hi : i ≤ j) (hj : j < i + n)
    (hp : p j = true) (hlt : ∀ k, i ≤ k → k < j → p k = false) : findFrom p n i = some j := by
  induction n generalizing i with
  | zero => omega
  | succ n ih =>
      rw [findFrom]
      rcases Nat.lt_or_eq_of_le hi with h | rfl
      · rw [hlt i (Nat.le_refl i) h]
        exact ih h (by omega) fun k hk => hlt k (by omega)
      · rw [if_pos hp]

/-- How many of the `n` indices from `i` on meet `p`, before the first that does
not. -/
def leading (p : Nat → Bool) : (n i : Nat) → Nat
  | 0, _ => 0
  | n + 1, i => if p i then leading p n (i + 1) + 1 else 0

theorem leading_le (p : Nat → Bool) (n i : Nat) : leading p n i ≤ n := by
  induction n generalizing i with
  | zero => exact Nat.le_refl 0
  | succ n ih =>
      rw [leading]
      split
      · exact Nat.succ_le_succ (ih (i + 1))
      · exact Nat.zero_le _

theorem of_lt_leading {p : Nat → Bool} {n i j : Nat} (h1 : i ≤ j) (h2 : j < i + leading p n i) :
    p j = true := by
  induction n generalizing i with
  | zero =>
      rw [leading] at h2
      omega
  | succ n ih =>
      rw [leading] at h2
      split at h2
      · rename_i hp
        rcases Nat.lt_or_eq_of_le h1 with hlt | rfl
        · exact ih (i := i + 1) hlt (by omega)
        · exact hp
      · omega

theorem at_leading {p : Nat → Bool} {n i : Nat} (h : leading p n i < n) :
    p (i + leading p n i) = false := by
  induction n generalizing i with
  | zero => omega
  | succ n ih =>
      rw [leading] at h ⊢
      split at h
      · rename_i hp
        rw [if_pos hp]
        rw [show i + (leading p n (i + 1) + 1) = i + 1 + leading p n (i + 1) by omega]
        exact ih (by omega)
      · rename_i hp
        rw [if_neg hp]
        simpa using hp

end Xv6.Lib
