import Mathlib.Data.List.Induction

/-!
# Walk — following pointers around a ring

A list of nodes is linked by a function `next`. `walk` follows it from a
node until one satisfies a test. In a ring the walk may start anywhere: it
sees every node once before it comes back.
-/

namespace Xv6.Lib

variable {α : Type*} {next : α → α} {stop : α → Bool}

/-- Go from `a` along `next` to the first node that `stop` accepts. -/
def walk (stop : α → Bool) (next : α → α) : (fuel : Nat) → α → Option α
  | 0, _ => none
  | fuel + 1, a => if stop a then some a else walk stop next fuel (next a)

/-- What `next` keeps holds where a walk ends. -/
theorem walk_invariant {P : α → Prop} (hnext : ∀ a, P a → P (next a)) {fuel : Nat} {a b : α}
    (ha : P a) (h : walk stop next fuel a = some b) : P b ∧ stop b = true := by
  induction fuel generalizing a with
  | zero => cases h
  | succ fuel ih =>
      rw [walk] at h
      cases hs : stop a with
      | true =>
          rw [hs, if_pos rfl] at h
          obtain rfl := Option.some.inj h
          exact ⟨ha, hs⟩
      | false =>
          rw [hs, if_neg Bool.false_ne_true] at h
          exact ih (hnext a ha) h

/-- `next` leads from each node of the list to the one after it, and from
the last to `q`. -/
def Follows (next : α → α) : List α → α → Prop
  | [], _ => True
  | a :: l, q => next a = l.head?.getD q ∧ Follows next l q

theorem follows_append {l m : List α} {q : α} :
    Follows next (l ++ m) q ↔ Follows next l (m.head?.getD q) ∧ Follows next m q := by
  induction l with
  | nil => exact (and_iff_right trivial).symm
  | cons a l ih =>
      rw [List.cons_append, Follows, Follows, ih, and_assoc]
      cases l with
      | nil => rfl
      | cons b l => rfl

/-- A ring may be read from any of its nodes. -/
theorem Follows.rotate {l m : List α} {a b : α} (h : Follows next (a :: l ++ b :: m) a) :
    Follows next (b :: m ++ a :: l) b := by
  obtain ⟨hl, hm⟩ := follows_append.mp h
  exact follows_append.mpr ⟨hm, hl⟩

/-- Every node of a ring is the next one of another. -/
theorem Follows.exists_next {l : List α} {a b : α} (h : Follows next (a :: l) a)
    (hb : b ∈ a :: l) : ∃ c ∈ a :: l, next c = b := by
  obtain ⟨u, v, huv⟩ := List.append_of_mem hb
  cases u using List.reverseRecOn with
  | nil =>
      -- `b` is the first node, and the last one leads to it
      obtain ⟨w, c, hc⟩ : ∃ w c, a :: l = w ++ [c] :=
        ⟨_, _, (List.dropLast_concat_getLast (List.cons_ne_nil a l)).symm⟩
      have hab : a = b := (List.cons.inj huv).1
      rw [hc] at h ⊢
      exact ⟨c, List.mem_append_right _ (List.mem_singleton_self c), hab ▸ (follows_append.mp h).2.1⟩
  | append_singleton u c _ =>
      rw [huv, List.append_assoc] at h
      refine ⟨c, ?_, (follows_append.mp h).2.1⟩
      rw [huv]
      exact List.mem_append_left _ (List.mem_append_right _ (List.mem_singleton_self c))

/-- **A walk** along a list in which some node is accepted ends at the first
of them. -/
theorem walk_follows {l : List α} {a q : α} (h : Follows next (a :: l) q)
    (hstop : ∃ b ∈ a :: l, stop b = true) :
    ∃ u b v, a :: l = u ++ b :: v ∧ (∀ c ∈ u, stop c = false) ∧ stop b = true ∧
      ∀ fuel, l.length < fuel → walk stop next fuel a = some b := by
  induction l generalizing a with
  | nil =>
      obtain ⟨b, hb, hs⟩ := hstop
      obtain rfl := List.mem_singleton.mp hb
      refine ⟨[], b, [], rfl, fun c hc => absurd hc List.not_mem_nil, hs, ?_⟩
      intro fuel hfuel
      obtain ⟨fuel, rfl⟩ := Nat.exists_eq_add_of_lt hfuel
      rw [List.length_nil, Nat.zero_add, walk, if_pos hs]
  | cons d l ih =>
      cases ha : stop a with
      | true =>
          refine ⟨[], a, d :: l, rfl, fun c hc => absurd hc List.not_mem_nil, ha, ?_⟩
          intro fuel hfuel
          obtain ⟨fuel, rfl⟩ := Nat.exists_eq_add_of_lt hfuel
          rw [walk, if_pos ha]
      | false =>
          have hrest : ∃ b ∈ d :: l, stop b = true := by
            obtain ⟨b, hb, hs⟩ := hstop
            rcases List.mem_cons.mp hb with rfl | hb
            · rw [ha] at hs
              cases hs
            · exact ⟨b, hb, hs⟩
          obtain ⟨u, b, v, huv, hu, hb, hwalk⟩ := ih h.2 hrest
          refine ⟨a :: u, b, v, by rw [huv]; rfl, ?_, hb, ?_⟩
          · exact List.forall_mem_cons.mpr ⟨ha, hu⟩
          · intro fuel hfuel
            obtain ⟨fuel, rfl⟩ : ∃ k, fuel = k + 1 := ⟨fuel - 1, by omega⟩
            have hnext : next a = d := h.1
            rw [walk, ha, if_neg Bool.false_ne_true, hnext]
            exact hwalk fuel (by rw [List.length_cons] at hfuel; omega)

/-- **A walk around a ring**, from any of its nodes: what it has passed is
the start of the ring read from there. -/
theorem walk_ring {l : List α} {a p : α} (h : Follows next (a :: l) a) (hp : p ∈ a :: l)
    (hstop : ∃ b ∈ a :: l, stop b = true) :
    ∃ u b v, (u ++ b :: v).Perm (a :: l) ∧ Follows next (u ++ b :: v) p ∧
      (u ++ b :: v).head? = some p ∧ (∀ c ∈ u, stop c = false) ∧ stop b = true ∧
      ∀ fuel, l.length < fuel → walk stop next fuel p = some b := by
  obtain ⟨m, n, hmn⟩ := List.append_of_mem hp
  have hrot : ∃ k, Follows next (p :: k) p ∧ (p :: k).Perm (a :: l) := by
    cases m with
    | nil =>
        obtain ⟨rfl, rfl⟩ := List.cons.inj hmn
        exact ⟨l, h, List.Perm.refl _⟩
    | cons a' m =>
        obtain ⟨rfl, rfl⟩ := List.cons.inj hmn
        have hperm : (p :: n ++ a :: m).Perm (a :: m ++ p :: n) := List.perm_append_comm
        exact ⟨n ++ a :: m, h.rotate, hperm⟩
  obtain ⟨k, hk, hperm⟩ := hrot
  obtain ⟨b, hb, hs⟩ := hstop
  obtain ⟨u, b, v, huv, hu, hb, hwalk⟩ := walk_follows hk ⟨b, hperm.mem_iff.mpr hb, hs⟩
  have hlen := hperm.length_eq
  rw [List.length_cons, List.length_cons] at hlen
  rw [huv] at hk hperm
  refine ⟨u, b, v, hperm, hk, by rw [← huv]; rfl, hu, hb, fun fuel hfuel => ?_⟩
  exact hwalk fuel (by omega)

end Xv6.Lib
