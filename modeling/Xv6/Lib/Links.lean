import Xv6.Lib.Exec
import Xv6.Lib.Walk
import Mathlib.Data.List.Nodup
import Mathlib.Logic.Function.Iterate

/-!
# Links — doubly linked rings with a head

The nodes are the elements of a type and the head, which is `none`. The
links of each node are two functions; `Holds` says that they link the
elements of a list, in its order and back, into a ring through the head.
Turning the ring around exchanges the two functions, so what is shown of
one direction holds of the other.
-/

namespace Xv6.Lib

variable {α : Type}

structure Links (α : Type) where
  next : Option α → Option α
  prev : Option α → Option α

/-- The nodes of a ring, from its head on. -/
def ringNodes (l : List α) : List (Option α) := none :: l.map some

theorem head?_map_some (l : List α) : (l.map some).head?.getD none = l.head? := by
  cases l <;> rfl

theorem mem_ringNodes {l : List α} {a : α} : some a ∈ ringNodes l ↔ a ∈ l := by
  simp [ringNodes]

theorem ringNodes_append (u v : List α) : ringNodes (u ++ v) = ringNodes u ++ v.map some := by
  rw [ringNodes, List.map_append]
  rfl

/-- The last node is that of the last element, or the head. -/
theorem ringNodes_eq_concat (l : List α) : ∃ w, ringNodes l = w ++ [l.getLast?] := by
  cases l using List.reverseRecOn with
  | nil => exact ⟨[], rfl⟩
  | append_singleton l a =>
      refine ⟨ringNodes l, ?_⟩
      rw [ringNodes_append, List.getLast?_concat]
      rfl

theorem nodup_ringNodes {l : List α} (h : l.Nodup) : (ringNodes l).Nodup := by
  refine List.nodup_cons.mpr ⟨by simp, ?_⟩
  exact h.map fun _ _ heq => Option.some.inj heq

/-! ## One direction -/

section Follows

variable {next next' : Option α → Option α}

theorem Follows.congr {l : List (Option α)} {q : Option α} (h : Follows next l q)
    (heq : ∀ a ∈ l, next' a = next a) : Follows next' l q := by
  induction l with
  | nil => trivial
  | cons a l ih =>
      obtain ⟨ha, hl⟩ := List.forall_mem_cons.mp heq
      exact ⟨ha.trans h.1, ih h.2 hl⟩

/-- The last node is linked to another. -/
theorem Follows.retarget [DecidableEq α] {w : List (Option α)} {p q : Option α} (h : Follows next (w ++ [p]) q)
    (hp : p ∉ w) (q' : Option α) : Follows (upd next p q') (w ++ [p]) q' := by
  obtain ⟨hw, _⟩ := follows_append.mp h
  refine follows_append.mpr ⟨hw.congr fun a ha => upd_of_ne fun heq => hp (heq ▸ ha), ?_, trivial⟩
  exact upd_self ..

/-- The links that lead to an element and from it. -/
theorem Follows.next_eq {u v : List α} {a : α} (h : Follows next (ringNodes (u ++ a :: v)) none) :
    next (some a) = v.head? := by
  rw [ringNodes_append] at h
  rw [← head?_map_some]
  exact (follows_append.mp h).2.1

/-- **An element is bypassed.** -/
theorem Follows.bypass [DecidableEq α] {u v : List α} {a : α} (h : Follows next (ringNodes (u ++ a :: v)) none)
    (hnodup : (u ++ a :: v).Nodup) :
    Follows (upd next u.getLast? v.head?) (ringNodes (u ++ v)) none := by
  obtain ⟨w, hw⟩ := ringNodes_eq_concat u
  have hnext := nodup_ringNodes hnodup
  rw [ringNodes_append, hw] at h hnext
  rw [ringNodes_append, hw]
  obtain ⟨hu, hv⟩ := follows_append.mp h
  have hp : u.getLast? ∉ w := by
    have hw := (List.nodup_append.mp (List.nodup_append.mp hnext).1).2.2
    exact fun hmem => hw _ hmem _ List.mem_cons_self rfl
  have hpv : ∀ b ∈ v.map some, b ≠ u.getLast? := by
    intro b hb heq
    refine (List.nodup_append.mp hnext).2.2 _ (List.mem_append_right _ List.mem_cons_self) _ ?_ heq.symm
    exact List.mem_cons_of_mem _ hb
  refine follows_append.mpr ⟨?_, hv.2.congr fun b hb => upd_of_ne (hpv b hb)⟩
  rw [head?_map_some]
  exact hu.retarget hp _

/-- **An element is put first.** -/
theorem Follows.first [DecidableEq α] {l : List α} {a : α} (h : Follows next (ringNodes l) none) (ha : a ∉ l) :
    Follows (upd (upd next (some a) l.head?) none (some a)) (ringNodes (a :: l)) none := by
  obtain ⟨_, hl⟩ := h
  refine ⟨upd_self .., ?_, ?_⟩
  · rw [upd_of_ne (by simp), upd_self]
    exact (head?_map_some l).symm
  · refine hl.congr fun b hb => ?_
    obtain ⟨c, hc, rfl⟩ := List.mem_map.mp hb
    have hca : some c ≠ some a := fun heq => ha (Option.some.inj heq ▸ hc)
    rw [upd_of_ne (by simp), upd_of_ne hca]

/-- **An element is put last.** -/
theorem Follows.last [DecidableEq α] {l : List α} {a : α} (h : Follows next (ringNodes l) none) (hnodup : l.Nodup)
    (ha : a ∉ l) :
    Follows (upd (upd next (some a) none) l.getLast? (some a)) (ringNodes (l ++ [a])) none := by
  obtain ⟨w, hw⟩ := ringNodes_eq_concat l
  have hnodes := nodup_ringNodes hnodup
  have hne : ∀ b ∈ ringNodes l, b ≠ some a := by
    intro b hb heq
    exact ha (mem_ringNodes.mp (heq ▸ hb))
  have hlast : l.getLast? ≠ some a := hne _ (by rw [hw]; exact List.mem_append_right _ List.mem_cons_self)
  have hl : Follows (upd next (some a) none) (ringNodes l) none :=
    h.congr fun b hb => upd_of_ne (hne b hb)
  rw [ringNodes_append]
  refine follows_append.mpr ⟨?_, ?_, trivial⟩
  · rw [hw] at hl hnodes ⊢
    have hp : l.getLast? ∉ w := fun hmem =>
      (List.nodup_append.mp hnodes).2.2 _ hmem _ List.mem_cons_self rfl
    exact hl.retarget hp _
  · show upd (upd next (some a) none) l.getLast? (some a) (some a) = none
    rw [upd_of_ne (Ne.symm hlast), upd_self]

/-- Following the links from the head, node by node. -/
theorem Follows.iterate {l : List α} (h : Follows next (ringNodes l) none) {i : Nat}
    (hi : i ≤ l.length) : next^[i + 1] none = l[i]? := by
  have hrest : ∀ (l : List α) (i : Nat), Follows next (l.map some) none → i ≤ l.length →
      next^[i] l.head? = l[i]? := by
    intro l
    induction l with
    | nil =>
        intro i _ hi
        obtain rfl : i = 0 := Nat.le_zero.mp hi
        rfl
    | cons a l ih =>
        intro i hl hi
        cases i with
        | zero => rfl
        | succ i =>
            have hnext : next (some a) = l.head? := hl.1.trans (head?_map_some l)
            rw [List.head?_cons, Function.iterate_succ_apply, hnext, List.getElem?_cons_succ]
            exact ih i hl.2 (Nat.le_of_succ_le_succ hi)
  have hnone : next none = l.head? := h.1.trans (head?_map_some l)
  rw [Function.iterate_succ_apply, hnone]
  exact hrest l i h.2 hi

/-- **A search along the links** finds what the list has first. -/
theorem Follows.walk_find {l : List α} (h : Follows next (ringNodes l) none) (p : α → Bool) {fuel : Nat}
    (hfuel : l.length < fuel) :
    walk (fun n => n.elim true p) next fuel (next none) = some (l.find? p) := by
  have hrest : ∀ (l : List α) (fuel : Nat), Follows next (l.map some) none → l.length < fuel →
      walk (fun n => n.elim true p) next fuel l.head? = some (l.find? p) := by
    intro l
    induction l with
    | nil =>
        intro fuel _ hfuel
        obtain ⟨fuel, rfl⟩ : ∃ k, fuel = k + 1 := ⟨fuel - 1, by rw [List.length_nil] at hfuel; omega⟩
        rfl
    | cons a l ih =>
        intro fuel hl hfuel
        obtain ⟨fuel, rfl⟩ : ∃ k, fuel = k + 1 := ⟨fuel - 1, by omega⟩
        have hnext : next (some a) = l.head? := hl.1.trans (head?_map_some l)
        rw [List.head?_cons, walk, List.find?_cons]
        cases hpa : p a with
        | true => rw [Option.elim_some, if_pos hpa]
        | false =>
            rw [Option.elim_some, if_neg (by rw [hpa]; exact Bool.false_ne_true), hnext]
            exact ih fuel hl.2 (by rw [List.length_cons] at hfuel; omega)
  have hnone : next none = l.head? := h.1.trans (head?_map_some l)
  rw [hnone]
  exact hrest l fuel h.2 hfuel

end Follows

/-! ## Both directions -/

namespace Links

/-- **The links are those of the list.** -/
structure Holds (L : Links α) (l : List α) : Prop where
  nodup : l.Nodup
  next : Follows L.next (ringNodes l) none
  prev : Follows L.prev (ringNodes l.reverse) none

/-- The ring, turned around. -/
def swap (L : Links α) : Links α := ⟨L.prev, L.next⟩

/-- `b->next->prev = b->prev; b->prev->next = b->next` -/
def unlink [DecidableEq α] (L : Links α) (b : Option α) : Links α :=
  let L := { L with prev := upd L.prev (L.next b) (L.prev b) }
  { L with next := upd L.next (L.prev b) (L.next b) }

/-- `b->next = head.next; b->prev = &head; head.next->prev = b; head.next = b` -/
def pushFront [DecidableEq α] (L : Links α) (b : Option α) : Links α :=
  let L := { L with next := upd L.next b (L.next none) }
  let L := { L with prev := upd L.prev b none }
  let L := { L with prev := upd L.prev (L.next none) b }
  { L with next := upd L.next none b }

variable {L : Links α} {l : List α} {a : α}

theorem Holds.swap (h : L.Holds l) : L.swap.Holds l.reverse :=
  ⟨List.nodup_reverse.mpr h.nodup, h.prev, by rw [List.reverse_reverse]; exact h.next⟩

theorem Holds.next_none (h : L.Holds l) : L.next none = l.head? :=
  h.next.1.trans (head?_map_some l)

theorem Holds.prev_none (h : L.Holds l) : L.prev none = l.getLast? := by
  rw [← List.head?_reverse]
  exact h.prev.1.trans (head?_map_some _)

theorem Holds.next_some {u v : List α} (h : L.Holds (u ++ a :: v)) :
    L.next (some a) = v.head? := h.next.next_eq

theorem Holds.prev_some {u v : List α} (h : L.Holds (u ++ a :: v)) :
    L.prev (some a) = u.getLast? := by
  have hprev := h.prev
  rw [List.reverse_append, List.reverse_cons, List.append_assoc, List.singleton_append] at hprev
  rw [← List.head?_reverse]
  exact Follows.next_eq hprev

/-- **`prev` is the inverse of `next`** on the nodes of the ring. -/
theorem Holds.prev_next (h : L.Holds l) {n : Option α} (hn : n ∈ ringNodes l) : L.prev (L.next n) = n := by
  cases n with
  | none =>
      rw [h.next_none]
      cases l with
      | nil => rw [List.head?_nil, h.prev_none, List.getLast?_nil]
      | cons b l =>
          have h' : L.Holds ([] ++ b :: l) := h
          rw [List.head?_cons, h'.prev_some, List.getLast?_nil]
  | some a =>
      obtain ⟨u, v, rfl⟩ := List.append_of_mem (mem_ringNodes.mp hn)
      rw [h.next_some]
      cases v with
      | nil => rw [List.head?_nil, h.prev_none, List.getLast?_concat]
      | cons b v =>
          have h' : L.Holds ((u ++ [a]) ++ b :: v) := by rwa [List.append_assoc]
          rw [List.head?_cons, h'.prev_some, List.getLast?_concat]

theorem Holds.next_prev (h : L.Holds l) {n : Option α} (hn : n ∈ ringNodes l) : L.next (L.prev n) = n := by
  refine h.swap.prev_next (n := n) ?_
  cases n with
  | none => exact List.mem_cons_self
  | some a => exact mem_ringNodes.mpr (List.mem_reverse.mpr (mem_ringNodes.mp hn))

/-- **Unlinking** an element. -/
theorem Holds.unlink [DecidableEq α] (h : L.Holds l) (ha : a ∈ l) : (L.unlink (some a)).Holds (l.erase a) := by
  obtain ⟨u, v, _, rfl, herase⟩ := List.exists_erase_eq ha
  have hnext := h.next_some
  have hprev := h.prev_some
  -- the element is not its own neighbour
  have hkeep : upd L.prev (L.next (some a)) (L.prev (some a)) (some a) = L.prev (some a) := by
    by_cases heq : some a = L.next (some a)
    · rw [← heq, upd_self]
    · rw [upd_of_ne heq]
  rw [herase]
  refine ⟨?_, ?_, ?_⟩
  · rw [← herase]
    exact h.nodup.erase a
  · show Follows (upd L.next (upd L.prev (L.next (some a)) (L.prev (some a)) (some a)) (L.next (some a))) _ _
    rw [hkeep, hprev, hnext]
    exact h.next.bypass h.nodup
  · show Follows (upd L.prev (L.next (some a)) (L.prev (some a))) _ _
    have hback := h.prev
    have hnodup := List.nodup_reverse.mpr h.nodup
    rw [List.reverse_append, List.reverse_cons, List.append_assoc, List.singleton_append] at hback hnodup
    have hstep := Follows.bypass hback hnodup
    rw [List.getLast?_reverse, List.head?_reverse, ← hnext, ← hprev] at hstep
    rw [List.reverse_append]
    exact hstep

/-- **Linking** an element at the front. -/
theorem Holds.pushFront [DecidableEq α] (h : L.Holds l) (ha : a ∉ l) : (L.pushFront (some a)).Holds (a :: l) := by
  have hnone := h.next_none
  have hkeep : upd L.next (some a) (L.next none) none = L.next none := upd_of_ne (by simp)
  refine ⟨List.nodup_cons.mpr ⟨ha, h.nodup⟩, ?_, ?_⟩
  · show Follows (upd (upd L.next (some a) (L.next none)) none (some a)) _ _
    rw [hnone]
    exact h.next.first ha
  · show Follows (upd (upd L.prev (some a) none) (upd L.next (some a) (L.next none) none) (some a)) _ _
    have hstep := h.prev.last (List.nodup_reverse.mpr h.nodup)
      (fun hmem => ha (List.mem_reverse.mp hmem))
    rw [hkeep, hnone, List.reverse_cons]
    rw [List.getLast?_reverse] at hstep
    exact hstep

end Links

end Xv6.Lib
