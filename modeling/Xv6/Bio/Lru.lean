import Xv6.Bio.Cache
import Xv6.Lib.Links
import Mathlib.Data.Fintype.Card
import Mathlib.Data.List.FinRange

/-!
# Bio — the linked list of buffers

The list that `Bio.Cache` keeps as a list is here what `bio.c` has: a
`next` and a `prev` pointer in every buffer and in `bcache.head`, written
one after the other. The loops of `bget` follow the pointers; `Represents`
says that they do to the pointers what `Bio.Cache` does to its list.

The order of the list is told by the calls alone: `releases` is the buffers
that they have released since `binit`, the latest first.
-/

namespace Xv6.Bio.Lru

open Lib

structure St where
  links : Links (Fin NBUF)      -- `none` is `bcache.head`
  buf : Fin NBUF → Buf

/-- One round of `binit`'s loop. -/
def link (s : St) (k : Fin NBUF) : St :=
  { s with
    links := s.links.pushFront (some k)
    buf := upd s.buf k { s.buf k with dev := NODEV } }

def binit (s : St) : St :=
  let head : Links (Fin NBUF) := ⟨upd s.links.next none none, upd s.links.prev none none⟩
  (List.finRange NBUF).foldl link { s with links := head }

/-- How a round of `bget` ends. -/
inductive Got
  | hit (k : Fin NBUF)          -- the block is cached in `k`, now busy
  | asleep (k : Fin NBUF)       -- it is cached in `k`, and `k` is busy
  | recycled (k : Fin NBUF)     -- it is not cached; `k` is to hold it
  | panic                       -- "bget: no buffers"
deriving DecidableEq

/-- Is the block cached in the buffer? -/
def caches (s : St) (dev blockno : Nat) (k : Fin NBUF) : Bool :=
  (s.buf k).dev = dev ∧ (s.buf k).blockno = blockno

/-- Neither busy nor dirty. -/
def free (s : St) (k : Fin NBUF) : Bool := (s.buf k).busy = false ∧ (s.buf k).dirty = false

/-- `for(b = head.next; b != &head; b = b->next) if(p(b)) break`, with `prev`
for `next` the loop the other way; `none` if it goes on for longer than
the buffers are many. -/
def search (p : Fin NBUF → Bool) (next : Option (Fin NBUF) → Option (Fin NBUF)) :
    Option (Option (Fin NBUF)) :=
  walk (fun n => n.elim true p) next (NBUF + 1) (next none)

def bget (s : St) (dev blockno : Nat) : Option (Got × St) :=
  match search (caches s dev blockno) s.links.next with
  | none => none
  | some (some k) =>
      if (s.buf k).busy = false then
        some (.hit k, { s with buf := upd s.buf k { s.buf k with busy := true } })
      else some (.asleep k, s)
  | some none =>
      -- not cached; recycle some non-busy and clean buffer
      match search (free s) s.links.prev with
      | none => none
      | some (some k) =>
          some (.recycled k,
            { s with buf := upd s.buf k ⟨true, false, false, dev, blockno, (s.buf k).data⟩ })
      | some none => some (.panic, s)

/-- `none` is the panic "brelse". -/
def brelse (s : St) (k : Fin NBUF) : Option St :=
  if (s.buf k).busy = false then none
  else
    some { s with
      links := (s.links.unlink (some k)).pushFront (some k)
      buf := upd s.buf k { s.buf k with busy := false } }

inductive Act
  | binit
  | bget (dev blockno : Nat)
  | use (k : Fin NBUF) (b : Buf)        -- the holder and `iderw`: data, `B_VALID`, `B_DIRTY`
  | brelse (k : Fin NBUF)

/-- A run ends at a panic. -/
def step (s : St) : Act → Option St
  | .binit => some (binit s)
  | .bget dev blockno =>
      (bget s dev blockno).bind fun r => if r.1 = .panic then none else some r.2
  | .use k b =>
      if (s.buf k).busy = true ∧ b.busy = true ∧ b.dev = (s.buf k).dev ∧
          b.blockno = (s.buf k).blockno
      then some { s with buf := upd s.buf k b }
      else none
  | .brelse k => brelse s k

/-- The buffers released, after one more call. -/
def release (hist : List (Fin NBUF)) : Act → List (Fin NBUF)
  | .binit => []
  | .brelse k => k :: hist
  | _ => hist

/-- The buffers that the calls release after the last `binit`, the latest first. -/
def releases (acts : List Act) : List (Fin NBUF) := acts.foldl release []

/-! ## The invariant -/

variable {s s' : St} {hist order : List (Fin NBUF)} {k : Fin NBUF}

/-- How many releases there were since the buffer's last one; all of them, if
it was never released. -/
def since (hist : List (Fin NBUF)) (k : Fin NBUF) : Nat := hist.idxOf k

/-- **The invariant**: the links are those of a list of all the buffers, the
later released before the earlier. -/
structure Inv (hist : List (Fin NBUF)) (s : St) (order : List (Fin NBUF)) : Prop where
  holds : s.links.Holds order
  all : ∀ k, k ∈ order
  recent : order.Pairwise fun k l => since hist k ≤ since hist l

theorem Inv.length_eq (h : Inv hist s order) :
    order.length = NBUF := by
  have hperm : order.Perm (List.finRange NBUF) :=
    (List.perm_ext_iff_of_nodup h.holds.nodup (List.nodup_finRange NBUF)).mpr fun k =>
      ⟨fun _ => List.mem_finRange k, fun _ => h.all k⟩
  rw [hperm.length_eq, List.length_finRange]

/-- The links are all that the invariant speaks of. -/
theorem Inv.congr (h : Inv hist s order) (hlinks : s'.links = s.links) : Inv hist s' order :=
  ⟨hlinks ▸ h.holds, h.all, h.recent⟩

/-- The loop of `binit` puts the buffers in front, one by one. -/
theorem foldl_link {l : List (Fin NBUF)} (h : s.links.Holds order) (hnodup : l.Nodup)
    (hnew : ∀ k ∈ l, k ∉ order) : (l.foldl link s).links.Holds (l.reverse ++ order) := by
  induction l generalizing s order with
  | nil => exact h
  | cons k l ih =>
      obtain ⟨hk, hl⟩ := List.nodup_cons.mp hnodup
      obtain ⟨hnk, hnl⟩ := List.forall_mem_cons.mp hnew
      have hnl' : ∀ c ∈ l, c ∉ k :: order := by
        intro c hc hmem
        rcases List.mem_cons.mp hmem with rfl | hmem
        · exact hk hc
        · exact hnl c hc hmem
      have hlink : (link s k).links.Holds (k :: order) := h.pushFront hnk
      rw [List.reverse_cons, List.append_assoc]
      exact ih hlink hl hnl'

/-- **`binit`**, whatever was there before. -/
theorem inv_binit (s : St) : Inv [] (binit s) (List.finRange NBUF).reverse := by
  have hhead : (⟨upd s.links.next none none, upd s.links.prev none none⟩ :
      Links (Fin NBUF)).Holds [] :=
    ⟨List.nodup_nil, ⟨upd_self s.links.next none none, trivial⟩,
      ⟨upd_self s.links.prev none none, trivial⟩⟩
  have hholds := foldl_link (s := { s with links := _ }) hhead (List.nodup_finRange NBUF)
    fun k _ => List.not_mem_nil
  rw [List.append_nil] at hholds
  refine ⟨hholds, fun k => List.mem_reverse.mpr (List.mem_finRange k), ?_⟩
  -- nothing was released yet
  exact List.pairwise_of_forall fun k l => Nat.le_refl _

/-- **`brelse`** moves the buffer to the front. -/
theorem Inv.brelse (h : Inv hist s order) (hs : brelse s k = some s') :
    Inv (k :: hist) s' (k :: order.erase k) := by
  rw [Lru.brelse] at hs
  obtain ⟨_, heq⟩ := Option.ite_none_left_eq_some.mp hs
  obtain rfl := Option.some.inj heq
  have hk : k ∉ order.erase k := h.holds.nodup.not_mem_erase
  refine ⟨(h.holds.unlink (h.all k)).pushFront hk, ?_, ?_⟩
  · intro c
    by_cases hc : c = k
    · rw [hc]
      exact List.mem_cons_self
    · exact List.mem_cons_of_mem _ ((List.mem_erase_of_ne hc).mpr (h.all c))
  · -- of the others there is one release more since their last
    have hother : ∀ c ∈ order.erase k, since (k :: hist) c = since hist c + 1 := by
      intro c hc
      exact List.idxOf_cons_ne _ fun heq => hk (heq ▸ hc)
    refine List.pairwise_cons.mpr ⟨?_, ?_⟩
    · intro c _
      rw [since, List.idxOf_cons_self]
      exact Nat.zero_le _
    · refine (h.recent.sublist List.erase_sublist).imp_of_mem ?_
      intro c d hc hd hle
      rw [hother c hc, hother d hd]
      exact Nat.succ_le_succ hle

/-! ## The searches of `bget` -/

/-- **The search from the front** finds the first buffer of the list. -/
theorem Inv.search_next (h : Inv hist s order) (p : Fin NBUF → Bool) : search p s.links.next = some (order.find? p) :=
  h.holds.next.walk_find p (by rw [h.length_eq]; exact Nat.lt_succ_self _)

/-- **The search from the back** finds the last. -/
theorem Inv.search_prev (h : Inv hist s order) (p : Fin NBUF → Bool) : search p s.links.prev = some (order.reverse.find? p) :=
  h.holds.prev.walk_find p (by rw [List.length_reverse, h.length_eq]; exact Nat.lt_succ_self _)

/-- What a round of `bget` can be. -/
theorem Inv.bget_cases (h : Inv hist s order) (dev blockno : Nat) :
    ∃ r, bget s dev blockno = some r ∧ r.2.links = s.links ∧
      ((∃ k, caches s dev blockno k = true ∧ (r.1 = .hit k ∨ r.1 = .asleep k)) ∨
        (∀ k, caches s dev blockno k = false) ∧
          ((∃ k, order.reverse.find? (free s) = some k ∧ r.1 = .recycled k) ∨
            (∀ k, free s k = false) ∧ r.1 = .panic)) := by
  rw [bget, h.search_next, h.search_prev]
  cases hfind : order.find? (caches s dev blockno) with
  | some k =>
      have hk := List.find?_some hfind
      by_cases hbusy : (s.buf k).busy = false
      · exact ⟨_, if_pos hbusy, rfl, Or.inl ⟨k, hk, Or.inl rfl⟩⟩
      · exact ⟨_, if_neg hbusy, rfl, Or.inl ⟨k, hk, Or.inr rfl⟩⟩
  | none =>
      have hnone : ∀ k, caches s dev blockno k = false := by
        intro k
        exact Bool.eq_false_iff.mpr (List.find?_eq_none.mp hfind k (h.all k))
      cases hback : order.reverse.find? (free s) with
      | some k => exact ⟨_, rfl, rfl, Or.inr ⟨hnone, Or.inl ⟨k, rfl, rfl⟩⟩⟩
      | none =>
          have hbusy : ∀ k, free s k = false := by
            intro k
            exact Bool.eq_false_iff.mpr
              (List.find?_eq_none.mp hback k (List.mem_reverse.mpr (h.all k)))
          exact ⟨_, rfl, rfl, Or.inr ⟨hnone, Or.inr ⟨hbusy, rfl⟩⟩⟩

/-- **The last free buffer of the list** is the one released longest ago. -/
theorem Inv.find_free (h : Inv hist s order) (hk : order.reverse.find? (free s) = some k) :
    free s k = true ∧ ∀ c, free s c = true → since hist c ≤ since hist k := by
  obtain ⟨hfree, v, u, huv, hv⟩ := List.find?_eq_some_iff_append.mp hk
  refine ⟨hfree, ?_⟩
  intro c hc
  have horder : order = u.reverse ++ k :: v.reverse := by
    rw [← List.reverse_reverse order, huv, List.reverse_append, List.reverse_cons,
      List.append_assoc, List.singleton_append]
  have hmem := h.all c
  rw [horder] at hmem
  have hpair := h.recent
  rw [horder] at hpair
  rcases List.mem_append.mp hmem with hu | hk
  · exact (List.pairwise_append.mp hpair).2.2 c hu k List.mem_cons_self
  · rcases List.mem_cons.mp hk with rfl | hmem
    · exact Nat.le_refl _
    · have hnot := hv c (List.mem_reverse.mp hmem)
      rw [hc] at hnot
      cases hnot

/-! ## The list of `Bio.Cache` -/

section Represents

variable {P : Type} [DecidableEq P] {t : Bio.St P}

/-- The pointers are those of the list that `Bio.Cache` keeps. -/
structure Represents (hist : List (Fin NBUF)) (s : St) (t : Bio.St P) : Prop where
  inv : Inv hist s t.order
  buf : s.buf = t.buf

/-- **`bget` on the pointers** does what it does on the list. -/
theorem Represents.bget (h : Represents hist s t) (p : P) (dev blockno : Nat) :
    ∃ r, bget s dev blockno = some r ∧ Represents hist r.2 (Bio.bget t p dev blockno) := by
  have hcaches : caches s dev blockno =
      fun k => decide ((t.buf k).dev = dev ∧ (t.buf k).blockno = blockno) := by
    funext k
    rw [caches, h.buf]
  have hfree : free s = fun k => decide ((t.buf k).busy = false ∧ (t.buf k).dirty = false) := by
    funext k
    rw [free, h.buf]
  have hset : ∀ k b, Represents hist { s with buf := upd s.buf k b } (t.setBuf k b) := by
    intro k b
    refine ⟨h.inv.congr rfl, ?_⟩
    show upd s.buf k b = Function.update t.buf k b
    rw [upd_eq_update, h.buf]
  -- a process's place is no part of the list
  have hpc : ∀ {s : St} {t : Bio.St P} {c : Pc}, Represents hist s t →
      Represents hist s (t.setPc p c) :=
    fun h => ⟨h.inv, h.buf⟩
  rw [Lru.bget, Bio.bget, h.inv.search_next, h.inv.search_prev, hcaches, hfree]
  split
  · rename_i heq
    cases heq
  · rename_i k heq
    rw [Option.some.inj heq]
    dsimp only
    rw [← h.buf]
    by_cases hbusy : (s.buf k).busy = false
    · rw [if_pos hbusy, if_pos hbusy]
      exact ⟨_, rfl, hpc (hset k _)⟩
    · rw [if_neg hbusy, if_neg hbusy]
      exact ⟨_, rfl, hpc h⟩
  · rename_i heq
    rw [Option.some.inj heq]
    dsimp only
    split
    · rename_i heq
      cases heq
    · rename_i k heq
      rw [Option.some.inj heq, ← h.buf]
      exact ⟨_, rfl, hpc (hset k _)⟩
    · rename_i heq
      rw [Option.some.inj heq]
      exact ⟨_, rfl, h.inv, h.buf⟩

/-- **`brelse` on the pointers** likewise. -/
theorem Represents.brelse (h : Represents hist s t) (p : P) (hs : brelse s k = some s') :
    Represents (k :: hist) s' (Bio.brelse t p k) := by
  have hinv := h.inv.brelse hs
  rw [Lru.brelse] at hs
  obtain ⟨hbusy, heq⟩ := Option.ite_none_left_eq_some.mp hs
  obtain rfl := Option.some.inj heq
  have hbusy' : ¬(t.buf k).busy = false := by rwa [← h.buf]
  rw [Bio.brelse, if_neg hbusy']
  refine ⟨hinv, ?_⟩
  show upd s.buf k { s.buf k with busy := false } = Function.update t.buf k { t.buf k with busy := false }
  rw [upd_eq_update, h.buf]

end Represents

/-! ## Runs -/

/-- **A step** keeps the invariant, for a list of its own. -/
theorem Inv.step {a : Act} (h : Inv hist s order) (hs : step s a = some s') :
    ∃ order, Inv (release hist a) s' order := by
  cases a with
  | binit =>
      obtain rfl := Option.some.inj hs
      exact ⟨_, inv_binit s⟩
  | bget dev blockno =>
      obtain ⟨r, hr, hlinks, _⟩ := h.bget_cases dev blockno
      rw [Lru.step, hr, Option.bind_some] at hs
      obtain ⟨_, heq⟩ := Option.ite_none_left_eq_some.mp hs
      obtain rfl := Option.some.inj heq
      exact ⟨order, h.congr hlinks⟩
  | use k b =>
      obtain ⟨_, heq⟩ := Option.ite_none_right_eq_some.mp hs
      obtain rfl := Option.some.inj heq
      exact ⟨order, h.congr rfl⟩
  | brelse k => exact ⟨_, h.brelse hs⟩

/-- **A run** likewise, with the releases of its calls. -/
theorem Inv.run {acts : List Act} (h : Inv hist s order)
    (hrun : execAll Lru.step s acts = some s') :
    ∃ order, Inv (acts.foldl release hist) s' order := by
  induction acts generalizing s hist order with
  | nil =>
      obtain rfl := Option.some.inj hrun
      exact ⟨order, h⟩
  | cons a acts ih =>
      obtain ⟨t, ht, hrun⟩ := execAll_cons_eq_some.mp hrun
      obtain ⟨order', h'⟩ := h.step ht
      exact ih h' hrun

/-- A run that begins with `binit`. -/
theorem inv_run {s₀ : St} {acts : List Act} (h : execAll step s₀ (.binit :: acts) = some s) :
    ∃ order, Inv (releases acts) s order := by
  obtain ⟨t, ht, hrun⟩ := execAll_cons_eq_some.mp h
  obtain rfl := Option.some.inj ht
  exact (inv_binit s₀).run hrun

/-- **The ring**: from the head on, `next` meets every buffer once and no
other node, and then the head; `prev` goes back. -/
def Ring (s : St) : Prop :=
  (∀ k, ∃! i, i < NBUF ∧ s.links.next^[i + 1] none = some k) ∧
    (∀ i < NBUF, s.links.next^[i + 1] none ≠ none) ∧
    s.links.next^[NBUF + 1] none = none ∧
    ∀ n, s.links.prev (s.links.next n) = n ∧ s.links.next (s.links.prev n) = n

/-- **The order**: of two buffers the later released is met first; one that
was released is met before one that was not. -/
def Recent (hist : List (Fin NBUF)) (s : St) : Prop :=
  ∀ i j k l, i < NBUF → j < NBUF → s.links.next^[i + 1] none = some k →
    s.links.next^[j + 1] none = some l → since hist k < since hist l → i < j

/-- **Recycling**: `bget` comes to an end. If the block is not cached it takes
the buffer released longest ago of those neither busy nor dirty, and
panics only if there is none. -/
def Recycles (hist : List (Fin NBUF)) (s : St) : Prop :=
  ∀ dev blockno, ∃ r, bget s dev blockno = some r ∧
    ((∃ k, caches s dev blockno k = true ∧ (r.1 = .hit k ∨ r.1 = .asleep k)) ∨
      (∀ k, caches s dev blockno k = false) ∧
        ((∃ k, r.1 = .recycled k ∧ free s k = true ∧
            ∀ c, free s c = true → since hist c ≤ since hist k) ∨
          (∀ k, free s k = false) ∧ r.1 = .panic))

theorem Inv.iterate (h : Inv hist s order) {i : Nat} (hi : i ≤ NBUF) :
    s.links.next^[i + 1] none = order[i]? :=
  h.holds.next.iterate (by rw [h.length_eq]; exact hi)

theorem Inv.ring (h : Inv hist s order) : Ring s := by
  have hlen := h.length_eq
  have hnode : ∀ n, n ∈ ringNodes order := by
    intro n
    cases n with
    | none => exact List.mem_cons_self
    | some k => exact mem_ringNodes.mpr (h.all k)
  refine ⟨?_, ?_, ?_, fun n => ⟨h.holds.prev_next (hnode n), h.holds.next_prev (hnode n)⟩⟩
  · intro k
    obtain ⟨i, hi, hk⟩ := List.mem_iff_getElem.mp (h.all k)
    refine ⟨i, ⟨hlen ▸ hi, ?_⟩, ?_⟩
    · rw [h.iterate (hlen ▸ hi.le), List.getElem?_eq_getElem hi, hk]
    · rintro j ⟨hj, hjk⟩
      rw [h.iterate hj.le, List.getElem?_eq_getElem (hlen.symm ▸ hj)] at hjk
      exact (h.holds.nodup.getElem_inj_iff).mp ((Option.some.inj hjk).trans hk.symm)
  · intro i hi
    rw [h.iterate hi.le, List.getElem?_eq_getElem (hlen.symm ▸ hi)]
    exact Option.some_ne_none _
  · rw [h.iterate (Nat.le_refl _), List.getElem?_eq_none (by rw [hlen])]

theorem Inv.order_recent (h : Inv hist s order) : Recent hist s := by
  intro i j k l hi hj hk hl hlt
  have hlen := h.length_eq
  rw [h.iterate hi.le] at hk
  rw [h.iterate hj.le] at hl
  obtain ⟨hi', rfl⟩ := List.getElem?_eq_some_iff.mp hk
  obtain ⟨hj', rfl⟩ := List.getElem?_eq_some_iff.mp hl
  by_contra hle
  rcases Nat.lt_or_eq_of_le (Nat.le_of_not_lt hle) with hji | rfl
  · exact absurd (List.pairwise_iff_getElem.mp h.recent j i hj' hi' hji) (Nat.not_le.mpr hlt)
  · exact absurd hlt (Nat.lt_irrefl _)

/-- **The LRU list**, after any sequence of calls that begins with `binit`. -/
theorem lru_list {s₀ s : St} {acts : List Act} (h : execAll step s₀ (.binit :: acts) = some s) :
    Ring s ∧ Recent (releases acts) s ∧ Recycles (releases acts) s := by
  obtain ⟨order, hinv⟩ := inv_run h
  refine ⟨hinv.ring, hinv.order_recent, ?_⟩
  intro dev blockno
  obtain ⟨r, hr, _, hcases⟩ := hinv.bget_cases dev blockno
  refine ⟨r, hr, ?_⟩
  rcases hcases with hhit | ⟨hnone, ⟨k, hk, hgot⟩ | hpanic⟩
  · exact Or.inl hhit
  · obtain ⟨hfree, hlast⟩ := hinv.find_free hk
    exact Or.inr ⟨hnone, Or.inl ⟨k, hgot, hfree, hlast⟩⟩
  · exact Or.inr ⟨hnone, Or.inr hpanic⟩

/-- A memory of zeros. -/
def zeroed : St where
  links := ⟨fun _ => none, fun _ => none⟩
  buf := fun _ => ⟨false, false, false, 0, 0, Bytes.zero BSIZE⟩

def buffer0 : Fin NBUF := ⟨0, NBUF_pos⟩
def buffer1 : Fin NBUF := ⟨1, by decide⟩

/-- Two buffers are taken for blocks and released: the second is first in the
list then, before the other and those never released. -/
theorem lru_list_release :
    ∃ s, execAll step zeroed
        [.binit, .bget 1 2, .bget 1 3, .brelse buffer0, .brelse buffer1] = some s ∧
      (List.range (NBUF + 1)).map (fun i => s.links.next^[i + 1] none) =
        (buffer1 :: buffer0 :: ((List.finRange NBUF).drop 2).reverse).map some ++ [none] ∧
      Ring s ∧ Recent [buffer1, buffer0] s ∧ Recycles [buffer1, buffer0] s := by
  have hrun : (execAll step zeroed
      [.binit, .bget 1 2, .bget 1 3, .brelse buffer0, .brelse buffer1]).map
      (fun s => (List.range (NBUF + 1)).map fun i => s.links.next^[i + 1] none) =
      some ((buffer1 :: buffer0 :: ((List.finRange NBUF).drop 2).reverse).map some ++ [none]) := by
    decide +kernel
  obtain ⟨s, h, horder⟩ := Option.map_eq_some_iff.mp hrun
  exact ⟨s, h, horder, lru_list h⟩

/-- **Pointers and list** stay together through `bget` and `brelse`. -/
theorem pointers_simulate {P : Type} [DecidableEq P] {hist : List (Fin NBUF)} {s : St} {t : Bio.St P}
    (h : Represents hist s t) (p : P) :
    (∀ dev blockno, ∃ r, bget s dev blockno = some r ∧
        Represents hist r.2 (Bio.bget t p dev blockno)) ∧
      ∀ k s', brelse s k = some s' → Represents (k :: hist) s' (Bio.brelse t p k) :=
  ⟨h.bget p, fun _ _ => h.brelse p⟩

theorem pointers_simulate_binit : ∃ (s : St) (t : Bio.St Unit), Represents [] s t ∧
    ∃ r, bget s 1 2 = some r ∧ Represents [] r.2 (Bio.bget t () 1 2) := by
  let t := Bio.St.init Unit fun _ => Bytes.zero BSIZE
  have h : Represents [] { binit zeroed with buf := t.buf } t :=
    ⟨(inv_binit zeroed).congr rfl, rfl⟩
  exact ⟨_, t, h, (pointers_simulate h ()).1 1 2⟩

end Xv6.Bio.Lru
