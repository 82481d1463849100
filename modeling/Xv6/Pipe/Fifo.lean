import Xv6.Pipe.Model
import Xv6.Lib.Mutex

/-!
# Pipe — first in, first out

The ring of `struct pipe` against the whole history of the pipe, and what
each `pipewrite` contributed to it. The ring invariant needs no lock: a
step tests for room, or for a byte, right where it moves one. That the
bytes of a call stay together, and are its own, needs `p->lock`
(`Locks`), and that no two calls have the same number (`Frames`).
-/

namespace Xv6.Pipe

open Lib

variable {P : Type}

/-! ## The locks -/

/-- In a section of `p->lock`. -/
def Pc.locked : Pc → Bool
  | .test _ | .check _ | .wakeFull _ | .lockTable _ | .unlock _ | .copy _ | .wake _ | .ret _ _
  | .closeSet _ | .closeWake _ | .closeRet _ => true
  | _ => false

/-- In `sleep`, holding `ptable.lock`. -/
def Pc.tabled : Pc → Bool
  | .unlock _ | .mark _ => true
  | _ => false

structure Locks (s : St P) : Prop where
  lock : Owns Pc.locked s.pc s.lock
  table : Owns Pc.tabled s.pc s.tableLock

theorem locks_init : Locks (St.init : St P) :=
  ⟨fun q => by simp [St.init, Pc.locked], fun q => by simp [St.init, Pc.tabled]⟩

theorem Locks.step [DecidableEq P] {s s' : St P} {a : Act P} (h : Locks s) (hs : Step s a s') : Locks s' := by
  have hl := h.lock
  have ht := h.table
  cases hs with
  | kill | skip => exact ⟨hl, ht⟩
  | acquire q f hpc hfree | closing q w hpc hfree =>
      rw [hfree] at hl
      exact ⟨hl.acquire rfl, ht.keep (by rw [hpc]; rfl)⟩
  | lockTable q f hpc hfree =>
      rw [hfree] at ht
      exact ⟨hl.keep (by rw [hpc]; rfl), ht.acquire rfl⟩
  | unlock q f hpc | ret q f r hpc | closeRet q w hpc =>
      exact ⟨hl.release (by rw [hpc]; rfl) rfl, ht.keep (by rw [hpc]; rfl)⟩
  | mark q f hpc => exact ⟨hl.keep (by rw [hpc]; rfl), ht.release (by rw [hpc]; rfl) rfl⟩
  | store q f addr n hpc | full q f addr n hpc | stored q f addr n hpc | stuck q f addr n hpc
  | empty q f n hpc | copying q f n hpc | wait q f n hpc | pop q f n hpc | copied q f n hpc
  | fail q f hpc | wakeFull q f hpc | resume q f hpc | wake q f hpc | closeWake q w hpc
  | closeWrite q hpc | closeRead q hpc | call q c hpc | close q w hpc =>
      exact ⟨hl.keep (by rw [hpc]; rfl), ht.keep (by rw [hpc]; rfl)⟩

/-! ## The ring -/

/-- The byte of a store. -/
def Event.byte? : Event → Option UInt8
  | .store _ x => some x
  | .sleep _ => none

/-- All bytes ever stored, in order. -/
def St.stored (s : St P) : List UInt8 := s.hist.filterMap Event.byte?

/-- The ring holds what was stored and not handed out yet. -/
structure Fifo (s : St P) : Prop where
  ring : s.ring.Holds s.stored s.handed.length
  handed : s.handed = s.stored.take s.handed.length

theorem PIPESIZE_lt : PIPESIZE < 2 ^ 32 := by decide

theorem PIPESIZE_dvd : PIPESIZE ∣ 2 ^ 32 := by decide

theorem fifo_init : Fifo (St.init : St P) :=
  ⟨⟨rfl, rfl, Nat.le_refl 0, Nat.zero_le _, fun j x _ hx => by cases hx⟩, rfl⟩

/-- Other steps move no byte. -/
theorem Fifo.congr {s s' : St P} (h : Fifo s) (hr : s'.ring = s.ring) (hst : s'.stored = s.stored)
    (hh : s'.handed = s.handed) : Fifo s' := by
  constructor
  · rw [hr, hst, hh]
    exact h.ring
  · rw [hst, hh]
    exact h.handed

theorem Fifo.step [DecidableEq P] {s s' : St P} {a : Act P} (h : Fifo s) (hs : Step s a s') : Fifo s' := by
  cases hs with
  | store q f addr n hpc hc hi hfull =>
      have hroom : s.stored.length < s.handed.length + PIPESIZE := by
        have hne : s.stored.length ≠ s.handed.length + PIPESIZE := fun he =>
          hfull ((h.ring.full_iff PIPESIZE_lt).mpr he)
        exact Nat.lt_of_le_of_ne h.ring.fits hne
      have hst : (s.hist ++ [Event.store f.id (addr f.i)]).filterMap Event.byte? =
          s.stored ++ [addr f.i] := by
        rw [List.filterMap_append]
        rfl
      constructor
      · show (s.ring.push _).Holds (List.filterMap _ _) _
        rw [hst]
        exact h.ring.push PIPESIZE_dvd hroom _
      · show s.handed = (List.filterMap _ _).take s.handed.length
        rw [hst, List.take_append_of_le_length h.ring.le]
        exact h.handed
  | pop q f n hpc hc he =>
      have hsome : s.handed.length < s.stored.length := by
        have hne : s.stored.length ≠ s.handed.length := fun he' =>
          he ((h.ring.empty_iff PIPESIZE_lt).mpr he')
        exact Nat.lt_of_le_of_ne h.ring.le hne.symm
      obtain ⟨hfront, hpop⟩ := h.ring.pop PIPESIZE_dvd hsome
      constructor
      · show s.ring.pop.Holds s.stored (s.handed ++ [s.ring.front]).length
        rw [List.length_append, List.length_singleton]
        exact hpop
      · show s.handed ++ [s.ring.front] = s.stored.take (s.handed ++ [s.ring.front]).length
        rw [List.length_append, List.length_singleton, List.take_add_one, hfront, Option.toList_some,
          ← h.handed]
  | unlock q f hpc =>
      refine h.congr rfl ?_ rfl
      show (s.hist ++ [Event.sleep f.id]).filterMap Event.byte? = s.stored
      rw [List.filterMap_append]
      exact List.append_nil _
  | _ => exact h.congr rfl rfl rfl

/-! ## The calls -/

/-- The call an event belongs to. -/
def Event.id : Event → Nat
  | .store id _ => id
  | .sleep id => id

/-- The bytes that call `id` stored, in order. -/
def storesOf (id : Nat) (hist : List Event) : List UInt8 :=
  (hist.filter fun e => e.id = id).filterMap Event.byte?

theorem storesOf_append_of_ne {id : Nat} {hist : List Event} {e : Event} (h : e.id ≠ id) :
    storesOf id (hist ++ [e]) = storesOf id hist := by
  simp [storesOf, List.filter_append, h]

theorem storesOf_append_store {id : Nat} {hist : List Event} {x : UInt8} :
    storesOf id (hist ++ [.store id x]) = storesOf id hist ++ [x] := by
  simp [storesOf, List.filter_append, Event.id, Event.byte?]

theorem storesOf_append_sleep {id j : Nat} {hist : List Event} :
    storesOf id (hist ++ [.sleep j]) = storesOf id hist := by
  simp only [storesOf, List.filter_append, List.filterMap_append]
  by_cases h : j = id <;> simp [Event.id, Event.byte?, h]

theorem storesOf_eq_nil {id : Nat} {hist : List Event} (h : ∀ e ∈ hist, e.id ≠ id) :
    storesOf id hist = [] := by
  have : hist.filter (fun e => e.id = id) = [] := by
    simpa [List.filter_eq_nil_iff] using h
  rw [storesOf, this]
  rfl

/-- A `pipewrite` has stored as many bytes as its loop variable says. -/
def Wrote (hist : List Event) (f : Frame) : Prop :=
  ∀ addr n, f.call = .write addr n →
    storesOf f.id hist = (List.range f.i).map addr ∧ (f.i : Int) ≤ max n 0

/-- It returns -1, or `n` with its loop finished. -/
def Finished (f : Frame) (r : Int) : Prop :=
  ∀ addr n, f.call = .write addr n → r = -1 ∨ r = n ∧ n ≤ f.i

/-- Where a call is past its loop, the loop is finished. -/
def Pc.Past : Pc → Prop
  | .wake f => Finished f f.result
  | .ret f r => Finished f r
  | _ => True

structure Frames (s : St P) : Prop where
  fresh : ∀ q f, (s.pc q).frame = some f → f.id < s.calls
  distinct : ∀ p q f g, (s.pc p).frame = some f → (s.pc q).frame = some g → f.id = g.id → p = q
  hist : ∀ e ∈ s.hist, e.id < s.calls
  wrote : ∀ q f, (s.pc q).frame = some f → Wrote s.hist f
  past : ∀ q, (s.pc q).Past
  returned : ∀ f r, (f, r) ∈ s.returned → f.id < s.calls ∧ Wrote s.hist f ∧ Finished f r ∧
    ∀ q g, (s.pc q).frame = some g → g.id ≠ f.id

theorem frames_init : Frames (St.init : St P) :=
  ⟨fun _ _ h => (by cases h), fun _ _ _ _ h => (by cases h), fun _ h => (by cases h),
    fun _ _ h => (by cases h), fun _ => trivial, fun _ _ h => (by cases h)⟩

/-- A frame of the next state is one of this state, under the same number. -/
def SameCall (f g : Frame) : Prop :=
  g.id = f.id ∧ g.call = f.call

section Steps

variable [DecidableEq P] {s s' : St P} {q : P} {pc : Pc}

/-- A process moves on in its call, or leaves it; nothing is stored. -/
theorem Frames.move (h : Frames s) (hpc : s'.pc = Function.update s.pc q pc)
    (hcalls : s'.calls = s.calls) (hhist : ∀ id, storesOf id s'.hist = storesOf id s.hist)
    (hids : ∀ e ∈ s'.hist, e.id < s.calls) (hret : s'.returned = s.returned)
    (hframe : ∀ g, pc.frame = some g → ∃ f, (s.pc q).frame = some f ∧ SameCall f g ∧
      ((∃ n, f.call = .read n) ∨ g.i = f.i))
    (hpast : pc.Past) : Frames s' := by
  -- every frame of `s'` comes from one of `s`, at the same process
  have hold : ∀ p g, (s'.pc p).frame = some g → ∃ f, (s.pc p).frame = some f ∧ SameCall f g ∧
      ((∃ n, f.call = .read n) ∨ g.i = f.i) := fun p g hg => by
    rw [hpc] at hg
    rcases eq_or_ne p q with rfl | hne
    · rw [Function.update_self] at hg
      exact hframe g hg
    · rw [Function.update_of_ne hne] at hg
      exact ⟨g, hg, ⟨rfl, rfl⟩, Or.inr rfl⟩
  have hwrote : ∀ f, Wrote s.hist f → Wrote s'.hist f := fun f hf addr n hc => by
    rw [hhist]
    exact hf addr n hc
  refine ⟨fun p g hg => ?_, fun p p' g g' hg hg' he => ?_, ?_, fun p g hg addr n hc => ?_,
    fun p => ?_, fun f r hr => ?_⟩
  · obtain ⟨f, hf, hs, -⟩ := hold p g hg
    rw [hs.1, hcalls]
    exact h.fresh p f hf
  · obtain ⟨f, hf, hs, -⟩ := hold p g hg
    obtain ⟨f', hf', hs', -⟩ := hold p' g' hg'
    exact h.distinct p p' f f' hf hf' (by rw [← hs.1, ← hs'.1, he])
  · rw [hcalls]
    exact hids
  · obtain ⟨f, hf, hs, hi⟩ := hold p g hg
    rw [hs.2] at hc
    have hi' : g.i = f.i := by
      rcases hi with ⟨m, hm⟩ | hi
      · rw [hc] at hm
        cases hm
      · exact hi
    rw [hs.1, hi']
    exact hwrote f (h.wrote p f hf) addr n hc
  · rw [hpc]
    rcases eq_or_ne p q with rfl | hne
    · rw [Function.update_self]
      exact hpast
    · rw [Function.update_of_ne hne]
      exact h.past p
  · rw [hret] at hr
    obtain ⟨h1, h2, h3, h4⟩ := h.returned f r hr
    refine ⟨by rw [hcalls]; exact h1, hwrote f h2, h3, fun p g hg => ?_⟩
    obtain ⟨f', hf', hs, -⟩ := hold p g hg
    rw [hs.1]
    exact h4 p f' hf'

/-- The common case: the frame stays as it is. -/
theorem Frames.stay (h : Frames s) {f : Frame} (hpc : s'.pc = Function.update s.pc q pc)
    (hcalls : s'.calls = s.calls) (hhist : s'.hist = s.hist) (hret : s'.returned = s.returned)
    (hq : (s.pc q).frame = some f) (hf : pc.frame = some f) (hpast : pc.Past) : Frames s' := by
  refine h.move hpc hcalls (fun _ => by rw [hhist]) (by rw [hhist]; exact h.hist) hret
    (fun g hg => ⟨f, hq, ?_⟩) hpast
  rw [hf] at hg
  cases hg
  exact ⟨⟨rfl, rfl⟩, Or.inr rfl⟩

/-- A call begins, with a new number. -/
theorem Frames.call (h : Frames s) {c : Call}
    (hpc : s'.pc = Function.update s.pc q (.acquire ⟨s.calls, c, 0, false⟩))
    (hcalls : s'.calls = s.calls + 1) (hhist : s'.hist = s.hist)
    (hret : s'.returned = s.returned) : Frames s' := by
  have hnew : ∀ g, (s'.pc q).frame = some g → g = ⟨s.calls, c, 0, false⟩ := fun g hg => by
    rw [hpc, Function.update_self] at hg
    exact (Option.some.inj hg).symm
  have hold : ∀ p, p ≠ q → s'.pc p = s.pc p := fun p hp => by rw [hpc, Function.update_of_ne hp]
  refine ⟨fun p g hg => ?_, fun p p' g g' hg hg' he => ?_, fun e he => ?_, fun p g hg => ?_,
    fun p => ?_, fun f r hr => ?_⟩
  · rw [hcalls]
    rcases eq_or_ne p q with rfl | hp
    · rw [hnew g hg]
      exact Nat.lt_succ_self _
    · exact (h.fresh p g (hold p hp ▸ hg)).trans (Nat.lt_succ_self _)
  · rcases eq_or_ne p q with rfl | hp <;> rcases eq_or_ne p' p with rfl | hp'
    · rfl
    · rw [hnew g hg] at he
      have := h.fresh p' g' (hold p' hp' ▸ hg')
      exact absurd he.symm (Nat.ne_of_lt this)
    · rfl
    · rcases eq_or_ne p' q with rfl | hpq
      · rw [hnew g' hg'] at he
        have := h.fresh p g (hold p hp ▸ hg)
        exact absurd he (Nat.ne_of_lt this)
      · exact h.distinct p p' g g' (hold p hp ▸ hg) (hold p' hpq ▸ hg') he
  · rw [hcalls]
    rw [hhist] at he
    exact (h.hist e he).trans (Nat.lt_succ_self _)
  · rw [hhist]
    rcases eq_or_ne p q with rfl | hp
    · rw [hnew g hg]
      refine fun addr n _ => ⟨?_, by simp⟩
      exact storesOf_eq_nil fun e he => Nat.ne_of_lt (h.hist e he)
    · exact h.wrote p g (hold p hp ▸ hg)
  · rcases eq_or_ne p q with rfl | hp
    · rw [hpc, Function.update_self]
      trivial
    · rw [hold p hp]
      exact h.past p
  · rw [hret] at hr
    obtain ⟨h1, h2, h3, h4⟩ := h.returned f r hr
    refine ⟨by rw [hcalls]; omega, by rw [hhist]; exact h2, h3, fun p g hg => ?_⟩
    rcases eq_or_ne p q with rfl | hp
    · rw [hnew g hg]
      exact (Nat.ne_of_lt h1).symm
    · exact h4 p g (hold p hp ▸ hg)

/-- A `pipewrite` stores its next byte. -/
theorem Frames.store (h : Frames s) {f : Frame} {addr : Nat → UInt8} {n : Int}
    (hq : s.pc q = .test f) (hc : f.call = .write addr n) (hi : (f.i : Int) < n)
    (hpc : s'.pc = Function.update s.pc q (.test (f.next true))) (hcalls : s'.calls = s.calls)
    (hhist : s'.hist = s.hist ++ [.store f.id (addr f.i)]) (hret : s'.returned = s.returned) :
    Frames s' := by
  have hqf : (s.pc q).frame = some f := by rw [hq]; rfl
  have hnew : ∀ g, (s'.pc q).frame = some g → g = f.next true := fun g hg => by
    rw [hpc, Function.update_self] at hg
    exact (Option.some.inj hg).symm
  have hold : ∀ p, p ≠ q → s'.pc p = s.pc p := fun p hp => by rw [hpc, Function.update_of_ne hp]
  -- the other calls have other numbers
  have hother : ∀ g : Frame, g.id ≠ f.id → Wrote s.hist g → Wrote s'.hist g :=
    fun g hne hg addr' n' hc' => by
      have he : (Event.store f.id (addr f.i)).id ≠ g.id := hne.symm
      rw [hhist, storesOf_append_of_ne he]
      exact hg addr' n' hc'
  have hid : ∀ p g, (s'.pc p).frame = some g →
      ∃ g', (s.pc p).frame = some g' ∧ g.id = g'.id := fun p g hg => by
    rcases eq_or_ne p q with rfl | hp
    · exact ⟨f, hqf, by rw [hnew g hg]; rfl⟩
    · exact ⟨g, hold p hp ▸ hg, rfl⟩
  refine ⟨fun p g hg => ?_, fun p p' g g' hg hg' he => ?_, fun e he => ?_, fun p g hg => ?_,
    fun p => ?_, fun g r hr => ?_⟩
  · obtain ⟨g', hg', he⟩ := hid p g hg
    rw [hcalls, he]
    exact h.fresh p g' hg'
  · obtain ⟨k, hk, hek⟩ := hid p g hg
    obtain ⟨k', hk', hek'⟩ := hid p' g' hg'
    exact h.distinct p p' k k' hk hk' (by rw [← hek, ← hek', he])
  · rw [hcalls]
    rw [hhist] at he
    rcases List.mem_append.mp he with he | he
    · exact h.hist e he
    · rw [List.mem_singleton.mp he]
      exact h.fresh q f hqf
  · rcases eq_or_ne p q with rfl | hp
    · rw [hnew g hg]
      intro addr' n' hc'
      obtain ⟨rfl, rfl⟩ : addr = addr' ∧ n = n' := by
        have := hc.symm.trans hc'
        cases this
        exact ⟨rfl, rfl⟩
      obtain ⟨h1, -⟩ := h.wrote p f hqf addr n hc
      constructor
      · show storesOf f.id _ = (List.range (f.i + 1)).map addr
        rw [hhist, storesOf_append_store, h1, List.range_succ, List.map_append]
        rfl
      · show ((f.i + 1 : Nat) : Int) ≤ _
        omega
    · have hg' := hold p hp ▸ hg
      exact hother g (fun he => hp (h.distinct p q g f hg' hqf he)) (h.wrote p g hg')
  · rcases eq_or_ne p q with rfl | hp
    · rw [hpc, Function.update_self]
      trivial
    · rw [hold p hp]
      exact h.past p
  · rw [hret] at hr
    obtain ⟨h1, h2, h3, h4⟩ := h.returned g r hr
    refine ⟨by rw [hcalls]; exact h1, hother g (h4 q f hqf).symm h2, h3, fun p k hk => ?_⟩
    obtain ⟨k', hk', he⟩ := hid p k hk
    rw [he]
    exact h4 p k' hk'

/-- A call returns. -/
theorem Frames.ret (h : Frames s) {f : Frame} {r : Int} (hq : s.pc q = .ret f r)
    (hpc : s'.pc = Function.update s.pc q .idle) (hcalls : s'.calls = s.calls)
    (hhist : s'.hist = s.hist) (hret : s'.returned = s.returned ++ [(f, r)]) : Frames s' := by
  have hqf : (s.pc q).frame = some f := by rw [hq]; rfl
  have hold : ∀ p g, (s'.pc p).frame = some g → p ≠ q ∧ (s.pc p).frame = some g := fun p g hg => by
    rw [hpc] at hg
    rcases eq_or_ne p q with rfl | hp
    · rw [Function.update_self] at hg
      cases hg
    · rw [Function.update_of_ne hp] at hg
      exact ⟨hp, hg⟩
  refine ⟨fun p g hg => ?_, fun p p' g g' hg hg' he => ?_, ?_, fun p g hg => ?_, fun p => ?_,
    fun g r' hr => ?_⟩
  · rw [hcalls]
    exact h.fresh p g (hold p g hg).2
  · exact h.distinct p p' g g' (hold p g hg).2 (hold p' g' hg').2 he
  · rw [hcalls, hhist]
    exact h.hist
  · rw [hhist]
    exact h.wrote p g (hold p g hg).2
  · rw [hpc]
    rcases eq_or_ne p q with rfl | hp
    · rw [Function.update_self]
      trivial
    · rw [Function.update_of_ne hp]
      exact h.past p
  · rw [hret] at hr
    rw [hcalls, hhist]
    rcases List.mem_append.mp hr with hr | hr
    · obtain ⟨h1, h2, h3, h4⟩ := h.returned g r' hr
      exact ⟨h1, h2, h3, fun p k hk => h4 p k (hold p k hk).2⟩
    · obtain ⟨rfl, rfl⟩ := Prod.mk.inj (List.mem_singleton.mp hr)
      refine ⟨h.fresh q g hqf, h.wrote q g hqf, ?_, fun p k hk he => ?_⟩
      · have := h.past q
        rwa [hq] at this
      · obtain ⟨hp, hk⟩ := hold p k hk
        exact hp (h.distinct p q k g hk hqf he)

theorem Frames.step {a : Act P} (h : Frames s) (hs : Step s a s') : Frames s' := by
  have hread : ∀ {f : Frame} {n : Int} {r : Int}, f.call = .read n → Finished f r :=
    fun hc addr m hc' => by
      rw [hc] at hc'
      cases hc'
  cases hs with
  | kill | skip => exact ⟨h.fresh, h.distinct, h.hist, h.wrote, h.past, h.returned⟩
  | call q c hpc => exact h.call rfl rfl rfl rfl
  | store q f addr n hpc hc hi => exact h.store hpc hc hi rfl rfl rfl rfl
  | ret q f r hpc => exact h.ret hpc rfl rfl rfl rfl
  | close q w hpc | closing q w hpc | closeRet q w hpc | closeWake q w hpc | closeWrite q hpc
  | closeRead q hpc =>
      exact h.move rfl rfl (fun _ => rfl) h.hist rfl (fun g hg => by cases hg) trivial
  | unlock q f hpc =>
      have hqf : (s.pc q).frame = some f := by rw [hpc]; rfl
      refine h.move rfl rfl (fun id => storesOf_append_sleep) (fun e he => ?_) rfl (fun g hg => ?_)
        trivial
      · rcases List.mem_append.mp he with he | he
        · exact h.hist e he
        · rw [List.mem_singleton.mp he]
          exact h.fresh q f hqf
      · cases hg
        exact ⟨f, hqf, ⟨rfl, rfl⟩, Or.inr rfl⟩
  | pop q f n hpc hc =>
      refine h.move rfl rfl (fun id => rfl) h.hist rfl (fun g hg => ?_) trivial
      cases hg
      exact ⟨f, by rw [hpc]; rfl, ⟨rfl, rfl⟩, Or.inl ⟨n, hc⟩⟩
  | stored q f addr n hpc hc hi =>
      refine h.stay rfl rfl rfl rfl (by rw [hpc]; rfl) rfl ?_
      intro addr' n' hc'
      have hr : f.result = n' := by simp only [Frame.result, hc']
      rw [hc] at hc'
      cases hc'
      exact Or.inr ⟨hr, hi⟩
  | copied q f n hpc hc => exact h.stay rfl rfl rfl rfl (by rw [hpc]; rfl) rfl (hread hc)
  | fail q f hpc =>
      exact h.stay rfl rfl rfl rfl (by rw [hpc]; rfl) rfl fun _ _ _ => Or.inl rfl
  | wake q f hpc =>
      refine h.stay rfl rfl rfl rfl (by rw [hpc]; rfl) rfl ?_
      have := h.past q
      rwa [hpc] at this
  | full q f addr n hpc | stuck q f addr n hpc | empty q f n hpc | copying q f n hpc | wait q f n hpc
  | acquire q f hpc | wakeFull q f hpc | lockTable q f hpc | mark q f hpc | resume q f hpc =>
      exact h.stay rfl rfl rfl rfl (by rw [hpc]; rfl) rfl trivial

end Steps

/-! ## The bytes of a call stay together -/

/-- The last event of call `id`. -/
def lastOf (id : Nat) (hist : List Event) : Option Event := (hist.filter fun e => e.id = id).getLast?

theorem lastOf_append_self {hist : List Event} {e : Event} : lastOf e.id (hist ++ [e]) = some e := by
  simp [lastOf, List.filter_append]

theorem lastOf_append_of_ne {id : Nat} {hist : List Event} {e : Event} (h : e.id ≠ id) :
    lastOf id (hist ++ [e]) = lastOf id hist := by
  simp [lastOf, List.filter_append, h]

/-- Two stores of a call with no other event of the call in between have
nothing at all in between. -/
def Together (hist : List Event) : Prop :=
  ∀ id x y a mid b, hist = a ++ .store id x :: (mid ++ .store id y :: b) →
    (∀ e ∈ mid, e.id ≠ id) → mid = []

structure Sections (s : St P) : Prop where
  outside : ∀ q f x, (s.pc q).frame = some f → (s.pc q).locked = false →
    lastOf f.id s.hist ≠ some (.store f.id x)
  inside : ∀ q f x, (s.pc q).frame = some f → (s.pc q).locked = true →
    lastOf f.id s.hist = some (.store f.id x) → s.hist.getLast? = some (.store f.id x)
  together : Together s.hist

theorem sections_init : Sections (St.init : St P) :=
  ⟨fun _ _ _ h => (by cases h), fun _ _ _ h => (by cases h),
    fun id x y a mid b h => (by simp [St.init] at h)⟩

/-- Where a decomposition of a longer history ends. -/
theorem append_singleton_cases {a mid b hist : List Event} {x y e : Event}
    (h : hist ++ [e] = a ++ x :: (mid ++ y :: b)) :
    (y = e ∧ hist = a ++ x :: mid) ∨ ∃ b', hist = a ++ x :: (mid ++ y :: b') := by
  rcases List.eq_nil_or_concat b with rfl | ⟨b', z, rfl⟩
  · have : hist ++ [e] = (a ++ x :: mid) ++ [y] := by simpa using h
    obtain ⟨h1, h2⟩ := List.append_inj' this rfl
    exact Or.inl ⟨(List.singleton_inj.mp h2).symm, h1⟩
  · have : hist ++ [e] = (a ++ x :: (mid ++ y :: b')) ++ [z] := by simpa using h
    exact Or.inr ⟨b', (List.append_inj' this rfl).1⟩

theorem Together.sleep {hist : List Event} (h : Together hist) (id : Nat) :
    Together (hist ++ [.sleep id]) := by
  intro j x y a mid b he hmid
  rcases append_singleton_cases he with ⟨hy, -⟩ | ⟨b', hb⟩
  · cases hy
  · exact h j x y a mid b' hb hmid

theorem Together.store {hist : List Event} (h : Together hist) {id : Nat} {z : UInt8}
    (hlast : ∀ x, lastOf id hist = some (.store id x) → hist.getLast? = some (.store id x)) :
    Together (hist ++ [.store id z]) := by
  intro j x y a mid b he hmid
  rcases append_singleton_cases he with ⟨hy, hh⟩ | ⟨b', hb⟩
  · cases hy
    -- `x` is the last event of the call, so the last event
    have hl : lastOf id hist = some (.store id x) := by
      have hnil : mid.filter (fun e => e.id = id) = [] := by
        simpa [List.filter_eq_nil_iff] using hmid
      have hcons : (a ++ Event.store id x :: mid).filter (fun e => e.id = id) =
          a.filter (fun e => e.id = id) ++ [.store id x] := by
        rw [List.filter_append, List.filter_cons_of_pos (by simp [Event.id]), hnil]
      rw [lastOf, hh, hcons, List.getLast?_append]
      rfl
    have hg := hlast x hl
    rcases List.eq_nil_or_concat mid with rfl | ⟨m', w, rfl⟩
    · rfl
    · rw [hh] at hg
      have hw : w = .store id x := by
        have : a ++ Event.store id x :: m'.concat w = (a ++ Event.store id x :: m') ++ [w] := by simp
        rw [this, List.getLast?_concat] at hg
        exact Option.some.inj hg
      exact absurd (by rw [hw]; rfl) (hmid w (by simp))
  · exact h j x y a mid b' hb hmid

section Steps

variable [DecidableEq P] {s s' : St P} {q : P} {pc : Pc}

/-- A process moves and nothing is entered in the history. -/
theorem Sections.move (h : Sections s) (hpc : s'.pc = Function.update s.pc q pc)
    (hhist : s'.hist = s.hist)
    (hframe : ∀ g, pc.frame = some g → ∃ f, (s.pc q).frame = some f ∧ g.id = f.id ∧
      (pc.locked = (s.pc q).locked ∨ (s.pc q).locked = false)) : Sections s' := by
  refine ⟨fun p g x hg hl => ?_, fun p g x hg hl => ?_, by rw [hhist]; exact h.together⟩
  · rw [hhist]
    rw [hpc] at hg hl
    rcases eq_or_ne p q with rfl | hp
    · rw [Function.update_self] at hg hl
      obtain ⟨f, hf, hid, hlock⟩ := hframe g hg
      rw [hid]
      exact h.outside p f x hf (hlock.elim (fun he => he.symm.trans hl) id)
    · rw [Function.update_of_ne hp] at hg hl
      exact h.outside p g x hg hl
  · rw [hhist]
    rw [hpc] at hg hl
    rcases eq_or_ne p q with rfl | hp
    · rw [Function.update_self] at hg hl
      obtain ⟨f, hf, hid, hlock⟩ := hframe g hg
      rw [hid]
      rcases hlock with he | he
      · exact h.inside p f x hf (he.symm.trans hl)
      · exact fun hlast => absurd hlast (h.outside p f x hf he)
    · rw [Function.update_of_ne hp] at hg hl
      exact h.inside p g x hg hl

/-- The holder of `p->lock` enters an event. -/
theorem Sections.event (h : Sections s) (hlocks : Locks s) (hframes : Frames s) {f g : Frame}
    {e : Event} (hqf : (s.pc q).frame = some f) (hql : (s.pc q).locked = true) (hid : e.id = f.id)
    (hg : pc.frame = some g) (hgid : g.id = f.id)
    (hpc : s'.pc = Function.update s.pc q pc) (hhist : s'.hist = s.hist ++ [e])
    (hside : pc.locked = true ∨ ∀ x, e ≠ .store f.id x) (htog : Together s'.hist) :
    Sections s' := by
  have hother : ∀ p g, p ≠ q → (s.pc p).frame = some g →
      (s.pc p).locked = false ∧ lastOf g.id s'.hist = lastOf g.id s.hist := fun p g hp hg => by
    refine ⟨?_, ?_⟩
    · by_contra hl
      exact hp (hlocks.lock.unique (by simpa using hl) hql)
    · rw [hhist, lastOf_append_of_ne]
      rw [hid]
      exact fun he => hp (hframes.distinct p q g f hg hqf he.symm)
  have hself : lastOf f.id s'.hist = some e := by
    rw [hhist, ← hid]
    exact lastOf_append_self
  refine ⟨fun p k x hk hl => ?_, fun p k x hk hl hlast => ?_, htog⟩
  · rw [hpc] at hk hl
    rcases eq_or_ne p q with rfl | hp
    · rw [Function.update_self] at hk hl
      cases hg.symm.trans hk
      rw [hgid, hself]
      rcases hside with he | hne
      · rw [hl] at he
        cases he
      · exact fun he => hne x (Option.some.inj he)
    · rw [Function.update_of_ne hp] at hk hl
      rw [(hother p k hp hk).2]
      exact h.outside p k x hk hl
  · rw [hpc] at hk hl
    rcases eq_or_ne p q with rfl | hp
    · rw [Function.update_self] at hk hl
      cases hg.symm.trans hk
      rw [hgid, hself] at hlast
      rw [hgid, hhist, ← Option.some.inj hlast]
      simp
    · rw [Function.update_of_ne hp] at hk hl
      rw [(hother p k hp hk).1] at hl
      cases hl

theorem Sections.step {a : Act P} (h : Sections s) (hlocks : Locks s) (hframes : Frames s)
    (hs : Step s a s') : Sections s' := by
  cases hs with
  | kill | skip => exact ⟨h.outside, h.inside, h.together⟩
  | call q c hpc =>
      -- a new number has no events yet
      have hnone : lastOf s.calls s.hist = none := by
        have : s.hist.filter (fun e => e.id = s.calls) = [] := by
          rw [List.filter_eq_nil_iff]
          intro e he
          simpa using Nat.ne_of_lt (hframes.hist e he)
        rw [lastOf, this]
        rfl
      refine ⟨fun p g x hg hl => ?_, fun p g x hg hl => ?_, h.together⟩
      · rcases eq_or_ne p q with rfl | hp
        · simp only [St.goto, Function.update_self] at hg
          cases hg
          show lastOf s.calls s.hist ≠ _
          rw [hnone]
          exact fun hc => by cases hc
        · simp only [St.goto, Function.update_of_ne hp] at hg hl
          exact h.outside p g x hg hl
      · rcases eq_or_ne p q with rfl | hp
        · simp only [St.goto, Function.update_self] at hl
          cases hl
        · simp only [St.goto, Function.update_of_ne hp] at hg hl
          exact h.inside p g x hg hl
  | store q f addr n hpc hc hi =>
      have hqf : (s.pc q).frame = some f := by rw [hpc]; rfl
      have hql : (s.pc q).locked = true := by rw [hpc]; rfl
      exact h.event (g := f.next true) hlocks hframes hqf hql rfl rfl rfl rfl rfl (Or.inl rfl)
        (h.together.store fun x => h.inside q f x hqf hql)
  | unlock q f hpc =>
      exact h.event (f := f) (g := f.slept) hlocks hframes (by rw [hpc]; rfl) (by rw [hpc]; rfl) rfl rfl rfl
        rfl rfl (Or.inr fun x hx => by cases hx) (h.together.sleep f.id)
  | ret q f r hpc => exact h.move rfl rfl fun g hg => by cases hg
  | close q w hpc | closing q w hpc | closeRet q w hpc | closeWake q w hpc | closeWrite q hpc
  | closeRead q hpc => exact h.move rfl rfl fun g hg => by cases hg
  | acquire q f hpc =>
      refine h.move rfl rfl fun g hg => ?_
      cases hg
      exact ⟨f, by rw [hpc]; rfl, rfl, Or.inr (by rw [hpc]; rfl)⟩
  | full q f addr n hpc | stored q f addr n hpc | stuck q f addr n hpc | empty q f n hpc
  | copying q f n hpc | wait q f n hpc | pop q f n hpc | copied q f n hpc | fail q f hpc
  | wakeFull q f hpc | lockTable q f hpc | mark q f hpc | resume q f hpc | wake q f hpc =>
      refine h.move rfl rfl fun g hg => ?_
      cases hg
      exact ⟨f, by rw [hpc]; rfl, rfl, Or.inl (by rw [hpc]; rfl)⟩

end Steps

/-! ## The pipe -/

section Pipe

variable [DecidableEq P] [Fintype P]

theorem invariants_of_reachable {s : St P} (h : Reachable s) :
    Locks s ∧ Fifo s ∧ Frames s ∧ Sections s :=
  h.invariant (I := fun s => Locks s ∧ Fifo s ∧ Frames s ∧ Sections s)
    (fun _ _ _ ⟨hl, hf, hr, hse⟩ hs =>
      have hs := step_cases hs
      ⟨hl.step hs, hf.step hs, hr.step hs, hse.step hl hr hs⟩)
    ⟨locks_init, fifo_init, frames_init, sections_init⟩

/-- **A pipe is first in, first out, and loses nothing**, for any number
of readers and writers and any interleaving of their steps. What was
handed out is a prefix of what was stored. The counters, which may have
wrapped, differ by at most `PIPESIZE`. A `pipewrite` of `n` bytes that
returned `n` stored its bytes in order, and other events come between two
of its stores only where it slept. -/
theorem pipe_fifo {s : St P} (h : Reachable s) :
    s.handed <+: s.stored ∧ (s.ring.nwrite - s.ring.nread).toNat ≤ PIPESIZE ∧
      (∀ f r addr n, (f, r) ∈ s.returned → f.call = .write addr n → 0 ≤ n → r = n →
        storesOf f.id s.hist = (List.range n.toNat).map addr) ∧
      ∀ id x y a mid b, s.hist = a ++ .store id x :: (mid ++ .store id y :: b) →
        (∀ e ∈ mid, e.id ≠ id) → mid = [] := by
  obtain ⟨-, hfifo, hframes, hsect⟩ := invariants_of_reachable h
  refine ⟨?_, ?_, fun f r addr n hr hc hn hrn => ?_, hsect.together⟩
  · rw [hfifo.handed]
    exact List.take_prefix _ _
  · rw [hfifo.ring.toNat_sub PIPESIZE_lt]
    have := hfifo.ring.fits
    omega
  · obtain ⟨-, hwrote, hfin, -⟩ := hframes.returned f r hr
    obtain ⟨h1, h2⟩ := hwrote addr n hc
    have hi : f.i = n.toNat := by
      rcases hfin addr n hc with hm | ⟨-, hle⟩
      · omega
      · omega
    rw [h1, hi]

/-- Two processes, for runs on fixed inputs. -/
inductive Side where
  | reader
  | writer
deriving DecidableEq

instance : Fintype Side := ⟨{.reader, .writer}, fun x => by cases x <;> decide⟩

/-- A writer of two bytes and a reader of one. -/
def shortRun : List (Act Side) :=
  .call .reader (.read 1) :: List.replicate 6 (.go .reader) ++
    .call .writer (.write (fun i => if i = 0 then 104 else 105) 2) :: List.replicate 6 (.go .writer) ++
    List.replicate 7 (.go .reader)

theorem pipe_fifo_short : ∃ s : St Side, execAll step .init shortRun = some s ∧ Reachable s ∧
    s.handed = [104] ∧ s.stored = [104, 105] ∧ s.handed <+: s.stored := by
  have hrun : (execAll step .init shortRun).map (fun s =>
      decide (s.handed = [104] ∧ s.stored = [104, 105])) = some true := by decide +kernel
  obtain ⟨s, hs, hd⟩ := Option.map_eq_some_iff.mp hrun
  obtain ⟨h1, h2⟩ := of_decide_eq_true hd
  have hreach : Reachable s := reaches_of_execAll hs
  exact ⟨s, hs, hreach, h1, h2, (pipe_fifo hreach).1⟩

end Pipe

end Xv6.Pipe
