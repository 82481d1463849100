import Xv6.Sleep.Model

/-!
# Sleep — no wakeup is lost

`sleep` takes `ptable.lock` before it gives up `lk`, and keeps it until
the process is SLEEPING and has left the CPU. A `wakeup` needs
`ptable.lock`, so it comes before the waiter's test or finds it SLEEPING.

The invariant says which statements hold which lock, where each process
is, what a `wakeup1` in progress has done already, and that a waiter
whose condition is true was woken or has a waker at work for it.
-/

namespace Xv6.Sleep

open Lib

variable {C P K Ch : Type}

/-! ## Statements -/

section Pc

variable (own : K → Bool)

/-- The statement is executed with `ptable.lock` held. -/
def Pc.pt : Pc P K → Bool
  | .test k | .done k | .change k _ | .wakeDone k => !own k
  | .sleepRelease _ | .sleepChan _ | .sleepState _ | .sleepSched _ | .tidy _ | .tidyRelease _ => true
  | .scan _ _ | .killSet _ | .killRelease => true
  | .yieldState _ | .yieldSched _ | .yieldRelease _ => true
  | _ => false

/-- The lock of its own that is held. -/
def Pc.lk : Pc P K → Option K
  | .test k | .done k | .change k _ | .wakeDone k | .sleepPt k | .sleepRelease k | .wakePt k
  | .scan k _ => if own k then some k else none
  | _ => none

/-- The state a process has when it runs. -/
def Pc.state : Pc P K → ProcState
  | .sleepSched _ => .SLEEPING
  | .yieldSched _ => .RUNNABLE
  | _ => .RUNNING

/-- Not on a CPU. -/
def Pc.out : Pc P K → Bool
  | .asleep _ | .yielded _ => true
  | _ => false

/-- `chan` is set. -/
def Pc.chan : Pc P K → Option K
  | .sleepState k | .sleepSched k | .asleep k => some k
  | _ => none

/-- The waiter found the condition false and was not resumed since. -/
def Pc.waits : Pc P K → Option K
  | .sleepPt k | .sleepRelease k | .sleepChan k | .sleepState k | .sleepSched k | .asleep k => some k
  | _ => none

/-- The waiter has given up the lock, too. -/
def Pc.gaveUp : Pc P K → Option K
  | .sleepChan k | .sleepState k | .sleepSched k | .asleep k => some k
  | _ => none

/-- In `wakeup`, after the condition was changed. -/
def Pc.wakes : Pc P K → Option K
  | .wakePt k | .scan k _ => some k
  | _ => none

/-- Statements for a lock that is not `ptable.lock`. -/
def Pc.twoLocks : Pc P K → Option K
  | .sleepPt k | .sleepRelease k | .wakePt k => some k
  | _ => none

/-- Where the timer came. -/
def Pc.back : Pc P K → Option (Pc P K)
  | .yieldPt r | .yieldState r | .yieldSched r | .yielded r | .yieldRelease r => some r
  | _ => none

end Pc

/-- A statement of a process that runs and is not in the middle of
setting itself to sleep. -/
structure Pc.Plain (own : K → Bool) (a : Pc P K) : Prop where
  state : a.state = .RUNNING
  out : a.out = false
  chan : a.chan = none
  back : ∀ r, a.back = some r → r.unlocked = true
  own : ∀ k, a.twoLocks = some k → own k = true
  scan : ∀ k rest, a = .scan k rest → ∀ q, q ∈ rest

theorem Pc.plain_of_unlocked (own : K → Bool) {a : Pc P K} (h : a.unlocked = true) :
    Pc.Plain own a := by
  cases a with
  | user | waitLock _ | wakeLock _ _ | killPt _ =>
      exact ⟨rfl, rfl, rfl, by simp [Pc.back], by simp [Pc.twoLocks], by simp⟩
  | _ => cases h

theorem Pc.locks_of_unlocked (own : K → Bool) {a : Pc P K} (h : a.unlocked = true) :
    a.pt own = false ∧ a.lk own = none ∧ a.waits = none ∧ a.wakes = none := by
  cases a with
  | user | waitLock _ | wakeLock _ _ | killPt _ => exact ⟨rfl, rfl, rfl, rfl⟩
  | _ => cases h

/-- The process on the CPU, or on its way there. -/
def Cpu.on : Cpu P → Option P
  | .switch p | .run p => some p
  | _ => none

/-- The CPU holds `ptable.lock`. -/
def Cpu.pt (own : K → Bool) (pc : P → Pc P K) : Cpu P → Bool
  | .acquire => false
  | .choose | .switch _ | .release => true
  | .run p => (pc p).pt own

def St.ptOf (own : K → Bool) (s : St C P K Ch) (c : C) : Bool := (s.cpu c).pt own s.pc

/-! ## The invariant -/

structure Inv (g : Config P K Ch) (s : St C P K Ch) : Prop where
  pt : ∀ c, s.pt = some c ↔ s.ptOf g.own c = true
  lk : ∀ k c, s.lk k = some c ↔ ∃ p, s.cpu c = .run p ∧ (s.pc p).lk g.own = some k
  unique : ∀ c d p, (s.cpu c).on = some p → (s.cpu d).on = some p → c = d
  run : ∀ c p, s.cpu c = .run p → (s.pc p).out = false ∧ s.state p = (s.pc p).state
  switch : ∀ c p, s.cpu c = .switch p → (s.pc p).out = true ∧ s.state p = .RUNNING
  off : ∀ p, (∀ c, (s.cpu c).on ≠ some p) → (s.pc p).out = true ∧ s.state p ≠ .RUNNING
  yielded : ∀ p r, s.pc p = .yielded r → s.state p ≠ .SLEEPING
  asleep : ∀ p k, s.pc p = .asleep k → s.state p = .SLEEPING ∨ s.woken p = true
  chan : ∀ p k, (s.pc p).chan = some k → s.chan p = some (g.chan k)
  back : ∀ p r, (s.pc p).back = some r → r.unlocked = true
  own : ∀ p k, (s.pc p).twoLocks = some k → g.own k = true
  scan : ∀ p k rest, s.pc p = .scan k rest → ∀ q, q ∉ rest → s.state q = .SLEEPING →
    s.chan q ≠ some (g.chan k)
  val : ∀ p k, (s.pc p).waits = some k → s.val k = true →
    s.woken p = true ∨ ∃ q, (s.pc q).wakes = some k

variable {g : Config P K Ch} {s : St C P K Ch}

theorem Inv.init (val : K → Bool) : Inv g (St.init val : St C P K Ch) where
  pt := fun c => ⟨fun h => (by cases h), fun h => (by cases h)⟩
  lk := fun k c => ⟨fun h => (by cases h), fun ⟨p, h, _⟩ => (by cases h)⟩
  unique := fun c d p h => (by cases h)
  run := fun c p h => (by cases h)
  switch := fun c p h => (by cases h)
  off := fun p _ => ⟨rfl, fun h => (by cases h)⟩
  yielded := fun p r _ h => (by cases h)
  asleep := fun p k h => (by cases h)
  chan := fun p k h => (by cases h)
  back := fun p r h => (by cases h; rfl)
  own := fun p k h => (by cases h)
  scan := fun p k rest h => (by cases h)
  val := fun p k h => (by cases h)

namespace Inv

variable (h : Inv g s)

include h

/-- Two CPUs do not both hold `ptable.lock`. -/
theorem pt_unique {c d : C} (hc : s.ptOf g.own c = true) (hd : s.ptOf g.own d = true) : c = d :=
  Option.some.inj (((h.pt c).mpr hc).symm.trans ((h.pt d).mpr hd))

theorem running {p : P} (hp : (s.pc p).out = false) : ∃ c, s.cpu c = .run p := by
  by_contra hno
  by_cases hon : ∃ c, (s.cpu c).on = some p
  · obtain ⟨c, hc⟩ := hon
    cases hcpu : s.cpu c with
    | acquire => rw [hcpu] at hc; cases hc
    | choose => rw [hcpu] at hc; cases hc
    | release => rw [hcpu] at hc; cases hc
    | run q =>
        rw [hcpu] at hc
        obtain rfl : q = p := Option.some.inj hc
        exact hno ⟨c, hcpu⟩
    | switch q =>
        rw [hcpu] at hc
        obtain rfl : q = p := Option.some.inj hc
        rw [(h.switch c q hcpu).1] at hp
        cases hp
  · rw [(h.off p fun c hc => hon ⟨c, hc⟩).1] at hp
    cases hp

/-- Only one process executes statements under `ptable.lock`. -/
theorem pt_eq {p q : P} (hp : (s.pc p).pt g.own = true) (hpo : (s.pc p).out = false)
    (hq : (s.pc q).pt g.own = true) (hqo : (s.pc q).out = false) : p = q := by
  obtain ⟨c, hc⟩ := h.running hpo
  obtain ⟨d, hd⟩ := h.running hqo
  have heq := h.pt_unique (c := c) (d := d) (by rw [St.ptOf, hc]; exact hp)
    (by rw [St.ptOf, hd]; exact hq)
  rw [heq, hd] at hc
  injection hc with hc
  exact hc.symm

/-- Only one executes statements under the lock of `k`. -/
theorem lk_eq {p q : P} {k : K} (hp : (s.pc p).lk g.own = some k) (hpo : (s.pc p).out = false)
    (hq : (s.pc q).lk g.own = some k) (hqo : (s.pc q).out = false) : p = q := by
  obtain ⟨c, hc⟩ := h.running hpo
  obtain ⟨d, hd⟩ := h.running hqo
  have h1 := (h.lk k c).mpr ⟨p, hc, hp⟩
  have h2 := (h.lk k d).mpr ⟨q, hd, hq⟩
  have heq : c = d := Option.some.inj (h1.symm.trans h2)
  rw [heq, hd] at hc
  injection hc with hc
  exact hc.symm

/-- A waiter whose condition is true has a waker other than itself. -/
theorem waits_of {p : P} {k : K} (hp : (s.pc p).waits = some k) (hv : s.val k = true) :
    s.woken p = true ∨ ∃ q, q ≠ p ∧ (s.pc q).wakes = some k := by
  refine (h.val p k hp hv).imp_right fun ⟨q, hq⟩ => ⟨q, ?_, hq⟩
  rintro rfl
  revert hp hq
  cases s.pc q <;> simp [Pc.waits, Pc.wakes]

/-- **The end of a `wakeup`**: who had given up the lock of a condition
with that channel was woken. -/
theorem scanned {p : P} {j : K} (hp : s.pc p = .scan j []) {q : P} {k : K}
    (hk : g.chan k = g.chan j) (hq : (s.pc q).gaveUp = some k) :
    s.pc q = .asleep k ∧ s.state q ≠ .SLEEPING ∧ s.woken q = true := by
  have hpt : (s.pc q).pt g.own = true → (s.pc q).out = false → q = p := fun h1 h2 =>
    h.pt_eq h1 h2 (by rw [hp]; rfl) (by rw [hp]; rfl)
  cases hpc : s.pc q with
  | sleepChan k' | sleepState k' | sleepSched k' =>
      obtain rfl := hpt (by rw [hpc]; rfl) (by rw [hpc]; rfl)
      rw [hp] at hpc
      cases hpc
  | asleep k' =>
      rw [hpc] at hq
      obtain rfl : k' = k := Option.some.inj hq
      have hchan : s.chan q = some (g.chan j) := by
        rw [← hk]
        exact h.chan q k' (by rw [hpc]; rfl)
      have hst : s.state q ≠ .SLEEPING := fun hst =>
        h.scan p j [] hp q List.not_mem_nil hst hchan
      exact ⟨rfl, hst, (h.asleep q k' hpc).resolve_left hst⟩
  | _ =>
      rw [hpc] at hq
      cases hq

/-- The same for who waits at all, for the condition itself. -/
theorem scanned_waits {p : P} {k : K} (hp : s.pc p = .scan k []) {q : P} (hqp : q ≠ p)
    (hq : (s.pc q).waits = some k) : s.woken q = true := by
  by_cases hg : (s.pc q).gaveUp = some k
  · exact (h.scanned hp rfl hg).2.2
  · -- it still holds the lock, and so does the waker
    have hkeep : s.pc q = .sleepPt k ∨ s.pc q = .sleepRelease k := by
      revert hq hg
      cases s.pc q <;> simp [Pc.waits, Pc.gaveUp]
    have hown := h.own q k (by rcases hkeep with hk | hk <;> rw [hk] <;> rfl)
    have hlk : (s.pc q).lk g.own = some k := by
      rcases hkeep with hk | hk <;> rw [hk] <;> simp [Pc.lk, hown]
    have hout : (s.pc q).out = false := by rcases hkeep with hk | hk <;> rw [hk] <;> rfl
    exact absurd (h.lk_eq hlk hout (by rw [hp]; simp [Pc.lk, hown]) (by rw [hp]; rfl)) hqp

end Inv

/-! ## The locks a statement takes and gives up -/

section Locks

variable [DecidableEq C] {c : C} {p : P} {a : Pc P K}

theorem Inv.pt_same (h : Inv g s) (hc : s.cpu c = .run p) (ha : a.pt g.own = (s.pc p).pt g.own)
    (d : C) : s.pt = some d ↔ if d = c then a.pt g.own = true else s.pt = some d := by
  split
  · rename_i hd
    rw [hd, h.pt, St.ptOf, hc, ha]
    rfl
  · exact Iff.rfl

theorem pt_acquired (hn : s.pt = none) (ha : a.pt g.own = true) (d : C) :
    some c = some d ↔ if d = c then a.pt g.own = true else s.pt = some d := by
  split
  · rename_i hd
    rw [hd]
    exact ⟨fun _ => ha, fun _ => rfl⟩
  · rename_i hd
    rw [hn]
    exact ⟨fun he => absurd (Option.some.inj he).symm hd, fun he => (by cases he)⟩

theorem Inv.pt_released (h : Inv g s) (hc : s.cpu c = .run p) (hp : (s.pc p).pt g.own = true)
    (ha : a.pt g.own = false) (d : C) :
    none = some d ↔ if d = c then a.pt g.own = true else s.pt = some d := by
  have hpt : s.pt = some c := (h.pt c).mpr (by rw [St.ptOf, hc]; exact hp)
  split
  · rw [ha]
    exact ⟨fun he => (by cases he), fun he => (by cases he)⟩
  · rename_i hd
    rw [hpt]
    exact ⟨fun he => (by cases he), fun he => absurd (Option.some.inj he).symm hd⟩

theorem Inv.lk_same (h : Inv g s) (hc : s.cpu c = .run p) (ha : a.lk g.own = (s.pc p).lk g.own)
    (k : K) (d : C) : s.lk k = some d ↔ if d = c then a.lk g.own = some k else s.lk k = some d := by
  split
  · rename_i hd
    rw [hd, h.lk, hc, ha]
    refine ⟨fun ⟨q, hq, hk⟩ => ?_, fun hk => ⟨p, rfl, hk⟩⟩
    injection hq with hq
    rw [hq]
    exact hk
  · exact Iff.rfl

variable [DecidableEq K]

theorem Inv.lk_acquired (h : Inv g s) (hc : s.cpu c = .run p) {k : K} (hn : s.lk k = none)
    (hp : (s.pc p).lk g.own = none) (ha : a.lk g.own = some k) (j : K) (d : C) :
    upd s.lk k (some c) j = some d ↔ if d = c then a.lk g.own = some j else s.lk j = some d := by
  by_cases hj : j = k
  · rw [hj, upd_self, ha, hn]
    split
    · rename_i hd
      rw [hd]
      exact ⟨fun _ => rfl, fun _ => rfl⟩
    · rename_i hd
      exact ⟨fun he => absurd (Option.some.inj he).symm hd, fun he => (by cases he)⟩
  · rw [upd_of_ne hj, ha]
    split
    · rename_i hd
      rw [hd, h.lk, hc]
      refine ⟨fun ⟨q, hq, hk⟩ => ?_, fun he => absurd (Option.some.inj he).symm hj⟩
      injection hq with hq
      rw [← hq, hp] at hk
      cases hk
    · exact Iff.rfl

theorem Inv.lk_released (h : Inv g s) (hc : s.cpu c = .run p) {k : K}
    (hp : (s.pc p).lk g.own = some k) (ha : a.lk g.own = none) (j : K) (d : C) :
    upd s.lk k none j = some d ↔ if d = c then a.lk g.own = some j else s.lk j = some d := by
  have hlk : s.lk k = some c := (h.lk k c).mpr ⟨p, hc, hp⟩
  by_cases hj : j = k
  · rw [hj, upd_self, ha, hlk]
    split
    · exact ⟨fun he => (by cases he), fun he => (by cases he)⟩
    · rename_i hd
      exact ⟨fun he => (by cases he), fun he => absurd (Option.some.inj he).symm hd⟩
  · rw [upd_of_ne hj, ha]
    split
    · rename_i hd
      rw [hd, h.lk, hc]
      refine ⟨fun ⟨q, hq, hk⟩ => ?_, fun he => (by cases he)⟩
      injection hq with hq
      rw [← hq, hp] at hk
      exact absurd (Option.some.inj hk).symm hj
    · exact Iff.rfl

end Locks

variable [DecidableEq C] [DecidableEq P]

/-! ## A process executes a statement -/

/-- What a statement of the process `p` on CPU `c` does that takes it to
`a` and the CPU to `x`. -/
structure Moves (g : Config P K Ch) (s : St C P K Ch) (c : C) (p : P) (x : Cpu P) (a : Pc P K)
    (s' : St C P K Ch) : Prop where
  cpu : s'.cpu = upd s.cpu c x
  pc : s'.pc = upd s.pc p a
  place : x = .run p ∧ a.out = false ∧ s'.state p = a.state ∨
    x = .release ∧ a.out = true ∧ s'.state p ≠ .RUNNING
  stateOf : ∀ q, q ≠ p → s'.state q = s.state q
  pt : ∀ d, s'.pt = some d ↔ if d = c then a.out = true ∨ a.pt g.own = true else s.pt = some d
  lk : ∀ k d, s'.lk k = some d ↔ if d = c then a.lk g.own = some k else s.lk k = some d
  chanOf : ∀ q, q ≠ p → s'.chan q = s.chan q
  chan : ∀ k, a.chan = some k → s'.chan p = some (g.chan k)
  sleeps : s'.state p = .SLEEPING → (s.pc p).out = false ∧ (s.pc p).pt g.own = true
  yielded : ∀ r, a = .yielded r → s'.state p ≠ .SLEEPING
  asleep : ∀ k, a = .asleep k → s'.state p = .SLEEPING
  back : ∀ r, a.back = some r → r.unlocked = true
  own : ∀ k, a.twoLocks = some k → g.own k = true
  scan : ∀ k rest, a = .scan k rest → ∀ q, q ≠ p → q ∉ rest → s.state q = .SLEEPING →
    s.chan q ≠ some (g.chan k)
  wokenOf : ∀ q, q ≠ p → s'.woken q = s.woken q
  waits : ∀ k, a.waits = some k → s'.val k = true → s'.woken p = true ∨
    ∃ q, q ≠ p ∧ (s.pc q).wakes = some k
  wakes : ∀ k, s'.val k = true → a.wakes = some k ∨ s.val k = true ∧
    ((s.pc p).wakes = some k → ∀ q, q ≠ p → (s.pc q).waits = some k → s.woken q = true)

/-- **The invariant is kept** by whatever a process does that was on the
CPU, or on its way there. -/
theorem Inv.moves (h : Inv g s) {c : C} {p : P} {x : Cpu P} {a : Pc P K} {s' : St C P K Ch}
    (hc : (s.cpu c).on = some p) (m : Moves g s c p x a s') : Inv g s' := by
  have hself : s'.pc p = a := by rw [m.pc, upd_self]
  have hother : ∀ q, q ≠ p → s'.pc q = s.pc q := fun q hq => by rw [m.pc, upd_of_ne hq]
  have hcpu : ∀ d, d ≠ c → s'.cpu d = s.cpu d := fun d hd => by rw [m.cpu, upd_of_ne hd]
  have hcpu' : s'.cpu c = x := by rw [m.cpu, upd_self]
  have hon : ∀ d, d ≠ c → ∀ q, (s.cpu d).on = some q → q ≠ p := by
    rintro d hd q hq rfl
    exact hd (h.unique d c q hq hc)
  have honx : ∀ q, x.on = some q → q = p := fun q hq => by
    rcases m.place with ⟨rfl, -⟩ | ⟨rfl, -⟩
    · exact (Option.some.inj hq).symm
    · cases hq
  refine ⟨fun d => ?_, fun k d => ?_, fun d e q hd he => ?_, fun d q hd => ?_, fun d q hd => ?_,
    fun q hq => ?_, fun q r hq => ?_, fun q k hq => ?_, fun q k hq => ?_, fun q r hq => ?_,
    fun q k hq => ?_, fun q k rest hq q' hq' hst => ?_, fun q k hq hv => ?_⟩
  · rw [m.pt, St.ptOf]
    split
    · rename_i hd
      rw [hd, hcpu']
      rcases m.place with ⟨rfl, hout, -⟩ | ⟨rfl, hout, -⟩
      · simp [Cpu.pt, hself, hout]
      · simp [Cpu.pt, hout]
    · rename_i hd
      rw [hcpu d hd, h.pt, St.ptOf]
      cases hdc : s.cpu d with
      | run q =>
          dsimp only [Cpu.pt]
          rw [hother q (hon d hd q (by rw [hdc]; rfl))]
      | acquire => rfl
      | choose => rfl
      | switch q => rfl
      | release => rfl
  · rw [m.lk]
    split
    · rename_i hd
      rw [hd, hcpu']
      rcases m.place with ⟨rfl, -, -⟩ | ⟨rfl, hout, -⟩
      · refine ⟨fun hk => ⟨p, rfl, hself ▸ hk⟩, fun ⟨q, hq, hk⟩ => ?_⟩
        injection hq with hq
        rw [← hq, hself] at hk
        exact hk
      · refine ⟨fun hk => ?_, fun ⟨q, hq, _⟩ => (by cases hq)⟩
        revert hout hk
        cases a <;> simp [Pc.out, Pc.lk]
    · rename_i hd
      rw [h.lk]
      refine exists_congr fun q => ?_
      rw [hcpu d hd]
      refine and_congr_right fun hq => ?_
      rw [hother q (hon d hd q (by rw [hq]; rfl))]
  · by_cases hdc : d = c <;> by_cases hec : e = c
    · rw [hdc, hec]
    · rw [hdc, hcpu'] at hd
      rw [hcpu e hec] at he
      exact absurd (honx q hd) (hon e hec q he)
    · rw [hec, hcpu'] at he
      rw [hcpu d hdc] at hd
      exact absurd (honx q he) (hon d hdc q hd)
    · rw [hcpu d hdc] at hd
      rw [hcpu e hec] at he
      exact h.unique d e q hd he
  · by_cases hdc : d = c
    · rw [hdc, hcpu'] at hd
      rcases m.place with ⟨rfl, hout, hst⟩ | ⟨rfl, -, -⟩
      · injection hd with hd
        rw [← hd, hself]
        exact ⟨hout, hst⟩
      · cases hd
    · rw [hcpu d hdc] at hd
      have hq := hon d hdc q (by rw [hd]; rfl)
      rw [hother q hq, m.stateOf q hq]
      exact h.run d q hd
  · by_cases hdc : d = c
    · rw [hdc, hcpu'] at hd
      rcases m.place with ⟨rfl, -, -⟩ | ⟨rfl, -, -⟩ <;> cases hd
    · rw [hcpu d hdc] at hd
      have hq := hon d hdc q (by rw [hd]; rfl)
      rw [hother q hq, m.stateOf q hq]
      exact h.switch d q hd
  · by_cases hqp : q = p
    · rw [hqp, hself]
      rcases m.place with ⟨rfl, -, -⟩ | ⟨rfl, hout, hst⟩
      · exact absurd (by rw [hcpu', hqp]; rfl) (hq c)
      · exact ⟨hout, hst⟩
    · rw [hother q hqp, m.stateOf q hqp]
      refine h.off q fun d hd => ?_
      by_cases hdc : d = c
      · rw [hdc, hc] at hd
        exact hqp (Option.some.inj hd).symm
      · exact hq d (by rw [hcpu d hdc]; exact hd)
  · by_cases hqp : q = p
    · rw [hqp, hself] at hq
      rw [hqp]
      exact m.yielded r hq
    · rw [hother q hqp] at hq
      rw [m.stateOf q hqp]
      exact h.yielded q r hq
  · by_cases hqp : q = p
    · rw [hqp, hself] at hq
      rw [hqp]
      exact Or.inl (m.asleep k hq)
    · rw [hother q hqp] at hq
      rw [m.stateOf q hqp, m.wokenOf q hqp]
      exact h.asleep q k hq
  · by_cases hqp : q = p
    · rw [hqp, hself] at hq
      rw [hqp]
      exact m.chan k hq
    · rw [hother q hqp] at hq
      rw [m.chanOf q hqp]
      exact h.chan q k hq
  · by_cases hqp : q = p
    · rw [hqp, hself] at hq
      exact m.back r hq
    · rw [hother q hqp] at hq
      exact h.back q r hq
  · by_cases hqp : q = p
    · rw [hqp, hself] at hq
      exact m.own k hq
    · rw [hother q hqp] at hq
      exact h.own q k hq
  · -- a scan in progress: only its own process becomes SLEEPING meanwhile
    by_cases hqp : q = p
    · rw [hqp, hself] at hq
      by_cases hq'p : q' = p
      · rw [hq'p] at hst
        rcases m.place with ⟨-, -, hst'⟩ | ⟨-, hout, -⟩
        · rw [hst', hq] at hst
          cases hst
        · rw [hq] at hout
          cases hout
      · rw [m.stateOf q' hq'p] at hst
        rw [m.chanOf q' hq'p]
        exact m.scan k rest hq q' hq'p hq' hst
    · rw [hother q hqp] at hq
      by_cases hq'p : q' = p
      · rw [hq'p] at hst
        obtain ⟨hout, hpt⟩ := m.sleeps hst
        exact absurd (h.pt_eq (by rw [hq]; rfl) (by rw [hq]; rfl) hpt hout) hqp
      · rw [m.stateOf q' hq'p] at hst
        rw [m.chanOf q' hq'p]
        exact h.scan q k rest hq q' hq' hst
  · by_cases hqp : q = p
    · rw [hqp, hself] at hq
      rw [hqp]
      refine (m.waits k hq hv).imp_right fun ⟨r, hr, hw⟩ => ⟨r, ?_⟩
      rw [hother r hr]
      exact hw
    · rw [hother q hqp] at hq
      rw [m.wokenOf q hqp]
      rcases m.wakes k hv with hw | ⟨hv, hw⟩
      · exact Or.inr ⟨p, by rw [hself]; exact hw⟩
      · rcases h.val q k hq hv with hwoken | ⟨r, hr⟩
        · exact Or.inl hwoken
        · by_cases hrp : r = p
          · rw [hrp] at hr
            exact Or.inl (hw hr q hqp hq)
          · exact Or.inr ⟨r, by rw [hother r hrp]; exact hr⟩

/-- A statement after which the process still runs. -/
structure Stays (g : Config P K Ch) (s : St C P K Ch) (c : C) (p : P) (a : Pc P K)
    (s' : St C P K Ch) : Prop where
  cpu : s'.cpu = s.cpu
  pc : s'.pc = upd s.pc p a
  state : s'.state = upd s.state p a.state
  out : a.out = false
  pt : ∀ d, s'.pt = some d ↔ if d = c then a.pt g.own = true else s.pt = some d
  lk : ∀ k d, s'.lk k = some d ↔ if d = c then a.lk g.own = some k else s.lk k = some d
  chanOf : ∀ q, q ≠ p → s'.chan q = s.chan q
  chan : ∀ k, a.chan = some k → s'.chan p = some (g.chan k)
  sleeps : a.state = .SLEEPING → (s.pc p).pt g.own = true
  back : ∀ r, a.back = some r → r.unlocked = true
  own : ∀ k, a.twoLocks = some k → g.own k = true
  scan : ∀ k rest, a = .scan k rest → ∀ q, q ≠ p → q ∉ rest → s.state q = .SLEEPING →
    s.chan q ≠ some (g.chan k)
  wokenOf : ∀ q, q ≠ p → s'.woken q = s.woken q
  waits : ∀ k, a.waits = some k → s'.val k = true → s'.woken p = true ∨
    ∃ q, q ≠ p ∧ (s.pc q).wakes = some k
  wakes : ∀ k, s'.val k = true → a.wakes = some k ∨ s.val k = true ∧
    ((s.pc p).wakes = some k → ∀ q, q ≠ p → (s.pc q).waits = some k → s.woken q = true)

theorem Inv.stays (h : Inv g s) {c : C} {p : P} {a : Pc P K} {s' : St C P K Ch}
    (hc : s.cpu c = .run p) (m : Stays g s c p a s') : Inv g s' := by
  have hst : s'.state p = a.state := by rw [m.state, upd_self]
  have hout : ∀ b : Pc P K, b.out = true → a ≠ b := by
    rintro b hb rfl
    rw [m.out] at hb
    cases hb
  refine h.moves (x := .run p) (by rw [hc]; rfl) ⟨?_, m.pc, Or.inl ⟨rfl, m.out, hst⟩, fun q hq => ?_,
    fun d => ?_, m.lk, m.chanOf, m.chan, fun hs => ⟨(h.run c p hc).1, m.sleeps (hst ▸ hs)⟩,
    fun r hr => absurd hr (hout _ rfl), fun k hk => absurd hk (hout _ rfl), m.back, m.own, m.scan,
    m.wokenOf, m.waits, m.wakes⟩
  · rw [m.cpu, ← hc, upd_eq_self]
  · rw [m.state, upd_of_ne hq]
  · rw [m.pt, m.out]
    simp

/-! ### Statement by statement -/

section Run

variable {c : C} {p : P} {s' : St C P K Ch}

/-- **A statement that only takes or gives up locks**, or goes to another
one. It does not start to wait, and is not the end of a `wakeup`. -/
theorem Inv.goes (h : Inv g s) (hc : s.cpu c = .run p) {a : Pc P K}
    {pt : Option C} {lk : K → Option C} (hp : (s.pc p).state = .RUNNING) (ha : a.Plain g.own)
    (hpt : ∀ d, pt = some d ↔ if d = c then a.pt g.own = true else s.pt = some d)
    (hlk : ∀ k d, lk k = some d ↔ if d = c then a.lk g.own = some k else s.lk k = some d)
    (hwaits : a.waits = none ∨ a.waits = (s.pc p).waits) (hwakes : a.wakes = (s.pc p).wakes) :
    Inv g ({ s with pt := pt, lk := lk }.setPc p a) := by
  have hst : s.state p = .RUNNING := by rw [(h.run c p hc).2]; exact hp
  refine h.stays hc ⟨rfl, rfl, ?_, ha.out, hpt, hlk, fun _ _ => rfl, fun k hk => ?_, fun hs => ?_,
    ha.back, ha.own, fun k rest hk q _ hq => absurd (ha.scan k rest hk q) hq, fun _ _ => rfl,
    fun k hk hv => ?_, fun k hv => ?_⟩
  · rw [ha.state, ← hst, upd_eq_self]
    rfl
  · rw [ha.chan] at hk
    cases hk
  · rw [ha.state] at hs
    cases hs
  · rcases hwaits with hw | hw
    · rw [hw] at hk
      cases hk
    · exact h.waits_of (hw ▸ hk) hv
  · by_cases hw : (s.pc p).wakes = some k
    · exact Or.inl (hwakes ▸ hw)
    · exact Or.inr ⟨hv, fun hw' => absurd hw' hw⟩

theorem Inv.acquirePt (h : Inv g s) (hc : s.cpu c = .run p) {a : Pc P K}
    (hp : (s.pc p).state = .RUNNING) (ha : a.Plain g.own) (hpt : a.pt g.own = true)
    (hlk : a.lk g.own = (s.pc p).lk g.own)
    (hwaits : a.waits = none ∨ a.waits = (s.pc p).waits) (hwakes : a.wakes = (s.pc p).wakes)
    (hs : s.acquirePt c p a = some s') : Inv g s' := by
  rw [St.acquirePt] at hs
  split at hs
  · cases hs
  · rename_i hn
    obtain rfl := Option.some.inj hs
    exact h.goes hc hp ha (pt_acquired (by simpa using hn) hpt) (h.lk_same hc hlk) hwaits hwakes

theorem Inv.releasePt (h : Inv g s) (hc : s.cpu c = .run p) {a : Pc P K}
    (hp : (s.pc p).state = .RUNNING) (ha : a.unlocked = true) (hpt : (s.pc p).pt g.own = true)
    (hlk : (s.pc p).lk g.own = none) (hwakes : (s.pc p).wakes = none) :
    Inv g (s.releasePt p a) := by
  obtain ⟨h1, h2, h3, h4⟩ := Pc.locks_of_unlocked g.own ha
  exact h.goes hc hp (Pc.plain_of_unlocked g.own ha) (h.pt_released hc hpt h1)
    (h.lk_same hc (h2.trans hlk.symm)) (Or.inl h3) (h4.trans hwakes.symm)

omit [DecidableEq C] in
/-- **`p->state = RUNNABLE`** for a sleeper, by another process that holds
`ptable.lock`. -/
theorem Inv.rouse (h : Inv g s) (hpt : (s.pc p).pt g.own = true) (hout : (s.pc p).out = false)
    (hp : (s.pc p).state ≠ .SLEEPING) {q : P} (hq : s.state q = .SLEEPING) : Inv g (s.rouse q) := by
  have hstate : ∀ r, r ≠ q → (s.rouse q).state r = s.state r := fun r hr => upd_of_ne hr
  have hself : (s.rouse q).state q = .RUNNABLE := upd_self ..
  have hwoken : ∀ r, s.woken r = true → (s.rouse q).woken r = true := fun r hr => by
    by_cases hrq : r = q
    · rw [hrq]
      exact upd_self ..
    · rw [← hr]
      exact upd_of_ne hrq
  -- a SLEEPING process that runs is about to call `sched`, under `ptable.lock`
  have hrun : ∀ c, s.cpu c ≠ .run q := fun c hc => by
    obtain ⟨hqo, hst⟩ := h.run c q hc
    rw [hq] at hst
    have hqpt : (s.pc q).pt g.own = true := by
      revert hst
      cases s.pc q <;> simp [Pc.state, Pc.pt]
    obtain rfl := h.pt_eq hpt hout hqpt hqo
    exact hp hst.symm
  refine ⟨h.pt, h.lk, h.unique, fun c r hc => ?_, fun c r hc => ?_, fun r hr => ?_,
    fun r a hr => ?_, fun r k hr => ?_, h.chan, h.back, h.own, fun r k rest hr q' hq' hst => ?_,
    fun r k hr hv => (h.val r k hr hv).imp_left (hwoken r)⟩
  · rw [hstate r fun hrq => hrun c (hrq ▸ hc)]
    exact h.run c r hc
  · have hrq : r ≠ q := by
      rintro rfl
      rw [(h.switch c r hc).2] at hq
      cases hq
    rw [hstate r hrq]
    exact h.switch c r hc
  · refine ⟨(h.off r hr).1, ?_⟩
    by_cases hrq : r = q
    · rw [hrq, hself]
      exact fun he => (by cases he)
    · rw [hstate r hrq]
      exact (h.off r hr).2
  · by_cases hrq : r = q
    · rw [hrq, hself]
      exact fun he => (by cases he)
    · rw [hstate r hrq]
      exact h.yielded r a hr
  · by_cases hrq : r = q
    · rw [hrq]
      exact Or.inr (upd_self ..)
    · rw [hstate r hrq]
      exact (h.asleep r k hr).imp_right (hwoken r)
  · have hq'q : q' ≠ q := by
      rintro rfl
      rw [hself] at hst
      cases hst
    rw [hstate q' hq'q] at hst
    exact h.scan r k rest hr q' hq' hst

/-! The statements that do more. -/

/-- The condition is false: `sleep` is called. -/
theorem Inv.testFalse (h : Inv g s) (hc : s.cpu c = .run p) {k : K} (hp : s.pc p = .test k)
    (hv : s.val k = false) :
    Inv g ({ s with woken := upd s.woken p false }.setPc p
      (if g.own k then .sleepPt k else .sleepChan k)) := by
  have hst : s.state p = .RUNNING := by rw [(h.run c p hc).2, hp]; rfl
  have hwk : (s.pc p).wakes = none := by rw [hp]; rfl
  have hwaits : ∀ j, (if g.own k then .sleepPt k else .sleepChan k : Pc P K).waits = some j →
      k = j := fun j hj => by
    split at hj <;> exact Option.some.inj hj
  refine h.stays hc ⟨rfl, rfl, ?_, ?_, h.pt_same hc ?_, h.lk_same hc ?_, fun _ _ => rfl,
    fun j hj => ?_, fun hs => ?_, fun r hr => ?_, fun j hj => ?_, fun j rest hj => ?_,
    fun q hq => upd_of_ne hq, fun j hj hv' => ?_, fun j hv' => Or.inr ⟨hv', fun hw => ?_⟩⟩
  · have : (if g.own k then .sleepPt k else .sleepChan k : Pc P K).state = s.state p := by
      rw [hst]
      split <;> rfl
    rw [this, upd_eq_self]
    rfl
  · split <;> rfl
  · rw [hp]
    split <;> rename_i hown <;> simp [Pc.pt, hown]
  · rw [hp]
    split <;> rename_i hown <;> simp [Pc.lk, hown]
  · split at hj <;> cases hj
  · split at hs <;> cases hs
  · split at hr <;> cases hr
  · split at hj
    · rename_i hown
      obtain rfl : k = j := Option.some.inj hj
      exact hown
    · cases hj
  · split at hj <;> cases hj
  · obtain rfl := hwaits j hj
    exact absurd hv' (by simp [St.setPc, hv])
  · rw [hwk] at hw
    cases hw

/-- A statement on `proc->chan` or `proc->state`, under `ptable.lock`. -/
theorem Inv.sets (h : Inv g s) (hc : s.cpu c = .run p) (a : Pc P K) (chan : P → Option Ch)
    (hpt : (s.pc p).pt g.own = true) (hapt : a.pt g.own = true)
    (hlk : a.lk g.own = (s.pc p).lk g.own) (hout : a.out = false)
    (hchan : ∀ q, q ≠ p → chan q = s.chan q)
    (hchanp : ∀ k, a.chan = some k → chan p = some (g.chan k))
    (hback : ∀ r, a.back = some r → (s.pc p).back = some r)
    (hown : a.twoLocks = none) (hscan : ∀ k rest, a ≠ .scan k rest)
    (hwaits : a.waits = none ∨ a.waits = (s.pc p).waits) (hwakes : (s.pc p).wakes = none) :
    Inv g ({ s with chan := chan, state := upd s.state p a.state }.setPc p a) := by
  refine h.stays hc ⟨rfl, rfl, rfl, hout, h.pt_same hc (hapt.trans hpt.symm), h.lk_same hc hlk, hchan,
    hchanp, fun _ => hpt, fun r hr => h.back p r (hback r hr), fun k hk => ?_,
    fun k rest hk => absurd hk (hscan k rest), fun _ _ => rfl, fun k hk hv => ?_,
    fun k hv => Or.inr ⟨hv, fun hw => ?_⟩⟩
  · rw [hown] at hk
    cases hk
  · rcases hwaits with hw | hw
    · rw [hw] at hk
      cases hk
    · exact h.waits_of (hw ▸ hk) hv
  · rw [hwakes] at hw
    cases hw

/-- A round of `wakeup1`. -/
theorem Inv.scans [DecidableEq Ch] (h : Inv g s) (hc : s.cpu c = .run p) {k : K} {q : P}
    {rest : List P} (hp : s.pc p = .scan k (q :: rest)) :
    Inv g ((if s.state q = .SLEEPING ∧ s.chan q = some (g.chan k) then s.rouse q else s).setPc p
      (.scan k rest)) := by
  -- the round from the state in which `q` was woken, if it had to be
  have hround : ∀ t : St C P K Ch, Inv g t → t.cpu = s.cpu → t.pc = s.pc →
      (t.state q = .SLEEPING → t.chan q ≠ some (g.chan k)) → Inv g (t.setPc p (.scan k rest)) := by
    intro t ht hcpu hpc hq
    have htp : t.pc p = .scan k (q :: rest) := by rw [hpc, hp]
    have htc : t.cpu c = .run p := by rw [hcpu, hc]
    have hst : t.state p = .RUNNING := by rw [(ht.run c p htc).2, htp]; rfl
    refine ht.stays htc ⟨rfl, rfl, ?_, rfl, ht.pt_same htc (by rw [htp]; rfl),
      ht.lk_same htc (by rw [htp]; rfl), fun _ _ => rfl, fun j hj => (by cases hj),
      fun hs => (by cases hs), fun r hr => (by cases hr),
      fun j hj => (by cases hj), fun j rest' hj r _ hr hsl => ?_,
      fun _ _ => rfl, fun j hj => (by cases hj), fun j hv => ?_⟩
    · change t.state = upd t.state p .RUNNING
      rw [← hst, upd_eq_self]
    · injection hj with h1 h2
      rw [← h1]
      by_cases hrq : r = q
      · rw [hrq] at hsl ⊢
        exact hq hsl
      · refine ht.scan p k _ htp r ?_ hsl
        rw [List.mem_cons]
        rintro (h3 | h3)
        · exact hrq h3
        · exact hr (h2 ▸ h3)
    · by_cases hj : j = k
      · exact Or.inl (by rw [hj]; rfl)
      · refine Or.inr ⟨hv, fun hw => ?_⟩
        rw [htp] at hw
        exact absurd (Option.some.inj hw).symm hj
  split
  · rename_i hq
    refine hround _ (h.rouse (by rw [hp]; rfl) (by rw [hp]; rfl) ?_ hq.1) rfl rfl fun hst => ?_
    · rw [hp]
      exact fun he => (by cases he)
    · change upd s.state q .RUNNABLE q = _ at hst
      rw [upd_self] at hst
      cases hst
  · rename_i hq
    exact hround s h rfl rfl fun h1 h2 => hq ⟨h1, h2⟩

/-- `proc->chan = 0`. -/
theorem Inv.tidies (h : Inv g s) (hc : s.cpu c = .run p) {k : K} (hp : s.pc p = .tidy k) :
    Inv g ({ s with chan := upd s.chan p none }.setPc p
      (if g.own k then .tidyRelease k else .test k)) := by
  have hst : s.state p = .RUNNING := by rw [(h.run c p hc).2, hp]; rfl
  have hwk : (s.pc p).wakes = none := by rw [hp]; rfl
  have hset : ∀ a : Pc P K, a = .tidyRelease k ∨ a = .test k ∧ g.own k = false →
      Inv g ({ s with chan := upd s.chan p none }.setPc p a) := by
    intro a ha
    have := h.sets hc a (upd s.chan p none) (by rw [hp]; rfl)
      (by rcases ha with rfl | ⟨rfl, hown⟩ <;> simp [Pc.pt, *])
      (by rw [hp]; rcases ha with rfl | ⟨rfl, hown⟩ <;> simp [Pc.lk, *])
      (by rcases ha with rfl | ⟨rfl, hown⟩ <;> rfl) (fun q hq => upd_of_ne hq)
      (fun j hj => by rcases ha with rfl | ⟨rfl, hown⟩ <;> cases hj)
      (fun r hr => by rcases ha with rfl | ⟨rfl, hown⟩ <;> cases hr)
      (by rcases ha with rfl | ⟨rfl, hown⟩ <;> rfl)
      (fun j rest => by rcases ha with rfl | ⟨rfl, hown⟩ <;> simp)
      (Or.inl (by rcases ha with rfl | ⟨rfl, hown⟩ <;> rfl)) hwk
    rwa [show a.state = s.state p by rw [hst]; rcases ha with rfl | ⟨rfl, hown⟩ <;> rfl,
      upd_eq_self] at this
  split
  · exact hset _ (Or.inl rfl)
  · rename_i hown
    exact hset _ (Or.inr ⟨rfl, by simpa using hown⟩)

/-- The end of `wakeup`. -/
theorem Inv.scanEnds (h : Inv g s) (hc : s.cpu c = .run p) {k : K} (hp : s.pc p = .scan k [])
    {pt : Option C}
    (hpt : ∀ d, pt = some d ↔ if d = c then (!g.own k) = true else s.pt = some d) :
    Inv g ({ s with pt := pt }.setPc p (.wakeDone k)) := by
  have hst : s.state p = .RUNNING := by rw [(h.run c p hc).2, hp]; rfl
  refine h.stays hc ⟨rfl, rfl, ?_, rfl, hpt, h.lk_same hc (by rw [hp]; rfl), fun _ _ => rfl,
    fun j hj => (by cases hj), fun hs => (by cases hs), fun r hr => (by cases hr),
    fun j hj => (by cases hj), fun j rest hj => (by cases hj),
    fun _ _ => rfl, fun j hj => (by cases hj), fun j hv => Or.inr ⟨hv, fun hw q hqp hq => ?_⟩⟩
  · change s.state = upd s.state p .RUNNING
    rw [← hst, upd_eq_self]
  · rw [hp] at hw
    obtain rfl : k = j := Option.some.inj hw
    exact h.scanned_waits hp hqp hq

/-- `kill` wakes a sleeper. -/
theorem Inv.kills (h : Inv g s) (hc : s.cpu c = .run p) {q : P} (hp : s.pc p = .killSet q) :
    Inv g ((if s.state q = .SLEEPING then s.rouse q else s).setPc p .killRelease) := by
  have hround : ∀ t : St C P K Ch, Inv g t → t.cpu = s.cpu → t.pc = s.pc →
      Inv g (t.setPc p .killRelease) := by
    intro t ht hcpu hpc
    have htp : t.pc p = .killSet q := by rw [hpc, hp]
    have htc : t.cpu c = .run p := by rw [hcpu, hc]
    exact ht.goes htc (by rw [htp]; rfl) ⟨rfl, rfl, rfl, by simp [Pc.back], by simp [Pc.twoLocks], by simp⟩
      (ht.pt_same htc (by rw [htp]; rfl)) (ht.lk_same htc (by rw [htp]; rfl)) (Or.inl rfl)
      (by rw [htp]; rfl)
  split
  · rename_i hq
    refine hround _ (h.rouse (by rw [hp]; rfl) (by rw [hp]; rfl) ?_ hq) rfl rfl
    rw [hp]
    exact fun he => (by cases he)
  · exact hround s h rfl rfl

/-- **`sched`**: the process leaves the CPU, which keeps `ptable.lock`. -/
theorem Inv.sched (h : Inv g s) (hc : s.cpu c = .run p) {a : Pc P K}
    (hpt : (s.pc p).pt g.own = true) (hlk : a.lk g.own = (s.pc p).lk g.own)
    (hst : (s.pc p).state ≠ .RUNNING) (hout : a.out = true)
    (hyield : ∀ r, a = .yielded r → (s.pc p).state ≠ .SLEEPING)
    (hsleep : ∀ k, a = .asleep k → (s.pc p).state = .SLEEPING) (hchan : a.chan = (s.pc p).chan)
    (hback : a.back = (s.pc p).back) (hwaits : a.waits = (s.pc p).waits)
    (hwakes : (s.pc p).wakes = none) : Inv g (s.sched c p a) := by
  obtain ⟨hpo, hstate⟩ := h.run c p hc
  have hin : ∀ b : Pc P K, b.out = false → a ≠ b := by
    rintro b hb rfl
    rw [hout] at hb
    cases hb
  refine h.moves (x := .release) (by rw [hc]; rfl) ⟨rfl, rfl, Or.inr ⟨rfl, hout, ?_⟩, fun _ _ => rfl,
    fun d => ?_, h.lk_same hc hlk, fun _ _ => rfl, fun k hk => h.chan p k (hchan ▸ hk),
    fun _ => ⟨hpo, hpt⟩, fun r hr => ?_, fun k hk => ?_, fun r hr => h.back p r (hback ▸ hr),
    fun k hk => ?_, fun k rest hk => absurd hk (hin _ rfl), fun _ _ => rfl,
    fun k hk hv => h.waits_of (hwaits ▸ hk) hv, fun k hv => Or.inr ⟨hv, fun hw => ?_⟩⟩
  · change s.state p ≠ _
    rw [hstate]
    exact hst
  · change s.pt = some d ↔ _
    split
    · rename_i hd
      rw [hd, h.pt, St.ptOf, hc]
      simp [Cpu.pt, hpt, hout]
    · exact Iff.rfl
  · change s.state p ≠ _
    rw [hstate]
    exact hyield r hr
  · change s.state p = _
    rw [hstate]
    exact hsleep k hk
  · revert hk hout
    cases a <;> simp [Pc.twoLocks, Pc.out]
  · rw [hwakes] at hw
    cases hw

/-- **`swtch`** to a process: it runs again, under `ptable.lock`. -/
theorem Inv.resume (h : Inv g s) (hc : s.cpu c = .switch p) (hs : s.resume c p = some s') :
    Inv g s' := by
  obtain ⟨hpo, hstate⟩ := h.switch c p hc
  have hpt : ∀ d, s.pt = some d ↔ if d = c then True else s.pt = some d := fun d => by
    split
    · rename_i hd
      rw [hd, h.pt, St.ptOf, hc]
      simp [Cpu.pt]
    · exact Iff.rfl
  have hlk : ∀ k d, s.lk k = some d ↔ if d = c then False else s.lk k = some d := fun k d => by
    split
    · rename_i hd
      rw [hd, h.lk, hc]
      exact ⟨fun ⟨q, hq, _⟩ => (by cases hq), fun hf => hf.elim⟩
    · exact Iff.rfl
  have hsl : s.state p ≠ .SLEEPING := by rw [hstate]; exact fun he => (by cases he)
  have hwk : (s.pc p).wakes = none := by
    revert hpo
    cases s.pc p <;> simp [Pc.out, Pc.wakes]
  -- the two statements after `sched`
  have hgo : ∀ a : Pc P K, a.out = false → a.state = .RUNNING → a.pt g.own = true →
      a.lk g.own = none → a.chan = none → (∀ r, a.back = some r → r.unlocked = true) →
      (∀ k, a.twoLocks = some k → g.own k = true) →
      (∀ k rest, a ≠ .scan k rest) → a.waits = none →
      Inv g ({ s with cpu := upd s.cpu c (.run p) }.setPc p a) := by
    intro a h1 h2 h3 h4 h5 h6 h7 h8 h9
    refine h.moves (x := .run p) (by rw [hc]; rfl) ⟨rfl, rfl, Or.inl ⟨rfl, h1, hstate.trans h2.symm⟩,
      fun _ _ => rfl, fun d => ?_, fun k d => ?_, fun _ _ => rfl, fun k hk => ?_,
      fun hs => absurd hs hsl, fun r hr => ?_, fun k hk => ?_, h6, h7,
      fun k rest hk => absurd hk (h8 k rest), fun _ _ => rfl, fun k hk => ?_,
      fun k hv => Or.inr ⟨hv, fun hw => ?_⟩⟩
    · refine (hpt d).trans ?_
      simp [h3]
    · refine (hlk k d).trans ?_
      simp [h4]
    · rw [h5] at hk
      cases hk
    · rw [hr] at h1
      cases h1
    · rw [hk] at h1
      cases h1
    · rw [h9] at hk
      cases hk
    · rw [hwk] at hw
      cases hw
  unfold St.resume at hs
  split at hs
  · rename_i k hk
    obtain rfl := Option.some.inj hs
    exact hgo _ rfl rfl rfl rfl rfl (by simp [Pc.back]) (by simp [Pc.twoLocks]) (by simp) rfl
  · rename_i r hr
    obtain rfl := Option.some.inj hs
    refine hgo _ rfl rfl rfl rfl rfl (fun r' hr' => ?_) (by simp [Pc.twoLocks]) (by simp) rfl
    obtain rfl := Option.some.inj hr'
    exact h.back p r (by rw [hr]; rfl)
  · cases hs

omit [DecidableEq P] in
/-- The scheduler goes from one statement to another, without a process. -/
theorem Inv.schedules (h : Inv g s) {x : Cpu P} (hc : (s.cpu c).on = none) (hx : x.on = none)
    {pt : Option C} (hpt : ∀ d, pt = some d ↔
      if d = c then (x = .acquire → False) else s.pt = some d) :
    Inv g { s with pt := pt, cpu := upd s.cpu c x } := by
  have hcpu : ∀ d q, (upd s.cpu c x d).on = some q → d ≠ c ∧ (s.cpu d).on = some q := by
    intro d q hd
    by_cases hdc : d = c
    · rw [hdc, upd_self, hx] at hd
      cases hd
    · rw [upd_of_ne hdc] at hd
      exact ⟨hdc, hd⟩
  refine ⟨fun d => ?_, fun k d => ?_, fun d e q hd he => ?_, fun d q hd => ?_, fun d q hd => ?_,
    fun q hq => ?_, h.yielded, h.asleep, h.chan, h.back, h.own, h.scan, h.val⟩
  · change pt = some d ↔ _
    rw [hpt, St.ptOf]
    split
    · rename_i hd
      change _ ↔ (upd s.cpu c x d).pt g.own s.pc = true
      rw [hd, upd_self]
      cases x with
      | acquire => simp [Cpu.pt]
      | choose => simp [Cpu.pt]
      | release => simp [Cpu.pt]
      | switch q => cases hx
      | run q => cases hx
    · rename_i hd
      change _ ↔ (upd s.cpu c x d).pt g.own s.pc = true
      rw [upd_of_ne hd, h.pt]
      rfl
  · refine (h.lk k d).trans (exists_congr fun q => and_congr_left fun _ => ?_)
    change _ ↔ upd s.cpu c x d = .run q
    by_cases hdc : d = c
    · rw [hdc, upd_self]
      constructor
      · intro hq
        rw [hq] at hc
        cases hc
      · intro hq
        rw [hq] at hx
        cases hx
    · rw [upd_of_ne hdc]
  · exact h.unique d e q (hcpu d q hd).2 (hcpu e q he).2
  · change upd s.cpu c x d = _ at hd
    rw [upd_of_ne (hcpu d q (by rw [hd]; rfl)).1] at hd
    exact h.run d q hd
  · change upd s.cpu c x d = _ at hd
    rw [upd_of_ne (hcpu d q (by rw [hd]; rfl)).1] at hd
    exact h.switch d q hd
  · refine h.off q fun d hd => hq d ?_
    have hdc : d ≠ c := by
      rintro rfl
      rw [hc] at hd
      cases hd
    change (upd s.cpu c x d).on = _
    rw [upd_of_ne hdc]
    exact hd

/-- The scheduler chooses a process. -/
theorem Inv.picks (h : Inv g s) (hc : s.cpu c = .choose) (hp : s.state p = .RUNNABLE) :
    Inv g { s with state := upd s.state p .RUNNING, cpu := upd s.cpu c (.switch p) } := by
  -- a RUNNABLE process on a CPU is about to call `sched`, under `ptable.lock`
  have hoff : ∀ d, (s.cpu d).on ≠ some p := fun d hd => by
    cases hdc : s.cpu d with
    | run q =>
        rw [hdc] at hd
        obtain rfl : q = p := Option.some.inj hd
        have hst := (h.run d q hdc).2
        rw [hp] at hst
        have hpt : (s.pc q).pt g.own = true := by
          revert hst
          cases s.pc q <;> simp [Pc.state, Pc.pt]
        have := h.pt_unique (c := c) (d := d) (by rw [St.ptOf, hc]; rfl)
          (by rw [St.ptOf, hdc]; exact hpt)
        rw [← this, hc] at hdc
        cases hdc
    | switch q =>
        rw [hdc] at hd
        obtain rfl : q = p := Option.some.inj hd
        rw [(h.switch d q hdc).2] at hp
        cases hp
    | acquire => rw [hdc] at hd; cases hd
    | choose => rw [hdc] at hd; cases hd
    | release => rw [hdc] at hd; cases hd
  have hcpu : ∀ d, d ≠ c → upd s.cpu c (.switch p) d = s.cpu d := fun d hd => upd_of_ne hd
  have hstate : ∀ q, q ≠ p → upd s.state p .RUNNING q = s.state q := fun q hq => upd_of_ne hq
  have hself : upd s.state p .RUNNING p = .RUNNING := upd_self ..
  have hawake : ∀ q, upd s.state p .RUNNING q = .SLEEPING → q ≠ p ∧ s.state q = .SLEEPING := by
    intro q hq
    have hqp : q ≠ p := by
      rintro rfl
      rw [hself] at hq
      cases hq
    exact ⟨hqp, hstate q hqp ▸ hq⟩
  refine ⟨fun d => ?_, fun k d => ?_, fun d e q hd he => ?_, fun d q hd => ?_, fun d q hd => ?_,
    fun q hq => ?_, fun q r hq hs => h.yielded q r hq (hawake q hs).2, fun q k hq => ?_, h.chan,
    h.back, h.own, fun q k rest hq q' hq' hs => h.scan q k rest hq q' hq' (hawake q' hs).2, h.val⟩
  · refine (h.pt d).trans ?_
    change (s.cpu d).pt g.own s.pc = true ↔ (upd s.cpu c (.switch p) d).pt g.own s.pc = true
    by_cases hdc : d = c
    · rw [hdc, upd_self, hc]
      rfl
    · rw [hcpu d hdc]
  · refine (h.lk k d).trans (exists_congr fun q => and_congr_left fun _ => ?_)
    change _ ↔ upd s.cpu c (.switch p) d = .run q
    by_cases hdc : d = c
    · rw [hdc, upd_self, hc]
      exact ⟨fun hq => (by cases hq), fun hq => (by cases hq)⟩
    · rw [hcpu d hdc]
  · change (upd s.cpu c (.switch p) d).on = _ at hd
    change (upd s.cpu c (.switch p) e).on = _ at he
    by_cases hdc : d = c <;> by_cases hec : e = c
    · rw [hdc, hec]
    · rw [hdc, upd_self] at hd
      rw [hcpu e hec, ← Option.some.inj hd] at he
      exact absurd he (hoff e)
    · rw [hec, upd_self] at he
      rw [hcpu d hdc, ← Option.some.inj he] at hd
      exact absurd hd (hoff d)
    · rw [hcpu d hdc] at hd
      rw [hcpu e hec] at he
      exact h.unique d e q hd he
  · change upd s.cpu c (.switch p) d = _ at hd
    change _ ∧ upd s.state p .RUNNING q = _
    by_cases hdc : d = c
    · rw [hdc, upd_self] at hd
      cases hd
    · rw [hcpu d hdc] at hd
      rw [hstate q fun hq => hoff d (by rw [hd, hq]; rfl)]
      exact h.run d q hd
  · change upd s.cpu c (.switch p) d = _ at hd
    change _ ∧ upd s.state p .RUNNING q = _
    by_cases hdc : d = c
    · rw [hdc, upd_self] at hd
      injection hd with hd
      rw [← hd]
      exact ⟨(h.off p hoff).1, hself⟩
    · rw [hcpu d hdc] at hd
      rw [hstate q fun hq => hoff d (by rw [hd, hq]; rfl)]
      exact h.switch d q hd
  · have hqp : q ≠ p := by
      rintro rfl
      refine hq c ?_
      change (upd s.cpu c (.switch q) c).on = _
      rw [upd_self]
      rfl
    change _ ∧ upd s.state p .RUNNING q ≠ _
    rw [hstate q hqp]
    refine h.off q fun d hd => hq d ?_
    have hdc : d ≠ c := by
      rintro rfl
      rw [hc] at hd
      cases hd
    change (upd s.cpu c (.switch p) d).on = _
    rw [hcpu d hdc]
    exact hd
  · change upd s.state p .RUNNING q = _ ∨ _
    by_cases hqp : q = p
    · rw [hqp] at hq ⊢
      refine Or.inr ((h.asleep p k hq).resolve_left fun hs => ?_)
      rw [hp] at hs
      cases hs
    · rw [hstate q hqp]
      exact h.asleep q k hq

variable [DecidableEq K]

/-- `acquire(lk)` and then a statement under the lock of `k`. -/
theorem Inv.acquireLk (h : Inv g s) (hc : s.cpu c = .run p) {k : K} {a : Pc P K}
    (hp : (s.pc p).unlocked = true) (ha : a.Plain g.own) (hpt : a.pt g.own = !g.own k)
    (hlk : a.lk g.own = if g.own k then some k else none) (hwaits : a.waits = none)
    (hwakes : a.wakes = none) (hs : s.acquireLk g c p k a = some s') : Inv g s' := by
  obtain ⟨h1, h2, -, h4⟩ := Pc.locks_of_unlocked g.own hp
  have hst := (Pc.plain_of_unlocked g.own hp).state
  rw [St.acquireLk] at hs
  split at hs
  · rename_i hown
    split at hs
    · cases hs
    · rename_i hn
      obtain rfl := Option.some.inj hs
      exact h.goes hc hst ha (h.pt_same hc (by rw [hpt, hown, h1]; rfl))
        (h.lk_acquired hc (by simpa using hn) h2 (by rw [hlk, if_pos hown])) (Or.inl hwaits)
        (hwakes.trans h4.symm)
  · rename_i hown
    have hown : g.own k = false := by simpa using hown
    exact h.acquirePt hc hst ha (by rw [hpt, hown]; rfl) (by rw [hlk, hown, h2]; rfl)
      (Or.inl hwaits) (hwakes.trans h4.symm) hs

/-- `release(lk)`, the last statement under the lock of `k`. -/
theorem Inv.releaseLk (h : Inv g s) (hc : s.cpu c = .run p) {k : K}
    (hp : (s.pc p).state = .RUNNING) (hpt : (s.pc p).pt g.own = !g.own k)
    (hlk : (s.pc p).lk g.own = if g.own k then some k else none) (hwakes : (s.pc p).wakes = none) :
    Inv g (s.releaseLk g p k .user) := by
  rw [St.releaseLk]
  split
  · rename_i hown
    exact h.goes hc hp (Pc.plain_of_unlocked g.own rfl) (h.pt_same hc (by rw [hpt, hown]; rfl))
      (h.lk_released hc (by rw [hlk, if_pos hown]) rfl) (Or.inl rfl) hwakes.symm
  · rename_i hown
    have hown : g.own k = false := by simpa using hown
    exact h.releasePt hc hp rfl (by rw [hpt, hown]; rfl) (by rw [hlk, hown]; rfl) hwakes

/-- The condition is changed, and `wakeup` called. -/
theorem Inv.changes (h : Inv g s) (hprocs : ∀ q, q ∈ g.procs) (hc : s.cpu c = .run p) {k : K}
    {v : Bool} (hp : s.pc p = .change k v) :
    Inv g ({ s with val := upd s.val k v }.setPc p
      (if g.own k then .wakePt k else .scan k g.procs)) := by
  have hst : s.state p = .RUNNING := by rw [(h.run c p hc).2, hp]; rfl
  have hwk : (s.pc p).wakes = none := by rw [hp]; rfl
  refine h.stays hc ⟨rfl, rfl, ?_, ?_, h.pt_same hc ?_, h.lk_same hc ?_, fun _ _ => rfl,
    fun j hj => ?_, fun hs => ?_, fun r hr => ?_, fun j hj => ?_, fun j rest hj q _ hq => ?_,
    fun _ _ => rfl, fun j hj => ?_, fun j hv => ?_⟩
  · have : (if g.own k then .wakePt k else .scan k g.procs : Pc P K).state = s.state p := by
      rw [hst]
      split <;> rfl
    rw [this, upd_eq_self]
    rfl
  · split <;> rfl
  · rw [hp]
    split <;> rename_i hown <;> simp [Pc.pt, hown]
  · rw [hp]
    split <;> rename_i hown <;> simp [Pc.lk, hown]
  · split at hj <;> cases hj
  · split at hs <;> cases hs
  · split at hr <;> cases hr
  · split at hj
    · rename_i hown
      obtain rfl : k = j := Option.some.inj hj
      exact hown
    · cases hj
  · split at hj
    · cases hj
    · injection hj with _ hrest
      exact absurd (hrest ▸ hprocs q) hq
  · split at hj <;> cases hj
  · by_cases hj : j = k
    · rw [hj]
      refine Or.inl ?_
      split <;> rfl
    · refine Or.inr ⟨?_, fun hw => ?_⟩
      · change upd s.val k v j = true at hv
        rwa [upd_of_ne hj] at hv
      · rw [hwk] at hw
        cases hw

/-- **A process executes a statement.** -/
theorem Inv.runProc [DecidableEq Ch] (h : Inv g s) (hprocs : ∀ q, q ∈ g.procs)
    (hc : s.cpu c = .run p) (hs : s.runProc g c p = some s') : Inv g s' := by
  obtain ⟨hout, hstate⟩ := h.run c p hc
  unfold St.runProc at hs
  cases hpc : s.pc p with
  | user => rw [hpc] at hs; cases hs
  | asleep k => rw [hpc] at hs; cases hs
  | yielded r => rw [hpc] at hs; cases hs
  | waitLock k | wakeLock k v =>
      rw [hpc] at hs
      exact h.acquireLk hc (by rw [hpc]; rfl) ⟨rfl, rfl, rfl, by simp [Pc.back], by simp [Pc.twoLocks], by simp⟩
        rfl rfl rfl rfl hs
  | test k =>
      rw [hpc] at hs
      dsimp only at hs
      split at hs
      · obtain rfl := Option.some.inj hs
        exact h.goes hc (by rw [hpc]; rfl) ⟨rfl, rfl, rfl, by simp [Pc.back], by simp [Pc.twoLocks], by simp⟩
          (h.pt_same hc (by rw [hpc]; rfl)) (h.lk_same hc (by rw [hpc]; rfl)) (Or.inl rfl)
          (by rw [hpc]; rfl)
      · rename_i hv
        obtain rfl := Option.some.inj hs
        exact h.testFalse hc hpc (by simpa using hv)
  | done k | wakeDone k =>
      rw [hpc] at hs
      obtain rfl := Option.some.inj hs
      exact h.releaseLk hc (by rw [hpc]; rfl) (by rw [hpc]; rfl) (by rw [hpc]; rfl)
        (by rw [hpc]; rfl)
  | sleepPt k =>
      rw [hpc] at hs
      have hown := h.own p k (by rw [hpc]; rfl)
      refine h.acquirePt hc (by rw [hpc]; rfl) ⟨rfl, rfl, rfl, by simp [Pc.back], ?_, by simp⟩ rfl
        (by rw [hpc]; rfl) (Or.inr (by rw [hpc]; rfl)) (by rw [hpc]; rfl) hs
      rintro j hj
      obtain rfl : k = j := Option.some.inj hj
      exact hown
  | sleepRelease k =>
      rw [hpc] at hs
      have hown := h.own p k (by rw [hpc]; rfl)
      obtain rfl := Option.some.inj hs
      exact h.goes hc (by rw [hpc]; rfl) ⟨rfl, rfl, rfl, by simp [Pc.back], by simp [Pc.twoLocks], by simp⟩
        (h.pt_same hc (by rw [hpc]; rfl)) (h.lk_released hc (by rw [hpc]; simp [Pc.lk, hown]) rfl)
        (Or.inr (by rw [hpc]; rfl)) (by rw [hpc]; rfl)
  | sleepChan k =>
      rw [hpc] at hs
      obtain rfl := Option.some.inj hs
      have := h.sets hc (.sleepState k) (upd s.chan p (some (g.chan k))) (by rw [hpc]; rfl)
        rfl (by rw [hpc]; rfl) rfl (fun q hq => upd_of_ne hq) (fun j hj => ?_) (by simp [Pc.back])
        rfl (by simp) (Or.inr (by rw [hpc]; rfl)) (by rw [hpc]; rfl)
      · rwa [show (Pc.sleepState k : Pc P K).state = s.state p by rw [hstate, hpc]; rfl,
          upd_eq_self] at this
      · obtain rfl : k = j := Option.some.inj hj
        exact upd_self ..
  | sleepState k =>
      rw [hpc] at hs
      obtain rfl := Option.some.inj hs
      refine h.sets hc (.sleepSched k) s.chan (by rw [hpc]; rfl) rfl (by rw [hpc]; rfl) rfl
        (fun q hq => rfl) (fun j hj => h.chan p j (by rw [hpc]; exact hj)) (by simp [Pc.back])
        rfl (by simp) (Or.inr (by rw [hpc]; rfl)) (by rw [hpc]; rfl)
  | sleepSched k =>
      rw [hpc] at hs
      obtain rfl := Option.some.inj hs
      exact h.sched hc (by rw [hpc]; rfl) (by rw [hpc]; rfl) (by rw [hpc]; simp [Pc.state]) rfl
        (fun r hr => (by cases hr)) (fun j _ => (by rw [hpc]; rfl)) (by rw [hpc]; rfl)
        (by rw [hpc]; rfl) (by rw [hpc]; rfl) (by rw [hpc]; rfl)
  | tidy k =>
      rw [hpc] at hs
      obtain rfl := Option.some.inj hs
      exact h.tidies hc hpc
  | tidyRelease k | killRelease =>
      rw [hpc] at hs
      obtain rfl := Option.some.inj hs
      exact h.releasePt hc (by rw [hpc]; rfl) rfl (by rw [hpc]; rfl) (by rw [hpc]; rfl)
        (by rw [hpc]; rfl)
  | change k v =>
      rw [hpc] at hs
      obtain rfl := Option.some.inj hs
      exact h.changes hprocs hc hpc
  | wakePt k =>
      rw [hpc] at hs
      refine h.acquirePt hc (by rw [hpc]; rfl) ⟨rfl, rfl, rfl, by simp [Pc.back], by simp [Pc.twoLocks], ?_⟩ rfl
        (by rw [hpc]; rfl) (Or.inl rfl) (by rw [hpc]; rfl) hs
      rintro j rest hj
      injection hj with _ hj
      rw [← hj]
      exact hprocs
  | scan k rest =>
      rw [hpc] at hs
      cases rest with
      | nil =>
          dsimp only at hs
          split at hs
          · rename_i hown
            obtain rfl := Option.some.inj hs
            refine h.scanEnds hc hpc fun d => ?_
            have := h.pt_released hc (a := .wakeDone k) (by rw [hpc]; rfl) (by simp [Pc.pt, hown]) d
            exact this
          · rename_i hown
            obtain rfl := Option.some.inj hs
            refine h.scanEnds hc hpc fun d => ?_
            have := h.pt_same hc (a := .wakeDone k) (by rw [hpc]; simp [Pc.pt, hown]) d
            exact this
      | cons q rest =>
          obtain rfl := Option.some.inj hs
          exact h.scans hc hpc
  | killPt q =>
      rw [hpc] at hs
      exact h.acquirePt hc (by rw [hpc]; rfl) ⟨rfl, rfl, rfl, by simp [Pc.back], by simp [Pc.twoLocks], by simp⟩
        rfl (by rw [hpc]; rfl) (Or.inl rfl) (by rw [hpc]; rfl) hs
  | killSet q =>
      rw [hpc] at hs
      obtain rfl := Option.some.inj hs
      exact h.kills hc hpc
  | yieldPt r =>
      rw [hpc] at hs
      refine h.acquirePt hc (by rw [hpc]; rfl) ⟨rfl, rfl, rfl, fun r' hr' => ?_, by simp [Pc.twoLocks], by simp⟩
        rfl (by rw [hpc]; rfl) (Or.inl rfl) (by rw [hpc]; rfl) hs
      exact h.back p r' (by rw [hpc]; exact hr')
  | yieldState r =>
      rw [hpc] at hs
      obtain rfl := Option.some.inj hs
      refine h.sets hc (.yieldSched r) s.chan (by rw [hpc]; rfl) rfl (by rw [hpc]; rfl) rfl
        (fun q hq => rfl) (fun j hj => (by cases hj)) (fun r' hr' => ?_)
        rfl (by simp) (Or.inl rfl) (by rw [hpc]; rfl)
      rw [hpc]
      exact hr'
  | yieldSched r =>
      rw [hpc] at hs
      obtain rfl := Option.some.inj hs
      exact h.sched hc (by rw [hpc]; rfl) (by rw [hpc]; rfl) (by rw [hpc]; simp [Pc.state]) rfl
        (fun r' _ => (by rw [hpc]; simp [Pc.state])) (fun j hj => (by cases hj)) (by rw [hpc]; rfl)
        (by rw [hpc]; rfl) (by rw [hpc]; rfl) (by rw [hpc]; rfl)
  | yieldRelease r =>
      rw [hpc] at hs
      obtain rfl := Option.some.inj hs
      exact h.releasePt hc (by rw [hpc]; rfl) (h.back p r (by rw [hpc]; rfl)) (by rw [hpc]; rfl)
        (by rw [hpc]; rfl) (by rw [hpc]; rfl)

omit [DecidableEq K] in
theorem Inv.starts (h : Inv g s) {a : Pc P K} (ha : a.unlocked = true)
    (hs : s.start c a = some s') : Inv g s' := by
  unfold St.start at hs
  split at hs
  · rename_i q hc
    split at hs
    · rename_i hp
      obtain rfl := Option.some.inj hs
      obtain ⟨h1, h2, h3, h4⟩ := Pc.locks_of_unlocked g.own ha
      exact h.goes hc (by rw [hp]; rfl) (Pc.plain_of_unlocked g.own ha)
        (h.pt_same hc (by rw [hp]; exact h1)) (h.lk_same hc (by rw [hp]; exact h2)) (Or.inl h3)
        (by rw [hp]; exact h4)
    · cases hs
  · cases hs

/-- **One step.** -/
theorem Inv.step [DecidableEq Ch] (h : Inv g s) (hprocs : ∀ q, q ∈ g.procs) {a : Act C P K}
    (hs : step g s a = some s') : Inv g s' := by
  cases a with
  | go c =>
      change s.go g c = some s' at hs
      unfold St.go at hs
      split at hs <;> rename_i hc
      · split at hs
        · cases hs
        · rename_i hn
          obtain rfl := Option.some.inj hs
          refine h.schedules (by rw [hc]; rfl) rfl fun d => ?_
          split
          · rename_i hd
            simp [hd]
          · rename_i hd
            have hnone : s.pt = none := by simpa using hn
            rw [hnone]
            simp [Ne.symm hd]
      · obtain rfl := Option.some.inj hs
        refine h.schedules (by rw [hc]; rfl) rfl fun d => ?_
        split
        · rename_i hd
          rw [hd, h.pt, St.ptOf, hc]
          simp [Cpu.pt]
        · exact Iff.rfl
      · exact h.resume hc hs
      · obtain rfl := Option.some.inj hs
        have hpt : s.pt = some c := (h.pt c).mpr (by rw [St.ptOf, hc]; rfl)
        refine h.schedules (by rw [hc]; rfl) rfl fun d => ?_
        split
        · simp
        · rename_i hd
          rw [hpt]
          simp [Ne.symm hd]
      · exact h.runProc hprocs hc hs
  | wait c k => exact h.starts rfl hs
  | wake c k v => exact h.starts rfl hs
  | kill c q => exact h.starts rfl hs
  | timer c =>
      unfold Sleep.step at hs
      dsimp only at hs
      split at hs
      · rename_i p hc
        split at hs
        · rename_i hu
          obtain rfl := Option.some.inj hs
          obtain ⟨h1, h2, h3, h4⟩ := Pc.locks_of_unlocked g.own hu
          refine h.goes hc (Pc.plain_of_unlocked g.own hu).state
            ⟨rfl, rfl, rfl, fun r hr => ?_, by simp [Pc.twoLocks], by simp⟩ (h.pt_same hc h1.symm)
            (h.lk_same hc h2.symm) (Or.inl rfl) h4.symm
          obtain rfl := Option.some.inj hr
          exact hu
        · cases hs
      · cases hs
  | pick c q =>
      unfold Sleep.step at hs
      dsimp only at hs
      split at hs
      · rename_i hc
        split at hs
        · rename_i hq
          obtain rfl := Option.some.inj hs
          exact h.picks hc hq
        · cases hs
      · cases hs

end Run

/-! ## No wakeup is lost -/

/-- The lock of `k` is free. -/
def St.Free (g : Config P K Ch) (s : St C P K Ch) (k : K) : Prop :=
  if g.own k then s.lk k = none else s.pt = none

namespace Inv

omit [DecidableEq C] [DecidableEq P]

/-- A waiter of `k` that still holds its lock, or a waker that does. -/
theorem not_free (h : Inv g s) {p : P} {k : K} (hout : (s.pc p).out = false)
    (hlk : (s.pc p).lk g.own = if g.own k then some k else none)
    (hpt : g.own k = false → (s.pc p).pt g.own = true) : ¬s.Free g k := by
  obtain ⟨c, hc⟩ := h.running hout
  intro hfree
  rw [St.Free] at hfree
  split at hfree
  · rename_i hown
    rw [if_pos hown] at hlk
    rw [(h.lk k c).mpr ⟨p, hc, hlk⟩] at hfree
    cases hfree
  · rename_i hown
    rw [(h.pt c).mpr (by rw [St.ptOf, hc]; exact hpt (by simpa using hown))] at hfree
    cases hfree

/-- **Where a waiter is** while the lock is free. -/
theorem waiting (h : Inv g s) {p : P} {k : K} (hp : (s.pc p).waits = some k)
    (hfree : s.Free g k) :
    s.state p = .SLEEPING ∧ s.chan p = some (g.chan k) ∨
    s.woken p = true ∧ (s.state p = .RUNNABLE ∨ ∃ c, s.cpu c = .switch p) ∨
    g.own k = true ∧ (s.pc p = .sleepChan k ∨ s.pc p = .sleepState k) ∧
      ∃ c, s.cpu c = .run p ∧ s.pt = some c := by
  cases hpc : s.pc p with
  | sleepPt j =>
      rw [hpc] at hp
      obtain rfl : j = k := Option.some.inj hp
      have hown := h.own p j (by rw [hpc]; rfl)
      refine absurd hfree (h.not_free (by rw [hpc]; rfl) (by rw [hpc]; rfl) fun hno => ?_)
      rw [hown] at hno
      cases hno
  | sleepRelease j =>
      rw [hpc] at hp
      obtain rfl : j = k := Option.some.inj hp
      exact absurd hfree (h.not_free (by rw [hpc]; rfl) (by rw [hpc]; rfl) fun _ => (by rw [hpc]; rfl))
  | sleepChan j | sleepState j =>
      rw [hpc] at hp
      obtain rfl : j = k := Option.some.inj hp
      obtain ⟨c, hc⟩ := h.running (p := p) (by rw [hpc]; rfl)
      have hpt : s.pt = some c := (h.pt c).mpr (by rw [St.ptOf, hc]; simp [Cpu.pt, hpc, Pc.pt])
      cases hown : g.own j with
      | true => exact Or.inr (Or.inr ⟨rfl, by simp, c, hc, hpt⟩)
      | false =>
          rw [St.Free, if_neg (by simp [hown]), hpt] at hfree
          cases hfree
  | sleepSched j =>
      rw [hpc] at hp
      obtain rfl : j = k := Option.some.inj hp
      obtain ⟨c, hc⟩ := h.running (p := p) (by rw [hpc]; rfl)
      refine Or.inl ⟨?_, h.chan p j (by rw [hpc]; rfl)⟩
      rw [(h.run c p hc).2, hpc]
      rfl
  | asleep j =>
      rw [hpc] at hp
      obtain rfl : j = k := Option.some.inj hp
      rcases h.asleep p j hpc with hst | hw
      · exact Or.inl ⟨hst, h.chan p j (by rw [hpc]; rfl)⟩
      · by_cases hst : s.state p = .SLEEPING
        · exact Or.inl ⟨hst, h.chan p j (by rw [hpc]; rfl)⟩
        refine Or.inr (Or.inl ⟨hw, ?_⟩)
        by_cases hon : ∃ c, s.cpu c = .switch p
        · exact Or.inr hon
        · have hoff : ∀ c, (s.cpu c).on ≠ some p := fun c hc => by
            cases hcpu : s.cpu c with
            | switch q =>
                rw [hcpu] at hc
                obtain rfl : q = p := Option.some.inj hc
                exact hon ⟨c, hcpu⟩
            | run q =>
                rw [hcpu] at hc
                obtain rfl : q = p := Option.some.inj hc
                have := (h.run c q hcpu).1
                rw [hpc] at this
                cases this
            | acquire => rw [hcpu] at hc; cases hc
            | choose => rw [hcpu] at hc; cases hc
            | release => rw [hcpu] at hc; cases hc
          have hrun := (h.off p hoff).2
          cases hs : s.state p with
          | SLEEPING => exact absurd hs hst
          | RUNNABLE => exact Or.inl rfl
          | RUNNING => exact absurd hs hrun
  | _ =>
      rw [hpc] at hp
      cases hp

/-- A waiter whose condition is true was woken. -/
theorem woken_of_val (h : Inv g s) {p : P} {k : K} (hp : (s.pc p).waits = some k)
    (hfree : s.Free g k) (hv : s.val k = true) : s.woken p = true := by
  rcases h.val p k hp hv with hw | ⟨q, hq⟩
  · exact hw
  · cases hpc : s.pc q with
    | wakePt j =>
        rw [hpc] at hq
        obtain rfl : j = k := Option.some.inj hq
        have hown := h.own q j (by rw [hpc]; rfl)
        refine absurd hfree (h.not_free (by rw [hpc]; rfl) (by rw [hpc]; rfl) fun hno => ?_)
        rw [hown] at hno
        cases hno
    | scan j rest =>
        rw [hpc] at hq
        obtain rfl : j = k := Option.some.inj hq
        exact absurd hfree
          (h.not_free (by rw [hpc]; rfl) (by rw [hpc]; rfl) fun _ => (by rw [hpc]; rfl))
    | _ =>
        rw [hpc] at hq
        cases hq

end Inv

variable [DecidableEq K] [DecidableEq Ch]

/-- **No wakeup is lost.** -/
theorem wakeup_not_lost (hprocs : ∀ p, p ∈ g.procs) {val : K → Bool}
    (hr : Reaches (step g) (St.init val) s) :
    -- a waiter that found the condition false and was not resumed, while the lock is free:
    (∀ p k, (s.pc p).waits = some k → s.Free g k →
      s.state p = .SLEEPING ∧ s.chan p = some (g.chan k) ∨
      s.woken p = true ∧ (s.state p = .RUNNABLE ∨ ∃ c, s.cpu c = .switch p) ∨
      -- or inside `sleep`, past `release(lk)`, with `ptable.lock` held
      g.own k = true ∧ (s.pc p = .sleepChan k ∨ s.pc p = .sleepState k) ∧
        ∃ c, s.cpu c = .run p ∧ s.pt = some c) ∧
    -- a `wakeup` that is through has woken every process that had given up the lock
    (∀ q j, s.pc q = .scan j [] → ∀ p k, g.chan k = g.chan j → (s.pc p).gaveUp = some k →
      s.state p ≠ .SLEEPING ∧ s.woken p = true) ∧
    -- so nobody sleeps on a condition that became true
    (∀ p k, (s.pc p).waits = some k → s.Free g k → s.val k = true → s.woken p = true) := by
  have h : Inv g s := Reaches.invariant (fun s a s' hi hs => hi.step hprocs hs) hr (Inv.init val)
  exact ⟨fun p k hp hf => h.waiting hp hf, fun q j hq p k hk hp => (h.scanned hq hk hp).2,
    fun p k hp hf hv => h.woken_of_val hp hf hv⟩

/-! ## Two runs -/

/-- A waiter and a waker, on a CPU each. -/
inductive Two
  | one
  | two
  deriving DecidableEq

/-- One condition with a lock of its own. -/
def oneCondition : Config Two Unit Unit := ⟨fun _ => true, fun _ => (), [.one, .two]⟩

/-- The waiter gets a CPU, tests the condition and goes on to `release(lk)`. -/
def untilRelease : List (Act Two Two Unit) :=
  [.go .one, .pick .one .one, .go .one, .go .one,
    .wait .one (), .go .one, .go .one, .go .one, .go .one]

/-- The lock is free, the waiter still RUNNING and not woken. -/
theorem wakeup_waiter_running : ∃ s : St Two Two Unit Unit,
    Reaches (step oneCondition) (St.init fun _ => false) s ∧
    (s.pc .one).waits = some () ∧ s.Free oneCondition () ∧
    ¬(s.state .one = .SLEEPING ∧ s.chan .one = some () ∨ s.woken .one = true) := by
  have hrun : (execAll (step oneCondition) (St.init fun _ => false) untilRelease).map (fun s =>
      decide ((s.pc .one).waits = some () ∧ s.lk () = none ∧ s.state .one = .RUNNING ∧
        s.woken .one = false)) = some true := by decide +kernel
  obtain ⟨s, hs, hd⟩ := Option.map_eq_some_iff.mp hrun
  obtain ⟨h1, h2, h3, h4⟩ := of_decide_eq_true hd
  refine ⟨s, reaches_of_execAll hs, h1, h2, ?_⟩
  rintro (⟨h5, -⟩ | h5)
  · rw [h3] at h5
    cases h5
  · rw [h4] at h5
    cases h5

/-- The rest of `sleep`; then the other CPU runs the waker up to the end
of `wakeup1`. -/
def untilWoken : List (Act Two Two Unit) :=
  untilRelease ++ [.go .one, .go .one, .go .one, .go .one,
    .go .two, .pick .two .two, .go .two, .go .two,
    .wake .two () true, .go .two, .go .two, .go .two, .go .two, .go .two]

theorem wakeup_not_lost_two : ∃ s : St Two Two Unit Unit,
    execAll (step oneCondition) (St.init fun _ => false) untilWoken = some s ∧
    s.pc .two = .scan () [] ∧ s.pc .one = .asleep () ∧
    s.state .one ≠ .SLEEPING ∧ s.woken .one = true := by
  have hrun : (execAll (step oneCondition) (St.init fun _ => false) untilWoken).map (fun s =>
      (match s.pc .two with | .scan _ [] => true | _ => false) &&
      (match s.pc .one with | .asleep _ => true | _ => false)) = some true := by decide +kernel
  obtain ⟨s, hs, hd⟩ := Option.map_eq_some_iff.mp hrun
  obtain ⟨h1, h2⟩ := (Bool.and_eq_true _ _).mp hd
  have hscan : s.pc .two = .scan () [] := by
    revert h1
    split
    · rename_i heq
      intro _
      exact heq
    · intro h
      cases h
  have hsleep : s.pc .one = .asleep () := by
    revert h2
    split
    · rename_i heq
      intro _
      exact heq
    · intro h
      cases h
  have hall := wakeup_not_lost (fun p => by cases p <;> decide) (reaches_of_execAll hs)
  exact ⟨s, hs, hscan, hsleep, hall.2.1 .two () hscan .one () rfl (by rw [hsleep]; rfl)⟩

end Xv6.Sleep
