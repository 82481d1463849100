import Xv6.Sched.Lottery
import Xv6.Sched.Tickets

/-!
# Sched — `scheduler()` on several CPUs

Every CPU runs the loop of `scheduler()` over ONE global `total_tickets`.
The part before `acquire(&ptable.lock)` holds no lock, so the CPUs
interleave there statement by statement; the selection is one section of
the lock, kept until the chosen process gives the CPU back. The halt of
an idle CPU is only a delay and is left out.

The guard `total_tickets > 0` and the division read the global
separately. `scheduler_division_iff` names the steps that come between.
-/

namespace Xv6.Sched

open Lib

/-- Where in `scheduler()` a CPU stands. -/
inductive CpuPc
  | reset                      -- `total_tickets = 0`
  | sum (i : Nat)              -- the summing loop, at slot `i`
  | draw                       -- `rand_num = random_at_most(982343221)`
  | guard                      -- `if(total_tickets > 0)`
  | divide                     -- `rand_num %= total_tickets`
  | zero                       -- `rand_num = 0`
  | select                     -- the section of `ptable.lock`
  | running (p : Fin NPROC)    -- switched to `p`
deriving DecidableEq

/-- A CPU's own variables. -/
structure Cpu where
  pc : CpuPc
  randNum : BitVec 32

structure Smp (n : Nat) where
  tab : St
  total : BitVec 32
  cpu : Fin n → Cpu

/-- A CPU takes its next statement (`x` is the draw, where it draws), or a
process does something. -/
inductive SmpAct (n : Nat)
  | cpu (c : Fin n) (x : BitVec 32)
  | proc (a : Act)

namespace Smp

variable {n : Nat}

def init : Smp n := ⟨St.init, 0, fun _ => ⟨.reset, 0⟩⟩

def setCpu (s : Smp n) (c : Fin n) (v : Cpu) : Smp n := { s with cpu := Function.update s.cpu c v }

/-- One statement of the loop. Division by zero faults: the CPU does not
get past it. -/
def stepCpu (s : Smp n) (c : Fin n) (x : BitVec 32) : Option (Smp n) :=
  let r := (s.cpu c).randNum
  match (s.cpu c).pc with
  | .reset => some ({ s with total := 0 }.setCpu c ⟨.sum 0, r⟩)
  | .sum i =>
      if h : i < NPROC then
        some ({ s with total := s.total + (s.tab.proc ⟨i, h⟩).tickets }.setCpu c ⟨.sum (i + 1), r⟩)
      else some (s.setCpu c ⟨.draw, r⟩)
  | .draw => if x.toNat ≤ MAXDRAW then some (s.setCpu c ⟨.guard, x⟩) else none
  | .guard => some (s.setCpu c ⟨if 0 < s.total.toInt then .divide else .zero, r⟩)
  | .divide => if s.total = 0 then none else some (s.setCpu c ⟨.select, r % s.total⟩)
  | .zero => some (s.setCpu c ⟨.select, 0⟩)
  | .select =>
      match pick r 0 s.tab.table with
      | none => some (s.setCpu c ⟨.reset, r⟩)
      | some i =>
          if h : i < NPROC then
            (step s.tab (.run ⟨i, h⟩)).map fun t => { s with tab := t }.setCpu c ⟨.running ⟨i, h⟩, r⟩
          else none
  | .running _ => none

/-- `sched`: a CPU whose process no longer runs is back in its loop. -/
def resched (t : St) (v : Cpu) : Cpu :=
  match v.pc with
  | .running p => if (t.proc p).state = .RUNNING then v else ⟨.reset, v.randNum⟩
  | _ => v

/-- The system. Only `scheduler()` makes a process RUNNING. -/
def step (s : Smp n) : SmpAct n → Option (Smp n)
  | .cpu c x => s.stepCpu c x
  | .proc (.run _) => none
  | .proc a => (Sched.step s.tab a).map fun t => { s with tab := t, cpu := fun c => resched t (s.cpu c) }

/-- A CPU is about to divide by zero. -/
def DividesByZero (s : Smp n) : Prop := ∃ c, (s.cpu c).pc = .divide ∧ s.total = 0

instance (s : Smp n) : Decidable s.DividesByZero := inferInstanceAs (Decidable (∃ _, _))

/-- The value that CPU `c` stores to `total_tickets` next, if it does. -/
def stores (s : Smp n) (c : Fin n) : Option (BitVec 32) :=
  match (s.cpu c).pc with
  | .reset => some 0
  | .sum i => if h : i < NPROC then some (s.total + (s.tab.proc ⟨i, h⟩).tickets) else none
  | _ => none

/-- The step stores no zero while another CPU stands between its guard
and its division. -/
def calm (s : Smp n) : SmpAct n → Bool
  | .cpu c _ => decide (s.stores c = some 0 → ∀ d, d ≠ c → (s.cpu d).pc ≠ .divide)
  | .proc _ => true

def calmStep : Smp n → SmpAct n → Option (Smp n) := guarded (fun s a => s.calm a = true) step

/-! ## What one step does to the total -/

/-- What a CPU's move does: the total becomes what it stores, and it
comes to the division only past the guard. -/
structure Moved (s : Smp n) (c : Fin n) (s' : Smp n) : Prop where
  total : s'.total = (s.stores c).getD s.total
  other : ∀ d, d ≠ c → s'.cpu d = s.cpu d
  divide : (s'.cpu c).pc = .divide → s.stores c = none ∧ 0 < s.total.toInt

theorem Moved.of_setCpu {s t : Smp n} {c : Fin n} {v : Cpu} (hcpu : t.cpu = s.cpu)
    (htot : t.total = (s.stores c).getD s.total)
    (hv : v.pc = .divide → s.stores c = none ∧ 0 < s.total.toInt) : Moved s c (t.setCpu c v) where
  total := htot
  other d hd := by simp [setCpu, Function.update_of_ne hd, hcpu]
  divide h := by
    simp only [setCpu, Function.update_self] at h
    exact hv h

theorem stepCpu_moved {s s' : Smp n} {c : Fin n} {x : BitVec 32} (h : s.stepCpu c x = some s') :
    Moved s c s' := by
  unfold stepCpu at h
  dsimp only at h
  split at h <;> rename_i hpc
  · cases h
    exact .of_setCpu rfl (by simp [stores, hpc]) fun hv => by cases hv
  · split at h
    · rename_i hi
      cases h
      exact .of_setCpu rfl (by simp [stores, hpc, hi]) fun hv => by cases hv
    · rename_i hi
      cases h
      exact .of_setCpu rfl (by simp [stores, hpc, dif_neg hi]) fun hv => by cases hv
  · obtain ⟨_, he⟩ := Option.ite_none_right_eq_some.mp h
    cases he
    exact .of_setCpu rfl (by simp [stores, hpc]) fun hv => by cases hv
  · cases h
    refine .of_setCpu rfl (by simp [stores, hpc]) fun hv => ⟨by simp [stores, hpc], ?_⟩
    by_contra hno
    simp only [if_neg hno] at hv
    cases hv
  · obtain ⟨_, he⟩ := Option.ite_none_left_eq_some.mp h
    cases he
    exact .of_setCpu rfl (by simp [stores, hpc]) fun hv => by cases hv
  · cases h
    exact .of_setCpu rfl (by simp [stores, hpc]) fun hv => by cases hv
  · split at h
    · cases h
      exact .of_setCpu rfl (by simp [stores, hpc]) fun hv => by cases hv
    · split at h
      · obtain ⟨t, _, rfl⟩ := Option.map_eq_some_iff.mp h
        exact .of_setCpu rfl (by simp [stores, hpc]) fun hv => by cases hv
      · cases h
  · cases h

theorem resched_divide {t : St} {v : Cpu} : (resched t v).pc = .divide ↔ v.pc = .divide := by
  unfold resched
  split
  · rename_i p hpc
    rw [hpc]
    split
    · rw [hpc]
    · simp
  · exact Iff.rfl

/-- A process moves: no CPU comes to the division or leaves it. -/
theorem step_proc_spec {s s' : Smp n} {a : Act} (h : s.step (.proc a) = some s') :
    s'.total = s.total ∧ ∀ d, (s'.cpu d).pc = .divide ↔ (s.cpu d).pc = .divide := by
  have hmap : ((Sched.step s.tab a).map fun t =>
      ({ s with tab := t, cpu := fun c => resched t (s.cpu c) } : Smp n)) = some s' := by
    cases a with
    | run => cases h
    | _ => exact h
  obtain ⟨t, _, rfl⟩ := Option.map_eq_some_iff.mp hmap
  exact ⟨rfl, fun d => resched_divide⟩

/-- **One calm step** from a state where nobody divides by zero. -/
theorem calm_step {s s' : Smp n} {a : SmpAct n} (h : ¬ s.DividesByZero) (hcalm : s.calm a = true)
    (hs : s.step a = some s') : ¬ s'.DividesByZero := by
  rintro ⟨d, hd, h0⟩
  cases a with
  | proc a =>
      obtain ⟨htot, hdiv⟩ := step_proc_spec hs
      exact h ⟨d, (hdiv d).mp hd, htot ▸ h0⟩
  | cpu c x =>
      obtain ⟨htot, hother, hself⟩ := stepCpu_moved hs
      have hstore : s.stores c = some 0 → ∀ d, d ≠ c → (s.cpu d).pc ≠ .divide :=
        of_decide_eq_true hcalm
      rcases eq_or_ne d c with rfl | hdc
      · -- `d` has just passed the guard
        obtain ⟨hnone, hpos⟩ := hself hd
        rw [htot, hnone, Option.getD_none] at h0
        rw [h0] at hpos
        exact absurd hpos (by decide)
      · rw [hother d hdc] at hd
        cases hst : s.stores c with
        | none =>
            rw [htot, hst, Option.getD_none] at h0
            exact h ⟨d, hd, h0⟩
        | some v =>
            rw [htot, hst, Option.getD_some] at h0
            exact hstore (h0 ▸ hst) d hdc hd

/-- A step that is not calm brings another CPU to a division by zero. -/
theorem not_calm_step {s s' : Smp n} {a : SmpAct n} (hcalm : s.calm a = false)
    (hs : s.step a = some s') : s'.DividesByZero := by
  cases a with
  | proc a => cases hcalm
  | cpu c x =>
      obtain ⟨htot, hother, -⟩ := stepCpu_moved hs
      simp only [calm, decide_eq_false_iff_not, Classical.not_imp, not_forall, not_not] at hcalm
      obtain ⟨hst, d, hdc, hd⟩ := hcalm
      refine ⟨d, by rw [hother d hdc]; exact hd, ?_⟩
      rw [htot, hst, Option.getD_some]

theorem init_safe : ¬ (init : Smp n).DividesByZero := by
  rintro ⟨c, hc, _⟩
  cases hc

end Smp

/-- **No division by zero, on any number of CPUs**, in every run in which
no CPU stores zero to `total_tickets` while another stands between its
guard and its division; and a step that does so, from any state, leads to
one. -/
theorem scheduler_division_iff (n : Nat) :
    (∀ s : Smp n, Reaches Smp.calmStep Smp.init s → ¬ s.DividesByZero) ∧
      ∀ (s s' : Smp n) (a : SmpAct n), s.step a = some s' → ¬ s.DividesByZero →
        (¬ s'.DividesByZero ↔ s.calm a = true) := by
  refine ⟨fun s h => ?_, fun s s' a hs h0 => ⟨fun h => ?_, fun hc => Smp.calm_step h0 hc hs⟩⟩
  · exact h.invariant (fun _ _ _ hi hs => by
      obtain ⟨hcalm, hstep⟩ := guarded_eq_some.mp hs
      exact Smp.calm_step hi hcalm hstep) Smp.init_safe
  · by_contra hc
    exact h (Smp.not_calm_step (by simpa using hc) hs)

/-- A CPU's statements from the reset to just before the division. -/
def toDivision {n : Nat} (c : Fin n) (x : BitVec 32) : List (SmpAct n) :=
  List.replicate (NPROC + 4) (.cpu c x)

/-- CPU 0 passes the guard, CPU 1 starts its round: CPU 0 divides by zero. -/
theorem scheduler_divides_by_zero :
    ∃ s : Smp 2, Reaches Smp.step Smp.init s ∧ s.DividesByZero := by
  have hrun : (execAll Smp.step Smp.init (toDivision 0 5 ++ [.cpu (1 : Fin 2) 0])).map
      (fun s => decide s.DividesByZero) = some true := by decide +kernel
  obtain ⟨s, hs, hd⟩ := Option.map_eq_some_iff.mp hrun
  exact ⟨s, reaches_of_execAll hs, of_decide_eq_true hd⟩

/-- With one CPU alone in its round, it comes to the division, safely. -/
theorem scheduler_division_calm :
    ∃ s : Smp 2, Reaches Smp.calmStep Smp.init s ∧ (s.cpu 0).pc = .divide ∧
      ¬ s.DividesByZero := by
  have hrun : (execAll Smp.calmStep Smp.init (toDivision (0 : Fin 2) 5)).map
      (fun s => decide ((s.cpu 0).pc = .divide)) = some true := by decide +kernel
  obtain ⟨s, hs, hd⟩ := Option.map_eq_some_iff.mp hrun
  have hreach : Reaches Smp.calmStep Smp.init s := reaches_of_execAll hs
  exact ⟨s, hreach, of_decide_eq_true hd, (scheduler_division_iff 2).1 s hreach⟩

end Xv6.Sched
