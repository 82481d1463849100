import Xv6.Sched.Lottery
import Xv6.Sched.Steps

/-!
# Sched — the lottery over reachable tables

The total is taken over ALL slots, and the loop walks the RUNNABLE ones.
A sleeping process, a zombie and a freed slot keep their tickets, so part
of the winning numbers belong to nobody: `lottery_finds_iff` says for
which draws the round finds a process.

With arbitrary `settickets` arguments the total can wrap, and the running
sums of the loop are compared as unsigned numbers. `lottery_reaches_iff`
says when there is a draw at all that selects a given process.
-/

namespace Xv6.Sched

open Lib

/-- `ptable.proc`, as the loops walk it. -/
def St.table (s : St) : List Proc := (List.finRange NPROC).map s.proc

theorem getElem?_table (s : St) (i : Fin NPROC) : s.table[i.val]? = some (s.proc i) := by
  simp [St.table]

theorem mem_table {s : St} {p : Proc} : p ∈ s.table ↔ ∃ i, s.proc i = p := by
  simp [St.table]

/-- Tickets change only in `allocproc` and in `settickets`. -/
theorem step_tickets {s s' : St} {a : Act} (h : Step s a s') (i : Fin NPROC) :
    (s'.proc i).tickets = (s.proc i).tickets ∨ (s'.proc i).tickets = INIT_TICKETS ∨
      ∃ num, a = .settickets i num ∧ (s'.proc i).tickets = num := by
  cases h with
  | exit p _ _ _ he => exact Or.inl (he.kept i).tickets
  | wakeup addr => exact Or.inl (wakeup1_kept s _ i).tickets
  | forkAlloc p np _ _ =>
      simp only [setPc_proc, St.alloc, setProc_proc]
      split
      · exact Or.inr (Or.inl rfl)
      · exact Or.inl rfl
  | settickets p num _ =>
      rw [setProc_proc]
      split
      · rename_i hi
        exact Or.inr (Or.inr ⟨num, by rw [hi], rfl⟩)
      · exact Or.inl rfl
  | reap p j _ _ _ _ =>
      refine Or.inl ?_
      simp only [setPc_proc, St.reap, setProc_proc]
      split <;> split <;> simp_all
  | forkNone | killNone => exact Or.inl rfl
  | run p | yield p | forkFail _ p | forkParent _ p | forkDone _ p | waitNone p | waitSleep p | kill _ _ p
  | sleep p | resume p =>
      refine Or.inl ?_
      simp only [setPc_proc, setProc_proc, setState_proc]
      split
      · rename_i hi
        rw [hi]
      · rfl

/-! ## Which draws find a process -/

/-- The loop finds a process exactly if the number is below the tickets
of the RUNNABLE processes. -/
theorem pick_isSome_iff {r sum : BitVec 32} {procs : List Proc} (hnn : NonNeg procs)
    (hr : r.toNat < 2 ^ 31) (hsum : sum.toNat ≤ r.toNat) :
    (pick r sum procs).isSome = true ↔ r.toNat < sum.toNat + runTickets procs := by
  induction procs generalizing sum with
  | nil =>
      simp only [pick, Option.isSome_none, Bool.false_eq_true, runTickets, Nat.add_zero, false_iff]
      omega
  | cons p procs ih =>
      have hp := toNat_lt_of_nonneg (hnn p List.mem_cons_self)
      have hnn' : NonNeg procs := fun q hq => hnn q (List.mem_cons_of_mem p hq)
      have hadd : (p.tickets + sum).toNat = sum.toNat + p.tickets.toNat := by
        rw [BitVec.toNat_add]
        omega
      by_cases hrun : p.state = .RUNNABLE
      · simp only [pick, hrun, ne_eq, not_true, if_false, BitVec.le_def, hadd, runTickets, if_true]
        split
        · have hsum' : (sum + p.tickets).toNat = sum.toNat + p.tickets.toNat := by
            rw [BitVec.add_comm, hadd]
          rw [Option.isSome_map, ih hnn' (by omega), hsum']
          omega
        · simp only [Option.isSome_some, true_iff]
          omega
      · simp only [pick, ne_eq, hrun, not_false_eq_true, if_true, Option.isSome_map, ih hnn' hsum,
          runTickets, if_false, Nat.zero_add]

/-- The argument of `settickets`, if this is one, is not negative. -/
def nonNegArg : Act → Bool
  | .settickets _ num => 0 ≤ num.toInt
  | _ => true

/-- The system with `settickets` calls of non-negative arguments only. -/
def nonNegStep : St → Act → Option St := guarded (fun _ a => nonNegArg a = true) step

theorem nonNeg_step {s s' : St} {a : Act} (h : NonNeg s.table) (hs : nonNegStep s a = some s') :
    NonNeg s'.table := by
  obtain ⟨harg, hstep⟩ := guarded_eq_some.mp hs
  intro q hq
  obtain ⟨i, rfl⟩ := mem_table.mp hq
  rcases step_tickets (step_cases hstep) i with ht | ht | ⟨num, rfl, ht⟩
  · rw [ht]
    exact h _ (mem_table.mpr ⟨i, rfl⟩)
  · rw [ht]
    decide
  · rw [ht]
    simpa [nonNegArg] using harg

theorem nonNeg_init : NonNeg St.init.table := by
  intro q hq
  obtain ⟨i, rfl⟩ := mem_table.mp hq
  simp only [St.init]
  split <;> decide

theorem nonNeg_of_reaches {s : St} (h : Reaches nonNegStep St.init s) : NonNeg s.table :=
  h.invariant (fun _ _ _ => nonNeg_step) nonNeg_init

theorem winning_le (total x : BitVec 32) : (winning total x).toNat ≤ x.toNat := by
  unfold winning
  split
  · rw [BitVec.toNat_umod]
    exact Nat.mod_le _ _
  · simp

/-- **Work conservation, exactly.** Over every table that `fork`, `exit`,
`wait`, `sleep`, `wakeup`, `kill` and non-negative `settickets` can lead
to, the round finds a process for a draw if and only if the reduced draw
is below the tickets of the RUNNABLE processes. -/
theorem lottery_finds_iff (s : St) (h : Reaches nonNegStep St.init s) (x : BitVec 32)
    (hx : x.toNat ≤ MAXDRAW) :
    (lottery s.table x).isSome = true ↔
      (winning (totalTickets s.table) x).toNat < runTickets s.table := by
  have hle := winning_le (totalTickets s.table) x
  have hmax : MAXDRAW < 2 ^ 31 := by decide
  rw [lottery, pick_isSome_iff (nonNeg_of_reaches h) (by omega) (by simp)]
  simp

/-- Init forks a child and waits for it. -/
def initWaits : List Act :=
  [.run 0, .forkAlloc 0, .forkParent 0, .forkDone 0, .wait 0]

/-- The child is RUNNABLE with ten tickets, and a draw of ten finds
nobody: the number belongs to the sleeping parent. -/
theorem lottery_finds_nobody :
    ∃ s x, Reaches nonNegStep St.init s ∧ x.toNat ≤ MAXDRAW ∧
      (∃ i, (s.proc i).state = .RUNNABLE ∧ 0 < (s.proc i).tickets.toInt) ∧
      lottery s.table x = none := by
  have hrun : (execAll nonNegStep St.init initWaits).map (fun s =>
      (decide (((s.proc 1).state = .RUNNABLE ∧ 0 < (s.proc 1).tickets.toInt) ∧
        lottery s.table 10 = none))) = some true := by decide +kernel
  obtain ⟨s, hs, hc⟩ := Option.map_eq_some_iff.mp hrun
  obtain ⟨h1, h2⟩ := of_decide_eq_true hc
  exact ⟨s, 10, reaches_of_execAll hs, by decide, ⟨1, h1⟩, h2⟩

/-- In the same table a draw of twenty finds the child. -/
theorem lottery_finds_child :
    ∃ s, Reaches nonNegStep St.init s ∧ (lottery s.table 20).isSome = true := by
  have hrun : (execAll nonNegStep St.init initWaits).map (fun s =>
      decide ((winning (totalTickets s.table) 20).toNat < runTickets s.table)) = some true := by
    decide +kernel
  obtain ⟨s, hs, hc⟩ := Option.map_eq_some_iff.mp hrun
  exact ⟨s, reaches_of_execAll hs,
    (lottery_finds_iff s (reaches_of_execAll hs) 20 (by decide)).mpr (of_decide_eq_true hc)⟩

/-! ## Which processes a draw can find -/

/-- The tickets of the RUNNABLE processes, as the `int` the loop keeps. -/
def runSum : List Proc → BitVec 32
  | [] => 0#32
  | p :: procs => (if p.state = .RUNNABLE then p.tickets else 0#32) + runSum procs

/-- The largest running sum the loop compares with, as an unsigned
number, before it is past the slots of the list. -/
def peak : (sum : BitVec 32) → List Proc → Nat
  | _, [] => 0
  | sum, p :: procs =>
      if p.state = .RUNNABLE then max (sum + p.tickets).toNat (peak (sum + p.tickets) procs)
      else peak sum procs

/-- **The loop, for any tickets**: process `i` wins with the numbers from
the highest running sum before it up to its own. -/
theorem pick_eq_some_iff_peak {r sum : BitVec 32} {procs : List Proc} {i : Nat} :
    pick r sum procs = some i ↔ ∃ p, procs[i]? = some p ∧ p.state = .RUNNABLE ∧
      peak sum (procs.take i) ≤ r.toNat ∧
      r.toNat < (sum + runSum (procs.take i) + p.tickets).toNat := by
  induction procs generalizing sum i with
  | nil => simp [pick]
  | cons p procs ih =>
      cases i with
      | zero => simp [pick_cons_zero, peak, runSum]
      | succ i =>
          rw [pick_cons_succ, List.getElem?_cons_succ, List.take_succ_cons, peak, runSum]
          by_cases hrun : p.state = .RUNNABLE
          · simp only [if_pos hrun, ih, Nat.max_le, BitVec.add_assoc]
            constructor
            · rintro ⟨hle, q, hq, hq', hpeak, hlt⟩
              exact ⟨q, hq, hq', ⟨hle, hpeak⟩, hlt⟩
            · rintro ⟨q, hq, hq', ⟨hle, hpeak⟩, hlt⟩
              exact ⟨hle, q, hq, hq', hpeak, hlt⟩
          · rw [if_neg hrun, if_neg hrun, if_neg hrun, ih, BitVec.zero_add]

/-- The largest number a draw can be reduced to. -/
def maxWinning (total : BitVec 32) : Nat :=
  if 0 < total.toInt then min (total.toNat - 1) MAXDRAW else 0

theorem exists_winning_iff {total : BitVec 32} {r : Nat} :
    (∃ x : BitVec 32, x.toNat ≤ MAXDRAW ∧ (winning total x).toNat = r) ↔ r ≤ maxWinning total := by
  have hmax : MAXDRAW < 2 ^ 31 := by decide
  unfold maxWinning winning
  by_cases hpos : 0 < total.toInt
  · have htot : 0 < total.toNat := by
      rw [BitVec.toInt_eq_toNat_cond] at hpos
      split at hpos <;> omega
    simp only [if_pos hpos, BitVec.toNat_umod]
    constructor
    · rintro ⟨x, hx, rfl⟩
      have h1 := Nat.mod_lt x.toNat htot
      have h2 := Nat.mod_le x.toNat total.toNat
      omega
    · intro hr
      refine ⟨BitVec.ofNat 32 r, ?_, ?_⟩
      · rw [BitVec.toNat_ofNat]
        omega
      · rw [BitVec.toNat_ofNat, Nat.mod_eq_of_lt (by omega : r < 2 ^ 32), Nat.mod_eq_of_lt (by omega)]
  · simp only [if_neg hpos]
    constructor
    · rintro ⟨_, _, rfl⟩
      simp
    · intro hr
      exact ⟨0, by simp, by simp; omega⟩

/-- **No starvation, exactly.** For every table there is a draw that
selects the RUNNABLE process `i` if and only if the highest running sum
before it is below its own and is itself a number that can be drawn. -/
theorem lottery_reaches_iff (s : St) (i : Fin NPROC) (hrun : (s.proc i).state = .RUNNABLE) :
    (∃ x : BitVec 32, x.toNat ≤ MAXDRAW ∧ lottery s.table x = some i.val) ↔
      peak 0 (s.table.take i) < (runSum (s.table.take i) + (s.proc i).tickets).toNat ∧
        peak 0 (s.table.take i) ≤ maxWinning (totalTickets s.table) := by
  simp only [lottery, pick_eq_some_iff_peak, getElem?_table, Option.some.injEq, exists_eq_left',
    hrun, true_and, BitVec.ofNat_eq_ofNat, BitVec.zero_add]
  constructor
  · rintro ⟨x, hx, h1, h2⟩
    exact ⟨by omega, h1.trans (exists_winning_iff.mp ⟨x, hx, rfl⟩)⟩
  · rintro ⟨h1, h2⟩
    obtain ⟨x, hx, hr⟩ := exists_winning_iff.mpr h2
    exact ⟨x, hx, by omega, by omega⟩

/-- Init forks a child and then asks for all the tickets there are. -/
def initGrabs : List Act :=
  [.run 0, .forkAlloc 0, .forkParent 0, .forkDone 0, .settickets 0 0x7fffffff, .yield 0]

/-- The total wraps to a negative number, every draw is reduced to zero,
and the child with its ten tickets is never selected. -/
theorem lottery_starves_child :
    ∃ s i, Reachable s ∧ (s.proc i).state = .RUNNABLE ∧ 0 < (s.proc i).tickets.toInt ∧
      ∀ x : BitVec 32, x.toNat ≤ MAXDRAW → lottery s.table x ≠ some i.val := by
  have hrun : (execAll step St.init initGrabs).map (fun s =>
      (decide (((s.proc 1).state = .RUNNABLE ∧ 0 < (s.proc 1).tickets.toInt) ∧
        ¬0 < (totalTickets s.table).toInt ∧ pick 0 0 s.table = some 0))) = some true := by
    decide +kernel
  obtain ⟨s, hs, hc⟩ := Option.map_eq_some_iff.mp hrun
  obtain ⟨⟨h1, h2⟩, h3, h4⟩ := of_decide_eq_true hc
  refine ⟨s, 1, reaches_of_execAll hs, h1, h2, fun x _ => ?_⟩
  rw [lottery, winning, if_neg h3, h4]
  decide

/-- Before it grabs them, some draw selects the child. -/
theorem lottery_reaches_child :
    ∃ s, Reachable s ∧ ∃ x : BitVec 32, x.toNat ≤ MAXDRAW ∧ lottery s.table x = some 1 := by
  have hrun : (execAll step St.init initWaits).map (fun s =>
      decide ((s.proc 1).state = .RUNNABLE ∧
        peak 0 (s.table.take 1) < (runSum (s.table.take 1) + (s.proc 1).tickets).toNat ∧
        peak 0 (s.table.take 1) ≤ maxWinning (totalTickets s.table))) = some true := by
    decide +kernel
  obtain ⟨s, hs, hc⟩ := Option.map_eq_some_iff.mp hrun
  obtain ⟨h1, h2⟩ := of_decide_eq_true hc
  exact ⟨s, reaches_of_execAll hs, (lottery_reaches_iff s 1 h1).mpr h2⟩

end Xv6.Sched
