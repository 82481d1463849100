import Xv6.Sched.Table
import Xv6.Lib.Residues

/-!
# Sched — the lottery

One round of `scheduler()`: the ticket total over ALL slots, the draw
reduced by it, and the loop that walks the RUNNABLE slots. The table is a
list, so that what is said here does not depend on its length.

The arithmetic is the code's. `tickets`, `sum` and `total_tickets` are
`int`s and may wrap; the comparison with `rand_num`, an `unsigned long`
of 32 bits, is unsigned.
-/

namespace Xv6.Sched

open Lib

/-! ## The code -/

/-- `total_tickets` after the first loop. -/
def totalTickets (procs : List Proc) : BitVec 32 :=
  procs.foldl (fun total p => total + p.tickets) 0

/-- The argument of `random_at_most`: draws are at most this. -/
def MAXDRAW : Nat := 982343221

/-- `rand_num` after the reduction of draw `x`. -/
def winning (total x : BitVec 32) : BitVec 32 := if 0 < total.toInt then x % total else 0

/-- The second loop: the index of the process it switches to. -/
def pick (r : BitVec 32) : (sum : BitVec 32) → List Proc → Option Nat
  | _, [] => none
  | sum, p :: procs =>
      if p.state ≠ .RUNNABLE then (pick r sum procs).map (· + 1)
      else if p.tickets + sum ≤ r then (pick r (sum + p.tickets) procs).map (· + 1)
      else some 0

/-- One round: `foundproc` becomes 1 exactly if this is not `none`. -/
def lottery (procs : List Proc) (x : BitVec 32) : Option Nat :=
  pick (winning (totalTickets procs) x) 0 procs

/-! ## The sums -/

/-- The tickets of the RUNNABLE processes. -/
def runTickets : List Proc → Nat
  | [] => 0
  | p :: procs => (if p.state = .RUNNABLE then p.tickets.toNat else 0) + runTickets procs

/-- The tickets of all slots. -/
def allTickets (procs : List Proc) : Nat := (procs.map fun p => p.tickets.toNat).sum

/-- No `int` in the table is negative. -/
def NonNeg (procs : List Proc) : Prop := ∀ p ∈ procs, 0 ≤ p.tickets.toInt

theorem toNat_lt_of_nonneg {v : BitVec 32} (h : 0 ≤ v.toInt) : v.toNat < 2 ^ 31 := by
  rw [BitVec.toInt_eq_toNat_cond] at h
  split at h <;> omega

theorem runTickets_le (procs : List Proc) : runTickets procs ≤ allTickets procs := by
  induction procs with
  | nil => exact Nat.le_refl 0
  | cons p procs ih =>
      simp only [runTickets, allTickets, List.map_cons, List.sum_cons] at ih ⊢
      split <;> omega

theorem runTickets_append (ps qs : List Proc) :
    runTickets (ps ++ qs) = runTickets ps + runTickets qs := by
  induction ps with
  | nil => simp [runTickets]
  | cons p ps ih => simp only [List.cons_append, runTickets, ih]; omega

/-- The interval of a RUNNABLE process ends below the total. -/
theorem interval_le {procs : List Proc} {i : Nat} {p : Proc} (hp : procs[i]? = some p)
    (hrun : p.state = .RUNNABLE) :
    runTickets (procs.take i) + p.tickets.toNat ≤ runTickets procs := by
  obtain ⟨hi, hget⟩ := List.getElem?_eq_some_iff.mp hp
  have hsplit : procs = procs.take i ++ p :: procs.drop (i + 1) := by
    rw [← hget, List.getElem_cons_drop, List.take_append_drop]
  have hsum := congrArg runTickets hsplit
  rw [runTickets_append, runTickets, if_pos hrun] at hsum
  omega

/-- The total is the sum, modulo the width of an `int`. -/
theorem toNat_totalTickets (procs : List Proc) :
    (totalTickets procs).toNat = allTickets procs % 2 ^ 32 := by
  have hfold : ∀ t : BitVec 32, (procs.foldl (fun total p => total + p.tickets) t).toNat =
      (t.toNat + allTickets procs) % 2 ^ 32 := by
    induction procs with
    | nil =>
        intro t
        simp only [List.foldl_nil, allTickets, List.map_nil, List.sum_nil, Nat.add_zero]
        exact (Nat.mod_eq_of_lt t.isLt).symm
    | cons p procs ih =>
        intro t
        rw [List.foldl_cons, ih, BitVec.toNat_add, Nat.mod_add_mod]
        simp only [allTickets, List.map_cons, List.sum_cons, Nat.add_assoc]
  simpa [totalTickets] using hfold 0

/-! ## The loop -/

/-- The first process wins. -/
theorem pick_cons_zero {r sum : BitVec 32} {p : Proc} {procs : List Proc} :
    pick r sum (p :: procs) = some 0 ↔
      p.state = .RUNNABLE ∧ r.toNat < (sum + p.tickets).toNat := by
  simp only [pick, ne_eq, ite_not, BitVec.le_def, BitVec.add_comm p.tickets]
  generalize sum + p.tickets = next
  by_cases hrun : p.state = .RUNNABLE
  · by_cases hle : next.toNat ≤ r.toNat
    · simp [hrun, hle]
    · simp [hrun, hle, Nat.lt_of_not_le hle]
  · simp [hrun]

/-- The loop passes the first process. -/
theorem pick_cons_succ {r sum : BitVec 32} {p : Proc} {procs : List Proc} {i : Nat} :
    pick r sum (p :: procs) = some (i + 1) ↔
      if p.state = .RUNNABLE then
        (sum + p.tickets).toNat ≤ r.toNat ∧ pick r (sum + p.tickets) procs = some i
      else pick r sum procs = some i := by
  simp only [pick, ne_eq, ite_not, BitVec.le_def, BitVec.add_comm p.tickets]
  generalize sum + p.tickets = next
  by_cases hrun : p.state = .RUNNABLE
  · by_cases hle : next.toNat ≤ r.toNat
    · simp [hrun, hle]
    · simp [hrun, hle]
  · simp [hrun]

/-- **The loop, for tickets that are not negative**: process `i` wins
exactly the numbers of its own interval. -/
theorem pick_eq_some_iff {r sum : BitVec 32} {procs : List Proc} (hnn : NonNeg procs)
    (hr : r.toNat < 2 ^ 31) (hsum : sum.toNat ≤ r.toNat) {i : Nat} :
    pick r sum procs = some i ↔ ∃ p, procs[i]? = some p ∧ p.state = .RUNNABLE ∧
      sum.toNat + runTickets (procs.take i) ≤ r.toNat ∧
      r.toNat < sum.toNat + runTickets (procs.take i) + p.tickets.toNat := by
  induction procs generalizing sum i with
  | nil => simp [pick]
  | cons p procs ih =>
      have hp := toNat_lt_of_nonneg (hnn p List.mem_cons_self)
      have hnn' : NonNeg procs := fun q hq => hnn q (List.mem_cons_of_mem p hq)
      -- below `2 ^ 31` plus one ticket count nothing wraps
      have hadd : (sum + p.tickets).toNat = sum.toNat + p.tickets.toNat := by
        rw [BitVec.toNat_add]
        omega
      cases i with
      | zero => simp [pick_cons_zero, hadd, runTickets, hsum]
      | succ i =>
          rw [pick_cons_succ, hadd, List.getElem?_cons_succ, List.take_succ_cons, runTickets]
          by_cases hrun : p.state = .RUNNABLE
          · rw [if_pos hrun, if_pos hrun, ← Nat.add_assoc]
            constructor
            · rintro ⟨hle, hpick⟩
              rwa [ih hnn' (by omega), hadd] at hpick
            · rintro ⟨q, hq, hq', hlow, hhigh⟩
              refine ⟨by omega, (ih hnn' (by omega)).mpr ⟨q, hq, hq', ?_⟩⟩
              rw [hadd]
              exact ⟨hlow, hhigh⟩
          · rw [if_neg hrun, if_neg hrun, ih hnn' hsum, Nat.zero_add]

/-- The reduced draw, for a total that fits an `int`. -/
theorem toNat_winning {procs : List Proc} (hpos : 0 < allTickets procs)
    (hlt : allTickets procs < 2 ^ 31) (x : BitVec 32) :
    (winning (totalTickets procs) x).toNat = x.toNat % allTickets procs := by
  have htot : (totalTickets procs).toNat = allTickets procs := by
    rw [toNat_totalTickets]
    omega
  have hint : 0 < (totalTickets procs).toInt := by
    rw [BitVec.toInt_eq_toNat_cond, htot, if_pos (by omega)]
    omega
  rw [winning, if_pos hint, BitVec.toNat_umod, htot]

/-- The process at `i` wins with a number below the total exactly if the
number is in its interval. -/
theorem pick_ofNat_iff {procs : List Proc} (hnn : NonNeg procs) {r : Nat} (hr : r < 2 ^ 31) {i : Nat} :
    pick (BitVec.ofNat 32 r) 0 procs = some i ↔ ∃ p, procs[i]? = some p ∧ p.state = .RUNNABLE ∧
      runTickets (procs.take i) ≤ r ∧ r < runTickets (procs.take i) + p.tickets.toNat := by
  have hr' : (BitVec.ofNat 32 r).toNat = r := by
    rw [BitVec.toNat_ofNat]
    omega
  rw [pick_eq_some_iff hnn (by omega) (by simp), hr']
  simp

/-- The numbers a process wins with are as many as its tickets. -/
theorem card_winning {procs : List Proc} (hnn : NonNeg procs) (hlt : allTickets procs < 2 ^ 31)
    {i : Nat} {p : Proc} (hp : procs[i]? = some p) :
    ((Finset.range (allTickets procs)).filter fun r =>
      pick (BitVec.ofNat 32 r) 0 procs = some i).card =
        if p.state = .RUNNABLE then p.tickets.toNat else 0 := by
  split
  · rename_i hrun
    have hset : ((Finset.range (allTickets procs)).filter fun r =>
        pick (BitVec.ofNat 32 r) 0 procs = some i) =
        Finset.Ico (runTickets (procs.take i)) (runTickets (procs.take i) + p.tickets.toNat) := by
      have hle := (interval_le hp hrun).trans (runTickets_le procs)
      ext r
      simp only [Finset.mem_filter, Finset.mem_range, Finset.mem_Ico]
      constructor
      · rintro ⟨hr, hpick⟩
        obtain ⟨q, hq, _, h1, h2⟩ := (pick_ofNat_iff hnn (by omega)).mp hpick
        rw [hp] at hq
        cases hq
        exact ⟨h1, h2⟩
      · rintro ⟨h1, h2⟩
        exact ⟨by omega, (pick_ofNat_iff hnn (by omega)).mpr ⟨p, hp, hrun, h1, h2⟩⟩
    rw [hset, Nat.card_Ico]
    omega
  · rename_i hrun
    rw [Finset.card_eq_zero, Finset.filter_eq_empty_iff]
    intro r hr hpick
    have := Finset.mem_range.mp hr
    obtain ⟨q, hq, hrun', _⟩ := (pick_ofNat_iff hnn (by omega)).mp hpick
    rw [hp] at hq
    cases hq
    exact hrun hrun'

/-- **Lottery proportionality.** Every winning number selects the one
RUNNABLE process whose interval holds it; a process wins with as many
numbers as it has tickets; and the draws that select it are as many as
the reduction allows, up to rounding. -/
theorem lottery_proportional (procs : List Proc) (hnn : NonNeg procs)
    (hpos : 0 < allTickets procs) (hlt : allTickets procs < 2 ^ 31) :
    (∀ r, r < allTickets procs → ∀ i, pick (BitVec.ofNat 32 r) 0 procs = some i ↔
        ∃ p, procs[i]? = some p ∧ p.state = .RUNNABLE ∧
          runTickets (procs.take i) ≤ r ∧ r < runTickets (procs.take i) + p.tickets.toNat) ∧
      (∀ i p, procs[i]? = some p →
        ((Finset.range (allTickets procs)).filter fun r =>
          pick (BitVec.ofNat 32 r) 0 procs = some i).card =
            if p.state = .RUNNABLE then p.tickets.toNat else 0) ∧
      ∀ i p, procs[i]? = some p → p.state = .RUNNABLE →
        (MAXDRAW + 1) / allTickets procs * p.tickets.toNat ≤
            ((Finset.range (MAXDRAW + 1)).filter fun x =>
              lottery procs (BitVec.ofNat 32 x) = some i).card ∧
          ((Finset.range (MAXDRAW + 1)).filter fun x =>
              lottery procs (BitVec.ofNat 32 x) = some i).card ≤
            (MAXDRAW + 1 + allTickets procs - 1) / allTickets procs * p.tickets.toNat := by
  refine ⟨fun r hr i => pick_ofNat_iff hnn (by omega), fun i p hp => card_winning hnn hlt hp,
    fun i p hp hrun => ?_⟩
  have hle := (interval_le hp hrun).trans (runTickets_le procs)
  have hset : ((Finset.range (MAXDRAW + 1)).filter fun x =>
      lottery procs (BitVec.ofNat 32 x) = some i) =
      (Finset.range (MAXDRAW + 1)).filter fun x =>
        runTickets (procs.take i) ≤ x % allTickets procs ∧
          x % allTickets procs < runTickets (procs.take i) + p.tickets.toNat := by
    refine Finset.filter_congr fun x hx => ?_
    have hx' : (BitVec.ofNat 32 x).toNat = x := by
      have := Finset.mem_range.mp hx
      rw [BitVec.toNat_ofNat, Nat.mod_eq_of_lt]
      simp only [MAXDRAW] at this
      omega
    have hmod := Nat.mod_lt x hpos
    have hwin : winning (totalTickets procs) (BitVec.ofNat 32 x) =
        BitVec.ofNat 32 (x % allTickets procs) := by
      refine BitVec.eq_of_toNat_eq ?_
      rw [toNat_winning hpos hlt, hx', BitVec.toNat_ofNat]
      omega
    rw [lottery, hwin, pick_ofNat_iff hnn (by omega)]
    constructor
    · rintro ⟨q, hq, _, h1, h2⟩
      rw [hp] at hq
      cases hq
      exact ⟨h1, h2⟩
    · rintro ⟨h1, h2⟩
      exact ⟨p, hp, hrun, h1, h2⟩
  rw [hset]
  exact card_mod_range hle

/-- `lotterytest`: three children with 75, 20 and 5 tickets, their parent
asleep with 10. -/
def lotterytest : List Proc :=
  [⟨.SLEEPING, 1, none, some (.other 0), false, 10⟩, ⟨.RUNNABLE, 2, none, none, false, 75⟩,
    ⟨.RUNNABLE, 3, none, none, false, 20⟩, ⟨.RUNNABLE, 4, none, none, false, 5⟩]

theorem lottery_proportional_lotterytest :
    allTickets lotterytest = 110 ∧
      ((Finset.range (allTickets lotterytest)).filter fun r =>
        pick (BitVec.ofNat 32 r) 0 lotterytest = some 1).card = 75 :=
  ⟨by decide, (lottery_proportional lotterytest (by unfold NonNeg; decide) (by decide)
    (by decide)).2.1 1 _ rfl⟩

end Xv6.Sched
