import Xv6.Lib.Exec
import Mathlib.Algebra.Order.Ring.Nat

/-!
# Mp — the configuration table of the firmware

`mpinit` walks the table entry by entry, each as long as its type says. An
entry of a type that it does not know has no length: the walk stays there
for ever. And it counts processors without a look at the size of `cpus`.
-/

namespace Xv6.Mp

open Lib

/-! ## The code -/

def NCPU : Nat := 8

def MPPROC : UInt8 := 0

def MPBUS : UInt8 := 1

def MPIOAPIC : UInt8 := 2

def MPIOINTR : UInt8 := 3

def MPLINTR : UInt8 := 4

def MPBOOT : UInt8 := 2

/-- The bytes from the address of the table on. -/
abbrev Conf := Nat → UInt8

/-- `conf->length` -/
def Conf.length (conf : Conf) : Nat := (conf 4).toNat + 256 * (conf 5).toNat

/-- `conf->version` -/
def Conf.version (conf : Conf) : UInt8 := conf 6

/-- `conf->lapicaddr` -/
def Conf.lapicaddr (conf : Conf) : Nat :=
  (conf 36).toNat + 2 ^ 8 * (conf 37).toNat + 2 ^ 16 * (conf 38).toNat + 2 ^ 24 * (conf 39).toNat

/-- `sizeof(struct mpconf)` -/
def HEADER : Nat := 44

/-- `sum` -/
def sum (addr : Conf) (len : Nat) : UInt8 := (List.range len).foldl (fun s i => s + addr i) 0

/-- What `mpconfig` asks of a table: its signature, its version and its
checksum. -/
def mpconfig (conf : Conf) : Bool :=
  conf 0 == 'P'.toNat.toUInt8 && conf 1 == 'C'.toNat.toUInt8 && conf 2 == 'M'.toNat.toUInt8 &&
    conf 3 == 'P'.toNat.toUInt8 && (conf.version == 1 || conf.version == 4) &&
    sum conf conf.length == 0

/-- The variables of mp.c. `touched` is bookkeeping: the indices of `cpus`
that were used. -/
structure Vars where
  ismp : Bool
  ncpu : Nat
  bcpu : Nat
  lapic : Nat
  ioapicid : UInt8
  ids : Nat → Nat               -- `cpus[i].id`
  touched : List Nat

/-- `&cpus[i]` -/
def Vars.touch (s : Vars) (i : Nat) : Vars := { s with touched := i :: s.touched }

/-- One round of the loop: where the next entry is, and the variables. -/
def entry (conf : Conf) (p : Nat) (s : Vars) : Nat × Vars :=
  if conf p = MPPROC then
    let s := if s.ncpu ≠ (conf (p + 1)).toNat then { s with ismp := false } else s
    let s := if conf (p + 3) &&& MPBOOT ≠ 0 then { s.touch s.ncpu with bcpu := s.ncpu } else s
    (p + 20, { s.touch s.ncpu with ids := upd s.ids s.ncpu s.ncpu, ncpu := s.ncpu + 1 })
  else if conf p = MPIOAPIC then (p + 8, { s with ioapicid := conf (p + 1) })
  else if conf p = MPBUS ∨ conf p = MPIOINTR ∨ conf p = MPLINTR then (p + 8, s)
  else (p, { s with ismp := false })

/-- The loop up to `e`; `none` where it has not ended. -/
def scan (conf : Conf) (e : Nat) : (fuel p : Nat) → Vars → Option Vars
  | 0, _, _ => none
  | fuel + 1, p, s =>
      if p < e then scan conf e fuel (entry conf p s).1 (entry conf p s).2 else some s

/-- `mpinit`, with the table that was found. -/
def mpinit (conf : Conf) (fuel : Nat) (s : Vars) : Option Vars := do
  let s := { s.touch 0 with bcpu := 0 }
  if mpconfig conf then
    let s ← scan conf conf.length fuel HEADER { s with ismp := true, lapic := conf.lapicaddr }
    if s.ismp then return s else return { s with ncpu := 1, lapic := 0, ioapicid := 0 }
  else return s

/-! ## Tables -/

variable {conf : Conf} {e p : Nat} {ts : List UInt8} {s s' : Vars}

/-- The length of an entry. -/
def entrySize (type : UInt8) : Option Nat :=
  if type = MPPROC then some 20
  else if type = MPIOAPIC ∨ type = MPBUS ∨ type = MPIOINTR ∨ type = MPLINTR then some 8
  else none

/-- **From `p` on the table consists of entries** of the types `ts`. -/
inductive Entries (conf : Conf) (e : Nat) : Nat → List UInt8 → Prop
  | done {p : Nat} (h : e ≤ p) : Entries conf e p []
  | next {p k : Nat} {ts : List UInt8} (h : p < e) (hk : entrySize (conf p) = some k)
      (rest : Entries conf e (p + k) ts) : Entries conf e p (conf p :: ts)

/-! ## The loop -/

/-- `n` processors were counted. -/
structure Counted (n : Nat) (s s' : Vars) : Prop where
  ncpu : s'.ncpu = s.ncpu + n
  touched : ∀ i, i ∈ s'.touched ↔ i ∈ s.touched ∨ s.ncpu ≤ i ∧ i < s.ncpu + n

/-- The number of processors in one entry. -/
def procs (type : UInt8) : Nat := if type = MPPROC then 1 else 0

/-- **One entry.** -/
theorem entry_spec (conf : Conf) (p : Nat) (s : Vars) :
    Counted (procs (conf p)) s (entry conf p s).2 ∧
      (entrySize (conf p) = some ((entry conf p s).1 - p) ∧ p < (entry conf p s).1 ∨
        entrySize (conf p) = none ∧ (entry conf p s).1 = p) := by
  have hsame : ∀ s' : Vars, s'.ncpu = s.ncpu → s'.touched = s.touched → Counted 0 s s' := by
    intro s' hn ht
    refine ⟨hn, fun i => ?_⟩
    rw [ht]
    exact ⟨.inl, fun h => h.resolve_right (by omega)⟩
  unfold entry entrySize procs
  by_cases hproc : conf p = MPPROC
  · rw [if_pos hproc, if_pos hproc, if_pos hproc]
    refine ⟨?_, .inl ⟨by simp, by simp⟩⟩
    -- a wrong `apicid` changes neither `ncpu` nor what is touched
    constructor
    · dsimp only [Vars.touch]
      split <;> split <;> rfl
    · intro i
      dsimp only [Vars.touch]
      split <;> split <;> grind
  · rw [if_neg hproc, if_neg hproc, if_neg hproc]
    by_cases hio : conf p = MPIOAPIC
    · rw [if_pos hio, if_pos (.inl hio)]
      exact ⟨hsame _ rfl rfl, .inl ⟨by simp, by simp⟩⟩
    · rw [if_neg hio]
      by_cases hother : conf p = MPBUS ∨ conf p = MPIOINTR ∨ conf p = MPLINTR
      · rw [if_pos hother, if_pos (.inr hother)]
        exact ⟨hsame _ rfl rfl, .inl ⟨by simp, by simp⟩⟩
      · rw [if_neg hother, if_neg fun h => h.elim hio hother]
        exact ⟨hsame _ rfl rfl, .inr ⟨rfl, rfl⟩⟩

theorem Counted.trans {m n : Nat} {s₁ : Vars} (h : Counted m s s₁) (h' : Counted n s₁ s') :
    Counted (m + n) s s' := by
  refine ⟨by rw [h'.ncpu, h.ncpu, Nat.add_assoc], fun i => ?_⟩
  rw [h'.touched, h.touched, h.ncpu]
  grind

theorem count_cons_procs (t : UInt8) (ts : List UInt8) :
    (t :: ts).count MPPROC = procs t + ts.count MPPROC := by
  rw [List.count_cons, procs]
  by_cases h : t = MPPROC
  · rw [if_pos h, if_pos (beq_iff_eq.mpr h), Nat.add_comm]
  · rw [if_neg h, if_neg fun hb => h (beq_iff_eq.mp hb), Nat.add_comm]

/-- A walk that ends has read the whole table. -/
theorem entries_of_scan {fuel : Nat} (h : scan conf e fuel p s = some s') :
    ∃ ts, Entries conf e p ts ∧ Counted (ts.count MPPROC) s s' := by
  induction fuel generalizing p s with
  | zero => cases h
  | succ fuel ih =>
      rw [scan] at h
      by_cases hp : p < e
      · rw [if_pos hp] at h
        obtain ⟨hcount, hsize⟩ := entry_spec conf p s
        obtain ⟨ts, hts, hrest⟩ := ih h
        rcases hsize with ⟨hsize, hlt⟩ | ⟨hnone, hstay⟩
        · have hnext : p + ((entry conf p s).1 - p) = (entry conf p s).1 := by omega
          refine ⟨conf p :: ts, .next hp hsize (hnext.symm ▸ hts), ?_⟩
          rw [count_cons_procs]
          exact hcount.trans hrest
        · -- an entry that it stays at was not known, and then it does not end
          rw [hstay] at hts
          exfalso
          cases hts with
          | done hge => exact absurd hp (Nat.not_lt.mpr hge)
          | next _ hk _ =>
              rw [hnone] at hk
              cases hk
      · rw [if_neg hp] at h
        obtain rfl := Option.some.inj h
        refine ⟨[], .done (Nat.le_of_not_lt hp), rfl, fun i => ?_⟩
        exact ⟨.inl, fun h => h.resolve_right (by simp)⟩

/-- A table that can be read is walked to its end. -/
theorem Entries.scan (h : Entries conf e p ts) (s : Vars) :
    ∃ s', Mp.scan conf e (ts.length + 1) p s = some s' ∧ Counted (ts.count MPPROC) s s' := by
  induction h generalizing s with
  | done hp =>
      refine ⟨s, ?_, rfl, fun i => ⟨.inl, fun h => h.resolve_right (by simp)⟩⟩
      rw [Mp.scan, if_neg (Nat.not_lt.mpr hp)]
  | @next p k ts hp hk _ ih =>
      obtain ⟨hcount, hsize⟩ := entry_spec conf p s
      obtain ⟨s', hrun, hrest⟩ := ih (entry conf p s).2
      refine ⟨s', ?_, ?_⟩
      · have hnext : (entry conf p s).1 = p + k := by
          rcases hsize with ⟨hsize, hlt⟩ | ⟨hnone, _⟩
          · obtain rfl := Option.some.inj (hk.symm.trans hsize)
            omega
          · rw [hnone] at hk
            cases hk
        rw [List.length_cons, Mp.scan, if_pos hp, hnext]
        exact hrun
      · rw [count_cons_procs]
        exact hcount.trans hrest

/-! ## `mpinit` -/

/-- The variables before `mpinit`. -/
def boot : Vars := ⟨false, 0, 0, 0, 0, fun _ => 0, []⟩

/-- `mpinit` ends, uses the elements of `cpus` only, and leaves the number
of processors of the table in `ncpu`, or 1. -/
def Robust (conf : Conf) : Prop :=
  ∃ fuel s', mpinit conf fuel boot = some s' ∧ (∀ i ∈ s'.touched, i < NCPU) ∧
    (s'.ismp = true ∧ (∃ ts, Entries conf conf.length HEADER ts ∧ s'.ncpu = ts.count MPPROC) ∧
        s'.ncpu ≤ NCPU ∨
      s'.ncpu = 1)

/-- The table can be read, and `cpus` has room for its processors. -/
def Readable (conf : Conf) : Prop :=
  ∃ ts, Entries conf conf.length HEADER ts ∧ ts.count MPPROC ≤ NCPU

/-- What is left in `s'` by the loop, and by the lines after it. -/
theorem mpinit_eq_some {fuel : Nat} (hconf : mpconfig conf = true) :
    mpinit conf fuel boot = some s' ↔
      ∃ s₁, scan conf conf.length fuel HEADER
          { boot.touch 0 with bcpu := 0, ismp := true, lapic := conf.lapicaddr } = some s₁ ∧
        s' = if s₁.ismp then s₁ else { s₁ with ncpu := 1, lapic := 0, ioapicid := 0 } := by
  simp only [mpinit, hconf, if_true, Option.bind_eq_bind, Option.bind_eq_some_iff]
  refine exists_congr fun s₁ => and_congr_right fun _ => ?_
  split
  · exact ⟨fun h => (Option.some.inj h).symm, fun h => congrArg some h.symm⟩
  · exact ⟨fun h => (Option.some.inj h).symm, fun h => congrArg some h.symm⟩

/-- **The walk over the table**: for every table that `mpconfig` accepts,
`mpinit` is robust if and only if each entry of it is of a known type and
at most `NCPU` of them are processors. -/
theorem mpinit_robust_iff (hconf : mpconfig conf = true) : Robust conf ↔ Readable conf := by
  constructor
  · rintro ⟨fuel, s', hrun, htouched, _⟩
    obtain ⟨s₁, hscan, rfl⟩ := (mpinit_eq_some hconf).mp hrun
    obtain ⟨ts, hts, hcount⟩ := entries_of_scan hscan
    refine ⟨ts, hts, ?_⟩
    -- with one processor more, the element after the last one is used
    by_contra hmany
    have hin : NCPU ∈ s₁.touched :=
      (hcount.touched NCPU).mpr (.inr ⟨Nat.zero_le _, by
        show NCPU < 0 + _
        omega⟩)
    have hout : ∀ i ∈ s₁.touched, i < NCPU := by
      intro i hi
      refine htouched i ?_
      split
      · exact hi
      · exact hi
    exact Nat.lt_irrefl _ (hout NCPU hin)
  · rintro ⟨ts, hts, hle⟩
    obtain ⟨s₁, hscan, hcount⟩ :=
      hts.scan { boot.touch 0 with bcpu := 0, ismp := true, lapic := conf.lapicaddr }
    have hncpu : s₁.ncpu = ts.count MPPROC := hcount.ncpu.trans (Nat.zero_add _)
    have hout : ∀ i ∈ s₁.touched, i < NCPU := by
      intro i hi
      rcases (hcount.touched i).mp hi with h0 | ⟨_, hlt⟩
      · rw [List.mem_singleton.mp h0]
        decide
      · have hlt : i < 0 + ts.count MPPROC := hlt
        omega
    refine ⟨ts.length + 1, _, (mpinit_eq_some hconf).mpr ⟨s₁, hscan, rfl⟩, ?_, ?_⟩
    · intro i hi
      refine hout i ?_
      split at hi
      · exact hi
      · exact hi
    · by_cases hmp : s₁.ismp = true
      · rw [if_pos hmp]
        exact .inl ⟨hmp, ⟨ts, hts, hncpu⟩, by omega⟩
      · rw [if_neg hmp]
        exact .inr rfl

/-- A table from its bytes. -/
def ofBytes (bytes : List UInt8) : Conf := fun i => bytes.getD i 0

/-- A table with one processor, which boots. -/
def oneCpu : Conf :=
  ofBytes ([80, 67, 77, 80, 64, 0, 1, 141] ++ List.replicate 36 0 ++ [0, 0, 0, 2])

theorem mpinit_one_cpu : mpconfig oneCpu = true ∧ Robust oneCpu := by
  have hconf : mpconfig oneCpu = true := by decide +kernel
  refine ⟨hconf, (mpinit_robust_iff hconf).mpr ⟨[0], ?_, by decide⟩⟩
  exact .next (by decide) (by decide : entrySize (oneCpu HEADER) = some 20) (.done (by decide))

/-- A table with one entry, of type 5. -/
def unknownEntry : Conf := ofBytes ([80, 67, 77, 80, 45, 0, 1, 157] ++ List.replicate 36 0 ++ [5])

/-- **An entry of an unknown type** is looked at for ever. -/
theorem mpinit_hangs : mpconfig unknownEntry = true ∧ ∀ fuel, mpinit unknownEntry fuel boot = none := by
  have hconf : mpconfig unknownEntry = true := by decide +kernel
  refine ⟨hconf, fun fuel => Option.eq_none_iff_forall_ne_some.mpr fun s' hrun => ?_⟩
  obtain ⟨s₁, hscan, _⟩ := (mpinit_eq_some hconf).mp hrun
  obtain ⟨ts, hts, _⟩ := entries_of_scan hscan
  cases hts with
  | done hge => exact absurd hge (by decide)
  | next _ hk _ =>
      have hnone : entrySize (unknownEntry HEADER) = none := by decide
      rw [hnone] at hk
      cases hk

end Xv6.Mp
