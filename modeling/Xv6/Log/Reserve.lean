import Xv6.Log.Grouping
import Mathlib.Algebra.BigOperators.Ring.Finset
import Mathlib.Algebra.Order.BigOperators.Group.Finset

/-!
# Log — space reservation

`begin_op` admits an operation only if `MAXOPBLOCKS` blocks for it and
for every operation already running still fit in `LOGSIZE`. That is
enough for the ARRAY `log.lh.block[LOGSIZE]`: operations that keep to
`MAXOPBLOCKS` distinct blocks never fill it past its end
(`reservation_fits_header`).

It is not enough for `log_write`'s own test, which compares `log.lh.n`
with `log.size - 1` before it looks for absorption. `mkfs` writes
`nlog = LOGSIZE` into the superblock, header block included, so the test
fires at `LOGSIZE - 1` entries, one short of what was reserved.
-/

namespace Xv6.Log

open Lib

section Defs

variable {P : Type}

/-- The blocks logged since the last commit. -/
def groupBlocks (s : St P) : Finset Nat :=
  ((s.logged.filter fun e => e.epoch = s.commits.length).map Event.block).toFinset

/-- The blocks operation `o` has logged. -/
def opBlocks (s : St P) (o : Nat) : Finset Nat :=
  ((s.logged.filter fun e => e.op = o).map Event.block).toFinset

/-- Every operation has logged at most `MAXOPBLOCKS` distinct blocks. -/
def Disciplined (s : St P) : Prop := ∀ o, (opBlocks s o).card ≤ MAXOPBLOCKS

theorem mem_groupBlocks {s : St P} {b : Nat} :
    b ∈ groupBlocks s ↔ ∃ e ∈ s.logged, e.block = b ∧ e.epoch = s.commits.length := by
  simp only [groupBlocks, List.mem_toFinset, List.mem_map, List.mem_filter, decide_eq_true_eq]
  exact ⟨fun ⟨e, ⟨he, hk⟩, hb⟩ => ⟨e, he, hb, hk⟩, fun ⟨e, he, hb, hk⟩ => ⟨e, ⟨he, hk⟩, hb⟩⟩

theorem mem_opBlocks {s : St P} {o b : Nat} :
    b ∈ opBlocks s o ↔ ∃ e ∈ s.logged, e.op = o ∧ e.block = b := by
  simp only [opBlocks, List.mem_toFinset, List.mem_map, List.mem_filter, decide_eq_true_eq]
  exact ⟨fun ⟨e, ⟨he, ho⟩, hb⟩ => ⟨e, he, ho, hb⟩, fun ⟨e, he, ho, hb⟩ => ⟨e, ⟨he, ho⟩, hb⟩⟩

/-- An operation that has not begun has logged nothing. -/
theorem opBlocks_eq_empty {s : St P} (h : ∀ e ∈ s.logged, e.op < s.nops) {o : Nat}
    (ho : s.nops ≤ o) : opBlocks s o = ∅ := by
  refine Finset.eq_empty_of_forall_notMem fun b hb => ?_
  obtain ⟨e, he, heo, -⟩ := mem_opBlocks.mp hb
  have := h e he
  omega

/-- Only the operations begun so far need checking. -/
theorem disciplined_of_begun {s : St P} (h : ∀ e ∈ s.logged, e.op < s.nops)
    (hle : ∀ o < s.nops, (opBlocks s o).card ≤ MAXOPBLOCKS) : Disciplined s := by
  intro o
  rcases Nat.lt_or_ge o s.nops with ho | ho
  · exact hle o ho
  · simp [opBlocks_eq_empty h ho]

end Defs

variable {P : Type} [DecidableEq P] [Fintype P]

/-- What the operation of process `p` may still log, if it is in one. -/
def slack (s : St P) (p : P) : Nat :=
  if (s.ph p).active then MAXOPBLOCKS - (opBlocks s (s.op p)).card else 0

omit [DecidableEq P] in
/-- While no header has been written since, the header lists exactly
the blocks logged since the last commit. -/
theorem Inv.length_lh {s : St P} (h : Inv s) (hnp : ∀ p, (s.ph p).pastHead = false) :
    s.lh.length = (groupBlocks s).card := by
  have hset : groupBlocks s = s.lh.toFinset := by
    ext b
    rw [mem_groupBlocks, List.mem_toFinset, h.pending hnp b]
  rw [hset, List.toFinset_card_of_nodup h.nodup]

omit [DecidableEq P] in
theorem sum_slack_le (s : St P) : ∑ p, slack s p ≤ MAXOPBLOCKS * countIn Phase.active s.ph := by
  have hle : ∀ p, slack s p ≤ MAXOPBLOCKS * (if (s.ph p).active = true then 1 else 0) := by
    intro p
    simp only [slack]
    split <;> simp
  calc ∑ p, slack s p ≤ ∑ p, MAXOPBLOCKS * (if (s.ph p).active = true then 1 else 0) :=
        Finset.sum_le_sum fun p _ => hle p
    _ = MAXOPBLOCKS * countIn Phase.active s.ph := by
        rw [← Finset.mul_sum, countIn, Finset.card_filter]

/-- **The reservation invariant**: what is logged and what the running
operations may still log fit in the header. -/
def Reserved (s : St P) : Prop := s.lh.length + ∑ p, slack s p ≤ LOGSIZE

/-! ## The reservation invariant, step by step -/

section Steps

variable {s : St P} {p : P}

omit [DecidableEq P] [Fintype P] in
/-- The slack looks at phases, operation numbers and the log only. -/
theorem slack_congr {s' : St P} (hph : s'.ph = s.ph) (hop : s'.op = s.op)
    (hlog : s'.logged = s.logged) : slack s' = slack s := by
  funext q
  simp only [slack, opBlocks, hph, hop, hlog]

omit [Fintype P] in
/-- A process that leaves its operation gives its slack back. -/
theorem slack_le_of_leave {s' : St P} {f : Phase} (hph : s'.ph = Function.update s.ph p f)
    (hf : f.active = false) (hop : s'.op = s.op) (hlog : s'.logged = s.logged) (q : P) :
    slack s' q ≤ slack s q := by
  simp only [slack, opBlocks, hph, hop, hlog]
  rcases eq_or_ne q p with rfl | hne
  · simp [hf]
  · rw [Function.update_of_ne hne]

omit [Fintype P] in
/-- The admitted process gets a fresh reservation; nobody else's changes. -/
theorem slack_letIn (hI : ∀ e ∈ s.logged, e.op < s.nops) :
    slack (s.letIn p) p = MAXOPBLOCKS ∧ ∀ q, q ≠ p → slack (s.letIn p) q = slack s q := by
  have hnew : opBlocks (s.letIn p) s.nops = ∅ := opBlocks_eq_empty (s := s) hI (Nat.le_refl _)
  constructor
  · have hop : (s.letIn p).op p = s.nops := Function.update_self ..
    simp [slack, hop, hnew, Phase.active]
  · intro q hq
    have hop : (s.letIn p).op q = s.op q := Function.update_of_ne hq ..
    have hob : opBlocks (s.letIn p) (s.op q) = opBlocks s (s.op q) := rfl
    rw [slack, slack, letIn_ph, Function.update_of_ne hq, hop, hob]

theorem Reserved.beginOp (h : Reserved s) (hI : Inv s) (hp : s.ph p = .out) :
    Reserved (beginOp s p) := by
  have hsleep : Reserved (s.setPc p .sleeping) := by
    have hsl : slack (s.setPc p .sleeping) = slack s :=
      slack_congr (by rw [setPc_ph]; exact update_ph_self hp) rfl rfl
    rw [Reserved, hsl]
    exact h
  unfold Log.beginOp
  split
  · exact hsleep
  · split
    · exact hsleep
    · rename_i hroom
      obtain ⟨hten, hrest⟩ := slack_letIn (p := p) hI.ev_op
      have hsum := sum_add_eq_of_agree (f := slack s) p hrest
      have hzero : slack s p = 0 := by simp [slack, hp, Phase.active]
      have hle := sum_slack_le s
      have hcount := hI.count
      have hlh : (s.letIn p).lh = s.lh := rfl
      simp only [Reserved, hlh, MAXOPBLOCKS, LOGSIZE] at *
      push_cast at hroom
      omega

omit [Fintype P] in
/-- What `log_write`'s critical section adds to the operation's blocks. -/
theorem opBlocks_absorb (b o : Nat) :
    opBlocks (absorb s p b) o = if o = s.op p then insert b (opBlocks s o) else opBlocks s o := by
  ext x
  have hmem : ∀ e, e ∈ (absorb s p b).logged ↔
      e = ⟨s.op p, b, s.commits.length⟩ ∨ e ∈ s.logged := fun e => by simp [absorb]
  split
  · rename_i ho
    rw [mem_opBlocks, Finset.mem_insert, mem_opBlocks]
    constructor
    · rintro ⟨e, he, heo, hb⟩
      rcases (hmem e).mp he with rfl | he
      · exact Or.inl hb.symm
      · exact Or.inr ⟨e, he, heo, hb⟩
    · rintro (rfl | ⟨e, he, heo, hb⟩)
      · exact ⟨_, (hmem _).mpr (Or.inl rfl), ho.symm, rfl⟩
      · exact ⟨e, (hmem e).mpr (Or.inr he), heo, hb⟩
  · rename_i ho
    rw [mem_opBlocks, mem_opBlocks]
    constructor
    · rintro ⟨e, he, heo, hb⟩
      rcases (hmem e).mp he with rfl | he
      · exact absurd heo.symm ho
      · exact ⟨e, he, heo, hb⟩
    · rintro ⟨e, he, heo, hb⟩
      exact ⟨e, (hmem e).mpr (Or.inr he), heo, hb⟩

/-- A block that is new to the header is new to the operation, and is
paid for out of the operation's slack. -/
theorem Reserved.absorb (h : Reserved s) (hI : Inv s) (hp : s.ph p = .op) {b : Nat}
    (hd : Disciplined (absorb s p b)) : Reserved (absorb s p b) := by
  have hact : (s.ph p).active = true := by rw [hp]; rfl
  have hcom := (hI.not_committing hact).1
  have hph : (Log.absorb s p b).ph = s.ph := by
    show (s.setPc p .inOp).ph = s.ph
    rw [setPc_ph]
    exact update_ph_self hp
  have hop : (Log.absorb s p b).op = s.op := rfl
  have hrest : ∀ q, q ≠ p → slack (Log.absorb s p b) q = slack s q := by
    intro q hq
    rw [slack, slack, hph, hop]
    split
    · rename_i hqa
      have hne : s.op q ≠ s.op p := fun he => hq (hI.op_inj q p hqa hact he)
      rw [opBlocks_absorb, if_neg hne]
    · rfl
  have hsum := sum_add_eq_of_agree (f := slack s) p hrest
  have hslack : slack s p = MAXOPBLOCKS - (opBlocks s (s.op p)).card := by
    rw [slack, if_pos hact]
  have hslack' : slack (Log.absorb s p b) p
      = MAXOPBLOCKS - (insert b (opBlocks s (s.op p))).card := by
    rw [slack, hph, if_pos hact, hop, opBlocks_absorb, if_pos rfl]
  have hcap : (insert b (opBlocks s (s.op p))).card ≤ MAXOPBLOCKS := by
    have := hd (s.op p)
    rwa [opBlocks_absorb, if_pos rfl] at this
  have hsub := Finset.card_le_card (Finset.subset_insert b (opBlocks s (s.op p)))
  unfold Reserved at h ⊢
  by_cases hb : b ∈ s.lh
  · have hlh : (Log.absorb s p b).lh = s.lh := if_pos hb
    rw [hlh]
    omega
  · have hlh : (Log.absorb s p b).lh = s.lh ++ [b] := if_neg hb
    have hnew : b ∉ opBlocks s (s.op p) := by
      intro hmem
      obtain ⟨e, he, ho, hbk⟩ := mem_opBlocks.mp hmem
      exact hb ((hI.pending (hI.no_pastHead hcom) b).mpr
        ⟨e, he, hbk, hI.ev_active p hact e he ho⟩)
    rw [Finset.card_insert_of_notMem hnew] at hslack' hcap
    rw [hlh, List.length_append, List.length_singleton]
    omega

omit [DecidableEq P] in
/-- A step that logs nothing and admits nobody keeps the reservation. -/
theorem Reserved.of_le {s' : St P} (h : Reserved s) (hlh : s'.lh.length ≤ s.lh.length)
    (hsl : ∀ q, slack s' q ≤ slack s q) : Reserved s' := by
  have hsum := Finset.sum_le_sum fun q (_ : q ∈ Finset.univ) => hsl q
  unfold Reserved at h ⊢
  omega

theorem Reserved.logWrite (h : Reserved s) (hp : s.ph p = .op) (size b : Nat) :
    Reserved (logWrite size s p b) := by
  unfold Log.logWrite
  split
  · exact h
  · split
    · exact h
    · have hsl : slack (s.setPc p (.logging b)) = slack s :=
        slack_congr (by rw [setPc_ph]; exact update_ph_self hp) rfl rfl
      exact h.of_le (Nat.le_refl _) fun q => by rw [hsl]

theorem Reserved.endOp (h : Reserved s) (hI : Inv s) (hp : s.ph p = .op) :
    Reserved (endOp s p) := by
  have hact : (s.ph p).active = true := by rw [hp]; rfl
  have hcom := (hI.not_committing hact).1
  simp only [Log.endOp]
  rw [if_neg (by simp [hcom])]
  split
  · exact h.of_le (Nat.le_refl _)
      (slack_le_of_leave (setPc_ph _ p (.commit .test)) rfl rfl rfl)
  · refine h.of_le (Nat.le_refl _)
      (slack_le_of_leave (p := p) (f := .out) ?_ rfl rfl rfl)
    rw [wakeup_ph, setPc_ph]
    rfl

theorem Reserved.commitStep (h : Reserved s) (c : CommitPc) : Reserved (commitStep s p c) := by
  -- the committing process has no slack before or after, whatever it does
  have hstep : ∀ s' : St P, s'.lh.length ≤ s.lh.length →
      (∃ f : Phase, f.active = false ∧ s'.ph = Function.update s.ph p f) →
      s'.op = s.op → s'.logged = s.logged → Reserved s' := by
    intro s' hlh ⟨f, hf, hph⟩ hop hlog
    exact h.of_le hlh (slack_le_of_leave hph hf hop hlog)
  cases c with
  | test =>
      simp only [Log.commitStep]
      split
      · exact hstep _ (Nat.le_refl _) ⟨_, rfl, setPc_ph s p _⟩ rfl rfl
      · exact hstep _ (Nat.le_refl _) ⟨_, rfl, setPc_ph s p (.commit .done)⟩ rfl rfl
  | writeLog tail | install tail =>
      simp only [Log.commitStep]
      split
      · exact hstep _ (Nat.le_refl _) ⟨_, rfl, setPc_ph s p _⟩ rfl rfl
      · exact hstep _ (Nat.le_refl _) ⟨_, rfl, setPc_ph s p _⟩ rfl rfl
  | writeHead => exact hstep _ (Nat.le_refl _) ⟨_, rfl, setPc_ph s p (.commit (.install 0))⟩ rfl rfl
  | clear => exact hstep _ (Nat.zero_le _) ⟨_, rfl, setPc_ph s p (.commit .erase)⟩ rfl rfl
  | erase => exact hstep _ (Nat.le_refl _) ⟨_, rfl, setPc_ph s p _⟩ rfl rfl
  | done =>
      refine hstep _ (Nat.le_refl _) ⟨.out, rfl, ?_⟩ rfl rfl
      simp only [Log.commitStep, wakeup_ph]
      exact setPc_ph s p .idle

end Steps

/-! ## Whole runs -/

omit [Fintype P] in
/-- The record of `log_write`s only grows. -/
theorem logged_subset_of_step {size : Nat} {s s' : St P} {a : Act P}
    (hs : step size s a = some s') : s.logged ⊆ s'.logged := by
  obtain ⟨-, hc⟩ := step_cases hs
  rcases hc with ⟨p, -, rfl⟩ | ⟨p, b, -, -, rfl⟩ | ⟨p, b, -, -, rfl⟩ | ⟨p, -, -, rfl⟩
    | ⟨p, c, -, -, rfl⟩
  · simp only [beginOp]
    split
    · exact fun _ he => he
    · split <;> exact fun _ he => he
  · simp only [logWrite]
    split
    · exact fun _ he => he
    · split <;> exact fun _ he => he
  · exact fun _ he => List.mem_cons_of_mem _ he
  · simp only [endOp]
    split
    · exact fun _ he => he
    · split <;> exact fun _ he => he
  · cases c <;> simp only [commitStep] <;> (try split) <;> exact fun _ he => he

omit [Fintype P] in
/-- An operation that is within its limit now was within it before. -/
theorem Disciplined.of_step {size : Nat} {s s' : St P} {a : Act P}
    (hs : step size s a = some s') (h : Disciplined s') : Disciplined s := by
  intro o
  refine Nat.le_trans (Finset.card_le_card fun b hb => ?_) (h o)
  obtain ⟨e, he, ho, hbk⟩ := mem_opBlocks.mp hb
  exact mem_opBlocks.mpr ⟨e, logged_subset_of_step hs he, ho, hbk⟩

theorem Reserved.step {size : Nat} {s s' : St P} {a : Act P} (h : Reserved s) (hI : Inv s)
    (hs : Log.step size s a = some s') (hd : Disciplined s') : Reserved s' := by
  obtain ⟨-, hc⟩ := step_cases hs
  rcases hc with ⟨p, hpc, rfl⟩ | ⟨p, b, -, hpc, rfl⟩ | ⟨p, b, -, hpc, rfl⟩ | ⟨p, -, hpc, rfl⟩
    | ⟨p, c, -, -, rfl⟩
  · refine h.beginOp hI ?_
    rcases hpc with ⟨-, hpc⟩ | ⟨-, hpc⟩ <;> rw [St.ph, hpc] <;> rfl
  · exact h.logWrite (by rw [St.ph, hpc]; rfl) size b
  · exact h.absorb hI (by rw [St.ph, hpc]; rfl) hd
  · exact h.endOp hI (by rw [St.ph, hpc]; rfl)
  · exact h.commitStep c

/-- **The reservation is enough for the header array**: operations that
log at most `MAXOPBLOCKS` distinct blocks never fill it past `LOGSIZE`. -/
theorem reservation_fits_header {size : Nat} {s : St P}
    (h : Reaches (step size) (St.init P) s) (hd : Disciplined s) : s.lh.length ≤ LOGSIZE := by
  have hres : Inv s ∧ (Disciplined s → Reserved s) := by
    refine h.invariant (I := fun s => Inv s ∧ (Disciplined s → Reserved s)) ?_ ⟨Inv.init, ?_⟩
    · intro s a s' ⟨hI, hR⟩ hs
      exact ⟨hI.step hs, fun hd' => (hR (hd'.of_step hs)).step hI hs hd'⟩
    · intro _
      simp [Reserved, slack, St.init, St.ph, Pc.phase, Phase.active]
  have := hres.2 hd
  unfold Reserved at this
  omega

omit [Fintype P] in
/-- No step but `log_write`'s checks can end in this panic. -/
theorem tooBig_only_logWrite {size : Nat} {s s' : St P} {a : Act P}
    (hs : step size s a = some s') (hp : s'.panicked = some "too big a transaction") :
    ∃ p b, a = .logWrite p b ∧ s.pc p = .inOp ∧ s' = logWrite size s p b := by
  obtain ⟨hnone, hc⟩ := step_cases hs
  rcases hc with ⟨p, -, rfl⟩ | hlw | ⟨p, b, -, -, rfl⟩ | ⟨p, -, -, rfl⟩ | ⟨p, c, -, -, rfl⟩
  · simp only [beginOp] at hp
    split at hp
    · simp [St.setPc, hnone] at hp
    · split at hp <;> simp [St.setPc, St.letIn, hnone] at hp
  · exact hlw
  · simp [absorb, St.setPc, hnone] at hp
  · simp only [endOp] at hp
    split at hp
    · simp [St.panic] at hp
    · split at hp <;> simp [St.setPc, St.wakeup, hnone] at hp
  · cases c <;> simp only [commitStep] at hp <;> (try split at hp) <;>
      simp [St.setPc, St.wakeup, hnone] at hp

/-- **When `log_write` panics**: with the log size `mkfs` writes, the
checks fail exactly when the operations since the last commit have
together logged `LOGSIZE - 1` distinct blocks. -/
theorem logWrite_tooBig_iff {s : St P} {p : P} {b : Nat} (hI : Inv s) (hnone : s.panicked = none)
    (hp : s.pc p = .inOp) :
    (logWrite LOGSIZE s p b).panicked = some "too big a transaction"
      ↔ LOGSIZE - 1 ≤ (groupBlocks s).card := by
  have hact : (s.ph p).active = true := by rw [St.ph, hp]; rfl
  obtain ⟨hcom, hout⟩ := hI.not_committing hact
  have hlen := hI.length_lh (hI.no_pastHead hcom)
  have hL : LOGSIZE = 30 := rfl
  simp only [logWrite]
  split
  · rename_i h
    simp only [St.panic, true_iff]
    omega
  · rename_i h
    rw [if_neg (by omega)]
    simp only [St.setPc, hnone, reduceCtorEq, false_iff]
    omega

/-- **Log space reservation, exactly.** `log.size` is the `nlog = LOGSIZE`
that `mkfs` writes. A run of any number of processes never reaches
`panic("too big a transaction")` if and only if every `log_write` call in
it comes when the operations since the last commit have together logged
fewer than `LOGSIZE - 1` distinct blocks. With operations that keep to
`MAXOPBLOCKS` distinct blocks the reservation still bounds that number by
`LOGSIZE`. -/
theorem log_write_fits_iff (acts : List (Act P)) (s : St P)
    (h : execAll (step LOGSIZE) (St.init P) acts = some s) :
    (s.panicked ≠ some "too big a transaction" ↔
        ∀ pre p b post t, acts = pre ++ .logWrite p b :: post →
          execAll (step LOGSIZE) (St.init P) pre = some t →
          (groupBlocks t).card < LOGSIZE - 1)
      ∧ (Disciplined s → s.lh.length ≤ LOGSIZE) := by
  refine ⟨⟨?_, ?_⟩, reservation_fits_header (reaches_of_execAll h)⟩
  · rintro hno pre p b post t rfl ht
    obtain ⟨t', ht', hrest⟩ := execAll_append_eq_some.mp h
    obtain rfl : t' = t := Option.some.inj (ht'.symm.trans ht)
    obtain ⟨u, hu, hpost⟩ := execAll_cons_eq_some.mp hrest
    have hI : Inv t' := Inv.of_reaches (reaches_of_execAll ht')
    obtain ⟨hnone, -⟩ := step_cases hu
    have hpc : t'.pc p = .inOp ∧ u = logWrite LOGSIZE t' p b := by
      simp only [step, hnone, Option.isSome_none, Bool.false_eq_true, if_false] at hu
      obtain ⟨hpc, he⟩ := Option.ite_none_right_eq_some.mp hu
      exact ⟨hpc, (Option.some.inj he).symm⟩
    by_contra hge
    have hpan : u.panicked = some "too big a transaction" := by
      rw [hpc.2]
      exact (logWrite_tooBig_iff hI hnone hpc.1).mpr (by omega)
    -- a panic stops the system, so this call was the last action
    cases post with
    | nil =>
        cases hpost
        exact hno hpan
    | cons a post =>
        obtain ⟨v, hv, -⟩ := execAll_cons_eq_some.mp hpost
        obtain ⟨hn, -⟩ := step_cases hv
        rw [hpan] at hn
        cases hn
  · intro hroom hpan
    rcases List.eq_nil_or_concat acts with rfl | ⟨pre, a, rfl⟩
    · cases h
      cases hpan
    · rw [List.concat_eq_append] at h hroom
      obtain ⟨t, ht, hlast⟩ := execAll_append_eq_some.mp h
      obtain ⟨u, hu, hnil⟩ := execAll_cons_eq_some.mp hlast
      cases hnil
      obtain ⟨p, b, rfl, hpc, rfl⟩ := tooBig_only_logWrite hu hpan
      obtain ⟨hnone, -⟩ := step_cases hu
      have hI : Inv t := Inv.of_reaches (reaches_of_execAll ht)
      have hge := (logWrite_tooBig_iff hI hnone hpc).mp hpan
      have hlt := hroom pre p b [] t rfl ht
      omega

/-! ## Three full operations -/

/-- `log_write` of block `b` by process `p`, both steps. -/
def logBlock (p : Fin 3) (b : Nat) : List (Act (Fin 3)) := [.logWrite p b, .absorb p]

/-- Three operations start together; two log ten distinct blocks each,
the third logs nine and then its tenth. -/
def threeFullOps : List (Act (Fin 3)) :=
  [.beginOp 0, .beginOp 1, .beginOp 2]
    ++ (List.range 10).flatMap (fun i => logBlock 0 (100 + i))
    ++ (List.range 10).flatMap (fun i => logBlock 1 (200 + i))
    ++ (List.range 9).flatMap (fun i => logBlock 2 (300 + i))
    ++ [.logWrite 2 309]

/-- Operations within their reservation run into the panic: 29 blocks
are logged, and the thirtieth `log_write` fails. -/
theorem reservation_insufficient :
    ∃ s : St (Fin 3), execAll (step LOGSIZE) (St.init (Fin 3)) threeFullOps = some s
      ∧ Disciplined s ∧ s.panicked = some "too big a transaction" := by
  have hrun : (execAll (step LOGSIZE) (St.init (Fin 3)) threeFullOps).map
      (fun s => (s.panicked, decide (∀ o < s.nops, (opBlocks s o).card ≤ MAXOPBLOCKS)))
      = some (some "too big a transaction", true) := by decide +kernel
  obtain ⟨s, hs, hc⟩ := Option.map_eq_some_iff.mp hrun
  obtain ⟨hpan, hle⟩ := Prod.mk.inj hc
  exact ⟨s, hs, disciplined_of_begun (Inv.of_reaches (reaches_of_execAll hs)).ev_op
    (of_decide_eq_true hle), hpan⟩

/-- One operation that logs its ten blocks stays clear of the panic. -/
theorem log_write_fits_one_op :
    ∃ s : St (Fin 3),
      execAll (step LOGSIZE) (St.init (Fin 3))
        (.beginOp 0 :: (List.range 10).flatMap (fun i => logBlock 0 (100 + i))) = some s
      ∧ s.lh.length ≤ LOGSIZE := by
  have hrun : (execAll (step LOGSIZE) (St.init (Fin 3))
      (.beginOp 0 :: (List.range 10).flatMap (fun i => logBlock 0 (100 + i)))).map
      (fun s => decide (∀ o < s.nops, (opBlocks s o).card ≤ MAXOPBLOCKS)) = some true := by
    decide +kernel
  obtain ⟨s, hs, hle⟩ := Option.map_eq_some_iff.mp hrun
  exact ⟨s, hs, (log_write_fits_iff _ s hs).2
    (disciplined_of_begun (Inv.of_reaches (reaches_of_execAll hs)).ev_op (of_decide_eq_true hle))⟩

end Xv6.Log
