import Xv6.Log.Protocol

/-!
# Log — transaction grouping

The invariant of the transaction protocol and what it gives: the
operation counter is exact, at most one process commits and none runs an
operation meanwhile, the header never lists a block twice, and every
operation's blocks go into one commit.

Everything is stated over the PHASE of each process; a step that keeps
all phases and touches no other field keeps the invariant for free
(`Inv.of_ph_eq`), which disposes of the waiting, waking and looping
steps.
-/

namespace Xv6.Log

open Lib

variable {P : Type} [DecidableEq P]

@[simp] theorem setPc_ph (s : St P) (p : P) (c : Pc) :
    (s.setPc p c).ph = Function.update s.ph p c.phase := by
  funext q
  rcases eq_or_ne q p with rfl | hne
  · simp [St.ph, St.setPc]
  · simp [St.ph, St.setPc, Function.update_of_ne hne]

@[simp] theorem letIn_ph (s : St P) (p : P) : (s.letIn p).ph = Function.update s.ph p .op :=
  setPc_ph s p .inOp

omit [DecidableEq P] in
@[simp] theorem wakeup_ph (s : St P) : s.wakeup.ph = s.ph := by
  funext q
  simp only [St.ph, St.wakeup]
  split
  · rename_i h
    rw [h]
    rfl
  · rfl

theorem update_ph_self {s : St P} {p : P} {f : Phase} (h : s.ph p = f) :
    Function.update s.ph p f = s.ph := by
  rw [← h]
  exact Function.update_eq_self p s.ph

variable [Fintype P]

/-- **The protocol invariant.** -/
structure Inv (s : St P) : Prop where
  /-- `log.outstanding` counts the processes in an operation. -/
  count : s.outstanding = countIn Phase.active s.ph
  committing_iff : s.committing = true ↔ ∃ p, (s.ph p).inCommit = true
  committer_unique : ∀ p q, (s.ph p).inCommit = true → (s.ph q).inCommit = true → p = q
  quiet : s.committing = true → s.outstanding = 0
  /-- Nothing is pending when no operation and no commit runs. -/
  settled : s.committing = false → s.outstanding = 0 → s.lh = []
  cleared : ∀ p, s.ph p = .cleared → s.lh = []
  nodup : s.lh.Nodup
  safe : s.panicked ≠ some "log.committing" ∧ s.panicked ≠ some "log_write outside of trans"
  op_lt : ∀ p, (s.ph p).active = true → s.op p < s.nops
  op_inj : ∀ p q, (s.ph p).active = true → (s.ph q).active = true → s.op p = s.op q → p = q
  ev_op : ∀ e ∈ s.logged, e.op < s.nops
  /-- What a running operation logged waits for the next commit. -/
  ev_active : ∀ p, (s.ph p).active = true → ∀ e ∈ s.logged, e.op = s.op p →
    e.epoch = s.commits.length
  ev_le : ∀ e ∈ s.logged, e.epoch ≤ s.commits.length
  ev_past : ∀ p, (s.ph p).pastHead = true → ∀ e ∈ s.logged, e.epoch < s.commits.length
  ev_same : ∀ e ∈ s.logged, ∀ e' ∈ s.logged, e.op = e'.op → e.epoch = e'.epoch
  /-- Until the header is written it lists what was logged since the last commit. -/
  pending : (∀ p, (s.ph p).pastHead = false) →
    ∀ b, b ∈ s.lh ↔ ∃ e ∈ s.logged, e.block = b ∧ e.epoch = s.commits.length
  /-- A commit lists exactly what was logged for it. -/
  committed : ∀ k bs, s.commits[k]? = some bs →
    ∀ b, b ∈ bs ↔ ∃ e ∈ s.logged, e.block = b ∧ e.epoch = k

omit [DecidableEq P] in
theorem Inv.init : Inv (St.init P) where
  count := by
    have : countIn Phase.active (St.init P).ph = 0 := countIn_eq_zero.mpr fun _ => rfl
    rw [this]
    rfl
  committing_iff := by simp [St.init, St.ph, Pc.phase, Phase.inCommit]
  committer_unique := by simp [St.init, St.ph, Pc.phase, Phase.inCommit]
  quiet := by simp [St.init]
  settled := fun _ _ => rfl
  cleared := fun _ _ => rfl
  nodup := List.nodup_nil
  safe := by simp [St.init]
  op_lt := by simp [St.init, St.ph, Pc.phase, Phase.active]
  op_inj := by simp [St.init, St.ph, Pc.phase, Phase.active]
  ev_op := by simp [St.init]
  ev_active := by simp [St.init]
  ev_le := by simp [St.init]
  ev_past := by simp [St.init]
  ev_same := by simp [St.init]
  pending := by simp [St.init]
  committed := by simp [St.init]

omit [DecidableEq P] in
/-- A step that keeps every phase and every field but the program
counters keeps the invariant. -/
theorem Inv.of_ph_eq {s s' : St P} (h : Inv s) (hph : s'.ph = s.ph)
    (hs : s' = { s with pc := s'.pc }) : Inv s' := by
  obtain ⟨out, com, lh, pc, pan, nops, op, logged, commits⟩ := s'
  cases hs
  obtain ⟨h1, h2, h3, h4, h5, h6, h7, h8, h9, h10, h11, h12, h13, h14, h15, h16, h17⟩ := h
  rw [← hph] at h1 h2 h3 h6 h9 h10 h12 h14 h16
  exact ⟨h1, h2, h3, h4, h5, h6, h7, h8, h9, h10, h11, h12, h13, h14, h15, h16, h17⟩

section Facts

variable {s : St P} (h : Inv s)
include h

omit [DecidableEq P] in
/-- A process in an operation keeps every commit away. -/
theorem Inv.not_committing {p : P} (hp : (s.ph p).active = true) :
    s.committing = false ∧ 0 < s.outstanding := by
  have hpos : 0 < countIn Phase.active s.ph := countIn_pos hp
  have hout : 0 < s.outstanding := by rw [h.count]; exact_mod_cast hpos
  refine ⟨?_, hout⟩
  cases hc : s.committing with
  | false => rfl
  | true =>
      have := h.quiet hc
      omega

omit [DecidableEq P] in
theorem Inv.no_inCommit (hc : s.committing = false) (p : P) : (s.ph p).inCommit = false := by
  cases hp : (s.ph p).inCommit with
  | false => rfl
  | true => simp [h.committing_iff.mpr ⟨p, hp⟩] at hc

omit [DecidableEq P] in
theorem Inv.no_active (hc : s.committing = true) (p : P) : (s.ph p).active = false := by
  cases hp : (s.ph p).active with
  | false => rfl
  | true => simp [(h.not_committing hp).1] at hc

omit [DecidableEq P] in
theorem Inv.no_pastHead (hc : s.committing = false) (p : P) : (s.ph p).pastHead = false := by
  have hp := h.no_inCommit hc p
  cases hf : s.ph p <;> simp_all [Phase.pastHead, Phase.inCommit]

end Facts

/-! ## One lemma per step -/

section Steps

variable {s : St P} {p : P}

/-- The fields after `begin_op` lets a process in. -/
theorem Inv.letIn (h : Inv s) (hp : s.ph p = .out) (hcom : s.committing = false) :
    Inv (s.letIn p) := by
  have hph := letIn_ph s p
  have hout : 0 ≤ s.outstanding := by rw [h.count]; omega
  have hcnt : countIn Phase.active (Function.update s.ph p .op)
      = countIn Phase.active s.ph + 1 := by
    simpa [hp, Phase.active] using countIn_update Phase.active s.ph p .op
  have hno := h.no_inCommit hcom
  have hno' : ∀ q, (Function.update s.ph p .op q).inCommit = false :=
    forall_update (R := fun _ (f : Phase) => f.inCommit = false) rfl fun q _ => hno q
  constructor
  · rw [hph, hcnt]
    show s.outstanding + 1 = _
    rw [h.count]
    rfl
  · rw [hph]
    simp [St.letIn, hcom, hno']
  · rw [hph]
    simp [hno']
  · intro hc
    simp [St.letIn, hcom] at hc
  · intro _ h0
    have h0' : s.outstanding + 1 = 0 := h0
    omega
  · rw [hph]
    exact forall_update (R := fun _ (f : Phase) => f = .cleared → s.lh = []) (by simp)
      fun q _ => h.cleared q
  · exact h.nodup
  · exact h.safe
  · rw [hph]
    intro q hq
    show Function.update s.op p s.nops q < s.nops + 1
    rcases eq_or_ne q p with rfl | hne
    · simp
    · rw [Function.update_of_ne hne] at hq ⊢
      exact Nat.lt_succ_of_lt (h.op_lt q hq)
  · -- the new operation's number is larger than all others
    rw [hph]
    intro q r hq hr he
    have he' : Function.update s.op p s.nops q = Function.update s.op p s.nops r := he
    rcases eq_or_ne q p with hqp | hnq <;> rcases eq_or_ne r p with hrp | hnr
    · rw [hqp, hrp]
    · rw [Function.update_of_ne hnr] at hr he'
      rw [hqp, Function.update_self] at he'
      have := h.op_lt r hr
      omega
    · rw [Function.update_of_ne hnq] at hq he'
      rw [hrp, Function.update_self] at he'
      have := h.op_lt q hq
      omega
    · rw [Function.update_of_ne hnq] at hq he'
      rw [Function.update_of_ne hnr] at hr he'
      exact h.op_inj q r hq hr he'
  · exact fun e he => Nat.lt_succ_of_lt (h.ev_op e he)
  · rw [hph]
    intro q hq e he heq
    have heq' : e.op = Function.update s.op p s.nops q := heq
    rcases eq_or_ne q p with rfl | hne
    · rw [Function.update_self] at heq'
      have := h.ev_op e he
      omega
    · rw [Function.update_of_ne hne] at hq heq'
      exact h.ev_active q hq e he heq'
  · exact h.ev_le
  · rw [hph]
    exact forall_update (R := fun _ (f : Phase) => f.pastHead = true → ∀ e ∈ s.logged,
      e.epoch < s.commits.length) (by simp [Phase.pastHead]) fun q _ => h.ev_past q
  · exact h.ev_same
  · exact fun _ => h.pending (h.no_pastHead hcom)
  · exact h.committed

theorem Inv.beginOp (h : Inv s) (hp : s.ph p = .out) : Inv (beginOp s p) := by
  have hsleep : Inv (s.setPc p .sleeping) :=
    h.of_ph_eq (by rw [setPc_ph]; exact update_ph_self hp) rfl
  unfold Log.beginOp
  split
  · exact hsleep
  · rename_i hcom
    split
    · exact hsleep
    · exact h.letIn hp (by simpa using hcom)

/-- The checks of `log_write`: the second one never fires. -/
theorem Inv.logWrite (h : Inv s) (hp : s.ph p = .op) (size b : Nat) :
    Inv (logWrite size s p b) := by
  have hact : (s.ph p).active = true := by rw [hp]; rfl
  obtain ⟨-, hout⟩ := h.not_committing hact
  unfold Log.logWrite
  split
  · exact ⟨h.count, h.committing_iff, h.committer_unique, h.quiet, h.settled, h.cleared, h.nodup,
      by simp [St.panic], h.op_lt, h.op_inj, h.ev_op, h.ev_active, h.ev_le, h.ev_past, h.ev_same,
      h.pending, h.committed⟩
  · rw [if_neg (by omega)]
    exact h.of_ph_eq (by rw [setPc_ph]; exact update_ph_self hp) rfl

theorem Inv.absorb (h : Inv s) (hp : s.ph p = .op) (b : Nat) : Inv (absorb s p b) := by
  have hact : (s.ph p).active = true := by rw [hp]; rfl
  obtain ⟨hcom, hout⟩ := h.not_committing hact
  have hph : (Log.absorb s p b).ph = s.ph := by
    show (s.setPc p .inOp).ph = s.ph
    rw [setPc_ph]
    exact update_ph_self hp
  have hno := h.no_inCommit hcom
  have hpast := h.no_pastHead hcom
  -- the new entry belongs to the running operation, for the coming commit
  have hmem : ∀ e, e ∈ (Log.absorb s p b).logged ↔
      e = ⟨s.op p, b, s.commits.length⟩ ∨ e ∈ s.logged := fun e => by
    simp [Log.absorb]
  constructor
  · rw [hph]
    exact h.count
  · rw [hph]
    exact h.committing_iff
  · rw [hph]
    exact h.committer_unique
  · exact h.quiet
  · intro _ h0
    have h0' : s.outstanding = 0 := h0
    omega
  · rw [hph]
    intro q hq
    have := hno q
    rw [hq] at this
    cases this
  · show (if b ∈ s.lh then s.lh else s.lh ++ [b]).Nodup
    split
    · exact h.nodup
    · rename_i hb
      exact List.nodup_append.mpr ⟨h.nodup, by simp, by
        rintro x hx y hy rfl
        exact hb (by rwa [List.mem_singleton.mp hy] at hx)⟩
  · exact h.safe
  · rw [hph]
    exact h.op_lt
  · rw [hph]
    exact h.op_inj
  · intro e he
    rcases (hmem e).mp he with rfl | he
    · exact h.op_lt p hact
    · exact h.ev_op e he
  · rw [hph]
    intro q hq e he heq
    rcases (hmem e).mp he with rfl | he
    · rfl
    · exact h.ev_active q hq e he heq
  · intro e he
    rcases (hmem e).mp he with rfl | he
    · exact Nat.le_refl _
    · exact h.ev_le e he
  · rw [hph]
    intro q hq
    rw [hpast q] at hq
    cases hq
  · intro e he e' he' heq
    rcases (hmem e).mp he with rfl | he <;> rcases (hmem e').mp he' with rfl | he'
    · rfl
    · exact (h.ev_active p hact e' he' heq.symm).symm
    · exact h.ev_active p hact e he heq
    · exact h.ev_same e he e' he' heq
  · intro _ x
    have hlh : x ∈ (Log.absorb s p b).lh ↔ x = b ∨ x ∈ s.lh := by
      show x ∈ (if b ∈ s.lh then s.lh else s.lh ++ [b]) ↔ _
      split
      · rename_i hb
        exact ⟨Or.inr, fun hx => hx.elim (fun he => he ▸ hb) id⟩
      · simp [or_comm]
    rw [hlh, h.pending hpast x]
    constructor
    · rintro (rfl | ⟨e, he, hb, hk⟩)
      · exact ⟨_, (hmem _).mpr (Or.inl rfl), rfl, rfl⟩
      · exact ⟨e, (hmem e).mpr (Or.inr he), hb, hk⟩
    · rintro ⟨e, he, hb, hk⟩
      rcases (hmem e).mp he with rfl | he
      · exact Or.inl hb.symm
      · exact Or.inr ⟨e, he, hb, hk⟩
  · intro k bs hk x
    have hlt : k < s.commits.length := (List.getElem?_eq_some_iff.mp hk).1
    rw [h.committed k bs hk x]
    constructor
    · rintro ⟨e, he, hb, hep⟩
      exact ⟨e, (hmem e).mpr (Or.inr he), hb, hep⟩
    · rintro ⟨e, he, hb, hep⟩
      rcases (hmem e).mp he with rfl | he
      · simp only at hep
        omega
      · exact ⟨e, he, hb, hep⟩

/-- The last operation of a group ends and starts the commit. -/
theorem Inv.startCommit (h : Inv s) (hp : s.ph p = .op) (hlast : s.outstanding - 1 = 0) :
    Inv { ({ s with outstanding := s.outstanding - 1 } : St P).setPc p (.commit .test) with
      committing := true } := by
  have hact : (s.ph p).active = true := by rw [hp]; rfl
  obtain ⟨hcom, -⟩ := h.not_committing hact
  have hph : ({ ({ s with outstanding := s.outstanding - 1 } : St P).setPc p (.commit .test) with
      committing := true } : St P).ph = Function.update s.ph p .before :=
    setPc_ph { s with outstanding := s.outstanding - 1 } p (.commit .test)
  have hcnt : countIn Phase.active (Function.update s.ph p .before) = 0 := by
    have hc := countIn_update Phase.active s.ph p .before
    have hout := h.count
    rw [if_pos hact, if_neg (by simp [Phase.active])] at hc
    omega
  have hidle := countIn_eq_zero.mp hcnt
  have hno := h.no_inCommit hcom
  have hpast' : ∀ q, (Function.update s.ph p .before q).pastHead = false :=
    forall_update (R := fun _ (f : Phase) => f.pastHead = false) rfl
      fun q _ => h.no_pastHead hcom q
  -- only `p` is committing now
  have honly : ∀ q, (Function.update s.ph p .before q).inCommit = true → q = p := by
    intro q hq
    rcases eq_or_ne q p with rfl | hne
    · rfl
    · rw [Function.update_of_ne hne, hno q] at hq
      cases hq
  constructor
  · rw [hph, hcnt]
    exact hlast
  · rw [hph]
    exact ⟨fun _ => ⟨p, by simp [Phase.inCommit]⟩, fun _ => rfl⟩
  · rw [hph]
    intro q r hq hr
    rw [honly q hq, honly r hr]
  · exact fun _ => hlast
  · intro hc
    cases hc
  · rw [hph]
    exact forall_update (R := fun _ (f : Phase) => f = .cleared → s.lh = []) (by simp)
      fun q _ => h.cleared q
  · exact h.nodup
  · exact h.safe
  · rw [hph]
    simp [hidle]
  · rw [hph]
    simp [hidle]
  · exact h.ev_op
  · rw [hph]
    simp [hidle]
  · exact h.ev_le
  · rw [hph]
    simp [hpast']
  · exact h.ev_same
  · exact fun _ => h.pending (h.no_pastHead hcom)
  · exact h.committed

/-- An operation ends while others run. -/
theorem Inv.leave (h : Inv s) (hp : s.ph p = .op) (hmore : s.outstanding - 1 ≠ 0) :
    Inv (({ s with outstanding := s.outstanding - 1 } : St P).setPc p .idle) := by
  have hact : (s.ph p).active = true := by rw [hp]; rfl
  obtain ⟨hcom, -⟩ := h.not_committing hact
  have hph : (({ s with outstanding := s.outstanding - 1 } : St P).setPc p .idle).ph
      = Function.update s.ph p .out :=
    setPc_ph { s with outstanding := s.outstanding - 1 } p .idle
  have hcnt : countIn Phase.active (Function.update s.ph p .out) + 1
      = countIn Phase.active s.ph := by
    have hc := countIn_update Phase.active s.ph p .out
    rwa [if_pos hact, if_neg (by simp [Phase.active])] at hc
  have hno' : ∀ q, (Function.update s.ph p .out q).inCommit = false :=
    forall_update (R := fun _ (f : Phase) => f.inCommit = false) rfl
      fun q _ => h.no_inCommit hcom q
  have hpast' : ∀ q, (Function.update s.ph p .out q).pastHead = false :=
    forall_update (R := fun _ (f : Phase) => f.pastHead = false) rfl
      fun q _ => h.no_pastHead hcom q
  -- a process still active was active before
  have hsub : ∀ q, (Function.update s.ph p .out q).active = true → (s.ph q).active = true := by
    refine forall_update (R := fun q (f : Phase) => f.active = true → (s.ph q).active = true)
      (by simp [Phase.active]) fun q _ hq => hq
  constructor
  · rw [hph]
    show s.outstanding - 1 = _
    rw [h.count, ← hcnt]
    push_cast
    omega
  · rw [hph]
    simp [St.setPc, hcom, hno']
  · rw [hph]
    simp [hno']
  · intro hc
    simp [St.setPc, hcom] at hc
  · intro _ h0
    exact absurd h0 hmore
  · rw [hph]
    exact forall_update (R := fun _ (f : Phase) => f = .cleared → s.lh = []) (by simp)
      fun q _ => h.cleared q
  · exact h.nodup
  · exact h.safe
  · rw [hph]
    exact fun q hq => h.op_lt q (hsub q hq)
  · rw [hph]
    exact fun q r hq hr => h.op_inj q r (hsub q hq) (hsub r hr)
  · exact h.ev_op
  · rw [hph]
    exact fun q hq => h.ev_active q (hsub q hq)
  · exact h.ev_le
  · rw [hph]
    simp [hpast']
  · exact h.ev_same
  · exact fun _ => h.pending (h.no_pastHead hcom)
  · exact h.committed

omit [DecidableEq P] in
theorem Inv.wakeup (h : Inv s) : Inv s.wakeup := h.of_ph_eq (wakeup_ph s) rfl

theorem Inv.endOp (h : Inv s) (hp : s.ph p = .op) : Inv (endOp s p) := by
  have hact : (s.ph p).active = true := by rw [hp]; rfl
  obtain ⟨hcom, -⟩ := h.not_committing hact
  simp only [Log.endOp]
  rw [if_neg (by simp [hcom])]
  split
  · rename_i hlast
    exact h.startCommit hp hlast
  · rename_i hmore
    exact (h.leave hp hmore).wakeup

/-- **The commit point**: the header is written, and what it lists is
what was logged since the last commit. -/
theorem Inv.writeHead (h : Inv s) (hp : s.ph p = .before) {f : Phase} {c : Pc}
    (hc : c.phase = f) (hf : f = .after ∨ (f = .cleared ∧ s.lh = [])) :
    Inv { s.setPc p c with commits := s.commits ++ [s.lh] } := by
  have hcomp : (s.ph p).inCommit = true := by rw [hp]; rfl
  have hcom : s.committing = true := h.committing_iff.mpr ⟨p, hcomp⟩
  have hph : ({ s.setPc p c with commits := s.commits ++ [s.lh] } : St P).ph
      = Function.update s.ph p f := by
    rw [← hc]
    exact setPc_ph s p c
  have hin : f.inCommit = true := by rcases hf with rfl | ⟨rfl, -⟩ <;> rfl
  have hpf : f.pastHead = true := by rcases hf with rfl | ⟨rfl, -⟩ <;> rfl
  have hfa : f.active = false := by rcases hf with rfl | ⟨rfl, -⟩ <;> rfl
  have hidle' : ∀ q, (Function.update s.ph p f q).active = false :=
    forall_update (R := fun _ (g : Phase) => g.active = false) hfa
      fun q _ => h.no_active hcom q
  have hsub : ∀ q, (Function.update s.ph p f q).inCommit = true → (s.ph q).inCommit = true :=
    forall_update (R := fun q (g : Phase) => g.inCommit = true → (s.ph q).inCommit = true)
      (fun _ => hcomp) fun q _ hq => hq
  -- before this step no process was past the header
  have hnone : ∀ q, (s.ph q).pastHead = false := by
    intro q
    rcases eq_or_ne q p with rfl | hne
    · rw [hp]
      rfl
    · cases hq : s.ph q <;> try rfl
      all_goals exact absurd (h.committer_unique q p (by rw [hq]; rfl) hcomp) hne
  have hpend := h.pending hnone
  constructor
  · rw [hph, countIn_eq_zero.mpr hidle']
    exact h.quiet hcom
  · rw [hph]
    exact ⟨fun _ => ⟨p, by simpa using hin⟩, fun _ => hcom⟩
  · rw [hph]
    exact fun q r hq hr => h.committer_unique q r (hsub q hq) (hsub r hr)
  · exact h.quiet
  · intro hc'
    have hc'' : s.committing = false := hc'
    simp [hcom] at hc''
  · rw [hph]
    refine forall_update (R := fun _ (g : Phase) => g = .cleared → s.lh = []) ?_
      fun q _ => h.cleared q
    intro hg
    rcases hf with rfl | ⟨-, hnil⟩
    · cases hg
    · exact hnil
  · exact h.nodup
  · exact h.safe
  · rw [hph]
    simp [hidle']
  · rw [hph]
    simp [hidle']
  · exact h.ev_op
  · rw [hph]
    simp [hidle']
  · intro e he
    have := h.ev_le e he
    simp only [List.length_append, List.length_singleton]
    omega
  · intro q _ e he
    have := h.ev_le e he
    simp only [List.length_append, List.length_singleton]
    omega
  · exact h.ev_same
  · rw [hph]
    intro hnp
    have := hnp p
    simp [hpf] at this
  · intro k bs hk b
    rcases Nat.lt_or_ge k s.commits.length with hlt | hge
    · have hk' : s.commits[k]? = some bs := by
        rwa [List.getElem?_append_left hlt] at hk
      exact h.committed k bs hk' b
    · have hk' : [s.lh][k - s.commits.length]? = some bs := by
        rwa [List.getElem?_append_right hge] at hk
      have hk0 : k = s.commits.length := by
        have := (List.getElem?_eq_some_iff.mp hk').1
        simp only [List.length_singleton] at this
        omega
      subst hk0
      have hbs : s.lh = bs := by simpa using hk'
      rw [← hbs]
      exact hpend b

/-- `log.lh.n = 0`. -/
theorem Inv.clear (h : Inv s) (hp : s.ph p = .after) :
    Inv { s.setPc p (.commit .erase) with lh := [] } := by
  have hcomp : (s.ph p).inCommit = true := by rw [hp]; rfl
  have hcom : s.committing = true := h.committing_iff.mpr ⟨p, hcomp⟩
  have hph : ({ s.setPc p (.commit .erase) with lh := [] } : St P).ph
      = Function.update s.ph p .cleared := setPc_ph s p (.commit .erase)
  have hidle' : ∀ q, (Function.update s.ph p .cleared q).active = false :=
    forall_update (R := fun _ (g : Phase) => g.active = false) rfl
      fun q _ => h.no_active hcom q
  have hsub : ∀ q, (Function.update s.ph p .cleared q).inCommit = true →
      (s.ph q).inCommit = true :=
    forall_update (R := fun q (g : Phase) => g.inCommit = true → (s.ph q).inCommit = true)
      (fun _ => hcomp) fun q _ hq => hq
  have hpast : (s.ph p).pastHead = true := by rw [hp]; rfl
  constructor
  · rw [hph, countIn_eq_zero.mpr hidle']
    exact h.quiet hcom
  · rw [hph]
    exact ⟨fun _ => ⟨p, by simp [Phase.inCommit]⟩, fun _ => hcom⟩
  · rw [hph]
    exact fun q r hq hr => h.committer_unique q r (hsub q hq) (hsub r hr)
  · exact h.quiet
  · exact fun _ _ => rfl
  · exact fun _ _ => rfl
  · exact List.nodup_nil
  · exact h.safe
  · rw [hph]
    simp [hidle']
  · rw [hph]
    simp [hidle']
  · exact h.ev_op
  · rw [hph]
    simp [hidle']
  · exact h.ev_le
  · exact fun _ _ => h.ev_past p hpast
  · exact h.ev_same
  · rw [hph]
    intro hnp
    have := hnp p
    simp [Phase.pastHead] at this
  · exact h.committed

/-- `log.committing = 0` after the commit. -/
theorem Inv.finish (h : Inv s) (hp : s.ph p = .cleared) :
    Inv { s.setPc p .idle with committing := false } := by
  have hcomp : (s.ph p).inCommit = true := by rw [hp]; rfl
  have hcom : s.committing = true := h.committing_iff.mpr ⟨p, hcomp⟩
  have hph : ({ s.setPc p .idle with committing := false } : St P).ph
      = Function.update s.ph p .out := setPc_ph s p .idle
  have hnil : s.lh = [] := h.cleared p hp
  have hpast : (s.ph p).pastHead = true := by rw [hp]; rfl
  have hidle' : ∀ q, (Function.update s.ph p .out q).active = false :=
    forall_update (R := fun _ (g : Phase) => g.active = false) rfl
      fun q _ => h.no_active hcom q
  have hno' : ∀ q, (Function.update s.ph p .out q).inCommit = false := by
    intro q
    rcases eq_or_ne q p with rfl | hne
    · simp [Phase.inCommit]
    · rw [Function.update_of_ne hne]
      cases hq : (s.ph q).inCommit with
      | false => rfl
      | true => exact absurd (h.committer_unique q p hq hcomp) hne
  constructor
  · rw [hph, countIn_eq_zero.mpr hidle']
    exact h.quiet hcom
  · rw [hph]
    simp [hno']
  · rw [hph]
    simp [hno']
  · intro hc
    cases hc
  · exact fun _ _ => hnil
  · exact fun _ _ => hnil
  · exact h.nodup
  · exact h.safe
  · rw [hph]
    simp [hidle']
  · rw [hph]
    simp [hidle']
  · exact h.ev_op
  · rw [hph]
    simp [hidle']
  · exact h.ev_le
  · exact fun _ _ => h.ev_past p hpast
  · exact h.ev_same
  · -- everything logged so far belongs to an earlier commit
    intro _ b
    show b ∈ s.lh ↔ _
    rw [hnil]
    constructor
    · simp
    · rintro ⟨e, he, -, hk⟩
      have := h.ev_past p hpast e he
      have hk' : e.epoch = s.commits.length := hk
      omega
  · exact h.committed

theorem Inv.commitStep (h : Inv s) {c : CommitPc} (hpc : s.pc p = .commit c) :
    Inv (commitStep s p c) := by
  have hph : s.ph p = (Pc.commit c).phase := by rw [St.ph, hpc]
  have hstay : ∀ c' : CommitPc, (Pc.commit c').phase = (Pc.commit c).phase →
      Inv (s.setPc p (.commit c')) := fun c' he =>
    h.of_ph_eq (by rw [setPc_ph, he]; exact update_ph_self hph) rfl
  cases c with
  | test =>
      simp only [Log.commitStep]
      split
      · exact hstay _ rfl
      · rename_i hn
        have hnil : s.lh = [] := List.length_eq_zero_iff.mp (by omega)
        have hw := h.writeHead (c := .commit .done) hph rfl (Or.inr ⟨rfl, hnil⟩)
        rwa [hnil] at hw
  | writeLog tail | install tail =>
      simp only [Log.commitStep]
      split
      · exact hstay _ rfl
      · exact hstay _ rfl
  | writeHead => exact h.writeHead hph rfl (Or.inl rfl)
  | clear => exact h.clear hph
  | erase => exact hstay _ rfl
  | done => exact (h.finish hph).wakeup

end Steps

/-- Every step keeps the invariant. -/
theorem Inv.step {size : Nat} {s s' : St P} {a : Act P} (h : Inv s)
    (hs : Log.step size s a = some s') : Inv s' := by
  obtain ⟨-, hc⟩ := step_cases hs
  rcases hc with ⟨p, hpc, rfl⟩ | ⟨p, b, -, hpc, rfl⟩ | ⟨p, b, -, hpc, rfl⟩ | ⟨p, -, hpc, rfl⟩
    | ⟨p, c, -, hpc, rfl⟩
  · refine h.beginOp ?_
    rcases hpc with ⟨-, hpc⟩ | ⟨-, hpc⟩ <;> rw [St.ph, hpc] <;> rfl
  · exact h.logWrite (by rw [St.ph, hpc]; rfl) size b
  · exact h.absorb (by rw [St.ph, hpc]; rfl) b
  · exact h.endOp (by rw [St.ph, hpc]; rfl)
  · exact h.commitStep hpc

theorem Inv.of_reaches {size : Nat} {s : St P} (h : Reaches (Log.step size) (St.init P) s) : Inv s :=
  h.invariant (fun _ _ _ hI hs => hI.step hs) Inv.init

/-- How operations and commits correspond. -/
structure Grouped (s : St P) : Prop where
  /-- All blocks of one operation go into one commit, number `k`: it
  lists them if it has happened, and the header lists them if not. -/
  one : ∀ op, ∃ k, ∀ e ∈ s.logged, e.op = op →
    e.epoch = k ∧ (∀ bs, s.commits[k]? = some bs → e.block ∈ bs)
      ∧ (s.commits.length ≤ k → e.block ∈ s.lh)
  /-- A commit lists nothing but what was logged for it. -/
  only : ∀ k bs, s.commits[k]? = some bs → ∀ b ∈ bs, ∃ e ∈ s.logged, e.block = b ∧ e.epoch = k
  /-- No commit happens while an operation that logged something runs. -/
  whole : ∀ p, (s.ph p).active = true → ∀ e ∈ s.logged, e.op = s.op p →
    e.epoch = s.commits.length

omit [DecidableEq P] in
theorem Inv.grouped {s : St P} (h : Inv s) : Grouped s where
  one := by
    intro op
    by_cases hex : ∃ e ∈ s.logged, e.op = op
    · obtain ⟨e₀, he₀, hop⟩ := hex
      refine ⟨e₀.epoch, fun e he heq => ?_⟩
      have hk : e.epoch = e₀.epoch := h.ev_same e he e₀ he₀ (heq.trans hop.symm)
      refine ⟨hk, fun bs hbs => ?_, fun hle => ?_⟩
      · exact (h.committed _ bs hbs e.block).mpr ⟨e, he, rfl, hk⟩
      · -- not yet committed: nobody is past the header, and it lists the block
        have hnp : ∀ p, (s.ph p).pastHead = false := fun p => by
          cases hp : (s.ph p).pastHead with
          | false => rfl
          | true =>
              have := h.ev_past p hp e he
              omega
        have hle' := h.ev_le e he
        exact (h.pending hnp e.block).mpr ⟨e, he, rfl, by omega⟩
    · exact ⟨0, fun e he heq => absurd ⟨e, he, heq⟩ hex⟩
  only := fun k bs hk b hb => (h.committed k bs hk b).mp hb
  whole := h.ev_active

/-- **Transaction grouping.** In every state any number of processes can
reach: `log.outstanding` is the number of processes between `begin_op`
and `end_op`; while a commit runs it is zero; at most one process
commits; the panics "log.committing" and "log_write outside of trans"
have not happened; the header entries are distinct; and the blocks each
operation logged go into one commit, the same for all of them. -/
theorem transaction_grouping (size : Nat) (s : St P)
    (h : Reaches (Log.step size) (St.init P) s) :
    s.outstanding = countIn Phase.active s.ph
      ∧ (s.committing = true → s.outstanding = 0)
      ∧ (∀ p q, (s.ph p).inCommit = true → (s.ph q).inCommit = true → p = q)
      ∧ s.panicked ≠ some "log.committing"
      ∧ s.panicked ≠ some "log_write outside of trans"
      ∧ s.lh.Nodup
      ∧ Grouped s := by
  have hI : Inv s := Inv.of_reaches h
  exact ⟨hI.count, hI.quiet, hI.committer_unique, hI.safe.1, hI.safe.2, hI.nodup, hI.grouped⟩

/-- Two operations that overlap, up to the header write of their commit. -/
def twoOps : List (Act (Fin 2)) :=
  [.beginOp 0, .beginOp 1, .logWrite 0 7, .absorb 0, .endOp 0, .logWrite 1 9, .absorb 1,
    .endOp 1, .commitStep 1, .commitStep 1, .commitStep 1, .commitStep 1, .commitStep 1]

theorem transaction_grouping_two_ops :
    ∃ s : St (Fin 2), Reaches (Log.step 30) (St.init (Fin 2)) s
      ∧ s.commits = [[7, 9]] ∧ s.outstanding = 0 ∧ Grouped s := by
  have hrun : (execAll (Log.step 30) (St.init (Fin 2)) twoOps).map
      (fun s => (s.commits, s.committing)) = some ([[7, 9]], true) := by decide
  obtain ⟨s, hs, hc⟩ := Option.map_eq_some_iff.mp hrun
  obtain ⟨hcommits, hcommitting⟩ := Prod.mk.inj hc
  obtain ⟨-, hquiet, -, -, -, -, hg⟩ := transaction_grouping 30 s (reaches_of_execAll hs)
  exact ⟨s, reaches_of_execAll hs, hcommits, hquiet hcommitting, hg⟩

end Xv6.Log
