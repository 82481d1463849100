import Xv6.Sched.Steps

/-!
# Sched — parents and children

What `fork`, `exit` and `wait` keep true of the `parent` fields. Most
steps move a process between SLEEPING, RUNNABLE and RUNNING and leave the
family alone; for them it is enough to look at the phase of each slot
(`Inv.quiet`). Six steps change it: the four of `fork`, `exit`, and a
`wait` that finds a zombie.
-/

namespace Xv6.Sched

open Lib

/-- The four situations a slot can be in. -/
inductive Phase
  | unused
  | embryo
  | live
  | zombie
deriving DecidableEq

def ProcState.phase : ProcState → Phase
  | .UNUSED => .unused
  | .EMBRYO => .embryo
  | .SLEEPING | .RUNNABLE | .RUNNING => .live
  | .ZOMBIE => .zombie

/-- The phase of a slot. -/
def St.ph (s : St) (i : Fin NPROC) : Phase := (s.proc i).state.phase

theorem ph_eq_zombie {s : St} {i : Fin NPROC} : s.ph i = .zombie ↔ (s.proc i).state = .ZOMBIE := by
  rw [St.ph]
  cases (s.proc i).state <;> simp [ProcState.phase]

theorem ph_eq_unused {s : St} {i : Fin NPROC} : s.ph i = .unused ↔ (s.proc i).state = .UNUSED := by
  rw [St.ph]
  cases (s.proc i).state <;> simp [ProcState.phase]

/-- The parent of a slot. -/
def St.par (s : St) (i : Fin NPROC) : Option (Fin NPROC) := (s.proc i).parent

/-- Process `i` is in `fork`, with child `np`. -/
def St.InFork (s : St) (i np : Fin NPROC) : Prop := s.pc i = .forking np ∨ s.pc i = .copied np

/-- Process `p` sleeps in `wait`. -/
def St.Waits (s : St) (p : Fin NPROC) : Prop :=
  (s.proc p).state = .SLEEPING ∧ (s.proc p).chan = some (.proc p)

structure Inv (s : St) : Prop where
  live : ∀ i, s.pc i ≠ .user → s.ph i = .live
  forking : ∀ i np, s.pc i = .forking np → s.ph np = .embryo ∧ s.par np = none
  copied : ∀ i np, s.pc i = .copied np → s.ph np = .embryo ∧ s.par np = some i
  embryo : ∀ np, s.ph np = .embryo → ∃ i, s.InFork i np
  uniq : ∀ i j np, s.InFork i np → s.InFork j np → i = j
  unused : ∀ i, s.ph i = .unused → s.par i = none
  parent : ∀ i q, s.par i = some q → s.ph q = .live
  other : ∀ i, s.par i ≠ some i
  child : ∀ i, i ≠ initproc → s.ph i = .live ∨ s.ph i = .zombie → s.par i ≠ none
  initLive : s.ph initproc = .live
  initPar : s.par initproc = none
  waits : ∀ p c, s.Waits p → s.par c = some p → s.ph c ≠ .zombie

theorem inv_init : Inv St.init := by
  have hph : ∀ i, St.init.ph i = if i = initproc then .live else .unused := fun i => by
    simp only [St.ph, St.init]
    split <;> rfl
  have hpar : ∀ i, St.init.par i = none := fun i => by
    simp only [St.par, St.init]
    split <;> rfl
  refine ⟨fun _ h => absurd rfl h, fun _ _ h => (by cases h), fun _ _ h => (by cases h),
    fun np h => ?_, fun _ _ _ h => ?_, fun i _ => hpar i, fun i q h => ?_, fun i h => ?_,
    fun i hi h => ?_, by rw [hph, if_pos rfl], hpar _, fun p c _ h => ?_⟩
  · rw [hph] at h
    split at h <;> cases h
  · rcases h with h | h <;> cases h
  · rw [hpar] at h
    cases h
  · rw [hpar] at h
    cases h
  · rw [hph, if_neg hi] at h
    rcases h with h | h <;> cases h
  · rw [hpar] at h
    cases h

theorem ph_of_running {s : St} {p : Fin NPROC} (h : (s.proc p).state = .RUNNING) :
    s.ph p = .live := by rw [St.ph, h]; rfl

/-! ## Steps that leave the family alone -/

/-- **A quiet step**: phases, parents and `fork`s are as before, and who
sleeps in `wait` did before or has no zombie child. -/
theorem Inv.quiet {s s' : St} (h : Inv s) (hph : ∀ i, s'.ph i = s.ph i)
    (hpar : ∀ i, s'.par i = s.par i)
    (hpc : ∀ i, s'.pc i = s.pc i ∨
      (s.ph i = .live ∧ (s.pc i = .user ∨ s.pc i = .waiting ∨ s.pc i = .asleep) ∧
        (s'.pc i = .user ∨ s'.pc i = .waiting ∨ s'.pc i = .asleep)))
    (hwaits : ∀ p, s'.Waits p → s.Waits p ∨ ∀ c, s.par c = some p → s.ph c ≠ .zombie) : Inv s' := by
  have hforking : ∀ i np, s'.pc i = .forking np ↔ s.pc i = .forking np := fun i np => by
    rcases hpc i with he | ⟨_, h1, h2⟩
    · rw [he]
    · rcases h1 with h1 | h1 | h1 <;> rcases h2 with h2 | h2 | h2 <;> simp [h1, h2]
  have hcopied : ∀ i np, s'.pc i = .copied np ↔ s.pc i = .copied np := fun i np => by
    rcases hpc i with he | ⟨_, h1, h2⟩
    · rw [he]
    · rcases h1 with h1 | h1 | h1 <;> rcases h2 with h2 | h2 | h2 <;> simp [h1, h2]
  have hfork : ∀ i np, s'.InFork i np ↔ s.InFork i np := fun i np =>
    or_congr (hforking i np) (hcopied i np)
  refine ⟨fun i hi => ?_, fun i np hi => ?_, fun i np hi => ?_, fun np hnp => ?_,
    fun i j np hi hj => ?_, fun i hi => ?_, fun i q hq => ?_, fun i hi => ?_, fun i hne hi => ?_,
    ?_, ?_, fun p c hp hc => ?_⟩
  · rw [hph]
    rcases hpc i with he | ⟨hl, _⟩
    · exact h.live i (he ▸ hi)
    · exact hl
  · rw [hph, hpar]
    exact h.forking i np ((hforking i np).mp hi)
  · rw [hph, hpar]
    exact h.copied i np ((hcopied i np).mp hi)
  · rw [hph] at hnp
    obtain ⟨i, hi⟩ := h.embryo np hnp
    exact ⟨i, (hfork i np).mpr hi⟩
  · exact h.uniq i j np ((hfork i np).mp hi) ((hfork j np).mp hj)
  · rw [hpar]
    exact h.unused i ((hph i) ▸ hi)
  · rw [hph]
    exact h.parent i q ((hpar i) ▸ hq)
  · rw [hpar] at hi
    exact h.other i hi
  · rw [hpar]
    exact h.child i hne ((hph i) ▸ hi)
  · rw [hph]
    exact h.initLive
  · rw [hpar]
    exact h.initPar
  · rw [hph]
    rw [hpar] at hc
    rcases hwaits p hp with hw | hno
    · exact h.waits p c hw hc
    · exact hno c hc

/-- A process changes its own slot, and stays live. -/
theorem Inv.self {s : St} (h : Inv s) {p : Fin NPROC} {v : Proc} {c : Pc} (hlive : s.ph p = .live)
    (hv : v.state.phase = .live) (hpar : v.parent = (s.proc p).parent)
    (hpc : s.pc p = c ∨ (s.pc p = .user ∨ s.pc p = .waiting ∨ s.pc p = .asleep) ∧
      (c = .user ∨ c = .waiting ∨ c = .asleep))
    (hwaits : v.state = .SLEEPING → v.chan = some (.proc p) →
      ∀ c, s.par c = some p → s.ph c ≠ .zombie) : Inv ((s.setProc p v).setPc p c) := by
  refine h.quiet (fun i => ?_) (fun i => ?_) (fun i => ?_) fun q hq => ?_
  · rw [St.ph, setPc_proc, setProc_proc]
    split
    · rename_i hi
      rw [hi, hv, hlive]
    · rfl
  · rw [St.par, setPc_proc, setProc_proc]
    split
    · rename_i hi
      rw [hi, hpar]
      rfl
    · rfl
  · rw [setPc_pc, setProc_pc]
    by_cases hi : i = p
    · rw [if_pos hi, hi]
      rcases hpc with he | hpc
      · exact Or.inl he.symm
      · exact Or.inr ⟨hlive, hpc⟩
    · rw [if_neg hi]
      exact Or.inl rfl
  · rw [St.Waits, setPc_proc, setProc_proc] at hq
    by_cases hqp : q = p
    · rw [if_pos hqp] at hq
      rw [hqp]
      rw [hqp] at hq
      exact Or.inr (hwaits hq.1 hq.2)
    · rw [if_neg hqp] at hq
      exact Or.inl hq

theorem setPc_self {s : St} {p : Fin NPROC} : s.setPc p (s.pc p) = s := by
  simp [St.setPc]

/-- The same, where the program counter stays. -/
theorem Inv.slot {s : St} (h : Inv s) {p : Fin NPROC} {v : Proc} (hlive : s.ph p = .live)
    (hv : v.state.phase = .live) (hpar : v.parent = (s.proc p).parent)
    (hwaits : v.state = .SLEEPING → v.chan = some (.proc p) →
      ∀ c, s.par c = some p → s.ph c ≠ .zombie) : Inv (s.setProc p v) := by
  have := h.self (c := s.pc p) hlive hv hpar (Or.inl rfl) hwaits
  rwa [show s.pc p = (s.setProc p v).pc p from rfl, setPc_self] at this

theorem Woken.phase {p p' : Proc} (h : Woken p p') : p'.state.phase = p.state.phase := by
  rcases h with h | ⟨h, h'⟩
  · rw [h]
  · rw [h, h']
    rfl

theorem Inv.wakeup {s : St} (h : Inv s) (chan : Option Chan) : Inv (wakeup1 s chan) := by
  refine h.quiet (fun i => (wakeup1_woken s chan i).phase) (fun i => wakeup1_parent s chan i)
    (fun i => Or.inl rfl) fun p hp => Or.inl ⟨?_, ?_⟩
  · rcases wakeup1_woken s chan p with he | ⟨_, he⟩
    · exact he ▸ hp.1
    · rw [hp.1] at he
      cases he
  · rw [← (wakeup1_kept s chan p).chan]
    exact hp.2

/-- A killed process is woken up; its family is as before. -/
theorem Inv.kill {s : St} (h : Inv s) (i : Fin NPROC) :
    Inv (s.setProc i { s.proc i with
      killed := true
      state := if (s.proc i).state = .SLEEPING then .RUNNABLE else (s.proc i).state }) := by
  have hstate : (if (s.proc i).state = .SLEEPING then ProcState.RUNNABLE
      else (s.proc i).state).phase = (s.proc i).state.phase := by
    split
    · rename_i he
      rw [he]
      rfl
    · rfl
  refine h.quiet (fun j => ?_) (fun j => ?_) (fun j => Or.inl rfl) fun q hq => Or.inl ?_
  · rw [St.ph, setProc_proc]
    split
    · rename_i hj
      rw [hstate, hj]
      rfl
    · rfl
  · rw [St.par, setProc_proc]
    split
    · rename_i hj
      rw [hj]
      rfl
    · rfl
  · rw [St.Waits, setProc_proc] at hq
    by_cases hqi : q = i
    · rw [if_pos hqi] at hq
      obtain ⟨h1, _⟩ := hq
      dsimp only at h1
      split at h1
      · cases h1
      · rename_i hne
        exact absurd h1 hne
    · rw [if_neg hqi] at hq
      exact hq

/-! ## Steps of `fork` -/

section Fork

variable {s s' : St} {p np : Fin NPROC}

/-- Nobody else is in `fork` with this child. -/
theorem Inv.not_inFork (h : Inv s) (hp : s.InFork p np) {i : Fin NPROC} (hi : i ≠ p) :
    ¬s.InFork i np := fun hf => hi (h.uniq i p np hf hp)

theorem Inv.embryo_of_inFork (h : Inv s) (hp : s.InFork p np) : s.ph np = .embryo :=
  hp.elim (fun hf => (h.forking p np hf).1) fun hf => (h.copied p np hf).1

/-- **One step of a `fork`**: process `p` changes the slot `np` of its
child, which nobody else is forking and which is nobody's parent. Only
what the new slot itself has to meet is left to show. -/
theorem Inv.forkStep (h : Inv s) (hlive : s.ph p = .live) (hnp : s.ph np ≠ .live)
    (hproc : ∀ i, i ≠ np → s'.proc i = s.proc i) (hpc : ∀ i, i ≠ p → s'.pc i = s.pc i)
    (hother : ∀ i, i ≠ p → ¬s.InFork i np) (hpm : ∀ m, m ≠ np → ¬s.InFork p m)
    (hpm' : ∀ m, m ≠ np → ¬s'.InFork p m)
    (hforking : s'.pc p = .forking np → s'.ph np = .embryo ∧ s'.par np = none)
    (hcopied : s'.pc p = .copied np → s'.ph np = .embryo ∧ s'.par np = some p)
    (hembryo : s'.ph np = .embryo → s'.InFork p np)
    (hunused : s'.ph np = .unused → s'.par np = none)
    (hparent : ∀ q, s'.par np = some q → s.ph q = .live)
    (hchild : s'.ph np = .live → s'.par np ≠ none) (hzombie : s'.ph np ≠ .zombie) : Inv s' := by
  have hph : ∀ i, i ≠ np → s'.ph i = s.ph i := fun i hi => by rw [St.ph, hproc i hi]; rfl
  have hpar : ∀ i, i ≠ np → s'.par i = s.par i := fun i hi => by rw [St.par, hproc i hi]; rfl
  have hkeep : ∀ i, s.ph i = .live → s'.ph i = .live := fun i hi => by
    rw [hph i fun he => hnp (he ▸ hi), hi]
  have hfork : ∀ i m, i ≠ p → (s'.InFork i m ↔ s.InFork i m) := fun i m hi => by
    rw [St.InFork, hpc i hi]
    rfl
  refine ⟨fun i hi => ?_, fun i m hi => ?_, fun i m hi => ?_, fun m hm => ?_, fun i j m hi hj => ?_,
    fun i hi => ?_, fun i q hq => ?_, fun i hi => ?_, fun i hi hl => ?_, hkeep _ h.initLive, ?_,
    fun q c hq hc => ?_⟩
  · rcases eq_or_ne i p with rfl | hip
    · exact hkeep i hlive
    · exact hkeep i (h.live i (hpc i hip ▸ hi))
  · rcases eq_or_ne i p with rfl | hip
    · have hm : m = np := by_contra fun hm => hpm' m hm (Or.inl hi)
      rw [hm] at hi ⊢
      exact hforking hi
    · rw [hpc i hip] at hi
      have hm : m ≠ np := fun hm => hother i hip (hm ▸ Or.inl hi)
      rw [hph m hm, hpar m hm]
      exact h.forking i m hi
  · rcases eq_or_ne i p with rfl | hip
    · have hm : m = np := by_contra fun hm => hpm' m hm (Or.inr hi)
      rw [hm] at hi ⊢
      exact hcopied hi
    · rw [hpc i hip] at hi
      have hm : m ≠ np := fun hm => hother i hip (hm ▸ Or.inr hi)
      rw [hph m hm, hpar m hm]
      exact h.copied i m hi
  · rcases eq_or_ne m np with rfl | hm'
    · exact ⟨p, hembryo hm⟩
    · obtain ⟨i, hi⟩ := h.embryo m (hph m hm' ▸ hm)
      exact ⟨i, (hfork i m fun he => hpm m hm' (he ▸ hi)).mpr hi⟩
  · rcases eq_or_ne m np with rfl | hm
    · have hself : ∀ i, s'.InFork i m → i = p := fun i hi =>
        by_contra fun hip => hother i hip ((hfork i m hip).mp hi)
      rw [hself i hi, hself j hj]
    · have hself : ∀ i, s'.InFork i m → s.InFork i m := fun i hi =>
        (hfork i m fun he => hpm' m hm (he ▸ hi)).mp hi
      exact h.uniq i j m (hself i hi) (hself j hj)
  · rcases eq_or_ne i np with rfl | hi'
    · exact hunused hi
    · rw [hpar i hi']
      exact h.unused i (hph i hi' ▸ hi)
  · rcases eq_or_ne i np with rfl | hi'
    · exact hkeep q (hparent q hq)
    · exact hkeep q (h.parent i q (hpar i hi' ▸ hq))
  · rcases eq_or_ne i np with rfl | hi'
    · exact hnp (hparent i hi)
    · exact h.other i (hpar i hi' ▸ hi)
  · rcases eq_or_ne i np with rfl | hi'
    · exact hchild (hl.resolve_right hzombie)
    · rw [hpar i hi']
      exact h.child i hi (hph i hi' ▸ hl)
  · rw [hpar initproc fun he => hnp (he ▸ h.initLive)]
    exact h.initPar
  · rcases eq_or_ne c np with rfl | hc'
    · exact hzombie
    · rw [hpar c hc'] at hc
      rw [hph c hc']
      have hq' : q ≠ np := fun he => hnp (he ▸ h.parent c q hc)
      rw [St.Waits, hproc q hq'] at hq
      exact h.waits q c hq hc

theorem not_inFork_user (hpc : s.pc p = .user) (m : Fin NPROC) : ¬s.InFork p m := by
  rintro (hf | hf) <;> rw [hpc] at hf <;> cases hf

theorem inFork_unique {m : Fin NPROC} (hp : s.InFork p np) (hm : s.InFork p m) : m = np := by
  rcases hp with hp | hp <;> rcases hm with hm | hm <;> rw [hp] at hm <;> cases hm <;> rfl

theorem Inv.forkAlloc (h : Inv s) (hready : s.Ready p) (hnp : (s.proc np).state = .UNUSED) :
    Inv ((s.alloc np).setPc p (.forking np)) := by
  have hunused : s.ph np = .unused := by rw [St.ph, hnp]; rfl
  have hph : ((s.alloc np).setPc p (.forking np)).ph np = .embryo := by
    simp [St.ph, St.alloc, ProcState.phase]
  have hpar : ((s.alloc np).setPc p (.forking np)).par np = none := by
    rw [← h.unused np hunused]
    simp [St.par, St.alloc]
  have hpc : ((s.alloc np).setPc p (.forking np)).pc p = .forking np := setPc_pc.trans (if_pos rfl)
  refine h.forkStep (ph_of_running hready.1) (by rw [hunused]; decide) (fun i hi => ?_)
    (fun i hi => setPc_pc.trans (if_neg hi)) (fun i _ hi => ?_)
    (fun m _ => not_inFork_user hready.2 m) (fun m hm hf => hm (inFork_unique (Or.inl hpc) hf))
    (fun _ => ⟨hph, hpar⟩) (fun hc => ?_) (fun _ => Or.inl hpc) (fun _ => hpar)
    (fun q hq => ?_) (fun hl => ?_) (by rw [hph]; decide)
  · simp [St.alloc, hi]
  · rw [h.embryo_of_inFork hi] at hunused
    cases hunused
  · rw [hpc] at hc
    cases hc
  · rw [hpar] at hq
    cases hq
  · rw [hph] at hl
    cases hl

theorem Inv.forkFail (h : Inv s) (hrun : (s.proc p).state = .RUNNING)
    (hpc : s.pc p = .forking np) : Inv ((s.setState np .UNUSED).setPc p .user) := by
  have hpc' : ((s.setState np .UNUSED).setPc p .user).pc p = .user := setPc_pc.trans (if_pos rfl)
  have hph : ((s.setState np .UNUSED).setPc p .user).ph np = .unused := by
    simp [St.ph, ProcState.phase]
  have hpar : ((s.setState np .UNUSED).setPc p .user).par np = none := by
    rw [← (h.forking p np hpc).2]
    simp [St.par]
  refine h.forkStep (ph_of_running hrun) (by rw [(h.forking p np hpc).1]; decide) (fun i hi => ?_)
    (fun i hi => setPc_pc.trans (if_neg hi)) (fun i hi => h.not_inFork (Or.inl hpc) hi)
    (fun m hm hf => hm (inFork_unique (Or.inl hpc) hf)) (fun m _ => not_inFork_user hpc' m)
    (fun hc => ?_) (fun hc => ?_) (fun he => ?_) (fun _ => hpar) (fun q hq => ?_) (fun hl => ?_)
    (by rw [hph]; decide)
  · simp [hi]
  · rw [hpc'] at hc
    cases hc
  · rw [hpc'] at hc
    cases hc
  · rw [hph] at he
    cases he
  · rw [hpar] at hq
    cases hq
  · rw [hph] at hl
    cases hl

theorem Inv.forkParent (h : Inv s) (hrun : (s.proc p).state = .RUNNING)
    (hpc : s.pc p = .forking np) :
    Inv ((s.setProc np { s.proc np with parent := some p }).setPc p (.copied np)) := by
  set s' := (s.setProc np { s.proc np with parent := some p }).setPc p (.copied np) with hs'
  have hpc' : s'.pc p = .copied np := setPc_pc.trans (if_pos rfl)
  have hph : s'.ph np = .embryo := by
    rw [← (h.forking p np hpc).1]
    simp [hs', St.ph]
  have hpar : s'.par np = some p := by simp [hs', St.par]
  refine h.forkStep (ph_of_running hrun) (by rw [(h.forking p np hpc).1]; decide) (fun i hi => ?_)
    (fun i hi => setPc_pc.trans (if_neg hi)) (fun i hi => h.not_inFork (Or.inl hpc) hi)
    (fun m hm hf => hm (inFork_unique (Or.inl hpc) hf))
    (fun m hm hf => hm (inFork_unique (Or.inr hpc') hf))
    (fun hc => ?_) (fun _ => ⟨hph, hpar⟩) (fun _ => Or.inr hpc') (fun hu => ?_) (fun q hq => ?_)
    (fun hl => ?_) (by rw [hph]; decide)
  · simp [hs', hi]
  · rw [hpc'] at hc
    cases hc
  · rw [hph] at hu
    cases hu
  · rw [hpar] at hq
    cases hq
    exact ph_of_running hrun
  · rw [hph] at hl
    cases hl

theorem Inv.forkDone (h : Inv s) (hrun : (s.proc p).state = .RUNNING)
    (hpc : s.pc p = .copied np) : Inv ((s.setState np .RUNNABLE).setPc p .user) := by
  have hpc' : ((s.setState np .RUNNABLE).setPc p .user).pc p = .user := setPc_pc.trans (if_pos rfl)
  have hph : ((s.setState np .RUNNABLE).setPc p .user).ph np = .live := by
    simp [St.ph, ProcState.phase]
  have hpar : ((s.setState np .RUNNABLE).setPc p .user).par np = some p := by
    rw [← (h.copied p np hpc).2]
    simp [St.par]
  refine h.forkStep (ph_of_running hrun) (by rw [(h.copied p np hpc).1]; decide) (fun i hi => ?_)
    (fun i hi => setPc_pc.trans (if_neg hi)) (fun i hi => h.not_inFork (Or.inr hpc) hi)
    (fun m hm hf => hm (inFork_unique (Or.inr hpc) hf)) (fun m _ => not_inFork_user hpc' m)
    (fun hc => ?_) (fun hc => ?_) (fun he => ?_) (fun hu => ?_) (fun q hq => ?_) (fun _ => ?_)
    (by rw [hph]; decide)
  · simp [hi]
  · rw [hpc'] at hc
    cases hc
  · rw [hpc'] at hc
    cases hc
  · rw [hph] at he
    cases he
  · rw [hph] at hu
    cases hu
  · rw [hpar] at hq
    cases hq
    exact ph_of_running hrun
  · rw [hpar]
    simp

end Fork

/-! ## `exit` and `wait` -/

section ExitWait

variable {s s' : St} {p i : Fin NPROC}

theorem Woken.sleeping {q q' : Proc} (h : Woken q q') (hs : q'.state = .SLEEPING) :
    q.state = .SLEEPING := by
  rcases h with he | ⟨_, he⟩
  · exact he ▸ hs
  · rw [hs] at he
    cases he

theorem Inv.exit (h : Inv s) (hready : s.Ready p) (hp : p ≠ initproc) (he : Exits p s s') :
    Inv s' := by
  have hlive : s.ph p = .live := ph_of_running hready.1
  have hpc : s'.pc = s.pc := by rw [he.rest]
  have hph : ∀ i, i ≠ p → s'.ph i = s.ph i := fun i hi => (he.state i hi).phase
  have hphp : s'.ph p = .zombie := by rw [St.ph, he.self]; rfl
  have hkeep : ∀ i, i ≠ p → s.ph i = .live → s'.ph i = .live := fun i hi hl => (hph i hi).trans hl
  have hpar : ∀ i, s.par i ≠ some p → s'.par i = s.par i := he.parent
  have hadopt : ∀ i, s.par i = some p → s'.par i = some initproc := he.adopted
  -- the slots of other processes' `fork`s
  have hnot : ∀ np, s.ph np ≠ .live → np ≠ p := fun np hnp hne => hnp (hne ▸ hlive)
  refine ⟨fun i hi => ?_, fun i np hi => ?_, fun i np hi => ?_, fun np hnp => ?_,
    fun i j np hi hj => ?_, fun i hi => ?_, fun i q hq => ?_, fun i hi => ?_, fun i hi hl => ?_,
    hkeep _ hp.symm h.initLive, ?_, fun q c hq hc hz => ?_⟩
  · rw [hpc] at hi
    exact hkeep i (fun hne => hi (hne ▸ hready.2)) (h.live i hi)
  · rw [hpc] at hi
    obtain ⟨h1, h2⟩ := h.forking i np hi
    rw [hph np (hnot np (by rw [h1]; decide)), hpar np (by rw [h2]; simp)]
    exact ⟨h1, h2⟩
  · rw [hpc] at hi
    obtain ⟨h1, h2⟩ := h.copied i np hi
    have hip : i ≠ p := fun hne => by rw [hne, hready.2] at hi; cases hi
    rw [hph np (hnot np (by rw [h1]; decide)), hpar np (by rw [h2]; simpa using hip)]
    exact ⟨h1, h2⟩
  · have hne : np ≠ p := fun hne => by rw [hne, hphp] at hnp; cases hnp
    obtain ⟨i, hi⟩ := h.embryo np (hph np hne ▸ hnp)
    exact ⟨i, by rw [St.InFork, hpc]; exact hi⟩
  · rw [St.InFork, hpc] at hi hj
    exact h.uniq i j np hi hj
  · have hne : i ≠ p := fun hne => by rw [hne, hphp] at hi; cases hi
    have hnone := h.unused i (hph i hne ▸ hi)
    rw [hpar i (by rw [hnone]; simp), hnone]
  · by_cases hc : s.par i = some p
    · rw [hadopt i hc] at hq
      cases hq
      exact hkeep _ hp.symm h.initLive
    · rw [hpar i hc] at hq
      exact hkeep q (fun hne => hc (hne ▸ hq)) (h.parent i q hq)
  · by_cases hc : s.par i = some p
    · rw [hadopt i hc] at hi
      cases hi
      rw [h.initPar] at hc
      cases hc
    · rw [hpar i hc] at hi
      exact h.other i hi
  · by_cases hc : s.par i = some p
    · rw [hadopt i hc]
      simp
    · rw [hpar i hc]
      rcases eq_or_ne i p with rfl | hne
      · exact h.child i hi (Or.inl hlive)
      · exact h.child i hi (hph i hne ▸ hl)
  · rw [hpar _ (by rw [h.initPar]; simp), h.initPar]
  · have hqp : q ≠ p := fun hne => by
      rw [hne, St.Waits, he.self] at hq
      cases hq.1
    -- who still sleeps in `wait` was not woken up
    have hsleep := (he.state q hqp).sleeping hq.1
    have hchan : (s.proc q).chan = some (.proc q) := by
      rw [← (he.kept q).chan]
      exact hq.2
    have hawake : (s'.proc q).state ≠ .RUNNABLE := by rw [hq.1]; decide
    rcases eq_or_ne c p with rfl | hcp
    · rw [hpar c (h.other c)] at hc
      exact hawake (he.woken q hqp hsleep (by rw [hchan, show (s.proc c).parent = some q from hc]; rfl))
    · rw [hph c hcp] at hz
      by_cases hcc : s.par c = some p
      · rw [hadopt c hcc] at hc
        cases hc
        exact hawake (he.wokenInit _ hqp hsleep hchan c hcc (ph_eq_zombie.mp hz))
      · rw [hpar c hcc] at hc
        exact h.waits q c ⟨hsleep, hchan⟩ hc hz

theorem Inv.reap (h : Inv s) (hz : s.ph i = .zombie) : Inv (s.reap i) := by
  have hproc : ∀ j, j ≠ i → (s.reap i).proc j = s.proc j := fun j hj => setProc_proc.trans (if_neg hj)
  have hph : ∀ j, j ≠ i → (s.reap i).ph j = s.ph j := fun j hj => by rw [St.ph, hproc j hj]; rfl
  have hpar : ∀ j, j ≠ i → (s.reap i).par j = s.par j := fun j hj => by rw [St.par, hproc j hj]; rfl
  have hphi : (s.reap i).ph i = .unused := by simp [St.ph, St.reap, ProcState.phase]
  have hpari : (s.reap i).par i = none := by simp [St.par, St.reap]
  have hne : ∀ j, s.ph j ≠ .zombie → j ≠ i := fun j hj he => hj (he ▸ hz)
  have hnz : Phase.live ≠ Phase.zombie ∧ Phase.embryo ≠ Phase.zombie := by decide
  refine ⟨fun j hj => ?_, fun j np hj => ?_, fun j np hj => ?_, fun np hnp => ?_,
    fun j k np hj hk => h.uniq j k np hj hk, fun j hj => ?_, fun j q hq => ?_, fun j hj => ?_,
    fun j hj hl => ?_, ?_, ?_, fun q c hq hc => ?_⟩
  · have := h.live j hj
    rw [hph j (hne j (by rw [this]; exact hnz.1)), this]
  · obtain ⟨h1, h2⟩ := h.forking j np hj
    have hnp := hne np (by rw [h1]; exact hnz.2)
    rw [hph np hnp, hpar np hnp]
    exact ⟨h1, h2⟩
  · obtain ⟨h1, h2⟩ := h.copied j np hj
    have hnp := hne np (by rw [h1]; exact hnz.2)
    rw [hph np hnp, hpar np hnp]
    exact ⟨h1, h2⟩
  · have hnpi : np ≠ i := fun he => by rw [he, hphi] at hnp; cases hnp
    obtain ⟨j, hj⟩ := h.embryo np (hph np hnpi ▸ hnp)
    exact ⟨j, hj⟩
  · rcases eq_or_ne j i with rfl | hji
    · exact hpari
    · rw [hpar j hji]
      exact h.unused j (hph j hji ▸ hj)
  · rcases eq_or_ne j i with rfl | hji
    · rw [hpari] at hq
      cases hq
    · have := h.parent j q (hpar j hji ▸ hq)
      rw [hph q (hne q (by rw [this]; exact hnz.1)), this]
  · rcases eq_or_ne j i with rfl | hji
    · rw [hpari] at hj
      cases hj
    · exact h.other j (hpar j hji ▸ hj)
  · rcases eq_or_ne j i with rfl | hji
    · rw [hphi] at hl
      rcases hl with hl | hl <;> cases hl
    · rw [hpar j hji]
      exact h.child j hj (hph j hji ▸ hl)
  · rw [hph _ (hne _ (by rw [h.initLive]; exact hnz.1)), h.initLive]
  · rw [hpar _ (hne _ (by rw [h.initLive]; exact hnz.1)), h.initPar]
  · rcases eq_or_ne c i with rfl | hci
    · rw [hpari] at hc
      cases hc
    · rw [hpar c hci] at hc
      rw [hph c hci]
      have hqi := hne q (by rw [h.parent c q hc]; exact hnz.1)
      rw [St.Waits, hproc q hqi] at hq
      exact h.waits q c hq hc

end ExitWait

/-- **Every step keeps the family in order.** -/
theorem Inv.step {s s' : St} {a : Act} (h : Inv s) (hs : Step s a s') : Inv s' := by
  cases hs with
  | run p hp => exact h.slot (by rw [St.ph, hp]; rfl) rfl rfl fun hc => by cases hc
  | yield p hp => exact h.slot (ph_of_running hp) rfl rfl fun hc => by cases hc
  | forkAlloc p np hr hnp => exact h.forkAlloc hr hnp
  | forkNone => exact h
  | forkFail p np hr hpc => exact h.forkFail hr hpc
  | forkParent p np hr hpc => exact h.forkParent hr hpc
  | forkDone p np hr hpc => exact h.forkDone hr hpc
  | exit p _ hr hp he => exact h.exit hr hp he
  | reap p i hr hpc hi hz =>
      have hself : Inv ((s.setProc p { s.proc p with chan := none }).setPc p .user) := by
        refine h.self (ph_of_running hr) (by rw [hr]; rfl) rfl (Or.inr ⟨?_, Or.inl rfl⟩)
          fun hc => ?_
        · exact hpc.imp id Or.inl
        · rw [hr] at hc
          cases hc
      refine hself.reap (i := i) ?_
      rw [← ph_eq_zombie.mpr hz, St.ph, setPc_proc, (clearChan_proc s p i).2]
      rfl
  | waitNone p hr hpc =>
      refine h.self (ph_of_running hr) (by rw [hr]; rfl) rfl
        (Or.inr ⟨hpc.imp id Or.inl, Or.inl rfl⟩) fun hc => ?_
      rw [hr] at hc
      cases hc
  | waitSleep p hr hpc hno =>
      refine h.self (ph_of_running hr) rfl rfl
        (Or.inr ⟨hpc.imp id Or.inl, Or.inr (Or.inl rfl)⟩) fun _ _ c hc hz =>
          hno c hc (ph_eq_zombie.mp hz)
  | kill p pid i => exact h.kill i
  | killNone => exact h
  | sleep p addr hr =>
      exact h.self (ph_of_running hr.1) rfl rfl
        (Or.inr ⟨Or.inl hr.2, Or.inr (Or.inr rfl)⟩) fun _ hc => by cases hc
  | resume p hr hpc =>
      refine h.self (ph_of_running hr) (by rw [hr]; rfl) rfl
        (Or.inr ⟨Or.inr (Or.inr hpc), Or.inl rfl⟩) fun hc => ?_
      rw [hr] at hc
      cases hc
  | wakeup addr => exact h.wakeup _
  | settickets p num hr =>
      refine h.slot (ph_of_running hr.1) (by rw [hr.1]; rfl) rfl fun hc => ?_
      rw [hr.1] at hc
      cases hc

theorem Inv.of_reachable {s : St} (h : Reachable s) : Inv s :=
  h.invariant (fun _ _ _ hi hs => hi.step (step_cases hs)) inv_init

end Xv6.Sched
