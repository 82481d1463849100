import Xv6.Sched.Table

/-!
# Sched — what a step does to a slot

Each step changes few fields of few slots. The lemmas here say what it
does to the slot at `i`, so that invariants need not look at the
functions again. The loop of `exit` is summed up by `foldl_adopt_proc`.
-/

namespace Xv6.Sched

open Lib

section Slots

variable {s : St} {i j p : Fin NPROC} {v : Proc} {c : Pc}

@[simp] theorem setProc_proc : (s.setProc j v).proc i = if i = j then v else s.proc i := by
  simp [St.setProc, Function.update_apply]

@[simp] theorem setProc_pc : (s.setProc j v).pc = s.pc := rfl

@[simp] theorem setState_proc {st : ProcState} :
    (s.setState j st).proc i = if i = j then { s.proc j with state := st } else s.proc i :=
  setProc_proc

@[simp] theorem setPc_proc : (s.setPc j c).proc = s.proc := rfl

@[simp] theorem setPc_pc : (s.setPc j c).pc i = if i = j then c else s.pc i := by
  simp [St.setPc, Function.update_apply]

/-- `wakeup1` changes the state of sleepers and nothing else. -/
theorem wakeup1_proc (s : St) (chan : Option Chan) (i : Fin NPROC) :
    (wakeup1 s chan).proc i =
      { s.proc i with
        state := if (s.proc i).state = .SLEEPING ∧ (s.proc i).chan = chan then .RUNNABLE
          else (s.proc i).state } := by
  simp only [wakeup1]
  split <;> rfl

/-- A process may have been woken up. -/
def Woken (p p' : Proc) : Prop :=
  p'.state = p.state ∨ (p.state = .SLEEPING ∧ p'.state = .RUNNABLE)

theorem Woken.trans {p p₁ p₂ : Proc} (h₁ : Woken p p₁) (h₂ : Woken p₁ p₂) : Woken p p₂ := by
  rcases h₁ with h₁ | ⟨h₁, h₁'⟩
  · rcases h₂ with h₂ | ⟨h₂, h₂'⟩
    · exact Or.inl (h₂.trans h₁)
    · exact Or.inr ⟨h₁ ▸ h₂, h₂'⟩
  · rcases h₂ with h₂ | ⟨h₂, _⟩
    · exact Or.inr ⟨h₁, h₂.trans h₁'⟩
    · rw [h₁'] at h₂
      cases h₂

theorem Woken.zombie_iff {p p' : Proc} (h : Woken p p') : p'.state = .ZOMBIE ↔ p.state = .ZOMBIE := by
  rcases h with h | ⟨h, h'⟩
  · rw [h]
  · simp [h, h']

theorem wakeup1_woken (s : St) (chan : Option Chan) (i : Fin NPROC) :
    Woken (s.proc i) ((wakeup1 s chan).proc i) := by
  rw [wakeup1_proc]
  by_cases h : (s.proc i).state = .SLEEPING ∧ (s.proc i).chan = chan
  · exact Or.inr ⟨h.1, if_pos h⟩
  · exact Or.inl (if_neg h)

/-- The fields that `exit` and `wakeup` leave alone. -/
structure Kept (p p' : Proc) : Prop where
  pid : p'.pid = p.pid
  chan : p'.chan = p.chan
  killed : p'.killed = p.killed
  tickets : p'.tickets = p.tickets

theorem Kept.refl (p : Proc) : Kept p p := ⟨rfl, rfl, rfl, rfl⟩

theorem Kept.trans {p p₁ p₂ : Proc} (h₁ : Kept p p₁) (h₂ : Kept p₁ p₂) : Kept p p₂ :=
  ⟨h₂.pid.trans h₁.pid, h₂.chan.trans h₁.chan, h₂.killed.trans h₁.killed,
    h₂.tickets.trans h₁.tickets⟩

theorem wakeup1_kept (s : St) (chan : Option Chan) (i : Fin NPROC) :
    Kept (s.proc i) ((wakeup1 s chan).proc i) := by
  rw [wakeup1_proc]
  exact ⟨rfl, rfl, rfl, rfl⟩

theorem wakeup1_parent (s : St) (chan : Option Chan) (i : Fin NPROC) :
    ((wakeup1 s chan).proc i).parent = (s.proc i).parent := by rw [wakeup1_proc]

theorem wakeup1_runnable {s : St} {chan : Option Chan} {i : Fin NPROC}
    (hs : (s.proc i).state = .SLEEPING) (hc : (s.proc i).chan = chan) :
    ((wakeup1 s chan).proc i).state = .RUNNABLE := by
  rw [wakeup1_proc]
  exact if_pos ⟨hs, hc⟩

/-- What the loop of `exit` does over the slots of `l`: every child goes
to init, which is woken up if one of them is a zombie. -/
structure Adopts (p : Fin NPROC) (l : List (Fin NPROC)) (s s' : St) : Prop where
  rest : s' = { s with proc := s'.proc }
  kept : ∀ i, Kept (s.proc i) (s'.proc i)
  adopted : ∀ i ∈ l, (s.proc i).parent = some p → (s'.proc i).parent = some initproc
  parent : ∀ i, ¬(i ∈ l ∧ (s.proc i).parent = some p) → (s'.proc i).parent = (s.proc i).parent
  state : ∀ i, Woken (s.proc i) (s'.proc i)
  woken : ∀ j ∈ l, (s.proc j).parent = some p → (s.proc j).state = .ZOMBIE →
    ∀ i, (s.proc i).state = .SLEEPING → (s.proc i).chan = some (.proc initproc) →
      (s'.proc i).state = .RUNNABLE

theorem adopts_nil (p : Fin NPROC) (s : St) : Adopts p [] s s :=
  ⟨rfl, fun _ => .refl _, fun _ h => (List.not_mem_nil h).elim, fun _ _ => rfl,
    fun _ => Or.inl rfl, fun _ h => (List.not_mem_nil h).elim⟩

theorem adopts_one (p : Fin NPROC) (s : St) (j : Fin NPROC) : Adopts p [j] s (adopt p s j) := by
  unfold adopt
  by_cases hj : (s.proc j).parent = some p
  · rw [if_pos hj]
    set s₁ := s.setProc j { s.proc j with parent := some initproc } with hs₁
    have hother : ∀ i, i ≠ j → s₁.proc i = s.proc i := fun i hi => by rw [hs₁, setProc_proc, if_neg hi]
    have hself : s₁.proc j = { s.proc j with parent := some initproc } := by
      rw [hs₁, setProc_proc, if_pos rfl]
    have hkept : ∀ i, Kept (s.proc i) (s₁.proc i) := fun i => by
      rcases eq_or_ne i j with rfl | hi
      · rw [hself]
        exact ⟨rfl, rfl, rfl, rfl⟩
      · rw [hother i hi]
        exact .refl _
    have hstate : ∀ i, (s₁.proc i).state = (s.proc i).state := fun i => by
      rcases eq_or_ne i j with rfl | hi
      · rw [hself]
      · rw [hother i hi]
    have hadopted : ∀ i ∈ [j], (s₁.proc i).parent = some initproc := fun i hi => by
      rw [List.mem_singleton.mp hi, hself]
    have hparent : ∀ i, ¬(i ∈ [j] ∧ (s.proc i).parent = some p) →
        (s₁.proc i).parent = (s.proc i).parent := fun i hi => by
      rw [hother i fun h => hi ⟨by simp [h], h ▸ hj⟩]
    dsimp only
    rw [hstate]
    by_cases hz : (s.proc j).state = .ZOMBIE
    · rw [if_pos hz]
      refine ⟨rfl, fun i => (hkept i).trans (wakeup1_kept ..), fun i hi _ => ?_, fun i hi => ?_,
        fun i => ?_, fun _ _ _ _ i hi hc => ?_⟩
      · rw [wakeup1_parent, hadopted i hi]
      · rw [wakeup1_parent, hparent i hi]
      · have := wakeup1_woken s₁ (some (.proc initproc)) i
        rwa [Woken, hstate i] at this
      · exact wakeup1_runnable ((hstate i).trans hi) ((hkept i).chan.trans hc)
    · rw [if_neg hz]
      refine ⟨rfl, hkept, fun i hi _ => hadopted i hi, hparent, fun i => Or.inl (hstate i),
        fun k hk _ hzk => ?_⟩
      rw [List.mem_singleton.mp hk] at hzk
      exact absurd hzk hz
  · rw [if_neg hj]
    refine ⟨rfl, fun _ => .refl _, fun i hi hpar => ?_, fun _ _ => rfl, fun _ => Or.inl rfl,
      fun k hk hpar => ?_⟩
    · rw [List.mem_singleton.mp hi] at hpar
      exact absurd hpar hj
    · rw [List.mem_singleton.mp hk] at hpar
      exact absurd hpar hj

theorem Adopts.cons (hp : p ≠ initproc) {l : List (Fin NPROC)} {s₁ s₂ : St}
    (h₁ : Adopts p [j] s s₁) (h₂ : Adopts p l s₁ s₂) : Adopts p (j :: l) s s₂ := by
  -- the slot of the first round is no child any more
  have hself : (s₁.proc j).parent ≠ some p := by
    by_cases hj : (s.proc j).parent = some p
    · rw [h₁.adopted j (by simp) hj]
      exact fun h => hp (Option.some.inj h).symm
    · rwa [h₁.parent j fun h => hj h.2]
  have hother : ∀ i, i ≠ j → (s₁.proc i).parent = (s.proc i).parent := fun i hi =>
    h₁.parent i fun h => hi (List.mem_singleton.mp h.1)
  -- a process that was woken up stays awake
  have hstay : ∀ i, (s₁.proc i).state = .RUNNABLE → (s₂.proc i).state = .RUNNABLE := fun i hi => by
    rcases h₂.state i with h | ⟨h, _⟩
    · exact h.trans hi
    · rw [hi] at h
      cases h
  refine ⟨?_, fun i => (h₁.kept i).trans (h₂.kept i), fun i hi hpar => ?_, fun i hi => ?_,
    fun i => (h₁.state i).trans (h₂.state i), fun k hk hpar hz i hi hc => ?_⟩
  · rw [h₂.rest, h₁.rest]
  · rcases eq_or_ne i j with rfl | hne
    · rw [h₂.parent i fun h => hself h.2]
      exact h₁.adopted i (by simp) hpar
    · exact h₂.adopted i ((List.mem_cons.mp hi).resolve_left hne) ((hother i hne).trans hpar)
  · rcases eq_or_ne i j with rfl | hne
    · rw [h₂.parent i fun h => hself h.2]
      exact h₁.parent i fun h => hi ⟨by simp, h.2⟩
    · rw [h₂.parent i fun h => hi ⟨List.mem_cons_of_mem j h.1, (hother i hne) ▸ h.2⟩, hother i hne]
  · rcases eq_or_ne k j with rfl | hne
    · exact hstay i (h₁.woken k (by simp) hpar hz i hi hc)
    · rcases h₁.state i with h | ⟨_, h⟩
      · exact h₂.woken k ((List.mem_cons.mp hk).resolve_left hne) ((hother k hne).trans hpar)
          ((h₁.state k).zombie_iff.mpr hz) i (h.trans hi) ((h₁.kept i).chan.trans hc)
      · exact hstay i h

/-- **The loop of `exit`.** -/
theorem adopts_foldl (hp : p ≠ initproc) (l : List (Fin NPROC)) (s : St) :
    Adopts p l s (l.foldl (adopt p) s) := by
  induction l generalizing s with
  | nil => exact adopts_nil p s
  | cons j l ih => exact (adopts_one p s j).cons hp (ih (adopt p s j))

/-- What `exit` does. -/
structure Exits (p : Fin NPROC) (s s' : St) : Prop where
  rest : s' = { s with proc := s'.proc, exited := (s.serial p, (s.proc p).pid) :: s.exited }
  kept : ∀ i, Kept (s.proc i) (s'.proc i)
  adopted : ∀ i, (s.proc i).parent = some p → (s'.proc i).parent = some initproc
  parent : ∀ i, (s.proc i).parent ≠ some p → (s'.proc i).parent = (s.proc i).parent
  self : (s'.proc p).state = .ZOMBIE
  state : ∀ i, i ≠ p → Woken (s.proc i) (s'.proc i)
  woken : ∀ i, i ≠ p → (s.proc i).state = .SLEEPING →
    (s.proc i).chan = (s.proc p).parent.map .proc → (s'.proc i).state = .RUNNABLE
  wokenInit : ∀ i, i ≠ p → (s.proc i).state = .SLEEPING → (s.proc i).chan = some (.proc initproc) →
    ∀ j, (s.proc j).parent = some p → (s.proc j).state = .ZOMBIE → (s'.proc i).state = .RUNNABLE

theorem exit_exits (hp : p ≠ initproc) (s : St) : Exits p s (exit s p) := by
  obtain ⟨s₁, hs₁⟩ : ∃ s₁, s₁ = wakeup1 s ((s.proc p).parent.map .proc) := ⟨_, rfl⟩
  obtain ⟨s₂, hs₂⟩ : ∃ s₂, s₂ = (List.finRange NPROC).foldl (adopt p) s₁ := ⟨_, rfl⟩
  have h : Adopts p (List.finRange NPROC) s₁ s₂ := hs₂ ▸ adopts_foldl hp _ s₁
  have hw : ∀ i, Woken (s.proc i) (s₁.proc i) := hs₁ ▸ wakeup1_woken s _
  have hkept₁ : ∀ i, Kept (s.proc i) (s₁.proc i) := hs₁ ▸ wakeup1_kept s _
  have hpar₁ : ∀ i, (s₁.proc i).parent = (s.proc i).parent := hs₁ ▸ wakeup1_parent s _
  have hrest₁ : s₁ = { s with proc := s₁.proc } := hs₁ ▸ rfl
  have hexit : exit s p =
      { s₂.setState p .ZOMBIE with exited := (s₂.serial p, (s₂.proc p).pid) :: s₂.exited } := by
    rw [hs₂, hs₁]
    rfl
  have hother : ∀ i, i ≠ p → (exit s p).proc i = s₂.proc i := fun i hi => by
    rw [hexit]
    exact setState_proc.trans (if_neg hi)
  have hself : (exit s p).proc p = { s₂.proc p with state := .ZOMBIE } := by
    rw [hexit]
    exact setState_proc.trans (if_pos rfl)
  have hparent : ∀ i, ((exit s p).proc i).parent = (s₂.proc i).parent := fun i => by
    rcases eq_or_ne i p with rfl | hi
    · rw [hself]
    · rw [hother i hi]
  have hkept : ∀ i, Kept (s₂.proc i) ((exit s p).proc i) := fun i => by
    rcases eq_or_ne i p with rfl | hi
    · rw [hself]
      exact ⟨rfl, rfl, rfl, rfl⟩
    · rw [hother i hi]
      exact .refl _
  -- a process woken by the first call stays awake
  have hstay : ∀ i, (s₁.proc i).state = .RUNNABLE → (s₂.proc i).state = .RUNNABLE := fun i hi => by
    rcases h.state i with h' | ⟨h', _⟩
    · exact h'.trans hi
    · rw [hi] at h'
      cases h'
  refine ⟨?_, fun i => ((hkept₁ i).trans (h.kept i)).trans (hkept i), fun i hi => ?_,
    fun i hi => ?_, by rw [hself], fun i hi => ?_, fun i hi hs hc => ?_,
    fun i hi hs hc j hj hz => ?_⟩
  · have hpid : (s₂.proc p).pid = (s.proc p).pid := ((hkept₁ p).trans (h.kept p)).pid
    have hrest : s₂ = { s with proc := s₂.proc } := by
      rw [h.rest, hrest₁]
    rw [hexit, hpid, hrest]
    rfl
  · rw [hparent i]
    exact h.adopted i (List.mem_finRange i) ((hpar₁ i).trans hi)
  · rw [hparent i, h.parent i fun hc => hi ((hpar₁ i) ▸ hc.2), hpar₁ i]
  · rw [hother i hi]
    exact (hw i).trans (h.state i)
  · rw [hother i hi]
    refine hstay i ?_
    rw [hs₁]
    exact wakeup1_runnable hs hc
  · rw [hother i hi]
    rcases hw i with h' | ⟨_, h'⟩
    · exact h.woken j (List.mem_finRange j) ((hpar₁ j).trans hj) ((hw j).zombie_iff.mpr hz) i
        (h'.trans hs) ((hkept₁ i).chan.trans hc)
    · exact hstay i h'

end Slots

/-! ## Inversion -/

/-- What each enabled action does, with what it found. -/
inductive Step (s : St) : Act → St → Prop
  | run (p) (h : (s.proc p).state = .RUNNABLE) : Step s (.run p) (s.setState p .RUNNING)
  | yield (p) (h : (s.proc p).state = .RUNNING) : Step s (.yield p) (s.setState p .RUNNABLE)
  | forkAlloc (p np) (h : s.Ready p) (hnp : (s.proc np).state = .UNUSED) :
      Step s (.forkAlloc p) ((s.alloc np).setPc p (.forking np))
  | forkNone (p) (h : s.Ready p) : Step s (.forkAlloc p) s
  | forkFail (p np) (h : (s.proc p).state = .RUNNING) (hpc : s.pc p = .forking np) :
      Step s (.forkFail p) ((s.setState np .UNUSED).setPc p .user)
  | forkParent (p np) (h : (s.proc p).state = .RUNNING) (hpc : s.pc p = .forking np) :
      Step s (.forkParent p)
        ((s.setProc np { s.proc np with parent := some p }).setPc p (.copied np))
  | forkDone (p np) (h : (s.proc p).state = .RUNNING) (hpc : s.pc p = .copied np) :
      Step s (.forkDone p) ((s.setState np .RUNNABLE).setPc p .user)
  | exit (p s') (h : s.Ready p) (hp : p ≠ initproc) (he : Exits p s s') : Step s (.exit p) s'
  | reap (p i) (h : (s.proc p).state = .RUNNING) (hpc : s.pc p = .user ∨ s.pc p = .waiting)
      (hi : (s.proc i).parent = some p) (hz : (s.proc i).state = .ZOMBIE) :
      Step s (.wait p) (((s.setProc p { s.proc p with chan := none }).reap i).setPc p .user)
  | waitNone (p) (h : (s.proc p).state = .RUNNING) (hpc : s.pc p = .user ∨ s.pc p = .waiting) :
      Step s (.wait p) ((s.setProc p { s.proc p with chan := none }).setPc p .user)
  | waitSleep (p) (h : (s.proc p).state = .RUNNING) (hpc : s.pc p = .user ∨ s.pc p = .waiting)
      (hno : ∀ i, (s.proc i).parent = some p → (s.proc i).state ≠ .ZOMBIE) :
      Step s (.wait p) ((s.setProc p
        { s.proc p with chan := some (.proc p), state := .SLEEPING }).setPc p .waiting)
  | kill (p pid i) (h : s.Ready p) (hi : (s.proc i).pid = pid) :
      Step s (.kill p pid) (s.setProc i { s.proc i with
        killed := true
        state := if (s.proc i).state = .SLEEPING then .RUNNABLE else (s.proc i).state })
  | killNone (p pid) (h : s.Ready p) : Step s (.kill p pid) s
  | sleep (p addr) (h : s.Ready p) :
      Step s (.sleep p addr) ((s.setProc p
        { s.proc p with chan := some (.other addr), state := .SLEEPING }).setPc p .asleep)
  | resume (p) (h : (s.proc p).state = .RUNNING) (hpc : s.pc p = .asleep) :
      Step s (.resume p) ((s.setProc p { s.proc p with chan := none }).setPc p .user)
  | wakeup (addr) : Step s (.wakeup addr) (wakeup1 s (some (.other addr)))
  | settickets (p num) (h : s.Ready p) :
      Step s (.settickets p num) (s.setProc p { s.proc p with tickets := num })

theorem unused_eq_some {s : St} {np : Fin NPROC} (h : s.unused = some np) :
    (s.proc np).state = .UNUSED := by
  simpa using List.find?_some h

theorem lookup_eq_some {s : St} {pid : BitVec 32} {i : Fin NPROC} (h : s.lookup pid = some i) :
    (s.proc i).pid = pid := by
  simpa using List.find?_some h

/-- In `wait`, clearing `chan` changes neither parents nor states. -/
theorem clearChan_proc (s : St) (p i : Fin NPROC) :
    ((s.setProc p { s.proc p with chan := none }).proc i).parent = (s.proc i).parent ∧
      ((s.setProc p { s.proc p with chan := none }).proc i).state = (s.proc i).state := by
  rw [setProc_proc]
  split
  · rename_i h
    rw [h]
    exact ⟨rfl, rfl⟩
  · exact ⟨rfl, rfl⟩

/-- **What a step can be.** -/
theorem step_cases {s s' : St} {a : Act} (h : step s a = some s') : Step s a s' := by
  cases a with
  | run p =>
      obtain ⟨hg, he⟩ := Option.ite_none_right_eq_some.mp h
      cases he
      exact .run p hg
  | yield p =>
      obtain ⟨hg, he⟩ := Option.ite_none_right_eq_some.mp h
      cases he
      exact .yield p hg
  | forkAlloc p =>
      obtain ⟨hg, he⟩ := Option.ite_none_right_eq_some.mp h
      cases he
      unfold forkAlloc
      split
      · rename_i np hnp
        exact .forkAlloc p np hg (unused_eq_some hnp)
      · exact .forkNone p hg
  | forkFail p =>
      simp only [step] at h
      split at h
      · rename_i np hpc
        obtain ⟨hg, he⟩ := Option.ite_none_right_eq_some.mp h
        cases he
        exact .forkFail p np hg hpc
      · cases h
  | forkParent p =>
      simp only [step] at h
      split at h
      · rename_i np hpc
        obtain ⟨hg, he⟩ := Option.ite_none_right_eq_some.mp h
        cases he
        exact .forkParent p np hg hpc
      · cases h
  | forkDone p =>
      simp only [step] at h
      split at h
      · rename_i np hpc
        obtain ⟨hg, he⟩ := Option.ite_none_right_eq_some.mp h
        cases he
        exact .forkDone p np hg hpc
      · cases h
  | exit p =>
      obtain ⟨hg, he⟩ := Option.ite_none_right_eq_some.mp h
      cases he
      exact .exit p _ hg.1 hg.2 (exit_exits hg.2 s)
  | wait p =>
      obtain ⟨hg, he⟩ := Option.ite_none_right_eq_some.mp h
      cases he
      unfold wait
      dsimp only
      split
      · rename_i i hi
        have hz := List.find?_some hi
        simp only [decide_eq_true_eq, (clearChan_proc s p i).1, (clearChan_proc s p i).2] at hz
        exact .reap p i hg.1 hg.2 hz.1 hz.2
      · rename_i hi
        split
        · exact .waitNone p hg.1 hg.2
        · have hno : ∀ i, (s.proc i).parent = some p → (s.proc i).state ≠ .ZOMBIE := by
            intro i hpar hz
            have := List.find?_eq_none.mp hi i (List.mem_finRange i)
            simp only [decide_eq_true_eq, (clearChan_proc s p i).1, (clearChan_proc s p i).2] at this
            exact this ⟨hpar, hz⟩
          have hset : (s.setProc p { s.proc p with chan := none }).setProc p
              { (s.setProc p { s.proc p with chan := none }).proc p with
                chan := some (.proc p), state := .SLEEPING } =
              s.setProc p { s.proc p with chan := some (.proc p), state := .SLEEPING } := by
            simp [St.setProc]
          rw [hset]
          exact .waitSleep p hg.1 hg.2 hno
  | kill p pid =>
      obtain ⟨hg, he⟩ := Option.ite_none_right_eq_some.mp h
      cases he
      unfold kill
      split
      · rename_i i hi
        exact .kill p pid i hg (lookup_eq_some hi)
      · exact .killNone p pid hg
  | sleep p addr =>
      obtain ⟨hg, he⟩ := Option.ite_none_right_eq_some.mp h
      cases he
      exact .sleep p addr hg
  | resume p =>
      obtain ⟨hg, he⟩ := Option.ite_none_right_eq_some.mp h
      cases he
      exact .resume p hg.1 hg.2
  | wakeup addr =>
      cases h
      exact .wakeup addr
  | settickets p num =>
      obtain ⟨hg, he⟩ := Option.ite_none_right_eq_some.mp h
      cases he
      exact .settickets p num hg

end Xv6.Sched
