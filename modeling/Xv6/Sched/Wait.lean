import Xv6.Sched.Family

/-!
# Sched — who exited and who was waited for

The bookkeeping fields against the table: which serial numbers are in
use, what a slot's pid is, and that a process that exited is either still
a ZOMBIE or was reaped, once. Only `allocproc`, `exit` and a `wait` that
finds a zombie touch the books (`Books.alloc`, `Books.exit`,
`Books.reap`); all other steps are one case (`Books.quiet`).
-/

namespace Xv6.Sched

open Lib

structure Books (s : St) : Prop where
  nextpid : s.nextpid = BitVec.ofNat 32 (s.issued + 1)
  le : ∀ i, s.serial i ≤ s.issued
  inj : ∀ i j, s.serial i = s.serial j → s.serial i ≠ 0 → i = j
  pos : ∀ i, s.ph i ≠ .unused → s.serial i ≠ 0
  pid : ∀ i, s.ph i ≠ .unused → (s.proc i).pid = BitVec.ofNat 32 (s.serial i)
  -- a slot that `fork` gave up keeps the pid of the process it was to be
  stale : ∀ i, (s.proc i).pid = 0 ∨ (s.proc i).pid = BitVec.ofNat 32 (s.serial i)
  exitedLe : ∀ e ∈ s.exited, e.1 ≤ s.issued
  exitedNodup : (s.exited.map Prod.fst).Nodup
  reapedNodup : (s.reaped.map Prod.fst).Nodup
  reapedExited : ∀ e ∈ s.reaped, e ∈ s.exited
  zombie : ∀ i, s.ph i = .zombie →
    (s.serial i, (s.proc i).pid) ∈ s.exited ∧ s.serial i ∉ s.reaped.map Prod.fst
  fresh : ∀ i, s.ph i = .live ∨ s.ph i = .embryo → s.serial i ∉ s.exited.map Prod.fst
  kept : ∀ e ∈ s.exited, e ∈ s.reaped ∨
    ∃ i, s.ph i = .zombie ∧ (s.serial i, (s.proc i).pid) = e

theorem books_init : Books St.init := by
  have hserial : ∀ i, St.init.serial i = if i = initproc then 1 else 0 := fun _ => rfl
  have hpid : ∀ i, (St.init.proc i).pid = BitVec.ofNat 32 (St.init.serial i) := fun i => by
    rw [hserial]
    simp only [St.init]
    split <;> rfl
  have hused : ∀ i, St.init.ph i ≠ .unused → i = initproc := fun i hi => by
    by_contra hne
    refine hi ?_
    simp only [St.ph, St.init, if_neg hne]
    rfl
  refine ⟨rfl, fun i => ?_, fun i j h h0 => ?_, fun i hi => ?_, fun i _ => hpid i,
    fun i => Or.inr (hpid i), fun _ h => (by cases h), List.nodup_nil, List.nodup_nil,
    fun _ h => (by cases h), fun i hi => ?_, fun _ _ h => (by cases h), fun _ h => (by cases h)⟩
  · rw [hserial]
    split <;> decide
  · have hi : i = initproc := by
      by_contra hne
      rw [hserial, if_neg hne] at h0
      exact h0 rfl
    have hj : j = initproc := by
      by_contra hne
      rw [h, hserial, if_neg hne] at h0
      exact h0 rfl
    rw [hi, hj]
  · rw [hserial, if_pos (hused i hi)]
    decide
  · have := hused i (by rw [hi]; decide)
    rw [this, inv_init.initLive] at hi
    cases hi

/-! ## The steps -/

section Steps

variable {s s' : St}

/-- The books and the pids of two states are the same. -/
structure SameBooks (s s' : St) : Prop where
  nextpid : s'.nextpid = s.nextpid
  issued : s'.issued = s.issued
  serial : s'.serial = s.serial
  exited : s'.exited = s.exited
  reaped : s'.reaped = s.reaped
  pid : ∀ i, (s'.proc i).pid = (s.proc i).pid

/-- A step that leaves the books alone, at most ending a `fork`. -/
theorem Books.quiet (h : Books s) (hs : SameBooks s s')
    (hph : ∀ i, s'.ph i = s.ph i ∨ s.ph i = .embryo ∧ (s'.ph i = .live ∨ s'.ph i = .unused)) :
    Books s' := by
  have hused : ∀ i, s'.ph i ≠ .unused → s.ph i ≠ .unused := fun i hi => by
    rcases hph i with he | ⟨he, _⟩
    · exact he ▸ hi
    · rw [he]
      decide
  have hz : ∀ i, s'.ph i = .zombie ↔ s.ph i = .zombie := fun i => by
    rcases hph i with he | ⟨he, he' | he'⟩
    · rw [he]
    · simp [he, he']
    · simp [he, he']
  refine ⟨?_, fun i => ?_, fun i j => ?_, fun i hi => ?_, fun i hi => ?_, fun i => ?_, ?_, ?_, ?_,
    ?_, fun i hi => ?_, fun i hi => ?_, fun e he => ?_⟩
  · rw [hs.nextpid, hs.issued]
    exact h.nextpid
  · rw [hs.serial, hs.issued]
    exact h.le i
  · rw [hs.serial]
    exact h.inj i j
  · rw [hs.serial]
    exact h.pos i (hused i hi)
  · rw [hs.serial, hs.pid]
    exact h.pid i (hused i hi)
  · rw [hs.serial, hs.pid]
    exact h.stale i
  · rw [hs.exited, hs.issued]
    exact h.exitedLe
  · rw [hs.exited]
    exact h.exitedNodup
  · rw [hs.reaped]
    exact h.reapedNodup
  · rw [hs.exited, hs.reaped]
    exact h.reapedExited
  · rw [hs.serial, hs.pid, hs.exited, hs.reaped]
    exact h.zombie i ((hz i).mp hi)
  · rw [hs.serial, hs.exited]
    refine h.fresh i ?_
    rcases hph i with he | ⟨he, _⟩
    · exact he ▸ hi
    · exact Or.inr he
  · rw [hs.exited] at he
    rw [hs.reaped, hs.serial]
    rcases h.kept e he with he | ⟨i, hi, he⟩
    · exact Or.inl he
    · exact Or.inr ⟨i, (hz i).mpr hi, by rw [hs.pid, he]⟩

/-- A slot is written, with its pid as it was. -/
theorem Books.slot (h : Books s) {i p : Fin NPROC} {v : Proc} {c : Pc}
    (hpid : v.pid = (s.proc i).pid)
    (hv : v.state.phase = s.ph i ∨
      s.ph i = .embryo ∧ (v.state.phase = .live ∨ v.state.phase = .unused)) :
    Books ((s.setProc i v).setPc p c) := by
  refine h.quiet ⟨rfl, rfl, rfl, rfl, rfl, fun j => ?_⟩ fun j => ?_
  · rw [setPc_proc, setProc_proc]
    split
    · rename_i hj
      rw [hj, hpid]
    · rfl
  · rw [St.ph, setPc_proc, setProc_proc]
    by_cases hj : j = i
    · rw [if_pos hj, hj]
      exact hv
    · rw [if_neg hj]
      exact Or.inl rfl

/-- The same, where the program counters stay. -/
theorem Books.own (h : Books s) {i : Fin NPROC} {v : Proc} (hpid : v.pid = (s.proc i).pid)
    (hv : v.state.phase = s.ph i) : Books (s.setProc i v) := by
  have := h.slot (p := i) (c := s.pc i) hpid (Or.inl hv)
  rwa [show s.pc i = (s.setProc i v).pc i from rfl, setPc_self] at this

/-- `allocproc` issues a pid no slot has. -/
theorem Books.alloc (h : Books s) {np p : Fin NPROC} {c : Pc} (hnp : (s.proc np).state = .UNUSED) :
    Books ((s.alloc np).setPc p c) := by
  obtain ⟨t, ht⟩ : ∃ t, t = (s.alloc np).setPc p c := ⟨_, rfl⟩
  rw [← ht]
  have hother : ∀ i, i ≠ np → t.proc i = s.proc i := fun i hi => by
    rw [ht]
    exact setProc_proc.trans (if_neg hi)
  have hself : t.proc np = { s.proc np with
      state := .EMBRYO, pid := s.nextpid, tickets := INIT_TICKETS } := by
    rw [ht]
    exact setProc_proc.trans (if_pos rfl)
  have hserial : t.serial = Function.update s.serial np (s.issued + 1) := by rw [ht]; rfl
  have hissued : t.issued = s.issued + 1 := by rw [ht]; rfl
  have hexited : t.exited = s.exited := by rw [ht]; rfl
  have hreaped : t.reaped = s.reaped := by rw [ht]; rfl
  have hphself : t.ph np = .embryo := by rw [St.ph, hself]; rfl
  have hphother : ∀ i, i ≠ np → t.ph i = s.ph i := fun i hi => by rw [St.ph, hother i hi]; rfl
  have hserself : t.serial np = s.issued + 1 := by rw [hserial, Function.update_self]
  have hserother : ∀ i, i ≠ np → t.serial i = s.serial i := fun i hi => by
    rw [hserial, Function.update_of_ne hi]
  -- the new serial number is above all others
  have hnew : ∀ e ∈ s.exited, e.1 ≠ s.issued + 1 := fun e he => by
    have := h.exitedLe e he
    omega
  have hz : ∀ i, s.ph i = .zombie → i ≠ np := fun i hi hne => by
    rw [hne, ph_eq_unused.mpr hnp] at hi
    cases hi
  refine ⟨?_, fun i => ?_, fun i j he h0 => ?_, fun i hi => ?_, fun i hi => ?_, fun i => ?_,
    fun e he => ?_, ?_, ?_, ?_, fun i hi => ?_, fun i hi => ?_, fun e he => ?_⟩
  · rw [hissued, ht]
    show s.nextpid + 1 = _
    rw [h.nextpid]
    exact (BitVec.ofNat_add (s.issued + 1) 1).symm
  · rw [hissued]
    rcases eq_or_ne i np with rfl | hi
    · exact hserself.le
    · rw [hserother i hi]
      exact (h.le i).trans (Nat.le_succ _)
  · rcases eq_or_ne i np with rfl | hi <;> rcases eq_or_ne j i with rfl | hji
    · rfl
    · rw [hserself, hserother j hji] at he
      have := h.le j
      omega
    · rfl
    · rw [hserother i hi] at he h0
      rcases eq_or_ne j np with rfl | hj
      · rw [hserself] at he
        have := h.le i
        omega
      · exact h.inj i j (he.trans (hserother j hj)) h0
  · rcases eq_or_ne i np with rfl | hne
    · rw [hserself]
      exact Nat.succ_ne_zero _
    · rw [hserother i hne]
      exact h.pos i (hphother i hne ▸ hi)
  · rcases eq_or_ne i np with rfl | hne
    · rw [hserself, hself]
      exact h.nextpid
    · rw [hserother i hne, hother i hne]
      exact h.pid i (hphother i hne ▸ hi)
  · rcases eq_or_ne i np with rfl | hne
    · rw [hserself, hself]
      exact Or.inr h.nextpid
    · rw [hserother i hne, hother i hne]
      exact h.stale i
  · rw [hissued]
    rw [hexited] at he
    exact (h.exitedLe e he).trans (Nat.le_succ _)
  · rw [hexited]
    exact h.exitedNodup
  · rw [hreaped]
    exact h.reapedNodup
  · rw [hexited, hreaped]
    exact h.reapedExited
  · have hne : i ≠ np := fun hne => by rw [hne, hphself] at hi; cases hi
    rw [hserother i hne, hother i hne, hexited, hreaped]
    exact h.zombie i (hphother i hne ▸ hi)
  · rw [hexited]
    rcases eq_or_ne i np with rfl | hne
    · rw [hserself]
      intro hmem
      obtain ⟨e, he, heq⟩ := List.mem_map.mp hmem
      exact hnew e he heq
    · rw [hserother i hne]
      exact h.fresh i (hphother i hne ▸ hi)
  · rw [hexited] at he
    rw [hreaped]
    rcases h.kept e he with hmem | ⟨i, hi, hie⟩
    · exact Or.inl hmem
    · refine Or.inr ⟨i, ?_, ?_⟩
      · rw [hphother i (hz i hi), hi]
      · rw [hserother i (hz i hi), hother i (hz i hi), hie]

/-- `exit` enters a process that was live, so never one that is entered. -/
theorem Books.exit (h : Books s) {p : Fin NPROC} (hlive : s.ph p = .live) (he : Exits p s s') :
    Books s' := by
  have hph : ∀ i, i ≠ p → s'.ph i = s.ph i := fun i hi => (he.state i hi).phase
  have hphp : s'.ph p = .zombie := ph_eq_zombie.mpr he.self
  have hpid : ∀ i, (s'.proc i).pid = (s.proc i).pid := fun i => (he.kept i).pid
  have hserial : s'.serial = s.serial := by rw [he.rest]
  have hissued : s'.issued = s.issued := by rw [he.rest]
  have hreaped : s'.reaped = s.reaped := by rw [he.rest]
  have hexited : s'.exited = (s.serial p, (s.proc p).pid) :: s.exited := by rw [he.rest]
  have hused : ∀ i, s'.ph i ≠ .unused → s.ph i ≠ .unused := fun i hi => by
    rcases eq_or_ne i p with rfl | hne
    · rw [hlive]
      decide
    · exact hph i hne ▸ hi
  have hfresh := h.fresh p (Or.inl hlive)
  refine ⟨?_, fun i => ?_, fun i j => ?_, fun i hi => ?_, fun i hi => ?_, fun i => ?_,
    fun e hmem => ?_, ?_, ?_, fun e hmem => ?_, fun i hi => ?_, fun i hi hmem => ?_,
    fun e hmem => ?_⟩
  · rw [hissued, he.rest]
    exact h.nextpid
  · rw [hserial, hissued]
    exact h.le i
  · rw [hserial]
    exact h.inj i j
  · rw [hserial]
    exact h.pos i (hused i hi)
  · rw [hserial, hpid]
    exact h.pid i (hused i hi)
  · rw [hserial, hpid]
    exact h.stale i
  · rw [hissued]
    rw [hexited] at hmem
    rcases List.mem_cons.mp hmem with rfl | hmem
    · exact h.le p
    · exact h.exitedLe e hmem
  · rw [hexited]
    exact List.nodup_cons.mpr ⟨hfresh, h.exitedNodup⟩
  · rw [hreaped]
    exact h.reapedNodup
  · rw [hreaped] at hmem
    rw [hexited]
    exact List.mem_cons_of_mem _ (h.reapedExited e hmem)
  · rw [hserial, hpid, hexited, hreaped]
    rcases eq_or_ne i p with rfl | hne
    · refine ⟨List.mem_cons_self, fun hmem => hfresh ?_⟩
      obtain ⟨e, hmem, heq⟩ := List.mem_map.mp hmem
      exact List.mem_map.mpr ⟨e, h.reapedExited e hmem, heq⟩
    · obtain ⟨h1, h2⟩ := h.zombie i (hph i hne ▸ hi)
      exact ⟨List.mem_cons_of_mem _ h1, h2⟩
  · have hne : i ≠ p := fun hne => by
      rw [hne, hphp] at hi
      rcases hi with hi | hi <;> cases hi
    have hi' : s.ph i = .live ∨ s.ph i = .embryo := hph i hne ▸ hi
    rw [hserial, hexited] at hmem
    rcases List.mem_cons.mp hmem with heq | hmem
    · refine hne (h.inj i p heq (h.pos i ?_))
      rcases hi' with hi' | hi' <;> rw [hi'] <;> decide
    · exact h.fresh i hi' hmem
  · rw [hexited] at hmem
    rw [hreaped, hserial]
    rcases List.mem_cons.mp hmem with rfl | hmem
    · exact Or.inr ⟨p, hphp, by rw [hpid]⟩
    · rcases h.kept e hmem with hmem | ⟨i, hi, hie⟩
      · exact Or.inl hmem
      · have hne : i ≠ p := fun hne => by
          rw [hne, hlive] at hi
          cases hi
        exact Or.inr ⟨i, (hph i hne).trans hi, by rw [hpid, hie]⟩

/-- `wait` strikes out a ZOMBIE, so never one that is struck out. -/
theorem Books.reap (h : Books s) {i : Fin NPROC} (hz : s.ph i = .zombie) : Books (s.reap i) := by
  have hother : ∀ j, j ≠ i → (s.reap i).proc j = s.proc j := fun j hj =>
    setProc_proc.trans (if_neg hj)
  have hph : ∀ j, j ≠ i → (s.reap i).ph j = s.ph j := fun j hj => by rw [St.ph, hother j hj]; rfl
  have hphi : (s.reap i).ph i = .unused := by simp [St.ph, St.reap, ProcState.phase]
  have hne : ∀ j, (s.reap i).ph j ≠ .unused → j ≠ i := fun j hj he => hj (he ▸ hphi)
  obtain ⟨hin, hout⟩ := h.zombie i hz
  refine ⟨h.nextpid, h.le, h.inj, fun j hj => ?_, fun j hj => ?_, fun j => ?_, h.exitedLe,
    h.exitedNodup, List.nodup_cons.mpr ⟨hout, h.reapedNodup⟩, fun e he => ?_, fun j hj => ?_,
    fun j hj => ?_, fun e he => ?_⟩
  · exact h.pos j (hph j (hne j hj) ▸ hj)
  · rw [hother j (hne j hj)]
    exact h.pid j (hph j (hne j hj) ▸ hj)
  · rcases eq_or_ne j i with rfl | hji
    · exact Or.inl (by simp [St.reap])
    · rw [hother j hji]
      exact h.stale j
  · rcases List.mem_cons.mp he with rfl | he
    · exact hin
    · exact h.reapedExited e he
  · have hji := hne j (by rw [hj]; decide)
    rw [hph j hji] at hj
    obtain ⟨h1, h2⟩ := h.zombie j hj
    refine ⟨by rw [hother j hji]; exact h1, fun hmem => ?_⟩
    rcases List.mem_cons.mp hmem with heq | hmem
    · exact hji (h.inj j i heq (h.pos j (by rw [hj]; decide)))
    · exact h2 hmem
  · have hji : j ≠ i := fun he => by
      rw [he, hphi] at hj
      rcases hj with hj | hj <;> cases hj
    exact h.fresh j (hph j hji ▸ hj)
  · rcases h.kept e he with hmem | ⟨j, hj, hje⟩
    · exact Or.inl (List.mem_cons_of_mem _ hmem)
    · rcases eq_or_ne j i with rfl | hji
      · exact Or.inl (List.mem_cons.mpr (Or.inl hje.symm))
      · exact Or.inr ⟨j, (hph j hji).trans hj, by rw [hother j hji]; exact hje⟩

/-- **Every step keeps the books.** -/
theorem Books.step {a : Act} (h : Books s) (hinv : Inv s) (hs : Step s a s') : Books s' := by
  cases hs with
  | run p hp => exact h.own rfl (by rw [St.ph, hp]; rfl)
  | yield p hp => exact h.own rfl (by rw [St.ph, hp]; rfl)
  | forkAlloc p np _ hnp => exact h.alloc hnp
  | forkNone => exact h
  | forkFail p np _ hpc =>
      exact h.slot rfl (Or.inr ⟨(hinv.forking p np hpc).1, Or.inr rfl⟩)
  | forkParent => exact h.slot rfl (Or.inl rfl)
  | forkDone p np _ hpc =>
      exact h.slot rfl (Or.inr ⟨(hinv.copied p np hpc).1, Or.inl rfl⟩)
  | exit p _ hr _ he => exact h.exit (ph_of_running hr.1) he
  | reap p i _ _ _ hz =>
      have hself : Books ((s.setProc p { s.proc p with chan := none }).setPc p .user) :=
        h.slot rfl (Or.inl rfl)
      refine hself.reap (i := i) ?_
      rw [← ph_eq_zombie.mpr hz, St.ph, setPc_proc, (clearChan_proc s p i).2]
      rfl
  | waitNone => exact h.slot rfl (Or.inl rfl)
  | waitSleep p hr => exact h.slot rfl (Or.inl (ph_of_running hr).symm)
  | kill p pid i =>
      refine h.own rfl ?_
      rw [St.ph]
      dsimp only
      split
      · rename_i hi
        rw [hi]
        rfl
      · rfl
  | killNone => exact h
  | sleep p _ hr => exact h.slot rfl (Or.inl (ph_of_running hr.1).symm)
  | resume => exact h.slot rfl (Or.inl rfl)
  | wakeup addr =>
      exact h.quiet ⟨rfl, rfl, rfl, rfl, rfl, fun i => (wakeup1_kept s _ i).pid⟩ fun i =>
        Or.inl (wakeup1_woken s _ i).phase
  | settickets => exact h.own rfl rfl

end Steps

theorem Books.of_reachable {s : St} (h : Reachable s) : Books s :=
  (h.invariant (I := fun s => Inv s ∧ Books s)
    (fun _ _ _ hi hs => ⟨hi.1.step (step_cases hs), hi.2.step hi.1 (step_cases hs)⟩)
    ⟨inv_init, books_init⟩).2

/-! ## No child is lost -/

/-- `wait` in a process with a ZOMBIE child reaps one of them: it frees the
slot and returns the pid it found there. -/
theorem wait_reaps {s s' : St} {p i : Fin NPROC} (hi : (s.proc i).parent = some p)
    (hz : (s.proc i).state = .ZOMBIE) (hs : step s (.wait p) = some s') :
    ∃ j, (s.proc j).parent = some p ∧ (s.proc j).state = .ZOMBIE ∧
      (s'.proc j).state = .UNUSED ∧ s'.reaped = (s.serial j, (s.proc j).pid) :: s.reaped := by
  obtain ⟨-, he⟩ := Option.ite_none_right_eq_some.mp hs
  cases he
  unfold wait
  dsimp only
  split
  · rename_i j hj
    have hfound := List.find?_some hj
    simp only [decide_eq_true_eq, (clearChan_proc s p j).1, (clearChan_proc s p j).2] at hfound
    have hpid : ((s.setProc p { s.proc p with chan := none }).proc j).pid = (s.proc j).pid := by
      rw [setProc_proc]
      split
      · rename_i hjp
        rw [hjp]
      · rfl
    refine ⟨j, hfound.1, hfound.2, by simp [St.reap], ?_⟩
    show (s.serial j, _) :: s.reaped = _
    rw [hpid]
  · rename_i hno
    have := List.find?_eq_none.mp hno i (List.mem_finRange i)
    simp only [decide_eq_true_eq, (clearChan_proc s p i).1, (clearChan_proc s p i).2] at this
    exact absurd ⟨hi, hz⟩ this

theorem ph_eq_live {s : St} {i : Fin NPROC} (h : s.ph i = .live) :
    (s.proc i).state ≠ .UNUSED ∧ (s.proc i).state ≠ .ZOMBIE := by
  constructor <;> intro he <;> rw [St.ph, he] at h <;> cases h

/-- A zombie still has a parent to wait for it. -/
theorem Inv.zombie_parent {s : St} (h : Inv s) {i : Fin NPROC} (hz : s.ph i = .zombie) :
    ∃ q, (s.proc i).parent = some q ∧ s.ph q = .live := by
  have hne : i ≠ initproc := fun he => by
    rw [he, h.initLive] at hz
    cases hz
  obtain ⟨q, hq⟩ := Option.ne_none_iff_exists'.mp (h.child i hne (Or.inr hz))
  exact ⟨q, hq, h.parent i q hq⟩

/-- **`exit` and `wait` never lose a child.** In every reachable state a
parent is neither UNUSED nor ZOMBIE, and no process sleeps in `wait` with
a ZOMBIE child. A process exits once; from then on it is either a ZOMBIE
with such a parent and not reaped, or it was reaped once, with its own
pid. A `wait` that meets a ZOMBIE child reaps one. -/
theorem exit_wait_no_lost_child {s : St} (h : Reachable s) :
    (∀ i q, i ≠ initproc → (s.proc i).state ≠ .UNUSED → (s.proc i).parent = some q →
      (s.proc q).state ≠ .UNUSED ∧ (s.proc q).state ≠ .ZOMBIE) ∧
    (∀ p c, (s.proc p).state = .SLEEPING → (s.proc p).chan = some (.proc p) →
      (s.proc c).parent = some p → (s.proc c).state ≠ .ZOMBIE) ∧
    ((s.exited.map Prod.fst).Nodup ∧ (∀ e ∈ s.reaped, e ∈ s.exited) ∧
      ∀ e ∈ s.exited,
        (s.reaped.count e = 1 ∧ ∀ i, (s.proc i).state = .ZOMBIE → s.serial i ≠ e.1) ∨
        (s.reaped.count e = 0 ∧ ∃ i q, (s.proc i).state = .ZOMBIE ∧
          (s.serial i, (s.proc i).pid) = e ∧ (s.proc i).parent = some q ∧
          (s.proc q).state ≠ .UNUSED ∧ (s.proc q).state ≠ .ZOMBIE)) ∧
    (∀ p i s', (s.proc i).parent = some p → (s.proc i).state = .ZOMBIE →
      step s (.wait p) = some s' →
      ∃ j, (s.proc j).parent = some p ∧ (s.proc j).state = .ZOMBIE ∧
        (s'.proc j).state = .UNUSED ∧ s'.reaped = (s.serial j, (s.proc j).pid) :: s.reaped) := by
  have hinv := Inv.of_reachable h
  have hbooks := Books.of_reachable h
  refine ⟨fun i q _ _ hq => ph_eq_live (hinv.parent i q hq), fun p c hs hc hpar hz => ?_,
    ⟨hbooks.exitedNodup, hbooks.reapedExited, fun e he => ?_⟩,
    fun p i s' hi hz hs => wait_reaps hi hz hs⟩
  · exact hinv.waits p c ⟨hs, hc⟩ hpar (ph_eq_zombie.mpr hz)
  · rcases hbooks.kept e he with hmem | ⟨i, hi, rfl⟩
    · refine Or.inl ⟨List.count_eq_one_of_mem hbooks.reapedNodup.of_map hmem, fun i hi heq => ?_⟩
      refine (hbooks.zombie i (ph_eq_zombie.mpr hi)).2 ?_
      rw [heq]
      exact List.mem_map.mpr ⟨e, hmem, rfl⟩
    · refine Or.inr ⟨List.count_eq_zero.mpr fun hmem => ?_, ?_⟩
      · exact (hbooks.zombie i hi).2 (List.mem_map.mpr ⟨_, hmem, rfl⟩)
      · obtain ⟨q, hq, hlive⟩ := hinv.zombie_parent hi
        exact ⟨i, q, ph_eq_zombie.mp hi, rfl, hq, ph_eq_live hlive⟩

/-- init forks a child, which exits, and waits for it. -/
def exitWaitRun : List Act :=
  [.run 0, .forkAlloc 0, .forkParent 0, .forkDone 0, .wait 0, .run 1, .exit 1, .run 0, .wait 0]

theorem exit_wait_no_lost_child_run :
    ∃ s, execAll step .init exitWaitRun = some s ∧ Reachable s ∧ s.exited = [(2, 2)] ∧
      ((s.reaped.count (2, 2) = 1 ∧ ∀ i, (s.proc i).state = .ZOMBIE → s.serial i ≠ 2) ∨
        (s.reaped.count (2, 2) = 0 ∧ ∃ i q, (s.proc i).state = .ZOMBIE ∧
          (s.serial i, (s.proc i).pid) = (2, 2) ∧ (s.proc i).parent = some q ∧
          (s.proc q).state ≠ .UNUSED ∧ (s.proc q).state ≠ .ZOMBIE)) := by
  have hrun : (execAll step .init exitWaitRun).map (fun s => decide (s.exited = [(2, 2)])) =
      some true := by decide +kernel
  obtain ⟨s, hs, hd⟩ := Option.map_eq_some_iff.mp hrun
  have hexited : s.exited = [(2, 2)] := of_decide_eq_true hd
  have hreach : Reachable s := reaches_of_execAll hs
  exact ⟨s, hs, hreach, hexited,
    (exit_wait_no_lost_child hreach).2.2.1.2.2 (2, 2) (by rw [hexited]; exact List.mem_singleton.mpr rfl)⟩

end Xv6.Sched
