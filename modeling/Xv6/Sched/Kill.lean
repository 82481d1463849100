import Xv6.Sched.Wait

/-!
# Sched — whom `kill` reaches

`kill` compares pids and looks at no state. An UNUSED slot has pid zero,
or the pid of a `fork` that failed after `allocproc`, so `kill` can find
one, mark it and report success; and the mark stays for the process that
gets the slot next, since `allocproc` does not clear `killed`.

`kill_reaches_named` says when `kill` does what it is for, and which runs
hand out unmarked slots only.
-/

namespace Xv6.Sched

open Lib

/-- `kill(pid)` reaches exactly the process named. -/
structure KillsNamed (s : St) (pid : BitVec 32) : Prop where
  ret : (kill s pid).1 = 0 ↔ ∃ i, (s.proc i).state ≠ .UNUSED ∧ (s.proc i).pid = pid
  one : ∀ i, (s.proc i).state ≠ .UNUSED → (s.proc i).pid = pid →
    ((kill s pid).2.proc i).killed = true ∧ ∀ j, j ≠ i → (kill s pid).2.proc j = s.proc j
  none : (∀ i, (s.proc i).state ≠ .UNUSED → (s.proc i).pid ≠ pid) →
    (kill s pid).1 = -1 ∧ (kill s pid).2 = s

/-- No UNUSED slot has this pid. -/
def St.NoStale (s : St) (pid : BitVec 32) : Prop :=
  ∀ i, (s.proc i).state = .UNUSED → (s.proc i).pid ≠ pid

instance (s : St) (pid : BitVec 32) : Decidable (s.NoStale pid) :=
  inferInstanceAs (Decidable (∀ _, _))

/-! ## One call -/

section Call

variable {s : St} {pid : BitVec 32} {i j : Fin NPROC}

theorem lookup_isSome (h : (s.proc i).pid = pid) : ∃ j, s.lookup pid = some j := by
  have : (s.lookup pid).isSome := by
    rw [St.lookup, List.find?_isSome]
    exact ⟨i, List.mem_finRange i, by simpa using h⟩
  exact Option.isSome_iff_exists.mp this

theorem kill_of_lookup (h : s.lookup pid = some i) :
    (kill s pid).1 = 0 ∧ ((kill s pid).2.proc i).killed = true ∧
      ∀ j, j ≠ i → (kill s pid).2.proc j = s.proc j := by
  simp only [kill, h]
  refine ⟨trivial, ?_, fun j hj => setProc_proc.trans (if_neg hj)⟩
  rw [setProc_proc, if_pos rfl]

theorem kill_of_lookup_none (h : s.lookup pid = Option.none) : kill s pid = (-1, s) := by
  simp only [kill, h]

/-- Below 2^31 issued pids, a pid tells the serial number. -/
theorem Books.pid_inj (h : Books s) (hi : s.issued < 2 ^ 31)
    (hpi : (s.proc i).pid = BitVec.ofNat 32 (s.serial i))
    (hpj : (s.proc j).pid = BitVec.ofNat 32 (s.serial j)) (he : (s.proc i).pid = (s.proc j).pid)
    (h0 : s.serial i ≠ 0) : i = j := by
  have hli := h.le i
  have hlj := h.le j
  refine h.inj i j ?_ h0
  rw [hpi, hpj] at he
  have := congrArg BitVec.toNat he
  simp only [BitVec.toNat_ofNat] at this
  omega

theorem Books.kill_named_iff (h : Books s) (hi : s.issued < 2 ^ 31) :
    KillsNamed s pid ↔ s.NoStale pid := by
  constructor
  · intro hk i hu hp
    obtain ⟨j, hj⟩ := lookup_isSome hp
    -- the call returns 0, so a process has this pid as well
    obtain ⟨k, hku, hkp⟩ := hk.ret.mp (kill_of_lookup hj).1
    have hk' := h.pid k (fun he => hku (ph_eq_unused.mp he))
    have hpos := h.pos k (fun he => hku (ph_eq_unused.mp he))
    have hne : (s.proc k).pid ≠ 0 := fun h0 => by
      have hlk := h.le k
      rw [hk'] at h0
      have : s.serial k % 2 ^ 32 = 0 := congrArg BitVec.toNat h0
      omega
    have hi' := (h.stale i).resolve_left (by rw [hp, ← hkp]; exact hne)
    have := h.pid_inj hi hk' hi' (hkp.trans hp.symm) hpos
    exact hku (this ▸ hu)
  · intro hs
    have hfound : ∀ i, s.lookup pid = some i → (s.proc i).state ≠ .UNUSED ∧ (s.proc i).pid = pid :=
      fun i hl => ⟨fun hu => hs i hu (lookup_eq_some hl), lookup_eq_some hl⟩
    refine ⟨⟨fun h0 => ?_, fun ⟨i, _, hp⟩ => ?_⟩, fun i hu hp => ?_, fun hno => ?_⟩
    · by_contra hno
      have hnone : s.lookup pid = Option.none := by
        by_contra hl
        obtain ⟨i, hl⟩ := Option.ne_none_iff_exists'.mp hl
        exact hno ⟨i, hfound i hl⟩
      rw [kill_of_lookup_none hnone] at h0
      cases h0
    · obtain ⟨j, hj⟩ := lookup_isSome hp
      exact (kill_of_lookup hj).1
    · obtain ⟨j, hj⟩ := lookup_isSome hp
      obtain ⟨hju, hjp⟩ := hfound j hj
      have hji : j = i := h.pid_inj hi (h.pid j fun he => hju (ph_eq_unused.mp he))
        (h.pid i fun he => hu (ph_eq_unused.mp he)) (hjp.trans hp.symm)
        (h.pos j fun he => hju (ph_eq_unused.mp he))
      exact hji ▸ (kill_of_lookup hj).2
    · have hnone : s.lookup pid = Option.none := by
        by_contra hl
        obtain ⟨i, hl⟩ := Option.ne_none_iff_exists'.mp hl
        exact hno i (hfound i hl).1 (hfound i hl).2
      rw [kill_of_lookup_none hnone]
      exact ⟨rfl, rfl⟩

end Call

/-! ## Runs -/

/-- A `kill` names no UNUSED slot, and no `fork` fails whose child was
killed meanwhile. -/
def cleanAct (s : St) : Act → Bool
  | .kill _ pid => decide (s.NoStale pid)
  | .forkFail p =>
      match s.pc p with
      | .forking np => !(s.proc np).killed
      | _ => true
  | _ => true

/-- The system with such steps only. -/
def cleanStep : St → Act → Option St := guarded (fun s a => cleanAct s a = true) step

/-- No UNUSED slot is marked. -/
def St.Unmarked (s : St) : Prop := ∀ i, (s.proc i).state = .UNUSED → (s.proc i).killed = false

theorem unmarked_init : St.init.Unmarked := by
  intro i _
  simp only [St.init]
  split <;> rfl

/-- A write to one slot keeps the others. -/
theorem St.Unmarked.slot {s : St} (h : s.Unmarked) {i p : Fin NPROC} {v : Proc} {c : Pc}
    (hv : v.state = .UNUSED → v.killed = false) : ((s.setProc i v).setPc p c).Unmarked := by
  intro j hj
  rw [setPc_proc, setProc_proc] at hj ⊢
  by_cases hji : j = i
  · rw [if_pos hji] at hj ⊢
    exact hv hj
  · rw [if_neg hji] at hj ⊢
    exact h j hj

theorem St.Unmarked.own {s : St} (h : s.Unmarked) {i : Fin NPROC} {v : Proc}
    (hv : v.state = .UNUSED → v.killed = false) : (s.setProc i v).Unmarked := by
  have := h.slot (i := i) (p := i) (c := s.pc i) hv
  rwa [show s.pc i = (s.setProc i v).pc i from rfl, setPc_self] at this

theorem unmarked_step {s s' : St} {a : Act} (h : s.Unmarked) (hclean : cleanAct s a = true)
    (hs : Step s a s') : s'.Unmarked := by
  have hrunning : ∀ {p}, (s.proc p).state = .RUNNING → (s.proc p).state ≠ .UNUSED := fun hr => by
    rw [hr]
    decide
  cases hs with
  | run | yield => exact h.own fun hc => by cases hc
  | forkAlloc p np => exact fun j hj => h.slot (i := np) (p := p) (c := .user) (fun hc => by cases hc) j hj
  | forkNone | killNone => exact h
  | forkFail p np _ hpc =>
      refine h.slot fun _ => ?_
      simpa [cleanAct, hpc] using hclean
  | forkParent p np => exact h.slot (h np)
  | forkDone => exact h.slot fun hc => by cases hc
  | exit p _ hr _ he =>
      intro i hi
      rw [(he.kept i).killed]
      refine h i ?_
      rcases eq_or_ne i p with rfl | hne
      · rw [he.self] at hi
        cases hi
      · rcases he.state i hne with hst | ⟨_, hst⟩
        · exact hst ▸ hi
        · rw [hi] at hst
          cases hst
  | reap p i hr =>
      have hself : (s.setProc p { s.proc p with chan := none }).Unmarked :=
        h.own fun hc => absurd hc (hrunning hr)
      exact fun j hj => hself.slot (i := i) (p := p) (c := .user) (fun _ => rfl) j hj
  | waitNone p hr => exact h.slot fun hc => absurd hc (hrunning hr)
  | waitSleep | sleep => exact h.slot fun hc => by cases hc
  | kill p pid i _ hi =>
      have hstale : s.NoStale pid := by simpa [cleanAct] using hclean
      refine h.own fun hc => ?_
      dsimp only at hc
      split at hc
      · cases hc
      · exact absurd hi (hstale i hc)
  | resume p hr => exact h.slot fun hc => absurd hc (hrunning hr)
  | wakeup addr =>
      intro i hi
      rw [(wakeup1_kept s _ i).killed]
      refine h i ?_
      rcases wakeup1_woken s (some (.other addr)) i with hst | ⟨_, hst⟩
      · exact hst ▸ hi
      · rw [hi] at hst
        cases hst
  | settickets p num hr => exact h.own fun hc => absurd hc (hrunning hr.1)

theorem unmarked_of_reaches {s : St} (h : Reaches cleanStep St.init s) : s.Unmarked :=
  h.invariant (fun _ _ _ hu hs => by
    obtain ⟨hclean, hstep⟩ := guarded_eq_some.mp hs
    exact unmarked_step hu hclean (step_cases hstep)) unmarked_init

/-- **`kill` reaches the process named, exactly when no UNUSED slot has
the pid**: in every reachable table with fewer than 2^31 pids issued. And
along every run in which all calls of `kill` are such, and no `fork` fails
whose child was killed meanwhile, the slot that `allocproc` takes is not
marked. -/
theorem kill_reaches_named {s : St} (h : Reachable s) (hi : s.issued < 2 ^ 31) :
    (∀ pid, KillsNamed s pid ↔ s.NoStale pid) ∧
      (Reaches cleanStep St.init s →
        ∀ np, s.unused = some np → ((s.alloc np).proc np).killed = false) := by
  refine ⟨fun pid => (Books.of_reachable h).kill_named_iff hi, fun hc np hnp => ?_⟩
  have := unmarked_of_reaches hc np (unused_eq_some hnp)
  simpa [St.alloc] using this

/-- Init calls `kill(0)`. It returns 0 although no process has pid 0, and
the next `fork` takes a marked slot. -/
theorem kill_marks_unused :
    ∃ s s' np, Reachable s ∧ s.issued < 2 ^ 31 ∧
      (kill s 0).1 = 0 ∧ (∀ i, (s.proc i).state ≠ .UNUSED → (s.proc i).pid ≠ 0) ∧
      step s (.kill 0 0) = some s' ∧ Reachable s' ∧ s'.unused = some np ∧
      ((s'.alloc np).proc np).killed = true := by
  have hrun : (execAll step .init [.run 0]).map (fun s => decide (s.issued < 2 ^ 31 ∧
      (kill s 0).1 = 0 ∧ (∀ i, (s.proc i).state ≠ .UNUSED → (s.proc i).pid ≠ 0))) =
      some true := by decide +kernel
  have hnext : (execAll step .init [.run 0, .kill 0 0]).map (fun s => decide (
      s.unused = some 1 ∧ ((s.alloc 1).proc 1).killed = true)) = some true := by decide +kernel
  obtain ⟨s, hs, hd⟩ := Option.map_eq_some_iff.mp hrun
  obtain ⟨s', hs', hd'⟩ := Option.map_eq_some_iff.mp hnext
  obtain ⟨h1, h2, h3⟩ := of_decide_eq_true hd
  obtain ⟨h4, h5⟩ := of_decide_eq_true hd'
  have hsplit : execAll step .init ([.run 0] ++ [.kill 0 0]) = some s' := hs'
  obtain ⟨t, ht, hk⟩ := execAll_append_eq_some.mp hsplit
  obtain rfl : s = t := Option.some.inj (hs.symm.trans ht)
  obtain ⟨t', hk', hnil⟩ := execAll_cons_eq_some.mp hk
  obtain rfl : t' = s' := by simpa [execAll] using hnil
  exact ⟨s, t', 1, reaches_of_execAll hs, h1, h2, h3, hk', reaches_of_execAll hs', h4, h5⟩

/-- Init kills the child it forked: pid 2 names it, and the slot after it
is not marked. -/
theorem kill_reaches_named_child :
    ∃ s, Reachable s ∧ s.issued < 2 ^ 31 ∧ s.NoStale 2 ∧ KillsNamed s 2 ∧
      s.unused = some 2 ∧ ((s.alloc 2).proc 2).killed = false := by
  have hrun : (execAll cleanStep .init
      [.run 0, .forkAlloc 0, .forkParent 0, .forkDone 0, .kill 0 2]).map (fun s =>
      decide (s.issued < 2 ^ 31 ∧ s.NoStale 2 ∧ s.unused = some 2)) = some true := by decide +kernel
  obtain ⟨s, hs, hd⟩ := Option.map_eq_some_iff.mp hrun
  obtain ⟨h1, h2, h3⟩ := of_decide_eq_true hd
  have hclean : Reaches cleanStep St.init s := reaches_of_execAll hs
  have hreach : Reachable s := hclean.of_guarded
  exact ⟨s, hreach, h1, h2, ((kill_reaches_named hreach h1).1 2).mpr h2, h3,
    (kill_reaches_named hreach h1).2 hclean 2 h3⟩

end Xv6.Sched
