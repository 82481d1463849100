import Xv6.Pipe.Fifo

/-!
# Pipe — sleeping and waking up

A reader sleeps for a byte or the end of the file, a writer for room or
the last reader to go. Who makes one of these true still holds `p->lock`,
and OWES a wakeup (`Pc.owes`): every way out of the section has to pay it
before the lock is released. One way does not: a `pipewrite` that has
stored bytes, finds the pipe full and was killed returns -1 at once.
`pipe_no_lost_wakeup` is about the runs in which this does not happen.
-/

namespace Xv6.Pipe

open Lib

variable {P : Type}

/-! ## What sleepers wait for -/

/-- What a process that sleeps on a channel found before. -/
def St.Cond (s : St P) : Chan → Prop
  | .nread => s.Empty ∧ s.writeopen = true
  | .nwrite => s.Full ∧ s.readopen = true

/-- The wakeups that a section of `p->lock` still has to make. -/
def Pc.owes : Pc → Chan → Prop
  | .test f, .nread | .check f, .nread => f.dirty = true ∧ f.call.chan = .nwrite
  | .wakeFull _, .nread => True
  | .copy _, .nwrite => True
  | .wake f, c => f.call.wakes = c
  | .closeWake w, c => (if w then Chan.nread else .nwrite) = c
  | _, _ => False

theorem owes_check {f : Frame} {c : Chan} : (Pc.check f).owes c ↔ (Pc.test f).owes c := by
  cases c <;> rfl

/-- A process sleeps on `c`, or is about to, with `ptable.lock` held. -/
def St.Asleep (s : St P) (p : P) (c : Chan) : Prop :=
  s.sleeping p = some c ∨ ∃ f, s.pc p = .mark f ∧ f.call.chan = c

/-- Sleepers on `c` sleep rightly, or will be woken up. -/
def St.SleepOk (s : St P) (c : Chan) : Prop :=
  s.Cond c ∨ ∃ h, s.lock = some h ∧ (s.pc h).owes c

/-- What a process on its way to sleep has tested, under `p->lock`. -/
def Pc.Tested (s : St P) : Pc → Prop
  | .check f => match f.call with
      | .write .. => s.Full
      | .read _ => s.Empty ∧ s.writeopen = true
  | .wakeFull f | .lockTable f | .unlock f => s.Cond f.call.chan
  | _ => True

structure Wakes (s : St P) : Prop where
  slept : ∀ p c, s.Asleep p c → s.SleepOk c
  tested : ∀ p, (s.pc p).Tested s
  asleep : ∀ p c, s.sleeping p = some c → ∃ f, s.pc p = .asleep f ∧ f.call.chan = c

/-- The open files: a call has one, and an end is closed without. -/
structure Files (s : St P) : Prop where
  calls : ∀ q f, (s.pc q).frame = some f → s.files f.call.end = true
  closers : ∀ q w, (s.pc q).frame = none → (s.pc q).end? = some w → s.files w = false
  readopen : s.readopen = false → s.files false = false

theorem wakes_init : Wakes (St.init : St P) :=
  ⟨fun p c h => (by rcases h with h | ⟨f, h, _⟩ <;> cases h), fun _ => trivial,
    fun p c h => (by cases h)⟩

theorem files_init : Files (St.init : St P) :=
  ⟨fun _ _ h => (by cases h), fun _ _ _ h => (by cases h), fun h => (by cases h)⟩

theorem end?_of_frame {pc : Pc} {f : Frame} (h : pc.frame = some f) :
    pc.end? = some f.call.end := by
  cases pc <;> cases h <;> simp only [Pc.end?, Pc.frame, Option.map_some] <;>
    cases f.call <;> rfl

section Steps

variable [DecidableEq P] {s s' : St P} {q : P} {pc : Pc}

theorem Files.move (h : Files s) (hpc : s'.pc = Function.update s.pc q pc)
    (hfiles : s'.files = s.files) (hread : s'.readopen = s.readopen)
    (hframe : ∀ g, pc.frame = some g → ∃ f, (s.pc q).frame = some f ∧ g.call = f.call)
    (hclose : ∀ w, pc.frame = none → pc.end? = some w →
      (s.pc q).frame = none ∧ (s.pc q).end? = some w) : Files s' := by
  refine ⟨fun p g hg => ?_, fun p w hn hw => ?_, by rw [hread, hfiles]; exact h.readopen⟩
  · rw [hfiles]
    rw [hpc] at hg
    rcases eq_or_ne p q with rfl | hp
    · rw [Function.update_self] at hg
      obtain ⟨f, hf, hc⟩ := hframe g hg
      rw [hc]
      exact h.calls p f hf
    · rw [Function.update_of_ne hp] at hg
      exact h.calls p g hg
  · rw [hfiles]
    rw [hpc] at hn hw
    rcases eq_or_ne p q with rfl | hp
    · rw [Function.update_self] at hn hw
      obtain ⟨h1, h2⟩ := hclose w hn hw
      exact h.closers p w h1 h2
    · rw [Function.update_of_ne hp] at hn hw
      exact h.closers p w hn hw

theorem Files.step {a : Act P} (h : Files s) (hs : Step s a s') : Files s' := by
  cases hs with
  | kill | skip => exact ⟨h.calls, h.closers, h.readopen⟩
  | call q c hpc hf =>
      refine ⟨fun p g hg => ?_, fun p w hn hw => ?_, h.readopen⟩
      · simp only [St.goto] at hg
        rcases eq_or_ne p q with rfl | hp
        · rw [Function.update_self] at hg
          cases hg
          exact hf
        · rw [Function.update_of_ne hp] at hg
          exact h.calls p g hg
      · simp only [St.goto] at hn hw
        rcases eq_or_ne p q with rfl | hp
        · rw [Function.update_self] at hn
          cases hn
        · rw [Function.update_of_ne hp] at hn hw
          exact h.closers p w hn hw
  | close q w hpc hf hno =>
      have hkeep : ∀ v, v ≠ w → Function.update s.files w false v = s.files v := fun v hv =>
        Function.update_of_ne hv _ _
      refine ⟨fun p g hg => ?_, fun p v hn hv => ?_, fun hr => ?_⟩
      · simp only [St.goto] at hg
        rcases eq_or_ne p q with rfl | hp
        · rw [Function.update_self] at hg
          cases hg
        · rw [Function.update_of_ne hp] at hg
          have hne : g.call.end ≠ w := fun he => hno p (he ▸ end?_of_frame hg)
          exact (hkeep _ hne).trans (h.calls p g hg)
      · simp only [St.goto] at hn hv
        show Function.update s.files w false v = false
        rcases eq_or_ne v w with rfl | hvw
        · exact Function.update_self _ _ _
        · rw [hkeep v hvw]
          rcases eq_or_ne p q with rfl | hp
          · rw [Function.update_self] at hv
            cases hv
            exact absurd rfl hvw
          · rw [Function.update_of_ne hp] at hn hv
            exact h.closers p v hn hv
      · show Function.update s.files w false false = false
        by_cases hw : false = w
        · rw [hw, Function.update_self]
        · rw [hkeep _ hw]
          exact h.readopen hr
  | closeRead q hpc =>
      have hfile : s.files false = false := h.closers q false (by rw [hpc]; rfl) (by rw [hpc]; rfl)
      have hmove : Files (s.goto q (.closeWake false)) :=
        h.move rfl rfl rfl (fun g hg => by cases hg) fun w _ hw => by
          cases hw
          exact ⟨by rw [hpc]; rfl, by rw [hpc]; rfl⟩
      exact ⟨hmove.calls, hmove.closers, fun _ => hfile⟩
  | ret q f r hpc | closeRet q w hpc =>
      exact h.move rfl rfl rfl (fun g hg => by cases hg) fun w _ hw => by cases hw
  | closing q w hpc | closeWake q w hpc | closeWrite q hpc =>
      refine h.move rfl rfl rfl (fun g hg => by cases hg) fun v _ hv => ?_
      cases hv
      exact ⟨by rw [hpc]; rfl, by rw [hpc]; rfl⟩
  | store q f addr n hpc | full q f addr n hpc | stored q f addr n hpc | stuck q f addr n hpc
  | empty q f n hpc | copying q f n hpc | wait q f n hpc | pop q f n hpc | copied q f n hpc
  | fail q f hpc | acquire q f hpc | wakeFull q f hpc | lockTable q f hpc | unlock q f hpc
  | mark q f hpc | resume q f hpc | wake q f hpc =>
      refine h.move rfl rfl rfl (fun g hg => ?_) fun w hn => by cases hn
      cases hg
      exact ⟨f, by rw [hpc]; rfl, rfl⟩

/-! ## One step -/

/-- The pipe itself is as before. -/
structure SamePipe (s s' : St P) : Prop where
  ring : s'.ring = s.ring
  readopen : s'.readopen = s.readopen
  writeopen : s'.writeopen = s.writeopen

omit [DecidableEq P] in
theorem SamePipe.cond (h : SamePipe s s') (c : Chan) : s'.Cond c ↔ s.Cond c := by
  cases c <;> simp only [St.Cond, St.Empty, St.Full, h.ring, h.readopen, h.writeopen]

omit [DecidableEq P] in
theorem SamePipe.tested (h : SamePipe s s') (pc : Pc) : pc.Tested s' ↔ pc.Tested s := by
  cases pc <;> simp only [Pc.Tested, St.Empty, St.Full, h.ring, h.writeopen, h.cond]

/-- **A process takes a step**: what the others tested stays true if the
pipe is as before, or if the process holds `p->lock`. -/
theorem Wakes.move (h : Wakes s) (hlocks : Locks s) (hpc : s'.pc = Function.update s.pc q pc)
    (hpipe : SamePipe s s' ∨ (s.pc q).locked = true)
    (hslept : ∀ p c, s'.Asleep p c → s'.SleepOk c) (htested : pc.Tested s')
    (hasleep : ∀ c, s'.sleeping q = some c → ∃ f, pc = .asleep f ∧ f.call.chan = c)
    (hothers : ∀ p c, p ≠ q → s'.sleeping p = some c → s.sleeping p = some c) : Wakes s' := by
  refine ⟨hslept, fun p => ?_, fun p c hc => ?_⟩
  · rw [hpc]
    rcases eq_or_ne p q with rfl | hp
    · rw [Function.update_self]
      exact htested
    · rw [Function.update_of_ne hp]
      rcases hpipe with hsame | hlocked
      · exact (hsame.tested _).mpr (h.tested p)
      · -- only the holder of the lock is on its way to sleep
        have hout : (s.pc p).locked = false := by
          by_contra hl
          exact hp (hlocks.lock.unique (by simpa using hl) hlocked)
        cases hpp : s.pc p <;> rw [hpp] at hout <;> trivial
  · rw [hpc]
    rcases eq_or_ne p q with rfl | hp
    · rw [Function.update_self]
      exact hasleep c hc
    · rw [Function.update_of_ne hp]
      exact h.asleep p c (hothers p c hp hc)

/-- Who sleeps after the step slept before it, if the process does not go
to sleep in it. -/
theorem asleep_of_move (hpc : s'.pc = Function.update s.pc q pc) (hmark : ∀ f, pc ≠ .mark f)
    (hsleep : ∀ p c, s'.sleeping p = some c → s.sleeping p = some c) {p : P} {c : Chan}
    (h : s'.Asleep p c) : s.Asleep p c := by
  rcases h with h | ⟨f, hf, hc⟩
  · exact Or.inl (hsleep p c h)
  · rw [hpc] at hf
    rcases eq_or_ne p q with rfl | hp
    · rw [Function.update_self] at hf
      exact absurd hf (hmark f)
    · rw [Function.update_of_ne hp] at hf
      exact Or.inr ⟨f, hf, hc⟩

/-- Debts are kept while the lock is: the process owes what it owed. -/
theorem St.SleepOk.keep {c : Chan} (h : s.SleepOk c) (hpc : s'.pc = Function.update s.pc q pc)
    (hpipe : SamePipe s s') (hlock : s'.lock = s.lock) (howes : (s.pc q).owes c → pc.owes c) :
    s'.SleepOk c := by
  rcases h with h | ⟨p, hl, ho⟩
  · exact Or.inl ((hpipe.cond c).mpr h)
  · refine Or.inr ⟨p, hlock.trans hl, ?_⟩
    rw [hpc]
    rcases eq_or_ne p q with rfl | hp
    · rw [Function.update_self]
      exact howes ho
    · rw [Function.update_of_ne hp]
      exact ho

omit [DecidableEq P] in
/-- The holder owes nothing here, so the sleepers sleep rightly. -/
theorem St.SleepOk.cond {c : Chan} (h : s.SleepOk c) (hlocks : Locks s)
    (hlocked : (s.pc q).locked = true) (howes : ¬ (s.pc q).owes c) : s.Cond c := by
  rcases h with h | ⟨p, hl, ho⟩
  · exact h
  · have hp : p = q := Option.some.inj (hl.symm.trans ((hlocks.lock q).mp hlocked))
    exact absurd (hp ▸ ho) howes

omit [DecidableEq P] in
theorem Wakes.awake (h : Wakes s) (hpc : ∀ f, s.pc q ≠ .asleep f) : s.sleeping q = none := by
  by_contra hne
  obtain ⟨c, hc⟩ := Option.ne_none_iff_exists'.mp hne
  obtain ⟨f, hf, -⟩ := h.asleep q c hc
  exact hpc f hf

/-- A step that touches neither the pipe nor `p->lock`, wakes nobody up and
puts nobody to sleep. -/
theorem Wakes.quiet (h : Wakes s) (hlocks : Locks s) (hpc : s'.pc = Function.update s.pc q pc)
    (hpipe : SamePipe s s') (hlock : s'.lock = s.lock) (hsleep : s'.sleeping = s.sleeping)
    (hidle : s.sleeping q = none) (hmark : ∀ f, pc ≠ .mark f)
    (howes : ∀ c, (s.pc q).owes c → pc.owes c) (htested : pc.Tested s) : Wakes s' := by
  have hsl : ∀ p c, s'.sleeping p = some c → s.sleeping p = some c := fun p c hc => hsleep ▸ hc
  refine h.move hlocks hpc (Or.inl hpipe) (fun p c hp => ?_) ((hpipe.tested pc).mpr htested)
    (fun c hc => ?_) fun p c _ => hsl p c
  · exact St.SleepOk.keep (h.slept p c (asleep_of_move hpc hmark hsl hp)) hpc hpipe hlock (howes c)
  · rw [hsleep, hidle] at hc
    cases hc

/-- A process gets `p->lock`: it was free, so who sleeps sleeps rightly. -/
theorem Wakes.acquire (h : Wakes s) (hlocks : Locks s) (hpc : s'.pc = Function.update s.pc q pc)
    (hpipe : SamePipe s s') (hfree : s.lock = none) (hsleep : s'.sleeping = s.sleeping)
    (hidle : s.sleeping q = none) (hmark : ∀ f, pc ≠ .mark f) (htested : pc.Tested s) :
    Wakes s' := by
  have hsl : ∀ p c, s'.sleeping p = some c → s.sleeping p = some c := fun p c hc => hsleep ▸ hc
  refine h.move hlocks hpc (Or.inl hpipe) (fun p c hp => ?_) ((hpipe.tested pc).mpr htested)
    (fun c hc => ?_) fun p c _ => hsl p c
  · rcases h.slept p c (asleep_of_move hpc hmark hsl hp) with hc | ⟨x, hx, -⟩
    · exact Or.inl ((hpipe.cond c).mpr hc)
    · rw [hfree] at hx
      cases hx
  · rw [hsleep, hidle] at hc
    cases hc

/-- A step that makes a wakeup. `ptable.lock` is free, so nobody is about
to sleep. -/
theorem Wakes.wakeup (h : Wakes s) (hlocks : Locks s) {chan : Chan}
    (ht : s.tableLock = none) (hlocked : (s.pc q).locked = true)
    (howes : ∀ c, c ≠ chan → ¬ (s.pc q).owes c) (htested : pc.Tested s)
    (hmark : ∀ f, pc ≠ .mark f) (hidle : s.sleeping q = none) :
    Wakes ((s.wakeup chan).goto q pc) := by
  have hsame : SamePipe s ((s.wakeup chan).goto q pc) := ⟨rfl, rfl, rfl⟩
  have hsl : ∀ p c, ((s.wakeup chan).goto q pc).sleeping p = some c →
      s.sleeping p = some c ∧ c ≠ chan := fun p c hc => by
    simp only [St.goto, St.wakeup] at hc
    split at hc
    · cases hc
    · rename_i hne
      exact ⟨hc, fun he => hne (he ▸ hc)⟩
  refine h.move hlocks rfl (Or.inl hsame) (fun p c hp => ?_)
    ((hsame.tested pc).mpr htested) (fun c hc => ?_) fun p c _ hc => (hsl p c hc).1
  · have hpre := asleep_of_move (s := s) (q := q) rfl hmark (fun p c hc => (hsl p c hc).1)
      hp
    have hne : c ≠ chan := by
      rcases hp with hp | ⟨f, hf, -⟩
      · exact (hsl p c hp).2
      · exfalso
        have htab : (s.pc p).tabled = true := by
          rcases eq_or_ne p q with rfl | hpq
          · simp only [St.goto, Function.update_self] at hf
            exact absurd hf (hmark f)
          · simp only [St.goto, St.wakeup, Function.update_of_ne hpq] at hf
            rw [hf]
            rfl
        have := (hlocks.table p).mp htab
        rw [ht] at this
        cases this
    exact Or.inl ((hsame.cond c).mpr (St.SleepOk.cond (h.slept p c hpre) hlocks hlocked (howes c hne)))
  · rw [(hsl q c hc).1] at hidle
    cases hidle

/-- The holder of `p->lock` changes the pipe, or lets go of the lock. -/
theorem Wakes.section (h : Wakes s) (hlocks : Locks s) (hpc : s'.pc = Function.update s.pc q pc)
    (hlocked : (s.pc q).locked = true) (hsleep : s'.sleeping = s.sleeping)
    (hmark : ∀ f, pc ≠ .mark f)
    (hok : ∀ c p, s.Asleep p c → s.SleepOk c → s'.SleepOk c) (htested : pc.Tested s') :
    Wakes s' := by
  have hsl : ∀ p c, s'.sleeping p = some c → s.sleeping p = some c := fun p c hc => hsleep ▸ hc
  have hawake : s.sleeping q = none := h.awake fun f hf => by
    rw [hf] at hlocked
    cases hlocked
  refine h.move hlocks hpc (Or.inr hlocked) (fun p c hp => ?_) htested (fun c hc => ?_)
    fun p c _ => hsl p c
  · have hpre := asleep_of_move hpc hmark hsl hp
    exact hok c p hpre (h.slept p c hpre)
  · rw [hsleep, hawake] at hc
    cases hc

/-- No `pipewrite` gives up because it was killed after it stored a byte
in this section. -/
def clean (s : St P) : Act P → Bool
  | .go q =>
      match s.pc q with
      | .check f => match f.call with
          | .write .. => !(f.dirty && s.readopen && s.killed q)
          | .read _ => true
      | _ => true
  | _ => true

/-- The pipe is full when a `pipewrite` gives up. Nobody sleeps on
`&p->nread` if it stored a byte in this section and there are no readers. -/
theorem Wakes.fail (h : Wakes s) (hlocks : Locks s) (hfiles : Files s) {f : Frame}
    (hq : s.pc q = .check f) (hclean : clean s (.go q) = true)
    (hk : s.killed q = true ∨ s.readopen = false ∧ ∃ addr n, f.call = .write addr n) :
    Wakes (s.goto q (.ret f (-1))) := by
  have hsame : SamePipe s (s.goto q (.ret f (-1))) := ⟨rfl, rfl, rfl⟩
  have hlocked : (s.pc q).locked = true := by rw [hq]; rfl
  refine h.section hlocks rfl hlocked rfl (fun g hg => by cases hg)
    (fun c p hp hok => Or.inl ((hsame.cond c).mpr ?_)) trivial
  by_cases howes : (s.pc q).owes c
  · exfalso
    rw [hq] at howes
    cases c with
    | nwrite => cases howes
    | nread =>
        -- the debt is left unpaid only without a reader
        obtain ⟨hdirty, hchan⟩ := howes
        have hunpaid : s.readopen = false ∨ s.killed q = false := by
          cases hcall : f.call with
          | write addr n => simpa [clean, hq, hcall, hdirty, imp_iff_or_not] using hclean
          | read n =>
              rw [hcall] at hchan
              cases hchan
        have hro : s.readopen = false := by
          rcases hk with hk | hk
          · exact hunpaid.resolve_right (by rw [hk]; decide)
          · exact hk.1
        have hreader : ∃ g, (s.pc p).frame = some g ∧ g.call.chan = .nread := by
          rcases hp with hp | ⟨g, hg, hc⟩
          · obtain ⟨g, hg, hc⟩ := h.asleep p _ hp
            exact ⟨g, by rw [hg]; rfl, hc⟩
          · exact ⟨g, by rw [hg]; rfl, hc⟩
        obtain ⟨g, hg, hc⟩ := hreader
        have hend : g.call.end = false := by
          cases hcall : g.call with
          | write addr n =>
              rw [hcall] at hc
              cases hc
          | read n => rfl
        have hfile := hfiles.calls p g hg
        rw [hend, hfiles.readopen hro] at hfile
        cases hfile
  · exact hok.cond hlocks hlocked howes

/-- **Every clean step pays its debts before it lets go of the lock.** -/
theorem Wakes.step {a : Act P} (h : Wakes s) (hlocks : Locks s) (hfiles : Files s)
    (hclean : clean s a = true) (hs : Step s a s') : Wakes s' := by
  have hawake : ∀ {q pc}, s.pc q = pc → (∀ f, pc ≠ .asleep f) → s.sleeping q = none :=
    fun hpc hne => h.awake fun f hf => hne f (hpc.symm.trans hf)
  cases hs with
  | skip => exact h
  | kill q =>
      have hsl : ∀ p c, Function.update s.sleeping q none p = some c → s.sleeping p = some c :=
        fun p c hc => by
          rcases eq_or_ne p q with rfl | hp
          · rw [Function.update_self] at hc
            cases hc
          · rwa [Function.update_of_ne hp] at hc
      exact ⟨fun p c hp => h.slept p c (hp.imp (hsl p c) id), h.tested,
        fun p c hc => h.asleep p c (hsl p c hc)⟩
  | call q c hpc | close q w hpc =>
      exact h.quiet hlocks rfl ⟨rfl, rfl, rfl⟩ rfl rfl (hawake hpc fun f hf => by cases hf)
        (fun f hf => by cases hf) (fun c ho => by rw [hpc] at ho; cases ho) trivial
  | acquire q f hpc hl | closing q w hpc hl =>
      exact h.acquire hlocks rfl ⟨rfl, rfl, rfl⟩ hl rfl (hawake hpc fun f hf => by cases hf)
        (fun f hf => by cases hf) trivial
  | store q f addr n hpc hc hi hfull =>
      have hlocked : (s.pc q).locked = true := by rw [hpc]; rfl
      refine h.section hlocks rfl hlocked rfl (fun g hg => by cases hg) (fun c p hp hok => ?_) trivial
      cases c with
      | nread =>
          refine Or.inr ⟨q, (hlocks.lock q).mp hlocked, ?_⟩
          simp only [St.goto, Function.update_self]
          exact ⟨rfl, by simp [Frame.next, hc, Call.chan]⟩
      | nwrite =>
          -- nobody sleeps for room in a pipe that has some
          have := hok.cond hlocks hlocked (by rw [hpc]; exact fun ho => by cases ho)
          exact absurd this.1 hfull
  | full q f addr n hpc hc hi hfull =>
      refine h.quiet hlocks rfl ⟨rfl, rfl, rfl⟩ rfl rfl (hawake hpc fun f hf => by cases hf)
        (fun f hf => by cases hf) (fun c ho => by rw [hpc] at ho; exact owes_check.mpr ho) ?_
      simp only [Pc.Tested, hc]
      exact hfull
  | stored q f addr n hpc hc hi =>
      refine h.quiet hlocks rfl ⟨rfl, rfl, rfl⟩ rfl rfl (hawake hpc fun f hf => by cases hf)
        (fun f hf => by cases hf) (fun c ho => ?_) trivial
      rw [hpc] at ho
      cases c with
      | nread => simp only [Pc.owes, hc, Call.wakes]
      | nwrite => cases ho
  | empty q f n hpc hc he hw =>
      refine h.quiet hlocks rfl ⟨rfl, rfl, rfl⟩ rfl rfl (hawake hpc fun f hf => by cases hf)
        (fun f hf => by cases hf) (fun c ho => by rw [hpc] at ho; exact owes_check.mpr ho) ?_
      simp only [Pc.Tested, hc]
      exact ⟨he, hw⟩
  | copying q f n hpc hc =>
      refine h.quiet hlocks rfl ⟨rfl, rfl, rfl⟩ rfl rfl (hawake hpc fun f hf => by cases hf)
        (fun f hf => by cases hf) (fun c ho => ?_) trivial
      rw [hpc] at ho
      cases c with
      | nread =>
          have hchan := ho.2
          rw [hc] at hchan
          cases hchan
      | nwrite => cases ho
  | fail q f hpc hk => exact h.fail hlocks hfiles hpc hclean hk
  | stuck q f addr n hpc hc ho =>
      refine h.quiet hlocks rfl ⟨rfl, rfl, rfl⟩ rfl rfl (hawake hpc fun f hf => by cases hf)
        (fun f hf => by cases hf) (fun c ho => ?_) ?_
      · rw [hpc] at ho
        cases c with
        | nread => trivial
        | nwrite => cases ho
      · have ht := h.tested q
        simp only [hpc, Pc.Tested, hc] at ht
        simp only [Pc.Tested, hc]
        exact ⟨ht, ho⟩
  | wait q f n hpc hc =>
      refine h.quiet hlocks rfl ⟨rfl, rfl, rfl⟩ rfl rfl (hawake hpc fun f hf => by cases hf)
        (fun f hf => by cases hf) (fun c ho => ?_) ?_
      · rw [hpc] at ho
        cases c with
        | nread =>
            have hchan := ho.2
            rw [hc] at hchan
            cases hchan
        | nwrite => cases ho
      · have ht := h.tested q
        simp only [hpc, Pc.Tested, hc] at ht
        simp only [Pc.Tested, hc]
        exact ht
  | wakeFull q f hpc ht =>
      refine h.wakeup hlocks ht (by rw [hpc]; rfl) (fun c hc ho => ?_) ?_ (fun f hf => by cases hf)
        (hawake hpc fun f hf => by cases hf)
      · rw [hpc] at ho
        cases c with
        | nread => exact hc rfl
        | nwrite => cases ho
      · have := h.tested q
        rwa [hpc] at this
  | lockTable q f hpc ht =>
      refine h.quiet hlocks rfl ⟨rfl, rfl, rfl⟩ rfl rfl (hawake hpc fun f hf => by cases hf)
        (fun f hf => by cases hf) (fun c ho => by rw [hpc] at ho; cases ho) ?_
      have := h.tested q
      rwa [hpc] at this
  | unlock q f hpc =>
      have hlocked : (s.pc q).locked = true := by rw [hpc]; rfl
      have hno : ∀ c, ¬ (s.pc q).owes c := fun c ho => by rw [hpc] at ho; cases ho
      have hself := h.tested q
      rw [hpc] at hself
      refine h.move hlocks rfl (Or.inr hlocked) (fun p c hp => Or.inl ?_) trivial (fun c hc => ?_)
        fun p c _ hc => hc
      · refine (SamePipe.cond (s := s) ⟨rfl, rfl, rfl⟩ c).mpr ?_
        rcases hp with hp | ⟨g, hg, hc⟩
        · exact St.SleepOk.cond (h.slept p c (Or.inl hp)) hlocks hlocked (hno c)
        · simp only [St.goto] at hg
          rcases eq_or_ne p q with rfl | hpq
          · rw [Function.update_self] at hg
            cases hg
            rw [← hc]
            exact hself
          · rw [Function.update_of_ne hpq] at hg
            exact St.SleepOk.cond (h.slept p c (Or.inr ⟨g, hg, hc⟩)) hlocks hlocked (hno c)
      · have hnone := hawake hpc fun f hf => by cases hf
        cases hnone.symm.trans hc
  | mark q f hpc =>
      have hpre : ∀ p c, Function.update s.sleeping q (some f.call.chan) p = some c →
          s.Asleep p c := fun p c hc => by
        rcases eq_or_ne p q with rfl | hp
        · rw [Function.update_self] at hc
          exact Or.inr ⟨f, hpc, Option.some.inj hc⟩
        · rw [Function.update_of_ne hp] at hc
          exact Or.inl hc
      refine h.move hlocks rfl (Or.inl ⟨rfl, rfl, rfl⟩) (fun p c hp => ?_) trivial
        (fun c hc => ⟨f, rfl, ?_⟩) fun p c hp hc => ?_
      · have hok : s.SleepOk c := by
          rcases hp with hp | ⟨g, hg, hgc⟩
          · exact h.slept p c (hpre p c hp)
          · simp only [St.goto] at hg
            rcases eq_or_ne p q with rfl | hpq
            · rw [Function.update_self] at hg
              cases hg
            · rw [Function.update_of_ne hpq] at hg
              exact h.slept p c (Or.inr ⟨g, hg, hgc⟩)
        exact St.SleepOk.keep hok rfl ⟨rfl, rfl, rfl⟩ rfl fun ho => by rw [hpc] at ho; cases ho
      · simp only [Function.update_self] at hc
        exact Option.some.inj hc
      · simp only [Function.update_of_ne hp] at hc
        exact hc
  | resume q f hpc hs =>
      exact h.quiet hlocks rfl ⟨rfl, rfl, rfl⟩ rfl rfl hs (fun f hf => by cases hf)
        (fun c ho => by rw [hpc] at ho; cases ho) trivial
  | pop q f n hpc hc he =>
      have hlocked : (s.pc q).locked = true := by rw [hpc]; rfl
      refine h.section hlocks rfl hlocked rfl (fun g hg => by cases hg) (fun c p hp hok => ?_) trivial
      cases c with
      | nread =>
          -- nobody sleeps for a byte in a pipe that has one
          have := hok.cond hlocks hlocked (by rw [hpc]; exact fun ho => by cases ho)
          exact absurd this.1 he
      | nwrite =>
          refine Or.inr ⟨q, (hlocks.lock q).mp hlocked, ?_⟩
          simp only [St.goto, Function.update_self]
          trivial
  | copied q f n hpc hc =>
      refine h.quiet hlocks rfl ⟨rfl, rfl, rfl⟩ rfl rfl (hawake hpc fun f hf => by cases hf)
        (fun f hf => by cases hf) (fun c ho => ?_) trivial
      rw [hpc] at ho
      cases c with
      | nread => cases ho
      | nwrite => simp only [Pc.owes, hc, Call.wakes]
  | wake q f hpc ht | closeWake q w hpc ht =>
      refine h.wakeup hlocks ht (by rw [hpc]; rfl) (fun c hc ho => ?_) trivial
        (fun f hf => by cases hf) (hawake hpc fun f hf => by cases hf)
      rw [hpc] at ho
      exact hc ho.symm
  | ret q f r hpc | closeRet q w hpc =>
      have hlocked : (s.pc q).locked = true := by rw [hpc]; rfl
      refine h.section hlocks rfl hlocked rfl (fun g hg => by cases hg)
        (fun c p hp hok => Or.inl ((SamePipe.cond (s := s) ⟨rfl, rfl, rfl⟩ c).mpr ?_)) trivial
      exact hok.cond hlocks hlocked fun ho => by rw [hpc] at ho; cases ho
  | closeWrite q hpc =>
      have hlocked : (s.pc q).locked = true := by rw [hpc]; rfl
      refine h.section hlocks rfl hlocked rfl (fun g hg => by cases hg) (fun c p hp hok => ?_) trivial
      cases c with
      | nread =>
          refine Or.inr ⟨q, (hlocks.lock q).mp hlocked, ?_⟩
          simp only [St.goto, Function.update_self]
          rfl
      | nwrite => exact Or.inl (hok.cond hlocks hlocked fun ho => by rw [hpc] at ho; cases ho)
  | closeRead q hpc =>
      have hlocked : (s.pc q).locked = true := by rw [hpc]; rfl
      refine h.section hlocks rfl hlocked rfl (fun g hg => by cases hg) (fun c p hp hok => ?_) trivial
      cases c with
      | nread => exact Or.inl (hok.cond hlocks hlocked fun ho => by rw [hpc] at ho; cases ho)
      | nwrite =>
          refine Or.inr ⟨q, (hlocks.lock q).mp hlocked, ?_⟩
          simp only [St.goto, Function.update_self]
          rfl

end Steps

/-! ## No lost wakeup -/

section Wakeup

variable [DecidableEq P] [Fintype P]

/-- The system with clean steps only. -/
def cleanStep : St P → Act P → Option (St P) := guarded (fun s a => clean s a = true) step

theorem wakes_of_reaches {s : St P} (h : Reaches cleanStep St.init s) : Locks s ∧ Files s ∧ Wakes s :=
  h.invariant (I := fun s => Locks s ∧ Files s ∧ Wakes s)
    (fun _ _ _ ⟨hl, hf, hw⟩ hs => by
      obtain ⟨hclean, hstep⟩ := guarded_eq_some.mp hs
      have hs := step_cases hstep
      exact ⟨hl.step hs, hf.step hs, hw.step hl hf hclean hs⟩)
    ⟨locks_init, files_init, wakes_init⟩

omit [DecidableEq P] [Fintype P] in
theorem St.Full.not_empty {s : St P} (h : s.Full) : ¬ s.Empty := by
  intro he
  rw [St.Full, ← he] at h
  have := congrArg BitVec.toNat h
  rw [BitVec.toNat_add] at this
  have hlt := s.ring.nread.isLt
  have hsize : (BitVec.ofNat 32 PIPESIZE).toNat = 512 := rfl
  omega

/-- A `pipewrite` that is not clean gives up in two steps, and wakes nobody
up. -/
theorem unclean_gives_up {s : St P} {q : P} (hunclean : clean s (.go q) = false)
    (htested : (s.pc q).Tested s) :
    ∃ s', execAll step s [.go q, .go q] = some s' ∧ s'.lock = none ∧ s'.sleeping = s.sleeping ∧
      s'.ring = s.ring ∧ s.Full := by
  simp only [clean] at hunclean
  split at hunclean
  · rename_i f hpc
    split at hunclean
    · rename_i addr n hc
      have hk : s.killed q = true := by
        simp only [Bool.not_eq_false', Bool.and_eq_true] at hunclean
        exact hunclean.2
      have h1 : step s (.go q) = some (s.goto q (.ret f (-1))) := by
        simp only [step, St.go, hpc, St.check, hc, hk, or_true, if_true]
      have h2 : step (s.goto q (.ret f (-1))) (.go q) = some
          { (s.goto q (.ret f (-1))).goto q .idle with
            lock := none, returned := s.returned ++ [(f, -1)] } := by
        simp only [step, St.go, St.goto, Function.update_self]
      refine ⟨_, execAll_cons_eq_some.mpr ⟨_, h1, execAll_cons_eq_some.mpr ⟨_, h2, rfl⟩⟩, rfl, rfl,
        rfl, ?_⟩
      rw [hpc] at htested
      simpa only [Pc.Tested, hc] using htested
    · cases hunclean
  · cases hunclean

/-- **No lost wakeup**, in every run in which no `pipewrite` returns -1
because it was killed, with the read end open, after it stored a byte
since it was entered or last slept: when `p->lock` is free, a process
sleeps on `&p->nread` only if the pipe is empty and open for writing, and
on `&p->nwrite` only if it is full and open for reading. And where a
`pipewrite` does so while a reader sleeps, the wakeup is lost. -/
theorem pipe_no_lost_wakeup {s : St P} (h : Reaches cleanStep St.init s) :
    (s.lock = none → ∀ p,
      (s.sleeping p = some .nread → s.ring.nread = s.ring.nwrite ∧ s.writeopen = true) ∧
      (s.sleeping p = some .nwrite →
        s.ring.nwrite = s.ring.nread + BitVec.ofNat 32 PIPESIZE ∧ s.readopen = true)) ∧
    ∀ p q, s.sleeping p = some .nread → clean s (.go q) = false →
      ∃ s', execAll step s [.go q, .go q] = some s' ∧ s'.lock = none ∧
        s'.sleeping p = some .nread ∧ s'.ring.nread ≠ s'.ring.nwrite := by
  obtain ⟨-, -, hw⟩ := wakes_of_reaches h
  refine ⟨fun hfree p => ?_, fun p q hp hunclean => ?_⟩
  · have hcond : ∀ c, s.sleeping p = some c → s.Cond c := fun c hc => by
      rcases hw.slept p c (Or.inl hc) with hok | ⟨x, hx, -⟩
      · exact hok
      · rw [hfree] at hx
        cases hx
    exact ⟨hcond .nread, hcond .nwrite⟩
  · obtain ⟨s', hs', hlock, hsleep, hring, hfull⟩ := unclean_gives_up hunclean (hw.tested q)
    exact ⟨s', hs', hlock, hsleep ▸ hp, by rw [hring]; exact hfull.not_empty⟩

/-- A reader sleeps; a writer of more than `PIPESIZE` bytes fills the pipe
and is killed. -/
def killedRun : List (Act Side) :=
  .call .reader (.read 1) :: List.replicate 6 (.go .reader) ++
    .call .writer (.write (fun _ => 0) 513) :: List.replicate 514 (.go .writer) ++
    [.kill .writer, .go .writer, .go .writer]

/-- The reader still sleeps, in front of a full pipe. -/
theorem killed_writer_loses_wakeup :
    ∃ s : St Side, Reachable s ∧ s.lock = none ∧ s.sleeping .reader = some .nread ∧
      s.ring.nread ≠ s.ring.nwrite := by
  have hrun : (execAll step .init killedRun).map (fun s =>
      decide (s.lock = none ∧ s.sleeping .reader = some .nread ∧ s.ring.nread ≠ s.ring.nwrite)) =
      some true := by decide +kernel
  obtain ⟨s, hs, hd⟩ := Option.map_eq_some_iff.mp hrun
  obtain ⟨h1, h2, h3⟩ := of_decide_eq_true hd
  exact ⟨s, reaches_of_execAll hs, h1, h2, h3⟩

/-- A reader sleeps on an empty pipe, rightly. -/
theorem pipe_no_lost_wakeup_reader :
    ∃ s : St Side, Reaches cleanStep St.init s ∧ s.lock = none ∧
      s.sleeping .reader = some .nread ∧ s.ring.nread = s.ring.nwrite ∧ s.writeopen = true := by
  have hrun : (execAll cleanStep .init (killedRun.take 7)).map (fun s =>
      decide (s.lock = none ∧ s.sleeping .reader = some .nread)) = some true := by decide +kernel
  obtain ⟨s, hs, hd⟩ := Option.map_eq_some_iff.mp hrun
  obtain ⟨h1, h2⟩ := of_decide_eq_true hd
  have hreach : Reaches cleanStep St.init s := reaches_of_execAll hs
  exact ⟨s, hreach, h1, h2, ((pipe_no_lost_wakeup hreach).1 h1 .reader).1 h2⟩

end Wakeup

end Xv6.Pipe
