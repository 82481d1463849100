import Xv6.Lib.Exec
import Xv6.Lib.Runs
import Mathlib.Data.List.Nodup

/-!
# Spinlock — locks and interrupts

`spinlock.c` on any number of CPUs, one access to shared memory at a time:
`holding` reads `locked` and then `cpu`, and an interrupt may come between
reading the flags and `cli()` in `pushcli`. A handler runs with interrupts
off and may use the locks as well, and switch to another thread as `sched`
does; what it has interrupted may then go on elsewhere. A CPU that panics
takes no further step.

Of each CPU are kept besides: the locks whose `acquire` has returned
(`held`), the calls of `pushcli` outside `acquire` that wait for their
`popcli` (`pushes`), and whether interrupts are on outside all of these
(`out`).
-/

namespace Xv6.Spinlock

open Lib

/-- Where a CPU stands. The lock of `pushcli` is that of the `acquire` it is
called by. -/
inductive Pc (L : Type)
  | run
  | flags (lk : Option L) (eflags : Bool)       -- `pushcli` has read the flags
  | off (lk : Option L) (eflags : Bool)         -- it has called `cli()`
  | check (lk : L)                              -- `acquire`, at `holding`
  | check2 (lk : L)                             -- `locked` was 1
  | spin (lk : L)                               -- at the `xchg`
  | record (lk : L)                             -- the `xchg` returned 0
  | release (lk : L)                            -- `release`, at `holding`
  | release2 (lk : L)                           -- `locked` was 1
  | unlock (lk : L)                             -- `cpu` is cleared
  | pop                                         -- at `popcli`
deriving DecidableEq

structure Cpu (L : Type) where
  intf : Bool                   -- `FL_IF`
  ncli : Nat
  intena : Bool
  pc : Pc L
  saved : Option (Pc L)         -- what an interrupt interrupted
  held : List L
  pushes : Nat
  out : Bool

structure St (C L : Type) where
  cpus : C → Cpu L
  locked : L → Bool
  owner : L → Option C          -- `lk->cpu`

/-- After boot. -/
def St.init (C L : Type) (intf : C → Bool) : St C L where
  cpus := fun c => ⟨intf c, 0, false, .run, none, [], 0, intf c⟩
  locked := fun _ => false
  owner := fun _ => none

inductive Act (L : Type)
  | acquire (lk : L)
  | release (lk : L)
  | pushcli
  | popcli
  | setIf (on : Bool)           -- `sti()` or `cli()` outside all of these
  | go                          -- the next access of the call the CPU is in
  | intr
  | iret
  | swtch (intena : Bool) (saved : Option (Pc L))       -- another thread goes on

/-- `popcli`; `none` is a panic. -/
def popcli {L : Type} (x : Cpu L) : Option (Cpu L) :=
  if x.intf = true ∨ x.ncli = 0 then none
  else
    some { x with
      ncli := x.ncli - 1
      intf := decide (x.ncli - 1 = 0) && x.intena
      pc := .run }

/-- Where interrupts can be on. -/
def resumable {L : Type} : Option (Pc L) → Bool
  | none | some .run | some (.flags _ true) | some (.release _) | some (.release2 _) => true
  | _ => false

variable {C L : Type} [DecidableEq C] [DecidableEq L]

def St.set (s : St C L) (c : C) (x : Cpu L) : St C L := { s with cpus := upd s.cpus c x }

/-- The next access of a call; `none` is a panic. -/
def go (s : St C L) (c : C) (x : Cpu L) : Option (St C L) :=
  match x.pc with
  | .run => none
  | .flags k e => some (s.set c { x with intf := false, pc := .off k e })
  | .off k e =>
      some (s.set c { x with
        intena := if x.ncli = 0 then e else x.intena
        ncli := x.ncli + 1
        pushes := if k = none then x.pushes + 1 else x.pushes
        pc := k.elim .run .check })
  | .check lk => some (s.set c { x with pc := if s.locked lk then .check2 lk else .spin lk })
  | .check2 lk => if s.owner lk = some c then none else some (s.set c { x with pc := .spin lk })
  | .spin lk =>
      some { s.set c { x with pc := if s.locked lk then .spin lk else .record lk } with
        locked := upd s.locked lk true }
  | .record lk =>
      some { s.set c { x with pc := .run, held := lk :: x.held } with
        owner := upd s.owner lk (some c) }
  | .release lk =>
      if s.locked lk = false then none else some (s.set c { x with pc := .release2 lk })
  | .release2 lk =>
      if s.owner lk ≠ some c then none
      else
        some { s.set c { x with pc := .unlock lk, held := x.held.erase lk } with
          owner := upd s.owner lk none }
  | .unlock lk => some { s.set c { x with pc := .pop } with locked := upd s.locked lk false }
  | .pop => (popcli x).map (s.set c)

/-- A step of one CPU. A `popcli` has its `pushcli`, a handler returns when
it has undone what it did, and `sched` checks that `ncli` is 1. -/
def step (s : St C L) (a : C × Act L) : Option (St C L) :=
  let x := s.cpus a.1
  match a.2 with
  | .go => go s a.1 x
  | .intr =>
      if x.intf = true ∧ x.saved = none then
        some (s.set a.1 { x with intf := false, out := false, saved := some x.pc, pc := .run })
      else none
  | .iret =>
      if x.pc = .run ∧ x.ncli = 0 then
        x.saved.map fun pc =>
          s.set a.1 { x with intf := true, out := true, saved := none, pc := pc }
      else none
  | .acquire lk =>
      if x.pc = .run then some (s.set a.1 { x with pc := .flags (some lk) x.intf }) else none
  | .pushcli => if x.pc = .run then some (s.set a.1 { x with pc := .flags none x.intf }) else none
  | .release lk => if x.pc = .run then some (s.set a.1 { x with pc := .release lk }) else none
  | .popcli =>
      if x.pc = .run ∧ 0 < x.pushes then (popcli { x with pushes := x.pushes - 1 }).map (s.set a.1)
      else none
  | .setIf on =>
      if x.pc = .run ∧ x.ncli = 0 ∧ x.saved = none then
        some (s.set a.1 { x with intf := on, out := on })
      else none
  | .swtch intena saved =>
      if x.pc = .run ∧ x.ncli = 1 ∧ resumable saved then
        some (s.set a.1 { x with intena := intena, out := intena, saved := saved })
      else none

/-! ## The invariant -/

/-- The `pushcli` of a lock that is not in `held`. -/
def inflight : Pc L → Nat
  | .check _ | .check2 _ | .spin _ | .record _ | .unlock _ | .pop => 1
  | _ => 0

/-- The CPU has set `locked` and not cleared it. -/
def Owns (x : Cpu L) (lk : L) : Prop := lk ∈ x.held ∨ x.pc = .record lk ∨ x.pc = .unlock lk

/-- **What holds of a CPU by itself**: `ncli` counts, and interrupts are off
while it is not 0. -/
structure Sound (x : Cpu L) : Prop where
  nodup : x.held.Nodup
  count : x.ncli = x.held.length + x.pushes + inflight x.pc
  off : 0 < x.ncli → x.intf = false ∧ x.intena = x.out
  on : x.ncli = 0 → (∀ k e, x.pc ≠ .off k e) → x.intf = x.out
  flags : ∀ k e, x.pc = .flags k e → x.ncli = 0 → e = x.out
  cli : ∀ k e, x.pc = .off k e → x.intf = false ∧ (x.ncli = 0 → e = x.out)
  fresh : ∀ lk, x.pc = .spin lk ∨ x.pc = .record lk ∨ x.pc = .unlock lk → lk ∉ x.held
  saved : resumable x.saved = true

/-- **What holds of the locks**: `locked` and `cpu` tell who has them. -/
structure Inv (s : St C L) : Prop where
  sound : ∀ c, Sound (s.cpus c)
  locked : ∀ lk, s.locked lk = true ↔ ∃ c, Owns (s.cpus c) lk
  excl : ∀ c d lk, Owns (s.cpus c) lk → Owns (s.cpus d) lk → c = d
  owner : ∀ lk c, s.owner lk = some c ↔ lk ∈ (s.cpus c).held

section Steps

variable {s t : St C L} {c : C} {x : Cpu L}

omit [DecidableEq L] in
/-- **A step of one CPU**: of each lock either nothing has changed, or no
other CPU had it. -/
theorem Inv.update (h : Inv s) (hcpus : t.cpus = upd s.cpus c x) (hx : Sound x)
    (hlocks : ∀ lk, (Owns x lk ↔ Owns (s.cpus c) lk) ∧ (lk ∈ x.held ↔ lk ∈ (s.cpus c).held) ∧
        t.locked lk = s.locked lk ∧ t.owner lk = s.owner lk ∨
      (∀ d ≠ c, ¬Owns (s.cpus d) lk) ∧ (t.locked lk = true ↔ Owns x lk) ∧
        ∀ d, t.owner lk = some d ↔ d = c ∧ lk ∈ x.held) : Inv t := by
  have hself : t.cpus c = x := by rw [hcpus, upd_self]
  have hother : ∀ d, d ≠ c → t.cpus d = s.cpus d := fun d hd => by rw [hcpus, upd_of_ne hd]
  refine ⟨?_, ?_, ?_, ?_⟩
  · intro d
    have hd := h.sound d
    by_cases hdc : d = c <;> grind
  · intro lk
    have hsplit : ∀ u : St C L, (∃ d, Owns (u.cpus d) lk) ↔
        Owns (u.cpus c) lk ∨ ∃ d, d ≠ c ∧ Owns (u.cpus d) lk := by
      intro u
      constructor
      · rintro ⟨d, hd⟩
        by_cases hdc : d = c <;> grind
      · rintro (hc | ⟨d, _, hd⟩)
        exacts [⟨c, hc⟩, ⟨d, hd⟩]
    have hs := h.locked lk
    rw [hsplit] at hs ⊢
    grind
  · intro d e lk hd he
    have hde := h.excl d e lk
    have hdc := h.excl d c lk
    have hce := h.excl c e lk
    by_cases hdc' : d = c <;> by_cases hec : e = c <;> grind
  · intro lk d
    have hd := h.owner lk d
    have howns : lk ∈ (s.cpus d).held → Owns (s.cpus d) lk := Or.inl
    by_cases hdc : d = c <;> grind

omit [DecidableEq L] in
/-- A step that takes or gives up no lock. -/
theorem Inv.quiet (h : Inv s) (hx : Sound x) (hheld : x.held = (s.cpus c).held)
    (howns : ∀ lk, Owns x lk ↔ Owns (s.cpus c) lk) : Inv (s.set c x) :=
  h.update rfl hx fun lk => Or.inl ⟨howns lk, by rw [hheld], rfl, rfl⟩

omit [DecidableEq L] in
/-- **`popcli`** after its `pushcli` returns, and keeps the counts. -/
theorem Sound.popcli (h : Sound { x with pc := .pop }) : ∃ y, popcli x = some y ∧ Sound y ∧
    y.pc = .run ∧ y.held = x.held := by
  obtain ⟨hnodup, hcount, hoff, _, _, _, _, hsaved⟩ := h
  have hpos : 0 < x.ncli := by grind [inflight]
  refine ⟨_, if_neg (by grind), ⟨hnodup, ?_, ?_, ?_, nofun, nofun, nofun, hsaved⟩, rfl, rfl⟩
  all_goals grind [inflight]

/-- **The next access of a call.** -/
theorem Inv.go (h : Inv s) (hs : go s c (s.cpus c) = some t) : Inv t := by
  obtain ⟨hnodup, hcount, hoff, hon, hflags, hcli, hfresh, hsaved⟩ := h.sound c
  have hlocked : ∀ lk, Owns (s.cpus c) lk → s.locked lk = true := fun lk hlk =>
    (h.locked lk).mpr ⟨c, hlk⟩
  -- who has a lock is the only one
  have hmine : ∀ lk, Owns (s.cpus c) lk → ∀ d ≠ c, ¬Owns (s.cpus d) lk := fun lk hlk d hd hother =>
    hd (h.excl d c lk hother hlk)
  have hown := h.owner
  cases hpc : (s.cpus c).pc <;> simp only [Spinlock.go, hpc] at hs
  case run => cases hs
  case flags | check =>
    obtain rfl := Option.some.inj hs
    refine h.quiet ⟨hnodup, ?_, ?_, ?_, ?_, ?_, ?_, hsaved⟩ rfl ?_
    all_goals grind [Owns, inflight]
  case off k e =>
    obtain rfl := Option.some.inj hs
    refine h.quiet ⟨hnodup, ?_, ?_, ?_, ?_, ?_, ?_, hsaved⟩ rfl ?_
    all_goals cases k <;> grind [Owns, inflight]
  case check2 | release =>
    obtain ⟨_, heq⟩ := Option.ite_none_left_eq_some.mp hs
    obtain rfl := Option.some.inj heq
    refine h.quiet ⟨hnodup, ?_, ?_, ?_, ?_, ?_, ?_, hsaved⟩ rfl ?_
    all_goals grind [Owns, inflight]
  case spin lk =>
    obtain rfl := Option.some.inj hs
    have hlk := h.locked lk
    refine h.update rfl ⟨hnodup, ?_, ?_, ?_, ?_, ?_, ?_, hsaved⟩ fun l => ?_
    iterate 6 grind [inflight]
    by_cases hl : l = lk
    · cases hlock : s.locked lk with
      | true => left; grind [Owns, upd, St.set]
      | false => right; grind [Owns, upd, St.set]
    · left; grind [Owns, upd, St.set]
  case record lk =>
    obtain rfl := Option.some.inj hs
    have howns : Owns (s.cpus c) lk := Or.inr (Or.inl hpc)
    refine h.update rfl ⟨?_, ?_, ?_, ?_, ?_, ?_, ?_, hsaved⟩ fun l => ?_
    iterate 7 grind [inflight]
    by_cases hl : l = lk
    · subst hl
      refine Or.inr ⟨hmine l howns, iff_of_true (hlocked l howns) (Or.inl (.head _)), fun d => ?_⟩
      grind [upd]
    · left; grind [Owns, upd, St.set]
  case release2 lk =>
    obtain ⟨how, heq⟩ := Option.ite_none_left_eq_some.mp hs
    obtain rfl := Option.some.inj heq
    have hmem := (h.owner lk c).mp (not_not.mp how)
    have hlen := List.length_erase_add_one hmem
    have herase := fun l => hnodup.mem_erase_iff (a := l) (b := lk)
    refine h.update rfl ⟨hnodup.erase lk, ?_, ?_, ?_, ?_, ?_, ?_, hsaved⟩ fun l => ?_
    iterate 6 grind [inflight]
    by_cases hl : l = lk
    · subst hl
      refine Or.inr ⟨hmine l (Or.inl hmem), iff_of_true (hlocked l (Or.inl hmem)) (.inr (.inr rfl)),
        fun d => ?_⟩
      grind [upd]
    · left; grind [Owns, upd, St.set]
  case unlock lk =>
    obtain rfl := Option.some.inj hs
    have hno := fun d hd => h.excl d c lk (Or.inl hd) (Or.inr (Or.inr hpc))
    refine h.update rfl ⟨hnodup, ?_, ?_, ?_, ?_, ?_, ?_, hsaved⟩ fun l => ?_
    iterate 6 grind [inflight]
    by_cases hl : l = lk
    · right; grind [Owns, upd, St.set]
    · left; grind [Owns, upd, St.set]
  case pop =>
    obtain ⟨y, hy, hsound, hrun, hheld⟩ := Sound.popcli (x := s.cpus c) (hpc ▸ h.sound c)
    rw [hy] at hs
    obtain rfl := Option.some.inj hs
    exact h.quiet hsound hheld (by grind [Owns])

/-- **A step of the system.** -/
theorem Inv.step {a : C × Act L} (h : Inv s) (hs : step s a = some t) : Inv t := by
  obtain ⟨c, a⟩ := a
  obtain ⟨hnodup, hcount, hoff, hon, hflags, hcli, hfresh, hsaved⟩ := h.sound c
  cases a with
  | go => exact h.go hs
  | popcli =>
      obtain ⟨⟨hrun, hpos⟩, hs⟩ := Option.ite_none_right_eq_some.mp hs
      obtain ⟨y, hy, hsound, hyrun, hheld⟩ :=
        Sound.popcli (x := { s.cpus c with pushes := (s.cpus c).pushes - 1 })
          ⟨hnodup, by grind [inflight], hoff, by grind, nofun, nofun, nofun, hsaved⟩
      rw [hy] at hs
      obtain rfl := Option.some.inj hs
      exact h.quiet hsound hheld (by grind [Owns])
  | iret =>
      obtain ⟨⟨hrun, hzero⟩, hs⟩ := Option.ite_none_right_eq_some.mp hs
      obtain ⟨pc, hpc, rfl⟩ := Option.map_eq_some_iff.mp hs
      refine h.quiet ⟨hnodup, ?_, ?_, ?_, ?_, ?_, ?_, rfl⟩ rfl ?_
      all_goals cases pc <;> grind [Owns, inflight, resumable]
  | intr =>
      obtain ⟨hg, hs⟩ := Option.ite_none_right_eq_some.mp hs
      obtain rfl := Option.some.inj hs
      refine h.quiet ⟨hnodup, ?_, ?_, ?_, nofun, nofun, nofun, ?_⟩ rfl ?_
      all_goals cases hpc : (s.cpus c).pc <;> grind [Owns, inflight, resumable]
  | acquire | pushcli | release | setIf | swtch =>
      obtain ⟨hg, hs⟩ := Option.ite_none_right_eq_some.mp hs
      obtain rfl := Option.some.inj hs
      refine h.quiet ⟨hnodup, ?_, ?_, ?_, ?_, ?_, ?_, ?_⟩ rfl ?_
      all_goals grind [Owns, inflight]

omit [DecidableEq C] [DecidableEq L] in
theorem inv_init (intf : C → Bool) : Inv (St.init C L intf) := by
  have hno : ∀ c lk, ¬Owns ((St.init C L intf).cpus c) lk := fun c lk => by simp [Owns, St.init]
  refine ⟨fun c => ⟨.nil, rfl, nofun, fun _ _ => rfl, nofun, nofun, nofun, rfl⟩, fun lk => ?_,
    fun c _ lk hc => (hno c lk hc).elim, fun lk c => ?_⟩
  · exact iff_of_false nofun (not_exists.mpr (hno · lk))
  · exact iff_of_false nofun fun hc => hno c lk (Or.inl hc)

end Steps

/-! ## Runs -/

/-- **Locks and interrupts**, in every state that any interleaving of the
CPUs reaches: a lock has one holder; `holding`, at the end of its reads,
tells whether this CPU has acquired the lock; no CPU takes an interrupt
while it holds a lock or waits for one, nor waits for a lock it holds;
`popcli` does not panic; and once every `pushcli` has had its `popcli`,
interrupts are as they were. -/
theorem locks_and_interrupts {intf : C → Bool} {s : St C L}
    (h : Reaches step (St.init C L intf) s) (c : C) :
    (∀ lk ∈ (s.cpus c).held, s.locked lk = true ∧ ∀ d, lk ∈ (s.cpus d).held → d = c)
      ∧ (∀ lk, s.owner lk = some c ↔ lk ∈ (s.cpus c).held)
      ∧ ((s.cpus c).held ≠ [] ∨ inflight (s.cpus c).pc = 1 → step s (c, .intr) = none)
      ∧ (∀ lk, (s.cpus c).pc = .spin lk → lk ∉ (s.cpus c).held)
      ∧ ((s.cpus c).pc = .pop → (step s (c, .go)).isSome)
      ∧ ((s.cpus c).pc = .run → 0 < (s.cpus c).pushes → (step s (c, .popcli)).isSome)
      ∧ ((s.cpus c).pc = .run → (s.cpus c).held = [] → (s.cpus c).pushes = 0 →
          (s.cpus c).intf = (s.cpus c).out) := by
  have hI : Inv s := h.invariant (fun _ _ _ => Inv.step) (inv_init intf)
  obtain ⟨hnodup, hcount, hoff, hon, hflags, hcli, hfresh, hsaved⟩ := hI.sound c
  refine ⟨fun lk hlk => ⟨(hI.locked lk).mpr ⟨c, Or.inl hlk⟩, fun d hd =>
    hI.excl d c lk (Or.inl hd) (Or.inl hlk)⟩, fun lk => hI.owner lk c, fun hor => ?_,
    fun lk hpc => hfresh lk (Or.inl hpc), fun hpc => ?_, fun hrun hpos => ?_,
    fun hrun hheld hpushes => hon ?_ ?_⟩
  · have hpos : 0 < (s.cpus c).ncli := by grind [List.length_pos_iff]
    exact if_neg fun hg => by grind
  · obtain ⟨y, hy, -⟩ := Sound.popcli (x := s.cpus c) (hpc ▸ hI.sound c)
    simp only [step, go, hpc, hy, Option.map_some, Option.isSome_some]
  · have hncli : 0 < (s.cpus c).ncli := by omega
    simp only [step, popcli, hrun, hpos, (hoff hncli).1, hncli.ne', and_self, if_true, if_false,
      Bool.false_eq_true, or_self, Option.map_some, Option.isSome_some]
  · rw [hcount, hrun, hheld, hpushes]
    rfl
  · rw [hrun]
    nofun

/-- A CPU takes the lock; a handler runs between its flags and `cli()`. -/
theorem locks_and_interrupts_handler :
    ∃ s : St Bool Unit, Reaches step (St.init Bool Unit fun _ => true) s
      ∧ (s.cpus true).held = [()] ∧ step s (true, .intr) = none := by
  have hrun : (execAll step (St.init Bool Unit fun _ => true) ([.acquire (), .intr, .iret, .go, .go,
      .go, .go, .go].map (true, ·))).map (fun s => (s.cpus true).held) = some [()] := by decide
  obtain ⟨s, hs, hheld⟩ := Option.map_eq_some_iff.mp hrun
  have hreach := reaches_of_execAll hs
  obtain ⟨-, -, hintr, -⟩ := locks_and_interrupts hreach true
  exact ⟨s, hreach, hheld, hintr (Or.inl (by simp [hheld]))⟩

end Xv6.Spinlock
