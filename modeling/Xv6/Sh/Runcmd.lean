import Xv6.Sh.Wiring

/-!
# Sh — every process has the descriptors it should

The invariant of a run of `runcmd`, kept by every step of every process, and
what it says of the processes that run a program or wait.
-/

namespace Xv6.Sh

open Lib

variable {α : Type}

/-! ## Places and commands to come -/

/-- The command that the process is in. -/
def Pc.ptr : Pc → Option Ptr
  | .run a => some a
  | .opening a => some a
  | .listWait a => some a
  | .forkLeft a _ _ => some a
  | .forkRight a _ _ => some a
  | .child _ _ a _ _ => some a
  | .parent0 a _ _ => some a
  | .parent1 a _ _ => some a
  | .pipeWait a => some a
  | .pipeWait2 a => some a
  | .program a => some a
  | .exiting a => some a
  | .zombie => none

/-- The commands that the process, or a child of it, will still enter. -/
def Pc.future : Pc → List Ptr
  | .run a => [a]
  | .opening a => [.cmd :: a]
  | .listWait a => [.right :: a]
  | .forkLeft a _ _ => [.left :: a, .right :: a]
  | .forkRight a _ _ => [.right :: a]
  | .child d _ a _ _ => [d :: a]
  | _ => []

/-- Nothing of `q` is below a command that `p` will enter. -/
def Clear (p q : Pc) : Prop :=
  ∀ x ∈ p.future, ∀ y, y ∈ q.future ∨ q.ptr = some y → ¬ x <:+ y

/-- All of `p'` was to come in `p`, or is where `p` was. -/
structure Within (p' p : Pc) : Prop where
  future : ∀ x ∈ p'.future, ∃ y ∈ p.future, y <:+ x
  ptr : ∀ x, p'.ptr = some x → p.ptr = some x ∨ ∃ y ∈ p.future, y <:+ x

variable {p p' q : Pc}

theorem Clear.of_within (h : Clear p q) (hp : Within p' p) : Clear p' q := by
  intro x hx y hy hxy
  obtain ⟨z, hz, hzx⟩ := hp.future x hx
  exact h z hz y hy (hzx.trans hxy)

theorem Clear.within (h : Clear q p) (h' : Clear p q) (hp : Within p' p) : Clear q p' := by
  intro x hx y hy hxy
  -- `y` is where `p` was, or below something that was to come in `p`
  have hcase : p.ptr = some y ∨ ∃ z ∈ p.future, z <:+ y := by
    rcases hy with hy | hy
    · exact .inr (hp.future y hy)
    · exact hp.ptr y hy
  rcases hcase with hy | ⟨z, hz, hzy⟩
  · exact h x hx y (.inr hy) hxy
  · rcases List.suffix_or_suffix_of_suffix hxy hzy with hxz | hzx
    · exact h x hx z (.inl hz) hxz
    · exact h' z hz x (.inl hx) hzx

/-! ## The invariant -/

/-- No process is below a command that another one will enter. -/
structure Places (s : St α) : Prop where
  clear : ∀ pid pid' p q, s.procs pid = some p → s.procs pid' = some q → pid ≠ pid' →
    Clear p.pc q.pc
  pids : ∀ pid, s.nextpid ≤ pid → s.procs pid = none

section Inv

variable (root : Cmd α) (files : Nat → Nat) (pi : Ptr → Option Nat)

/-- In the `PIPE` node `a`, after `pipe(p)`. -/
structure Piping (a : Ptr) (p0 p1 n : Nat) : Prop where
  node : ∃ l r, root.at a = some (.pipe l r)
  fst : p0 = 3
  snd : p1 = 4
  made : pi a = some n

/-- The table that the place calls for. -/
def Fits (t : Table α) : Pc → Prop
  | .run a => t = wiring root files pi a
  | .opening a => ∃ c file mode fd, root.at a = some (.redir c file mode fd) ∧ fd < 3 ∧
      t = upd (wiring root files pi a) fd none
  | .listWait a => (∃ l r, root.at a = some (.list l r)) ∧ t = wiring root files pi a
  | .forkLeft a p0 p1 => ∃ n, Piping root pi a p0 p1 n ∧ t = both (wiring root files pi a) n
  | .forkRight a p0 p1 => ∃ n, Piping root pi a p0 p1 n ∧ t = both (wiring root files pi a) n
  | .child _ .close a p0 p1 =>
      ∃ n, Piping root pi a p0 p1 n ∧ t = both (wiring root files pi a) n
  | .child d .dup a p0 p1 =>
      ∃ n, Piping root pi a p0 p1 n ∧ t = both (upd (wiring root files pi a) d.fd none) n
  | .child d .close0 a p0 p1 =>
      ∃ n, Piping root pi a p0 p1 n ∧
        t = both (upd (wiring root files pi a) d.fd (some (.pipe n d.writes))) n
  | .child d .close1 a p0 p1 =>
      ∃ n, Piping root pi a p0 p1 n ∧
        t = upd (both (upd (wiring root files pi a) d.fd (some (.pipe n d.writes))) n) 3 none
  | .parent0 a p0 p1 => ∃ n, Piping root pi a p0 p1 n ∧ t = both (wiring root files pi a) n
  | .parent1 a p0 p1 =>
      ∃ n, Piping root pi a p0 p1 n ∧ t = upd (both (wiring root files pi a) n) 3 none
  | .pipeWait a => t = wiring root files pi a
  | .pipeWait2 a => t = wiring root files pi a
  | .program a => t = wiring root files pi a
  | .exiting a => t = wiring root files pi a
  | .zombie => t = fun _ => none

/-- A process with the table that its place calls for. -/
structure Good (t : Table α) (pc : Pc) : Prop where
  std : ∀ a, pc.ptr = some a → Std (wiring root files pi a)
  fits : Fits root files pi t pc

structure Inv (s : St α) : Prop where
  good : ∀ pid p, s.procs pid = some p → Good root files pi p.ofile p.pc
  places : Places s
  made : ∀ a n, pi a = some n → n < s.pipes
  inj : ∀ a b n, pi a = some n → pi b = some n → a = b
  fresh : ∀ a n, pi a = some n → ∀ pid p, s.procs pid = some p → ∀ x ∈ p.pc.future, ¬ x <:+ a

end Inv

variable {root : Cmd α} {files : Nat → Nat} {pi pi' : Ptr → Option Nat} {s : St α} {pid : Nat}

theorem Piping.congr {a : Ptr} {p0 p1 n : Nat} (h : Piping root pi a p0 p1 n)
    (hpi : pi a = pi' a) : Piping root pi' a p0 p1 n :=
  ⟨h.node, h.fst, h.snd, hpi ▸ h.made⟩

theorem Good.congr {t : Table α} {pc : Pc} (h : Good root files pi t pc)
    (hpi : ∀ a, pc.ptr = some a → ∀ c, c <:+ a → pi c = pi' c) : Good root files pi' t pc := by
  have hw : ∀ a, pc.ptr = some a → wiring root files pi a = wiring root files pi' a :=
    fun a ha => wiring_congr fun d c hc => hpi a ha c ((List.suffix_cons d c).trans hc)
  have hself : ∀ a, pc.ptr = some a → pi a = pi' a := fun a ha => hpi a ha a (List.suffix_refl a)
  obtain ⟨hstd, hfits⟩ := h
  refine ⟨fun a ha => hw a ha ▸ hstd a ha, ?_⟩
  cases pc with
  | child d c a p0 p1 =>
      cases c
      all_goals
        simp only [Fits, hw a rfl] at hfits ⊢
        obtain ⟨n, hn, ht⟩ := hfits
        exact ⟨n, hn.congr (hself a rfl), ht⟩
  | forkLeft a p0 p1 | forkRight a p0 p1 | parent0 a p0 p1 | parent1 a p0 p1 =>
      simp only [Fits, hw a rfl] at hfits ⊢
      obtain ⟨n, hn, ht⟩ := hfits
      exact ⟨n, hn.congr (hself a rfl), ht⟩
  | zombie => exact hfits
  | _ a =>
      simp only [Fits, hw a rfl] at hfits ⊢
      exact hfits

/-! ## Steps -/

variable {p p' : Proc α} {pc : Pc}

theorem St.procs_set (s : St α) (pid : Nat) (p : Proc α) :
    (s.set pid p).procs = upd s.procs pid (some p) := rfl

/-- The processes after one has gone on. -/
theorem St.procs_set_eq {q : Nat} {r : Proc α} (hr : (s.set pid p').procs q = some r) :
    q = pid ∧ r = p' ∨ q ≠ pid ∧ s.procs q = some r := by
  by_cases hq : q = pid
  · rw [procs_set, hq, upd_self] at hr
    exact .inl ⟨hq, (Option.some.inj hr).symm⟩
  · rw [procs_set, upd_of_ne hq] at hr
    exact .inr ⟨hq, hr⟩

theorem Places.move (h : Places s) (hp : s.procs pid = some p) (hw : Within p'.pc p.pc) :
    Places (s.set pid p') where
  clear q q' r r' hr hr' hne := by
    rcases St.procs_set_eq hr with ⟨hq, rfl⟩ | ⟨hq, hr⟩
    · rcases St.procs_set_eq hr' with ⟨hq', _⟩ | ⟨hq', hr'⟩
      · exact absurd (hq.trans hq'.symm) hne
      · exact (h.clear pid q' p r' hp hr' (Ne.symm hq')).of_within hw
    · rcases St.procs_set_eq hr' with ⟨_, heq⟩ | ⟨_, hr'⟩
      · rw [heq]
        exact (h.clear q pid r p hr hp hq).within (h.clear pid q p r hp hr (Ne.symm hq)) hw
      · exact h.clear q q' r r' hr hr' hne
  pids q hq := by
    have hne : q ≠ pid := by
      rintro rfl
      rw [h.pids q hq] at hp
      cases hp
    rw [St.procs_set, upd_of_ne hne]
    exact h.pids q hq

theorem Places.ne_nextpid (h : Places s) (hp : s.procs pid = some p) : pid ≠ s.nextpid := by
  rintro rfl
  rw [h.pids s.nextpid (Nat.le_refl _)] at hp
  cases hp

/-- The processes after a `fork` whose parent goes on. -/
theorem Places.procs_fork (h : Places s) (hp : s.procs pid = some p) {q : Nat}
    {r : Proc α} (hr : ((s.fork pid p pc).set pid p').procs q = some r) :
    q = s.nextpid ∧ r = ⟨pid, pc, p.ofile⟩ ∨ q ≠ s.nextpid ∧ (s.set pid p').procs q = some r := by
  have hne := h.ne_nextpid hp
  rw [St.procs_set, St.fork, upd_comm hne.symm] at hr
  by_cases hq : q = s.nextpid
  · rw [hq, upd_self] at hr
    exact .inl ⟨hq, (Option.some.inj hr).symm⟩
  · rw [upd_of_ne hq] at hr
    exact .inr ⟨hq, hr⟩

theorem Places.fork (h : Places s) (hp : s.procs pid = some p) (hw : Within p'.pc p.pc)
    (hwchild : Within pc p.pc) (hclear : Clear p'.pc pc) (hclear' : Clear pc p'.pc) :
    Places ((s.fork pid p pc).set pid p') := by
  have hmove := h.move hp hw
  -- the child against a process that was there before
  have hold : ∀ q r, (s.set pid p').procs q = some r → Clear pc r.pc ∧ Clear r.pc pc := by
    intro q r hr
    rcases St.procs_set_eq hr with ⟨_, rfl⟩ | ⟨hq, hr⟩
    · exact ⟨hclear', hclear⟩
    · have h1 := h.clear pid q p r hp hr (Ne.symm hq)
      have h2 := h.clear q pid r p hr hp hq
      exact ⟨h1.of_within hwchild, h2.within h1 hwchild⟩
  constructor
  · intro q q' r r' hr hr' hqq'
    rcases h.procs_fork hp hr with ⟨hq, rfl⟩ | ⟨_, hr⟩
    · rcases h.procs_fork hp hr' with ⟨hq', rfl⟩ | ⟨_, hr'⟩
      · exact absurd (hq.trans hq'.symm) hqq'
      · exact (hold q' r' hr').1
    · rcases h.procs_fork hp hr' with ⟨_, rfl⟩ | ⟨_, hr'⟩
      · exact (hold q r hr).2
      · exact hmove.clear q q' r r' hr hr' hqq'
  · intro q hq
    have hlt : s.nextpid + 1 ≤ q := hq
    cases hr : ((s.fork pid p pc).set pid p').procs q with
    | none => rfl
    | some r =>
        rcases h.procs_fork hp hr with ⟨hq', _⟩ | ⟨_, hr⟩
        · omega
        · rw [hmove.pids q (show s.nextpid ≤ q by omega)] at hr
          cases hr

/-- A process goes on. -/
theorem Inv.move (h : Inv root files pi s) (hp : s.procs pid = some p)
    (hgood : Good root files pi p'.ofile p'.pc) (hw : Within p'.pc p.pc) :
    Inv root files pi (s.set pid p') where
  good q r hr := by
    rcases St.procs_set_eq hr with ⟨_, rfl⟩ | ⟨_, hr⟩
    · exact hgood
    · exact h.good q r hr
  places := h.places.move hp hw
  made := h.made
  inj := h.inj
  fresh a n ha q r hr x hx := by
    rcases St.procs_set_eq hr with ⟨_, rfl⟩ | ⟨_, hr⟩
    · obtain ⟨y, hy, hyx⟩ := hw.future x hx
      exact fun hxa => h.fresh a n ha pid p hp y hy (hyx.trans hxa)
    · exact h.fresh a n ha q r hr x hx

/-- A process forks and goes on; what it was to enter is now the child's or
still its own. -/
theorem Inv.fork (h : Inv root files pi s) (hp : s.procs pid = some p)
    (hgood : Good root files pi p'.ofile p'.pc) (hw : Within p'.pc p.pc)
    (hchild : Good root files pi p.ofile pc) (hwchild : Within pc p.pc)
    (hclear : Clear p'.pc pc) (hclear' : Clear pc p'.pc) :
    Inv root files pi ((s.fork pid p pc).set pid p') where
  good q r hr := by
    rcases h.places.procs_fork hp hr with ⟨_, rfl⟩ | ⟨_, hr⟩
    · exact hchild
    · exact (h.move hp hgood hw).good q r hr
  places := h.places.fork hp hw hwchild hclear hclear'
  made := h.made
  inj := h.inj
  fresh a n ha q r hr x hx := by
    rcases h.places.procs_fork hp hr with ⟨_, rfl⟩ | ⟨_, hr⟩
    · obtain ⟨y, hy, hyx⟩ := hwchild.future x hx
      exact fun hxa => h.fresh a n ha pid p hp y hy (hyx.trans hxa)
    · exact (h.move hp hgood hw).fresh a n ha q r hr x hx

/-- **A `PIPE` node makes its pipe.** No other process is at the node or below
it, so no other table depends on it. -/
theorem Inv.pipe (h : Inv root files pi s) (hp : s.procs pid = some p) {a : Ptr}
    (ha : a ∈ p.pc.future) (hgood : Good root files (upd pi a (some s.pipes)) p'.ofile p'.pc)
    (hw : Within p'.pc p.pc) (hbelow : ∀ x ∈ p'.pc.future, ¬ x <:+ a) :
    Inv root files (upd pi a (some s.pipes)) ({ s with pipes := s.pipes + 1 }.set pid p') := by
  have hmade : ∀ b n, upd pi a (some s.pipes) b = some n →
      b = a ∧ n = s.pipes ∨ b ≠ a ∧ pi b = some n := by
    intro b n hb
    by_cases hba : b = a
    · rw [hba, upd_self] at hb
      exact .inl ⟨hba, (Option.some.inj hb).symm⟩
    · rw [upd_of_ne hba] at hb
      exact .inr ⟨hba, hb⟩
  refine ⟨?_, ⟨?_, ?_⟩, ?_, ?_, ?_⟩
  · intro q r hr
    rcases St.procs_set_eq hr with ⟨_, rfl⟩ | ⟨hq, hr⟩
    · exact hgood
    · apply (h.good q r hr).congr
      intro b hb c hc
      have hca : c ≠ a := by
        rintro rfl
        exact h.places.clear pid q p r hp hr (Ne.symm hq) c ha b (.inr hb) hc
      rw [upd_of_ne hca]
  · exact (h.places.move hp hw).clear
  · exact (h.places.move hp hw).pids
  · intro b n hb
    show n < s.pipes + 1
    rcases hmade b n hb with ⟨_, rfl⟩ | ⟨_, hb⟩
    · omega
    · have := h.made b n hb
      omega
  · intro b c n hb hc
    rcases hmade b n hb with ⟨hba, hn⟩ | ⟨_, hb⟩
    · rcases hmade c n hc with ⟨hca, _⟩ | ⟨_, hc⟩
      · rw [hba, hca]
      · have := h.made c n hc
        omega
    · rcases hmade c n hc with ⟨_, hn⟩ | ⟨_, hc⟩
      · have := h.made b n hb
        omega
      · exact h.inj b c n hb hc
  · intro b n hb q r hr x hx
    rcases hmade b n hb with ⟨rfl, _⟩ | ⟨_, hb⟩
    · rcases St.procs_set_eq hr with ⟨_, rfl⟩ | ⟨hq, hr⟩
      · exact hbelow x hx
      · exact h.places.clear q pid r p hr hp hq x hx b (.inl ha)
    · rcases St.procs_set_eq hr with ⟨_, rfl⟩ | ⟨_, hr⟩
      · obtain ⟨y, hy, hyx⟩ := hw.future x hx
        exact fun hxb => h.fresh b n hb pid p hp y hy (hyx.trans hxb)
      · exact h.fresh b n hb q r hr x hx

/-- A process goes away or gets another parent. -/
theorem Inv.relabel (h : Inv root files pi s) {procs : Nat → Option (Proc α)}
    (hprocs : ∀ q r, procs q = some r →
      ∃ r', s.procs q = some r' ∧ r'.pc = r.pc ∧ r'.ofile = r.ofile) :
    Inv root files pi { s with procs := procs } := by
  refine ⟨?_, ⟨?_, ?_⟩, h.made, h.inj, ?_⟩
  · intro q r hr
    obtain ⟨r', hr', hpc, hofile⟩ := hprocs q r hr
    rw [← hpc, ← hofile]
    exact h.good q r' hr'
  · intro q q' r₁ r₂ h₁ h₂ hne
    obtain ⟨r₁', h₁', hpc₁, _⟩ := hprocs q r₁ h₁
    obtain ⟨r₂', h₂', hpc₂, _⟩ := hprocs q' r₂ h₂
    rw [← hpc₁, ← hpc₂]
    exact h.places.clear q q' r₁' r₂' h₁' h₂' hne
  · intro q hq
    show procs q = none
    cases hr : procs q with
    | none => rfl
    | some r =>
        obtain ⟨r', hr', _⟩ := hprocs q r hr
        rw [h.places.pids q hq] at hr'
        cases hr'
  · intro a n ha q r hr x hx
    obtain ⟨r', hr', hpc, _⟩ := hprocs q r hr
    rw [← hpc] at hx
    exact h.fresh a n ha q r' hr' x hx

/-! ## What each call does to the table -/

section Tables

variable {t : Table α} {a : Ptr} {d : Sub} {p0 p1 n : Nat}

theorem Sub.fd_lt (d : Sub) : d.fd < 3 := by cases d <;> decide

/-- The command on one side of a pipe. -/
theorem Piping.wiring_child (h : Piping root pi a p0 p1 n) :
    wiring root files pi (d :: a) =
      upd (wiring root files pi a) d.fd (some (.pipe n d.writes)) := by
  obtain ⟨l, r, hnode⟩ := h.node
  rw [wiring_pipe hnode, h.made]
  rfl

theorem Good.openFile {t' : Table α} {c : Cmd α} {file : α} {mode fd : Nat}
    (h : Good root files pi t (.opening a)) (hnode : root.at a = some (.redir c file mode fd))
    (hopen : openFile t file mode = some t') : Good root files pi t' (.run (.cmd :: a)) := by
  obtain ⟨c', file', mode', fd', hnode', hlt, rfl⟩ := h.fits
  rw [hnode] at hnode'
  cases hnode'
  have hstd := h.std a rfl
  rw [Sh.openFile, hstd.fdalloc_closed hlt] at hopen
  cases hopen
  have hw : wiring root files pi (.cmd :: a) =
      upd (wiring root files pi a) fd (some (.file file mode)) := wiring_redir hnode
  refine ⟨?_, hw.symm⟩
  rintro b ⟨⟩
  rw [hw]
  exact hstd.upd hlt

/-- A child of a pipe makes one of its calls, which does not fail. -/
theorem Good.callStep {c : Call} (h : Good root files pi t (.child d c a p0 p1)) :
    ∃ pc t', c.step d a p0 p1 t = some (pc, t') ∧ Good root files pi t' pc ∧
      Within pc (.child d c a p0 p1) := by
  have hstd := h.std a rfl
  have hsame : ∀ b, (Pc.child d c a p0 p1).ptr = some b → Std (wiring root files pi b) := h.std
  have hwithin : ∀ c', Within (.child d c' a p0 p1) (.child d c a p0 p1) := by
    intro c'
    exact ⟨fun x hx => ⟨x, hx, List.suffix_refl x⟩, fun x hx => .inl hx⟩
  cases c with
  | close =>
      obtain ⟨n, hn, rfl⟩ := h.fits
      have hopen : (both (wiring root files pi a) n d.fd).isSome = true := by
        rw [both_of_lt d.fd_lt]
        exact hstd.open d.fd_lt
      refine ⟨.child d .dup a p0 p1, _, ?_, ⟨hsame, n, hn, rfl⟩, hwithin _⟩
      rw [Call.step, close_eq hopen, both_upd d.fd_lt]
      rfl
  | dup =>
      obtain ⟨n, hn, rfl⟩ := h.fits
      -- the end at 4 on the left, the one at 3 on the right
      have hend : both (upd (wiring root files pi a) d.fd none) n
          (if d.writes then p1 else p0) = some (.pipe n d.writes) := by
        rw [hn.fst, hn.snd]
        cases d <;> rfl
      have hfree : both (upd (wiring root files pi a) d.fd none) n d.fd = none := by
        rw [both_of_lt d.fd_lt, upd_self]
      have hlow : ∀ j, j < d.fd →
          (both (upd (wiring root files pi a) d.fd none) n j).isSome = true := by
        intro j hj
        have hlt := d.fd_lt
        rw [both_of_lt (by omega), upd_of_ne (by omega)]
        exact hstd.open (by omega)
      have hlt : d.fd < NOFILE := Nat.lt_trans d.fd_lt (by decide)
      refine ⟨.child d .close0 a p0 p1, _, ?_, ⟨hsame, n, hn, rfl⟩, hwithin _⟩
      rw [Call.step, Sh.dup, hend, Option.bind_some, fdalloc_eq hlt hfree hlow, both_upd d.fd_lt,
        upd_upd]
      rfl
  | close0 =>
      obtain ⟨n, hn, rfl⟩ := h.fits
      refine ⟨.child d .close1 a p0 p1, _, ?_, ⟨hsame, n, hn, rfl⟩, hwithin _⟩
      rw [Call.step, hn.fst, close_eq rfl]
      rfl
  | close1 =>
      obtain ⟨n, hn, rfl⟩ := h.fits
      have hchild : Std (wiring root files pi (d :: a)) := by
        rw [hn.wiring_child]
        exact hstd.upd d.fd_lt
      refine ⟨.run (d :: a), wiring root files pi (d :: a), ?_, ⟨?_, rfl⟩, ?_, ?_⟩
      · rw [← hn.wiring_child, Call.step, hn.snd, close_eq rfl, hchild.close_both]
        rfl
      · rintro b ⟨⟩
        exact hchild
      · intro x hx
        exact ⟨x, hx, List.suffix_refl x⟩
      · rintro x ⟨⟩
        exact .inr ⟨d :: a, List.mem_singleton_self _, List.suffix_refl _⟩

end Tables

/-! ## Places of a parent and its child -/

theorem not_cons_suffix (d : Sub) (a : Ptr) : ¬ d :: a <:+ a := by
  intro h
  have := h.length_le
  rw [List.length_cons] at this
  omega

theorem not_cons_suffix_cons {d e : Sub} (a : Ptr) (h : d ≠ e) : ¬ d :: a <:+ e :: a := by
  intro hs
  rcases List.suffix_cons_iff.mp hs with heq | hs
  · exact h (List.cons.inj heq).1
  · exact not_cons_suffix d a hs

section Within

variable {a : Ptr}

theorem Within.of_run {pc : Pc} (hptr : pc.ptr = some a) (hfut : ∀ x ∈ pc.future, a <:+ x) :
    Within pc (.run a) where
  future x hx := ⟨a, List.mem_singleton_self a, hfut x hx⟩
  ptr _ hx := .inl (by rw [← hx, hptr]; rfl)

/-- On to a command that was to come. -/
theorem Within.run {pc : Pc} {b : Ptr} (h : ∃ y ∈ pc.future, y <:+ b) : Within (.run b) pc where
  future x hx := by
    rw [List.mem_singleton.mp hx]
    exact h
  ptr _ hx := by
    cases hx
    exact .inr h

/-- On in the same node, with some of the commands still to come. -/
theorem Within.of_subset {pc pc' : Pc} (hptr : pc'.ptr = pc.ptr)
    (hfut : ∀ x ∈ pc'.future, x ∈ pc.future) : Within pc' pc where
  future x hx := ⟨x, hfut x hx, List.suffix_refl x⟩
  ptr _ hx := .inl (hptr ▸ hx)

theorem Within.of_done {pc' pc : Pc} (hptr : pc'.ptr = pc.ptr ∨ pc'.ptr = none)
    (hfut : pc'.future = []) : Within pc' pc where
  future x hx := by
    rw [hfut] at hx
    cases hx
  ptr x hx := by
    rcases hptr with h | h
    · exact .inl (h ▸ hx)
    · rw [h] at hx
      cases hx

/-- What two processes are in and will enter, below one node: the one takes
the side `d`, the other does not. -/
theorem Clear.of_side {pc pc' : Pc} {d : Sub} (hfut : ∀ x ∈ pc.future, x = d :: a)
    (hfut' : ∀ y ∈ pc'.future, ∃ e, d ≠ e ∧ y = e :: a)
    (hptr : ∀ y, pc'.ptr = some y → y = a ∨ ∃ e, d ≠ e ∧ y = e :: a) : Clear pc pc' := by
  intro x hx y hy
  rw [hfut x hx]
  have hcase : y = a ∨ ∃ e, d ≠ e ∧ y = e :: a := by
    rcases hy with hy | hy
    · exact .inr (hfut' y hy)
    · exact hptr y hy
  rcases hcase with rfl | ⟨e, hne, rfl⟩
  · exact not_cons_suffix d y
  · exact not_cons_suffix_cons a hne

theorem Clear.of_nil {pc pc' : Pc} (h : pc.future = []) : Clear pc pc' := by
  intro x hx
  rw [h] at hx
  cases hx

end Within

/-! ## Every step keeps the invariant -/

/-- Some assignment of pipes to nodes meets the invariant. -/
def Wired (root : Cmd α) (files : Nat → Nat) (s : St α) : Prop := ∃ pi, Inv root files pi s

theorem Inv.runNode {s' : St α} {a : Ptr} {c : Cmd α} (h : Inv root files pi s)
    (hp : s.procs pid = some p) (hpc : p.pc = .run a) (hnode : root.at a = some c)
    (hs : runNode s pid p a c = some s') : Wired root files s' := by
  have hgood : Good root files pi p.ofile (.run a) := hpc ▸ h.good pid p hp
  have hstd : Std (wiring root files pi a) := hgood.std a rfl
  have hself : ∀ b, some a = some b → Std (wiring root files pi b) := hgood.std
  have htable : p.ofile = wiring root files pi a := hgood.fits
  cases c with
  | exec argv =>
      cases hs
      refine ⟨pi, h.move hp ?_ ?_⟩
      · cases argv
        · exact ⟨hself, htable⟩
        · exact ⟨hself, htable⟩
      · rw [hpc]
        cases argv
        · exact .of_done (.inl rfl) rfl
        · exact .of_done (.inl rfl) rfl
  | redir c file mode fd =>
      obtain ⟨t, ht, rfl⟩ := Option.map_eq_some_iff.mp hs
      obtain ⟨hopen, rfl⟩ := close_eq_some ht
      rw [htable] at hopen
      refine ⟨pi, h.move hp ⟨hself, c, file, mode, fd, hnode, (hstd fd).mp hopen, ?_⟩ ?_⟩
      · rw [htable]
      · rw [hpc]
        apply Within.of_run rfl
        intro x hx
        rw [List.mem_singleton.mp hx]
        exact List.suffix_cons _ _
  | list l r =>
      cases hs
      have hleft : wiring root files pi (.left :: a) = wiring root files pi a :=
        wiring_list hnode
      refine ⟨pi, h.fork hp ⟨hself, ⟨l, r, hnode⟩, htable⟩ ?_ ⟨?_, ?_⟩ ?_ ?_ ?_⟩
      · rw [hpc]
        apply Within.of_run rfl
        intro x hx
        rw [List.mem_singleton.mp hx]
        exact List.suffix_cons _ _
      · rintro b ⟨⟩
        rw [hleft]
        exact hstd
      · exact htable.trans hleft.symm
      · rw [hpc]
        exact .run ⟨a, List.mem_singleton_self a, List.suffix_cons _ _⟩
      · apply Clear.of_side (a := a) (d := .right)
        · exact fun x hx => List.mem_singleton.mp hx
        · exact fun y hy => ⟨.left, by decide, List.mem_singleton.mp hy⟩
        · rintro y ⟨⟩
          exact .inr ⟨.left, by decide, rfl⟩
      · apply Clear.of_side (a := a) (d := .left)
        · exact fun x hx => List.mem_singleton.mp hx
        · exact fun y hy => ⟨.right, by decide, List.mem_singleton.mp hy⟩
        · rintro y ⟨⟩
          exact .inl rfl
  | pipe l r =>
      simp only [Sh.runNode] at hs
      rw [htable, hstd.pipe_eq] at hs
      cases hs
      -- the wiring around the node does not depend on its own pipe
      have hsame : wiring root files (upd pi a (some s.pipes)) a = wiring root files pi a := by
        apply wiring_congr
        intro d c hc
        apply upd_of_ne
        rintro rfl
        exact not_cons_suffix d c hc
      refine ⟨upd pi a (some s.pipes), h.pipe hp ?_ ⟨?_, s.pipes, ⟨⟨l, r, hnode⟩, rfl, rfl, ?_⟩, ?_⟩
        ?_ ?_⟩
      · rw [hpc]
        exact List.mem_singleton_self a
      · rintro b ⟨⟩
        rw [hsame]
        exact hstd
      · exact upd_self _ _ _
      · rw [hsame]
      · rw [hpc]
        apply Within.of_run rfl
        intro x hx
        simp only [Pc.future, List.mem_cons, List.not_mem_nil, or_false] at hx
        rcases hx with rfl | rfl
        · exact List.suffix_cons _ _
        · exact List.suffix_cons _ _
      · intro x hx
        simp only [Pc.future, List.mem_cons, List.not_mem_nil, or_false] at hx
        rcases hx with rfl | rfl
        · exact not_cons_suffix _ _
        · exact not_cons_suffix _ _
  | back c =>
      cases hs
      have hcmd : wiring root files pi (.cmd :: a) = wiring root files pi a := wiring_back hnode
      refine ⟨pi, h.fork hp ⟨hself, htable⟩ ?_ ⟨?_, ?_⟩ ?_ (Clear.of_nil rfl) ?_⟩
      · rw [hpc]
        exact .of_done (.inl rfl) rfl
      · rintro b ⟨⟩
        rw [hcmd]
        exact hstd
      · exact htable.trans hcmd.symm
      · rw [hpc]
        exact .run ⟨a, List.mem_singleton_self a, List.suffix_cons _ _⟩
      · apply Clear.of_side (a := a) (d := .cmd)
        · exact fun x hx => List.mem_singleton.mp hx
        · exact fun y hy => by cases hy
        · rintro y ⟨⟩
          exact .inl rfl

theorem Inv.exit (h : Inv root files pi s) (hp : s.procs pid = some p) :
    Inv root files pi (s.exit pid p) := by
  have hrelabel : Inv root files pi { s with procs := fun q => (s.procs q).map fun c =>
      if c.parent = pid then { c with parent := initpid } else c } := by
    apply h.relabel
    intro q r hr
    obtain ⟨c, hc, rfl⟩ := Option.map_eq_some_iff.mp hr
    refine ⟨c, hc, ?_⟩
    split
    · exact ⟨rfl, rfl⟩
    · exact ⟨rfl, rfl⟩
  have hself : (s.procs pid).map (fun c =>
      if c.parent = pid then { c with parent := initpid } else c) =
      some (if p.parent = pid then { p with parent := initpid } else p) := by
    rw [hp, Option.map_some]
  have hzombie : Good root files pi (fun _ => none) .zombie :=
    ⟨fun b hb => (by cases hb), rfl⟩
  unfold St.exit
  refine hrelabel.move hself ?_ ?_
  · exact hzombie
  · exact .of_done (.inr rfl) rfl

theorem Inv.procStep {s' : St α} (h : Inv root files pi s) (hp : s.procs pid = some p)
    (hs : p.step root s pid = some s') : Wired root files s' := by
  have hgood := h.good pid p hp
  cases hpc : p.pc with
  | run a =>
      simp only [Proc.step, hpc] at hs
      obtain ⟨c, hc, hs⟩ := Option.bind_eq_some_iff.mp hs
      exact h.runNode hp hpc hc hs
  | opening a =>
      rw [hpc] at hgood
      obtain ⟨c, file, mode, fd, hnode, _⟩ := hgood.fits
      simp only [Proc.step, hpc, hnode] at hs
      obtain ⟨t, ht, rfl⟩ := Option.map_eq_some_iff.mp hs
      refine ⟨pi, h.move hp (hgood.openFile hnode ht) ?_⟩
      rw [hpc]
      exact .run ⟨_, List.mem_singleton_self _, List.suffix_refl _⟩
  | forkLeft a p0 p1 =>
      simp only [Proc.step, hpc] at hs
      cases hs
      rw [hpc] at hgood
      have hchild : Good root files pi p.ofile (.child .left .close a p0 p1) :=
        ⟨hgood.std, hgood.fits⟩
      refine ⟨pi, h.fork hp ⟨hgood.std, hgood.fits⟩ ?_ hchild ?_ ?_ ?_⟩
      · rw [hpc]
        exact .of_subset rfl fun x hx => List.mem_cons_of_mem _ hx
      · rw [hpc]
        refine Within.of_subset rfl ?_
        intro x hx
        rw [List.mem_singleton.mp hx]
        exact List.mem_cons_self
      · apply Clear.of_side (a := a) (d := .right)
        · exact fun x hx => List.mem_singleton.mp hx
        · exact fun y hy => ⟨.left, by decide, List.mem_singleton.mp hy⟩
        · rintro y ⟨⟩
          exact .inl rfl
      · apply Clear.of_side (a := a) (d := .left)
        · exact fun x hx => List.mem_singleton.mp hx
        · exact fun y hy => ⟨.right, by decide, List.mem_singleton.mp hy⟩
        · rintro y ⟨⟩
          exact .inl rfl
  | forkRight a p0 p1 =>
      simp only [Proc.step, hpc] at hs
      cases hs
      rw [hpc] at hgood
      have hchild : Good root files pi p.ofile (.child .right .close a p0 p1) :=
        ⟨hgood.std, hgood.fits⟩
      refine ⟨pi, h.fork hp ⟨hgood.std, hgood.fits⟩ ?_ hchild ?_ (Clear.of_nil rfl) ?_⟩
      · rw [hpc]
        exact .of_done (.inl rfl) rfl
      · rw [hpc]
        exact .of_subset rfl fun x hx => hx
      · apply Clear.of_side (a := a) (d := .right)
        · exact fun x hx => List.mem_singleton.mp hx
        · exact fun y hy => by cases hy
        · rintro y ⟨⟩
          exact .inl rfl
  | child d c a p0 p1 =>
      rw [hpc] at hgood
      obtain ⟨pc, t, hstep, hgood', hwithin⟩ := hgood.callStep
      simp only [Proc.step, hpc, hstep, Option.map_some] at hs
      cases hs
      exact ⟨pi, h.move hp hgood' (by rw [hpc]; exact hwithin)⟩
  | parent0 a p0 p1 =>
      rw [hpc] at hgood
      obtain ⟨n, hn, ht⟩ := hgood.fits
      simp only [Proc.step, hpc] at hs
      rw [ht, hn.fst, close_eq rfl] at hs
      cases hs
      refine ⟨pi, h.move hp ⟨hgood.std, n, ⟨hn.node, rfl, hn.snd, hn.made⟩, rfl⟩ ?_⟩
      rw [hpc]
      exact .of_done (.inl rfl) rfl
  | parent1 a p0 p1 =>
      rw [hpc] at hgood
      obtain ⟨n, hn, ht⟩ := hgood.fits
      simp only [Proc.step, hpc] at hs
      rw [ht, hn.snd, close_eq rfl, (hgood.std a rfl).close_both] at hs
      cases hs
      refine ⟨pi, h.move hp ⟨hgood.std, rfl⟩ ?_⟩
      rw [hpc]
      exact .of_done (.inl rfl) rfl
  | program a | exiting a =>
      simp only [Proc.step, hpc] at hs
      cases hs
      exact ⟨pi, h.exit hp⟩
  | listWait a | pipeWait a | pipeWait2 a | zombie =>
      simp only [Proc.step, hpc] at hs
      cases hs

/-- Where `wait` returns to has the same table. -/
theorem Good.waited {t : Table α} {pc pc' : Pc} (h : Good root files pi t pc)
    (hpc : pc.waited = some pc') : Good root files pi t pc' ∧ Within pc' pc := by
  cases pc with
  | listWait a =>
      cases hpc
      obtain ⟨⟨l, r, hnode⟩, rfl⟩ := h.fits
      have hright : wiring root files pi (.right :: a) = wiring root files pi a :=
        wiring_list hnode
      refine ⟨⟨?_, hright.symm⟩, .run ⟨_, List.mem_singleton_self _, List.suffix_refl _⟩⟩
      rintro b ⟨⟩
      rw [hright]
      exact h.std a rfl
  | pipeWait a =>
      cases hpc
      exact ⟨⟨h.std, h.fits⟩, .of_done (.inl rfl) rfl⟩
  | pipeWait2 a =>
      cases hpc
      exact ⟨⟨h.std, h.fits⟩, .of_done (.inl rfl) rfl⟩
  | _ => cases hpc

theorem Wired.step {s' : St α} {act : Act} (h : Wired root files s)
    (hs : step root s act = some s') : Wired root files s' := by
  obtain ⟨pi, h⟩ := h
  cases act with
  | step pid =>
      obtain ⟨p, hp, hs⟩ := Option.bind_eq_some_iff.mp hs
      exact h.procStep hp hs
  | wait pid child =>
      obtain ⟨p, hp, hs⟩ := Option.bind_eq_some_iff.mp hs
      obtain ⟨pc, hpc, hs⟩ := Option.bind_eq_some_iff.mp hs
      obtain ⟨c, hc, hs⟩ := Option.bind_eq_some_iff.mp hs
      split at hs
      · rename_i hzombie
        cases hs
        have hne : pid ≠ child := by
          rintro rfl
          rw [hp] at hc
          cases hc
          rw [hzombie.1] at hpc
          cases hpc
        have hremove : Inv root files pi { s with procs := upd s.procs child none } := by
          apply h.relabel
          intro q r hr
          by_cases hq : q = child
          · rw [hq, upd_self] at hr
            cases hr
          · rw [upd_of_ne hq] at hr
            exact ⟨r, hr, rfl, rfl⟩
        obtain ⟨hgood, hwithin⟩ := (h.good pid p hp).waited hpc
        have hp' : upd s.procs child none pid = some p := by rw [upd_of_ne hne, hp]
        refine ⟨pi, hremove.move hp' ?_ ?_⟩
        · exact hgood
        · exact hwithin
      · cases hs

theorem wired_start (root : Cmd α) (files : Nat → Nat) : Wired root files (start files) := by
  have hprocs : ∀ q r, (start files : St α).procs q = some r → q = 2 ∧
      r = ⟨initpid, .run [], wiring root files (fun _ => none) []⟩ := by
    intro q r hr
    simp only [start] at hr
    by_cases hq : q = 2
    · rw [hq, upd_self] at hr
      exact ⟨hq, (Option.some.inj hr).symm⟩
    · rw [upd_of_ne hq] at hr
      cases hr
  refine ⟨fun _ => none, ?_, ⟨?_, ?_⟩, ?_, ?_, ?_⟩
  · intro q r hr
    obtain ⟨_, rfl⟩ := hprocs q r hr
    refine ⟨?_, rfl⟩
    rintro a ⟨⟩ fd
    by_cases hfd : fd < 3
    · simp [wiring, hfd]
    · simp [wiring, hfd]
  · intro q q' r r' hr hr' hne
    exact absurd ((hprocs q r hr).1.trans (hprocs q' r' hr').1.symm) hne
  · intro q hq
    have hle : 3 ≤ q := hq
    have hne : q ≠ 2 := by omega
    simp only [start]
    exact upd_of_ne hne
  · intro a n ha
    cases ha
  · intro a b n ha
    cases ha
  · intro a n ha
    cases ha

/-! ## What the invariant says -/

/-- At the start of a command, in a program, in `wait` or before `exit`: not
between the calls that wire one node. -/
def Pc.rests : Pc → Option Ptr
  | .run a => some a
  | .listWait a => some a
  | .pipeWait a => some a
  | .pipeWait2 a => some a
  | .program a => some a
  | .exiting a => some a
  | _ => none

/-- Replacing 0 or 1 adds no pipe end elsewhere. -/
theorem upd_pipe_end {t : Table α} {d : Sub} {v : Option (File α)}
    (ht : ∀ fd n w, t fd = some (.pipe n w) → fd = 0 ∨ fd = 1) {fd n : Nat} {w : Bool}
    (h : upd t d.fd v fd = some (.pipe n w)) : fd = 0 ∨ fd = 1 := by
  by_cases hfd : fd = d.fd
  · rw [hfd]
    cases d
    · exact .inl rfl
    · exact .inr rfl
    · exact .inl rfl
  · rw [upd_of_ne hfd] at h
    exact ht fd n w h

theorem wiring_pipe_end {a : Ptr} {fd n : Nat} {w : Bool}
    (h : wiring root files pi a fd = some (.pipe n w)) : fd = 0 ∨ fd = 1 := by
  induction a generalizing fd n w with
  | nil =>
      simp only [wiring] at h
      split at h <;> cases h
  | cons d a ih =>
      cases hnode : root.at a with
      | none =>
          simp only [wiring, hnode] at h
          exact ih h
      | some c =>
          cases c with
          | redir c file mode fd' =>
              rw [wiring_redir hnode] at h
              by_cases hfd : fd = fd'
              · rw [hfd, upd_self] at h
                cases h
              · rw [upd_of_ne hfd] at h
                exact ih h
          | pipe l r =>
              rw [wiring_pipe hnode] at h
              exact upd_pipe_end (fun _ _ _ => ih) h
          | _ =>
              simp only [wiring, hnode] at h
              exact ih h

theorem both_pipe_end {t : Table α} {m : Nat}
    (ht : ∀ fd n w, t fd = some (.pipe n w) → fd = 0 ∨ fd = 1) {fd n : Nat} {w : Bool}
    (h : both t m fd = some (.pipe n w)) :
    (fd = 0 ∨ fd = 1) ∨ (fd = 3 ∨ fd = 4) ∧ n = m := by
  rw [both] at h
  by_cases h4 : fd = 4
  · rw [h4, upd_self] at h
    cases h
    exact .inr ⟨.inr h4, rfl⟩
  · rw [upd_of_ne h4] at h
    by_cases h3 : fd = 3
    · rw [h3, upd_self] at h
      cases h
      exact .inr ⟨.inl h3, rfl⟩
    · rw [upd_of_ne h3] at h
      exact .inl (ht fd n w h)

/-- The same when 3 is closed again. -/
theorem both_close_pipe_end {t : Table α} {m : Nat}
    (ht : ∀ fd n w, t fd = some (.pipe n w) → fd = 0 ∨ fd = 1) {fd n : Nat} {w : Bool}
    (h : upd (both t m) 3 none fd = some (.pipe n w)) :
    (fd = 0 ∨ fd = 1) ∨ (fd = 3 ∨ fd = 4) ∧ n = m := by
  by_cases h3 : fd = 3
  · rw [h3, upd_self] at h
    cases h
  · rw [upd_of_ne h3] at h
    exact both_pipe_end ht h

/-- A process holds pipe ends as 0 and 1, and while it wires a `PIPE` node the
ends of that pipe at 3 and 4. -/
theorem Good.pipe_end {t : Table α} {pc : Pc} (h : Good root files pi t pc) {fd n : Nat}
    {w : Bool} (hfd : t fd = some (.pipe n w)) :
    (fd = 0 ∨ fd = 1) ∨
      (fd = 3 ∨ fd = 4) ∧ pc.rests = none ∧ ∃ a, pc.ptr = some a ∧ pi a = some n := by
  have hw : ∀ a fd n w, wiring root files pi a fd = some (.pipe n w) → fd = 0 ∨ fd = 1 :=
    fun a fd n w => wiring_pipe_end
  have hfits := h.fits
  -- the two shapes of a table in the middle of a node
  have hboth : ∀ (u : Table α) m a, (∀ fd n w, u fd = some (.pipe n w) → fd = 0 ∨ fd = 1) →
      pc.rests = none → pc.ptr = some a → pi a = some m →
      both u m fd = some (.pipe n w) ∨ upd (both u m) 3 none fd = some (.pipe n w) →
      (fd = 0 ∨ fd = 1) ∨
        (fd = 3 ∨ fd = 4) ∧ pc.rests = none ∧ ∃ a, pc.ptr = some a ∧ pi a = some n := by
    intro u m a hu hrests hptr hm hcase
    have hends : (fd = 0 ∨ fd = 1) ∨ (fd = 3 ∨ fd = 4) ∧ n = m := by
      rcases hcase with hcase | hcase
      · exact both_pipe_end hu hcase
      · exact both_close_pipe_end hu hcase
    rcases hends with hlow | ⟨hhigh, rfl⟩
    · exact .inl hlow
    · exact .inr ⟨hhigh, hrests, a, hptr, hm⟩
  cases pc with
  | opening a =>
      obtain ⟨c, file, mode, fd', _, _, rfl⟩ := hfits
      by_cases hfd' : fd = fd'
      · rw [hfd', upd_self] at hfd
        cases hfd
      · rw [upd_of_ne hfd'] at hfd
        exact .inl (hw _ _ _ _ hfd)
  | listWait a =>
      obtain ⟨_, rfl⟩ := hfits
      exact .inl (hw _ _ _ _ hfd)
  | forkLeft a p0 p1 | forkRight a p0 p1 | parent0 a p0 p1 =>
      obtain ⟨m, hm, rfl⟩ := hfits
      exact hboth _ m a (hw a) rfl rfl hm.made (.inl hfd)
  | parent1 a p0 p1 =>
      obtain ⟨m, hm, rfl⟩ := hfits
      exact hboth _ m a (hw a) rfl rfl hm.made (.inr hfd)
  | child d c a p0 p1 =>
      cases c with
      | close =>
          obtain ⟨m, hm, rfl⟩ := hfits
          exact hboth _ m a (hw a) rfl rfl hm.made (.inl hfd)
      | dup | close0 =>
          obtain ⟨m, hm, rfl⟩ := hfits
          exact hboth _ m a (fun _ _ _ => upd_pipe_end (hw a)) rfl rfl hm.made (.inl hfd)
      | close1 =>
          obtain ⟨m, hm, rfl⟩ := hfits
          exact hboth _ m a (fun _ _ _ => upd_pipe_end (hw a)) rfl rfl hm.made (.inr hfd)
  | zombie =>
      cases hfits
      cases hfd
  | run a | pipeWait a | pipeWait2 a | program a | exiting a =>
      cases hfits
      exact .inl (hw _ _ _ _ hfd)

/-- Where a process rests it has the table of its command. -/
theorem Good.rests {t : Table α} {pc : Pc} {a : Ptr} (h : Good root files pi t pc)
    (hpc : pc.rests = some a) : Std t ∧ t = wiring root files pi a := by
  have hfits := h.fits
  cases pc with
  | run b | pipeWait b | pipeWait2 b | program b | exiting b =>
      cases hpc
      cases hfits
      exact ⟨h.std a rfl, rfl⟩
  | listWait b =>
      cases hpc
      obtain ⟨_, rfl⟩ := hfits
      exact ⟨h.std a rfl, rfl⟩
  | _ => cases hpc

/-- In the middle of a node the next call neither waits nor fails. -/
theorem Good.enabled {p : Proc α} (h : Good root files pi p.ofile p.pc)
    (hrests : p.pc.rests = none) (hzombie : p.pc ≠ .zombie) :
    ∃ s', p.step root s pid = some s' := by
  cases hpc : p.pc with
  | opening a =>
      rw [hpc] at h
      obtain ⟨c, file, mode, fd, hnode, hlt, ht⟩ := h.fits
      simp only [Proc.step, hpc, hnode, ht, Sh.openFile, (h.std a rfl).fdalloc_closed hlt,
        Option.map_some]
      exact ⟨_, rfl⟩
  | forkLeft a p0 p1 | forkRight a p0 p1 =>
      simp only [Proc.step, hpc]
      exact ⟨_, rfl⟩
  | child d c a p0 p1 =>
      rw [hpc] at h
      obtain ⟨pc, t, hstep, _⟩ := h.callStep
      simp only [Proc.step, hpc, hstep, Option.map_some]
      exact ⟨_, rfl⟩
  | parent0 a p0 p1 =>
      rw [hpc] at h
      obtain ⟨n, hn, ht⟩ := h.fits
      simp only [Proc.step, hpc]
      rw [ht, hn.fst, close_eq rfl]
      exact ⟨_, rfl⟩
  | parent1 a p0 p1 =>
      rw [hpc] at h
      obtain ⟨n, hn, ht⟩ := h.fits
      simp only [Proc.step, hpc]
      rw [ht, hn.snd, close_eq rfl]
      exact ⟨_, rfl⟩
  | zombie => exact absurd hpc hzombie
  | run a | listWait a | pipeWait a | pipeWait2 a | program a | exiting a =>
      rw [hpc] at hrests
      cases hrests

/-- **The shell wires descriptors as the tree says.** In every state of every run
in which no call fails, the `PIPE` nodes have made one pipe each, and a process
that runs a program, waits, or starts or ends a command has open exactly 0, 1
and 2, bound as the nodes around the command prescribe. Other than as 0 and 1 a
process holds pipe ends only between the calls that wire a `PIPE` node, and
those calls do not wait. -/
theorem runcmd_wires (root : Cmd α) (files : Nat → Nat) {s : St α}
    (h : Reaches (step root) (start files) s) :
    ∃ pi : Ptr → Option Nat, (∀ a b n, pi a = some n → pi b = some n → a = b) ∧
      ∀ pid p, s.procs pid = some p →
        (∀ a, p.pc.rests = some a → Std p.ofile ∧ p.ofile = wiring root files pi a) ∧
        (∀ fd n w, p.ofile fd = some (.pipe n w) → fd = 0 ∨ fd = 1 ∨
          (fd = 3 ∨ fd = 4) ∧ p.pc.rests = none ∧ ∃ a, p.pc.ptr = some a ∧ pi a = some n) ∧
        (p.pc.rests = none → p.pc ≠ .zombie → ∃ s', step root s (.step pid) = some s') := by
  obtain ⟨pi, hinv⟩ := h.invariant (fun _ _ _ h hs => Wired.step h hs) (wired_start root files)
  refine ⟨pi, hinv.inj, ?_⟩
  intro pid p hp
  have hgood := hinv.good pid p hp
  refine ⟨fun a ha => hgood.rests ha, ?_, ?_⟩
  · intro fd n w hfd
    rcases hgood.pipe_end hfd with (h0 | h1) | hmid
    · exact .inl h0
    · exact .inr (.inl h1)
    · exact .inr (.inr hmid)
  · intro hrests hzombie
    rw [step, hp, Option.bind_some]
    exact hgood.enabled hrests hzombie

/-- `a | b < d < c`. -/
def pipeline : Cmd String :=
  .pipe (.exec ["a"]) (.redir (.redir (.exec ["b"]) "d" O_RDONLY 0) "c" O_RDONLY 0)

/-- Until both programs run and the process of the shell waits. -/
def pipelineRun : List Act :=
  [.step 2, .step 2, .step 3, .step 2, .step 3, .step 4, .step 3, .step 3, .step 3, .step 4,
    .step 4, .step 2, .step 4, .step 2, .step 4, .step 4, .step 4, .step 4, .step 4]

def pipelineEnd (s : St String) : Bool :=
  (s.procs 2).any (fun p => decide (p.pc = .pipeWait [])) &&
    (s.procs 3).any (fun p => decide (p.pc = .program [.left])) &&
    (s.procs 4).any (fun p => decide (p.pc = .program [.cmd, .cmd, .right]))

/-- The run is one, and the innermost redirection is what the right side reads. -/
theorem runcmd_wires_pipeline : ∃ s : St String,
    Reaches (step pipeline) (start id) s ∧ pipelineEnd s = true ∧
      ∃ p, s.procs 4 = some p ∧ p.ofile 0 = some (.file "d" O_RDONLY) := by
  have hrun : (execAll (step pipeline) (start id) pipelineRun).map pipelineEnd = some true := by
    decide +kernel
  obtain ⟨s, hs, hend⟩ := Option.map_eq_some_iff.mp hrun
  have hreach := reaches_of_execAll hs
  obtain ⟨pi, _, hprocs⟩ := runcmd_wires pipeline id hreach
  refine ⟨s, hreach, hend, ?_⟩
  rw [pipelineEnd, Bool.and_eq_true, Bool.and_eq_true] at hend
  obtain ⟨p, hp, hpc⟩ := (Option.any_eq_true _ _).mp hend.2
  have hpc : p.pc = .program [.cmd, .cmd, .right] := of_decide_eq_true hpc
  obtain ⟨_, htable⟩ := (hprocs 4 p hp).1 [.cmd, .cmd, .right] (by rw [hpc]; rfl)
  refine ⟨p, hp, ?_⟩
  rw [htable]
  rfl

end Xv6.Sh
