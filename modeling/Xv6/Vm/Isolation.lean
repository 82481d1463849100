import Xv6.Vm.System
import Xv6.Vm.Rules

/-!
# Vm — isolation of physical pages

In every state that the kernel can reach, a page has at most one role.
The tags of `Vm.Tags` cover what the page tables and the free list refer
to. Here they are joined with the pointers that the rest of the kernel
holds: each such pointer is the only one to its page.
-/

namespace Xv6.Vm

open Lib

/-- The allocator of the kernel hands out the pages of its free list. -/
def lawful (cfg : Config) : Lawful (kmem cfg) where
  free k := {x | x ∈ k.freelist}
  ok k := k.freelist.Nodup
  zero := by simp [kmem, Nat.ne_of_gt cfg.first_pos]
  kalloc_none u k k' hok hk := by
    rcases k with ⟨_ | ⟨x, xs⟩, _ | ⟨_ | _, fs⟩⟩ <;> simp [kmem] at hk <;> subst hk <;>
      exact ⟨hok, fun _ hx => hx⟩
  kalloc_some u k x k' hok hk := by
    rcases k with ⟨_ | ⟨y, xs⟩, _ | ⟨_ | _, fs⟩⟩ <;> simp [kmem] at hk <;> obtain ⟨rfl, rfl⟩ := hk
    all_goals
      obtain ⟨hy, hxs⟩ := List.nodup_cons.mp hok
      exact ⟨hxs, List.mem_cons_self .., hy, fun _ hx => List.mem_cons_of_mem _ hx⟩
  kfree x k hok hx := ⟨List.nodup_cons.mpr ⟨hx, hok⟩, fun y hy => List.mem_cons.mp hy⟩

/-- The pages that neither `kinit1` nor `kinit2` has put on the free list
yet. -/
def State.Fresh (cfg : Config) (s : State) (x : Page) : Prop :=
  s.low = false ∨ (s.high = false ∧ cfg.split ≤ x)

/-- The tag of a page that a pointer refers to. -/
def Ref.tag (r : Ref) : Tag := if r.isDir then .dir else .held

theorem Ref.tag_held_or_dir (r : Ref) : r.tag = .held ∨ r.tag = .dir := by
  unfold Ref.tag
  split
  · exact .inr rfl
  · exact .inl rfl

/-- The size that a process has, or is about to have, is below the kernel. -/
def Task.Small : Task → Prop
  | .exec _ sz => sz ≤ KERNBASE
  | .stack _ sz => sz ≤ KERNBASE
  | _ => True

/-- Only a process that runs is in the middle of something. -/
def Proc.Busy (p : Nat) (q : Proc) : Prop :=
  match q.task with
  | .none => True
  | .userinit => q.state = .embryo
  | .fork np => q.state = .alive ∧ np ≠ p
  | _ => q.state = .alive

/-- The tags `ρ` fit the state. -/
structure Good (cfg : Config) (ρ : Page → Tag) (s : State) : Prop where
  mem : Tagged (lawful cfg) ρ s.heap
  tag : ∀ r x, s.ref r = some x → ρ x = r.tag
  range : ∀ r x, s.ref r = some x → (Vm.kmem cfg).valid x = true
  inj : ∀ r r' x, s.ref r = some x → s.ref r' = some x → r = r'
  fresh : ∀ x, s.Fresh cfg x → ρ x = .held ∧ ∀ r, s.ref r ≠ some x
  size : ∀ p, (s.proc p).sz ≤ KERNBASE ∧ (s.proc p).task.Small
  busy : ∀ p, (s.proc p).Busy p
  sound : s.halted ≠ some .junk

def Inv (cfg : Config) (s : State) : Prop := ∃ ρ, Good cfg ρ s

variable {cfg : Config} {ρ ρ' : Page → Tag} {s s' : State} {S : Set Page}

/-- What every process has to satisfy. -/
def ProcsOk (s : State) : Prop :=
  ∀ p, ((s.proc p).sz ≤ KERNBASE ∧ (s.proc p).task.Small) ∧ (s.proc p).Busy p

/-- **The step rule**: after a call, a pointer is an old one whose page was
not freed, or it is the only one to a page that was free. -/
theorem Good.next (hG : Good cfg ρ s) (hT : Tagged (lawful cfg) ρ' s'.heap) (hk : Keeps S ρ ρ')
    (href : ∀ r x, s'.ref r = some x → (s.ref r = some x ∧ x ∉ S) ∨
      (ρ x = .free ∧ ρ' x = r.tag ∧ ∀ r', s'.ref r' = some x → r' = r))
    (hfresh : ∀ x, s'.Fresh cfg x → s.Fresh cfg x ∧ x ∉ S)
    (hproc : ProcsOk s') (hsound : s'.halted ≠ some .junk) : Good cfg ρ' s' where
  mem := hT
  tag r x hr := by
    rcases href r x hr with ⟨hold, hS⟩ | ⟨_, htag, _⟩
    · have htag := hG.tag r x hold
      rw [hk x hS (htag ▸ r.tag_held_or_dir), htag]
    · exact htag
  range r x hr := by
    rcases href r x hr with ⟨hold, _⟩ | ⟨hfree, _⟩
    · exact hG.range r x hold
    · exact hG.mem.range x (by simp [hfree])
  inj r r' x hr hr' := by
    rcases href r' x hr' with ⟨hold', _⟩ | ⟨_, _, honly⟩
    · rcases href r x hr with ⟨hold, _⟩ | ⟨_, _, honly⟩
      · exact hG.inj r r' x hold hold'
      · exact (honly r' hr').symm
    · exact honly r hr
  fresh x hx := by
    obtain ⟨hx, hS⟩ := hfresh x hx
    obtain ⟨hheld, hnone⟩ := hG.fresh x hx
    refine ⟨by rw [hk x hS (.inl hheld), hheld], fun r hr => ?_⟩
    rcases href r x hr with ⟨hold, _⟩ | ⟨hfree, _⟩
    · exact hnone r hold
    · simp [hheld] at hfree
  size p := (hproc p).1
  busy p := (hproc p).2
  sound := hsound

theorem Good.procsOk (hG : Good cfg ρ s) : ProcsOk s := fun p => ⟨hG.size p, hG.busy p⟩

/-- A program runs, and the state goes on from its result. -/
theorem Good.run {α : Type} {m : KernM Kmem α} {k : α → State → State}
    {Q : α → Heap Kmem → Prop} (hG : Good cfg ρ s) (hm : Ensures m s.heap (Halts (lawful cfg) ρ ∅) Q)
    (hk : ∀ a h, Q a h → Inv cfg (k a { s with heap := h })) : Inv cfg (s.run m k) := by
  unfold State.run
  cases hr : m s.heap with
  | ok r =>
      obtain ⟨a, h⟩ := r
      exact hk a h (hm.of_ok hr)
  | error r =>
      obtain ⟨e, h⟩ := r
      obtain ⟨hjunk, ρ', hT, hkeep⟩ := hm.of_error hr
      refine ⟨ρ', hG.next hT hkeep (fun r x hx => .inl ⟨hx, by simp⟩) (fun x hx => ⟨hx, by simp⟩)
        hG.procsOk ?_⟩
      simpa using hjunk

theorem Good.ref_ne_free {r : Ref} {x : Page} (hG : Good cfg ρ s) (hr : s.ref r = some x) :
    ρ x ≠ .free := by
  rw [hG.tag r x hr]
  rcases r.tag_held_or_dir with h | h <;> simp [h]

/-! ## One process changes -/

theorem ref_setProc {p : Nat} {q : Proc} {r : Ref} {x : Page} (hr : (s.setProc p q).ref r = some x) :
    (s.ref r = some x ∧ r ≠ .pgdir p ∧ r ≠ .exec p ∧ r ≠ .kstack p) ∨
      (r = .pgdir p ∧ q.dir = some x) ∨ (r = .exec p ∧ q.task.dir = some x) ∨
      (r = .kstack p ∧ q.kstack = some x) := by
  have hproc : ∀ p', p' = p ∧ (s.setProc p q).proc p' = q ∨
      p' ≠ p ∧ (s.setProc p q).proc p' = s.proc p' := by
    intro p'
    by_cases hp : p' = p
    · exact .inl ⟨hp, hp ▸ upd_self ..⟩
    · exact .inr ⟨hp, upd_of_ne hp⟩
  cases r with
  | kpgdir => exact .inl ⟨hr, by simp⟩
  | cpuStack c => exact .inl ⟨hr, by simp⟩
  | pipe n => exact .inl ⟨hr, by simp⟩
  | pgdir p' =>
      simp only [State.ref] at hr
      rcases hproc p' with ⟨rfl, h⟩ | ⟨hne, h⟩
      · exact .inr (.inl ⟨rfl, by rw [← hr, h]⟩)
      · exact .inl ⟨by rw [← hr, h, State.ref], by simp [hne]⟩
  | exec p' =>
      simp only [State.ref] at hr
      rcases hproc p' with ⟨rfl, h⟩ | ⟨hne, h⟩
      · exact .inr (.inr (.inl ⟨rfl, by rw [← hr, h]⟩))
      · exact .inl ⟨by rw [← hr, h, State.ref], by simp [hne]⟩
  | kstack p' =>
      simp only [State.ref] at hr
      rcases hproc p' with ⟨rfl, h⟩ | ⟨hne, h⟩
      · exact .inr (.inr (.inr ⟨rfl, by rw [← hr, h]⟩))
      · exact .inl ⟨by rw [← hr, h, State.ref], by simp [hne]⟩

/-- **The step rule for one process**: what was freed was held by the
process, and each of its pointers is as before or leads to a page that
was free. -/
theorem Good.setProc {p : Nat} {q : Proc} {h : Heap Kmem} (hG : Good cfg ρ s)
    (hT : Tagged (lawful cfg) ρ' h) (hk : Keeps S ρ ρ')
    (hS : ∀ x ∈ S, s.ref (.pgdir p) = some x ∨ s.ref (.exec p) = some x ∨
      s.ref (.kstack p) = some x)
    (hdir : ∀ x, q.dir = some x → (s.ref (.pgdir p) = some x ∧ x ∉ S) ∨
      (ρ x = .free ∧ ρ' x = .dir ∧ q.task.dir ≠ some x))
    (htask : ∀ x, q.task.dir = some x → (s.ref (.exec p) = some x ∧ x ∉ S) ∨
      (ρ x = .free ∧ ρ' x = .dir ∧ q.dir ≠ some x))
    (hstack : ∀ x, q.kstack = some x → (s.ref (.kstack p) = some x ∧ x ∉ S) ∨
      (ρ x = .free ∧ ρ' x = .held))
    (hq : (q.sz ≤ KERNBASE ∧ q.task.Small) ∧ q.Busy p) :
    Good cfg ρ' ({ s with heap := h }.setProc p q) := by
  have hSref : ∀ x ∈ S, ∃ r, s.ref r = some x ∧ (r = .pgdir p ∨ r = .exec p ∨ r = .kstack p) := by
    intro x hx
    rcases hS x hx with h | h | h
    · exact ⟨_, h, by simp⟩
    · exact ⟨_, h, by simp⟩
    · exact ⟨_, h, by simp⟩
  refine hG.next hT hk ?_ ?_ ?_ hG.sound
  · intro r x hr
    -- a page that was free is held by at most one of the three pointers
    rcases ref_setProc hr with ⟨hold, h1, h2, h3⟩ | ⟨rfl, h⟩ | ⟨rfl, h⟩ | ⟨rfl, h⟩
    · refine .inl ⟨hold, fun hx => ?_⟩
      obtain ⟨r', hr', hwhich⟩ := hSref x hx
      obtain rfl := hG.inj r r' x hold hr'
      simp [h1, h2, h3] at hwhich
    · refine (hdir x h).imp id fun ⟨hfree, htag, hne⟩ => ⟨hfree, htag, fun r' hr' => ?_⟩
      rcases ref_setProc hr' with ⟨hold, _⟩ | ⟨rfl, _⟩ | ⟨_, h'⟩ | ⟨_, h'⟩
      · exact absurd hfree (hG.ref_ne_free hold)
      · rfl
      · exact absurd h' hne
      · rcases hstack x h' with ⟨hold, _⟩ | ⟨_, hheld⟩
        · exact absurd hfree (hG.ref_ne_free hold)
        · simp [htag] at hheld
    · refine (htask x h).imp id fun ⟨hfree, htag, hne⟩ => ⟨hfree, htag, fun r' hr' => ?_⟩
      rcases ref_setProc hr' with ⟨hold, _⟩ | ⟨_, h'⟩ | ⟨rfl, _⟩ | ⟨_, h'⟩
      · exact absurd hfree (hG.ref_ne_free hold)
      · exact absurd h' hne
      · rfl
      · rcases hstack x h' with ⟨hold, _⟩ | ⟨_, hheld⟩
        · exact absurd hfree (hG.ref_ne_free hold)
        · simp [htag] at hheld
    · refine (hstack x h).imp id fun ⟨hfree, htag⟩ => ⟨hfree, htag, fun r' hr' => ?_⟩
      rcases ref_setProc hr' with ⟨hold, _⟩ | ⟨_, h'⟩ | ⟨_, h'⟩ | ⟨rfl, _⟩
      · exact absurd hfree (hG.ref_ne_free hold)
      · rcases hdir x h' with ⟨hold, _⟩ | ⟨_, hd, _⟩
        · exact absurd hfree (hG.ref_ne_free hold)
        · simp [htag] at hd
      · rcases htask x h' with ⟨hold, _⟩ | ⟨_, hd, _⟩
        · exact absurd hfree (hG.ref_ne_free hold)
        · simp [htag] at hd
      · rfl
  · intro x hx
    refine ⟨hx, fun hxS => ?_⟩
    obtain ⟨r, hr, _⟩ := hSref x hxS
    exact (hG.fresh x hx).2 r hr
  · intro p'
    by_cases hp : p' = p
    · subst hp
      simpa only [State.setProc, upd_self] using hq
    · simpa only [State.setProc, upd_of_ne hp] using hG.procsOk p'

/-! ## The calls -/

/-- `freerange` of pages that are held. -/
theorem freerange_rule {n x : Nat} {h : Heap Kmem} (hT : Tagged (lawful cfg) ρ h)
    (hheld : ∀ y, x ≤ y → y < x + n → ρ y = .held ∧ (Vm.kmem cfg).valid y = true) :
    Ensures (freerange cfg n x) h (fun _ => False) fun _ h' =>
      Tracks (lawful cfg) ρ {y : Nat | x ≤ y ∧ y < x + n} h' := by
  induction n generalizing x ρ h with
  | zero => exact ⟨ρ, hT, .refl _ _⟩
  | succ n ih =>
      obtain ⟨hx, hr⟩ := hheld x (Nat.le_refl _) (by omega)
      simp only [freerange, ensures_bind, ensures_kfree (A := Vm.kmem cfg) hr]
      refine (ih (hT.freed hx hr) fun y hle hlt => ?_).next fun _ h' hr => ?_
      · have hne : y ≠ x := by
          rintro rfl
          omega
        rw [upd_of_ne hne]
        exact hheld y (by omega) (by omega)
      · refine hr.trans (keeps_upd (S := {y : Nat | x ≤ y ∧ y < x + (n + 1)}) _ fun _ => ?_) ?_
        · exact ⟨Nat.le_refl _, Nat.lt_add_of_pos_right (Nat.succ_pos n)⟩
        · rintro y ⟨hle, hlt⟩ _
          exact ⟨Nat.le_of_succ_le hle, Nat.add_right_comm x 1 n ▸ hlt⟩

/-- A page from `kalloc` was free. -/
theorem kalloc_tracks {h : Heap Kmem} (hT : Tagged (lawful cfg) ρ h) :
    Ensures (kalloc (kmem cfg) .page) h (Halts (lawful cfg) ρ ∅) fun r h' =>
      ∃ ρ', Tagged (lawful cfg) ρ' h' ∧ Keeps ∅ ρ ρ' ∧ ∀ x, r = some x → ρ x = .free ∧ ρ' x = .held := by
  refine (kalloc_rule .page hT).imp (fun _ => False.elim) fun r h' hr => ?_
  obtain ⟨_, hr⟩ := hr
  cases r with
  | none => exact ⟨ρ, hr, .refl _ _, by simp⟩
  | some x =>
      obtain ⟨hfree, _, hT'⟩ := hr
      refine ⟨_, hT', keeps_upd _ (by simp [hfree]), ?_⟩
      rintro y ⟨⟩
      exact ⟨hfree, upd_self ..⟩

/-- `kinit1` and `kinit2` put fresh pages on the free list. -/
theorem Good.kinit {n x : Nat} {k : State → State} (hG : Good cfg ρ s)
    (hheld : ∀ y, x ≤ y → y < x + n → s.Fresh cfg y ∧ (Vm.kmem cfg).valid y = true)
    (href : ∀ s, (k s).ref = s.ref) (hproc : ∀ s, (k s).proc = s.proc)
    (hheap : ∀ s, (k s).heap = s.heap) (hhalt : ∀ s, (k s).halted = s.halted)
    (hfresh : ∀ h y, (k { s with heap := h }).Fresh cfg y → s.Fresh cfg y ∧ ¬ (x ≤ y ∧ y < x + n)) :
    Inv cfg (s.run (freerange cfg n x) fun _ => k) := by
  refine hG.run ((freerange_rule hG.mem fun y hle hlt => ?_).imp (fun _ => False.elim)
    fun _ _ hr => hr) fun _ h hr => ?_
  · obtain ⟨hf, hr⟩ := hheld y hle hlt
    exact ⟨(hG.fresh y hf).1, hr⟩
  · obtain ⟨ρ', hT, hk⟩ := hr
    refine ⟨ρ', hG.next (by rwa [hheap]) hk (fun r y hy => .inl ?_) (hfresh h) ?_ ?_⟩
    · rw [href] at hy
      refine ⟨hy, fun hmem => ?_⟩
      exact (hG.fresh y (hheld y hmem.1 hmem.2).1).2 r hy
    · intro p
      rw [hproc]
      exact hG.procsOk p
    · rw [hhalt]
      exact hG.sound

/-- A process without a task in the middle of something. -/
theorem Good.setTask {p : Nat} (hG : Good cfg ρ s) {t : Task}
    (hdir : ∀ x, t.dir = some x → s.ref (.exec p) = some x) (hsmall : t.Small)
    (hbusy : Proc.Busy p { s.proc p with task := t }) : Good cfg ρ (s.setTask p t) :=
  hG.setProc (S := ∅) hG.mem (.refl _ _) (by simp) (fun x hx => .inl ⟨hx, by simp⟩)
    (fun x hx => .inl ⟨hdir x hx, by simp⟩) (fun x hx => .inl ⟨hx, by simp⟩)
    ⟨⟨(hG.size p).1, hsmall⟩, hbusy⟩

theorem Good.busy_unused {p : Nat} (hG : Good cfg ρ s) (hu : (s.proc p).state = .unused) :
    (s.proc p).task = .none := by
  have hb := hG.busy p
  unfold Proc.Busy at hb
  split at hb <;> simp_all

theorem Good.busy_zombie {p : Nat} (hG : Good cfg ρ s) (hu : (s.proc p).state = .zombie) :
    (s.proc p).task = .none := by
  have hb := hG.busy p
  unfold Proc.Busy at hb
  split at hb <;> simp_all

theorem Proc.ready_iff {q : Proc} : q.ready = true ↔ q.state = .alive ∧ q.task = .none := by
  unfold Proc.ready
  split <;> simp_all

theorem Good.allocproc {np : Nat} {k : State → State} (hG : Good cfg ρ s)
    (hu : (s.proc np).state = .unused)
    (hk : ∀ ρ' h x, Good cfg ρ' ({ s with heap := h }.setProc np
      { s.proc np with state := .embryo, kstack := some x }) →
      Inv cfg (k ({ s with heap := h }.setProc np
        { s.proc np with state := .embryo, kstack := some x }))) :
    Inv cfg (allocproc cfg s np k) := by
  unfold Vm.allocproc
  refine hG.run ((kalloc_rule .page hG.mem).imp (fun _ => False.elim) fun _ _ hr => hr)
    fun r h hr => ?_
  obtain ⟨_, hr⟩ := hr
  cases r with
  | none =>
      exact ⟨ρ, hG.next (S := ∅) hr (.refl _ _) (fun r x hx => .inl ⟨hx, by simp⟩)
        (fun x hx => ⟨hx, by simp⟩) hG.procsOk hG.sound⟩
  | some x =>
      obtain ⟨hfree, _, hT⟩ := hr
      have htask := hG.busy_unused hu
      refine hk (upd ρ x .held) h x (hG.setProc (S := ∅) hT (keeps_upd _ (by simp [hfree]))
        (by simp) (fun y hy => ?_) (fun y hy => ?_) (fun y hy => .inr ?_) ⟨hG.size np, ?_⟩)
      · simp [Proc.dir] at hy
      · simp [htask, Task.dir] at hy
      · cases hy
        exact ⟨hfree, upd_self ..⟩
      · simp [Proc.Busy, htask]

theorem userinitMem_rule {h : Heap Kmem} (hT : Tagged (lawful cfg) ρ h) :
    Ensures (userinitMem cfg) h (Halts (lawful cfg) ρ ∅) fun d h' =>
      ∃ ρ', Tagged (lawful cfg) ρ' h' ∧ Keeps ∅ ρ ρ' ∧ ρ d = .free ∧ ρ' d = .dir := by
  simp only [userinitMem, ensures_bind]
  refine (setupkvm_rule cfg.kmap_high hT).next fun r h1 hr => ?_
  obtain ⟨ρ1, hT1, hk1, hr⟩ := hr
  cases r with
  | none => exact ⟨by simp, ρ1, hT1, hk1⟩
  | some d =>
      obtain ⟨hfree, hd⟩ := hr d rfl
      simp only [ensures_bind, ensures_pure]
      refine (inituvm_rule hT1 hd).imp (fun e he => he.trans hk1 (by simp)) fun _ h2 hr => ?_
      obtain ⟨ρ2, hT2, hk2⟩ := hr
      exact ⟨ρ2, hT2, hk1.trans hk2 (by simp), hfree, (hk2 d (by simp) (.inr hd)).trans hd⟩

theorem Good.userinit {p : Nat} (hG : Good cfg ρ s) : Inv cfg (userinit cfg s p) := by
  refine hG.run (userinitMem_rule hG.mem) fun d h hr => ?_
  obtain ⟨ρ', hT, hk, hfree, hd⟩ := hr
  refine ⟨ρ', hG.setProc hT hk (by simp) (fun x hx => .inr ?_) (by simp [Task.dir])
    (fun x hx => .inl ⟨hx, by simp⟩) ⟨⟨(by decide : PGSIZE ≤ KERNBASE), trivial⟩, trivial⟩⟩
  cases hx
  exact ⟨hfree, hd, by simp [Task.dir]⟩

theorem forkMem_rule {d x : Page} {sz : Nat} {h : Heap Kmem} (hT : Tagged (lawful cfg) ρ h)
    (hd : ρ d = .dir) (hx : ρ x = .held) (hr : (Vm.kmem cfg).valid x = true) :
    Ensures (forkMem cfg d sz x) h (Halts (lawful cfg) ρ ∅) fun r h' => ∃ ρ', Tagged (lawful cfg) ρ' h' ∧
      (r = none → Keeps {x} ρ ρ') ∧
      ∀ d', r = some d' → Keeps ∅ ρ ρ' ∧ ρ d' = .free ∧ ρ' d' = .dir := by
  simp only [forkMem, ensures_bind]
  refine (copyuvm_rule cfg.kmap_high hT hd).next fun r h1 hr1 => ?_
  obtain ⟨ρ1, hT1, hk1, hr1⟩ := hr1
  cases r with
  | some d' =>
      refine ⟨ρ1, hT1, by simp, ?_⟩
      rintro d'' ⟨⟩
      exact ⟨hk1, hr1 d' rfl⟩
  | none =>
      have hx1 : ρ1 x = .held := (hk1 x (by simp) (.inl hx)).trans hx
      simp only [ensures_bind, ensures_kfree (A := Vm.kmem cfg) hr, ensures_pure]
      refine ⟨_, hT1.freed hx1 hr, fun _ => ?_, by simp⟩
      exact Keeps.trans (S := {x}) (fun y _ => hk1 y (by simp))
        (keeps_upd (S := {x}) _ fun _ => rfl) fun y hy _ => hy

theorem Good.forkCopy {p np : Nat} {d x : Page} (hG : Good cfg ρ s)
    (ht : (s.proc p).task = .fork np) (hd : (s.proc p).pgdir = some d)
    (hx : (s.proc np).kstack = some x) : Inv cfg (forkCopy cfg s p np d x) := by
  have hb := hG.busy p
  simp only [Proc.Busy, ht] at hb
  have hdir : ρ d = .dir := hG.tag (.pgdir p) d (by simp [State.ref, Proc.dir, hb.1, hd])
  have hstack : s.ref (.kstack np) = some x := hx
  refine hG.run (forkMem_rule hG.mem hdir (hG.tag _ x hstack) (hG.range _ x hstack))
    fun r h hr => ?_
  obtain ⟨ρ', hT, hnone, hsome⟩ := hr
  cases r with
  | none =>
      have h1 : Good cfg ρ' ({ s with heap := h }.setProc np { s.proc np with
          state := .unused, kstack := none, pgdir := none, task := .none }) := by
        refine hG.setProc hT (hnone rfl) ?_ (by simp [Proc.dir]) (by simp [Task.dir]) (by simp)
          ⟨⟨(hG.size np).1, trivial⟩, trivial⟩
        rintro y rfl
        exact .inr (.inr hstack)
      exact ⟨ρ', h1.setTask (by simp [Task.dir]) trivial trivial⟩
  | some d' =>
      obtain ⟨hk, hfree, hd'⟩ := hsome d' rfl
      have h1 : Good cfg ρ' ({ s with heap := h }.setProc np { s.proc np with
          state := .alive, pgdir := some d', sz := (s.proc p).sz, task := .none }) := by
        refine hG.setProc hT hk (by simp) (fun y hy => .inr ?_) (by simp [Task.dir])
          (fun y hy => .inl ⟨hy, by simp⟩) ⟨⟨(hG.size p).1, trivial⟩, trivial⟩
        cases hy
        exact ⟨hfree, hd', by simp [Task.dir]⟩
      exact ⟨ρ', h1.setTask (by simp [Task.dir]) trivial trivial⟩

theorem Good.growproc {p : Nat} {d : Page} {n : Int} (hG : Good cfg ρ s)
    (ha : (s.proc p).state = .alive) (hd : (s.proc p).pgdir = some d) :
    Inv cfg (growproc cfg s p d n) := by
  have hdir : ρ d = .dir := hG.tag (.pgdir p) d (by simp [State.ref, Proc.dir, ha, hd])
  have hsz := (hG.size p).1
  unfold Vm.growproc
  split
  · exact ⟨ρ, hG⟩
  have hm : Ensures (if n > 0 then allocuvm (kmem cfg) d (s.proc p).sz
        (((s.proc p).sz + n) % 2 ^ 32).toNat
      else deallocuvm (kmem cfg) d (s.proc p).sz (((s.proc p).sz + n) % 2 ^ 32).toNat)
      s.heap (Halts (lawful cfg) ρ ∅) fun r h' => Tracks (lawful cfg) ρ ∅ h' ∧ r ≤ KERNBASE := by
    split
    · exact allocuvm_rule hsz hG.mem hdir
    · exact (deallocuvm_rule hsz hG.mem hdir).imp (fun _ => False.elim)
        fun r h' hr => ⟨hr.1, hr.2.trans hsz⟩
  refine hG.run hm fun r h hr => ?_
  obtain ⟨⟨ρ', hT, hk⟩, hle⟩ := hr
  split
  · exact ⟨ρ', hG.next hT hk (fun r x hx => .inl ⟨hx, by simp⟩) (fun x hx => ⟨hx, by simp⟩)
      hG.procsOk hG.sound⟩
  · exact ⟨ρ', hG.setProc hT hk (by simp) (fun x hx => .inl ⟨hx, by simp⟩)
      (fun x hx => .inl ⟨hx, by simp⟩) (fun x hx => .inl ⟨hx, by simp⟩)
      ⟨⟨hle, (hG.size p).2⟩, hG.busy p⟩⟩

/-- `exec` has freed its directory, and has none then. -/
theorem Good.dropTask {p : Nat} {d : Page} {h : Heap Kmem} (hG : Good cfg ρ s)
    (hd : (s.proc p).task.dir = some d) (hr : Tracks (lawful cfg) ρ {d} h) :
    Inv cfg ({ s with heap := h }.setTask p .none) := by
  obtain ⟨ρ', hT, hk⟩ := hr
  refine ⟨ρ', hG.setProc hT hk ?_ (fun x hx => .inl ⟨hx, ?_⟩) (by simp [Task.dir])
    (fun x hx => .inl ⟨hx, ?_⟩) ⟨⟨(hG.size p).1, trivial⟩, trivial⟩⟩
  · rintro x rfl
    exact .inr (.inl hd)
  · rintro rfl
    cases hG.inj (.pgdir p) (.exec p) x hx hd
  · rintro rfl
    cases hG.inj (.kstack p) (.exec p) x hx hd

/-- `exec` goes on with its directory, or has freed it. -/
theorem Good.execNext {p : Nat} {d : Page} {m : KernM Kmem Nat} {t : Nat → Task}
    (hG : Good cfg ρ s) (hd : (s.proc p).task.dir = some d)
    (hm : Ensures m s.heap (Halts (lawful cfg) ρ ∅) fun r h' =>
      if r = 0 then Tracks (lawful cfg) ρ {d} h' else Tracks (lawful cfg) ρ ∅ h' ∧ r ≤ KERNBASE)
    (ht : ∀ r, r ≤ KERNBASE → (t r).dir = some d ∧ (t r).Small ∧
      Proc.Busy p { s.proc p with task := t r }) :
    Inv cfg (s.run m fun r s => s.setTask p (if r = 0 then .none else t r)) := by
  refine hG.run hm fun r h hr => ?_
  split at hr
  · rename_i h0
    simp only [h0, if_true]
    exact hG.dropTask hd hr
  · obtain ⟨⟨ρ', hT, hk⟩, hle⟩ := hr
    rename_i h0
    obtain ⟨htd, hsmall, hbusy⟩ := ht r hle
    simp only [h0, if_false]
    refine ⟨ρ', hG.setProc hT hk (by simp) (fun x hx => .inl ⟨hx, by simp⟩) (fun x hx => ?_)
      (fun x hx => .inl ⟨hx, by simp⟩) ⟨⟨(hG.size p).1, hsmall⟩, hbusy⟩⟩
    exact .inl ⟨hd.trans (htd.symm.trans hx), by simp⟩

theorem Good.execFree {p : Nat} {d : Page} (hG : Good cfg ρ s)
    (hd : (s.proc p).task.dir = some d) :
    Inv cfg (s.run (freevm (kmem cfg) d) fun _ s => s.setTask p .none) := by
  have hdir : ρ d = .dir := hG.tag (.exec p) d hd
  exact hG.run ((freevm_rule hG.mem hdir).imp (fun _ => False.elim) fun _ _ hr => hr)
    fun _ h hr => hG.dropTask hd hr

theorem Good.execSegment {p : Nat} {d : Page} {sz newsz : Nat} (hG : Good cfg ρ s)
    (ht : (s.proc p).task = .exec d sz) : Inv cfg (execSegment cfg s p d sz newsz) := by
  have hd : (s.proc p).task.dir = some d := by simp [ht, Task.dir]
  have hdir : ρ d = .dir := hG.tag (.exec p) d hd
  have hb := hG.busy p
  have hsz := (hG.size p).2
  simp only [Proc.Busy, Task.Small, ht] at hb hsz
  refine hG.execNext hd ?_ fun r hle => ⟨rfl, hle, hb⟩
  simp only [ensures_bind]
  refine (allocuvm_rule hsz hG.mem hdir).next fun r h1 hr => ?_
  obtain ⟨⟨ρ1, hT1, hk1⟩, hle⟩ := hr
  have hd1 : ρ1 d = .dir := (hk1 d (by simp) (.inr hdir)).trans hdir
  by_cases h0 : r = 0
  · simp only [h0, if_true, ensures_bind, ensures_pure]
    refine (freevm_rule hT1 hd1).imp (fun _ => False.elim) fun _ h2 hr => ?_
    exact hr.trans (S := {d}) (fun x _ => hk1 x (by simp)) fun x hx _ => hx
  · simp only [h0, if_false, ensures_pure]
    exact ⟨⟨ρ1, hT1, hk1⟩, hle⟩

theorem Good.execStack {p : Nat} {d : Page} {sz : Nat} (hG : Good cfg ρ s)
    (ht : (s.proc p).task = .exec d sz) : Inv cfg (execStack cfg s p d sz) := by
  have hd : (s.proc p).task.dir = some d := by simp [ht, Task.dir]
  have hdir : ρ d = .dir := hG.tag (.exec p) d hd
  have hb := hG.busy p
  have hsz := (hG.size p).2
  simp only [Proc.Busy, Task.Small, ht] at hb hsz
  have hup : pgup sz * PGSIZE ≤ KERNBASE := Nat.mul_le_mul_right PGSIZE (pgup_le hsz)
  unfold Vm.execStack
  refine hG.execNext (t := fun r => .stack d r) hd ?_ fun r hle => ⟨rfl, hle, hb⟩
  simp only [ensures_bind]
  generalize pgup sz * PGSIZE + 2 * PGSIZE = newsz
  refine (allocuvm_rule hup hG.mem hdir).next fun r h1 hr => ?_
  obtain ⟨⟨ρ1, hT1, hk1⟩, hle⟩ := hr
  have hd1 : ρ1 d = .dir := (hk1 d (by simp) (.inr hdir)).trans hdir
  by_cases h0 : r = 0
  · simp only [h0, if_true, ensures_bind, ensures_pure]
    refine (freevm_rule hT1 hd1).imp (fun _ => False.elim) fun _ h2 hr => ?_
    exact hr.trans (S := {d}) (fun x _ => hk1 x (by simp)) fun x hx _ => hx
  · simp only [h0, if_false, ensures_bind, ensures_pure]
    refine (clearpteu_rule hT1 hd1).imp (fun e he => he.trans hk1 (by simp)) fun _ h2 hr => ?_
    exact ⟨hr.trans hk1 (by simp), hle⟩

/-- `wait` frees the stack and the memory of a zombie. -/
theorem Good.reap {c : Nat} {d x : Page} (hG : Good cfg ρ s) (hz : (s.proc c).state = .zombie)
    (hd : (s.proc c).pgdir = some d) (hx : (s.proc c).kstack = some x) :
    Inv cfg (reap cfg s c d x) := by
  have hdref : s.ref (.pgdir c) = some d := by simp [State.ref, Proc.dir, hz, hd]
  have hxref : s.ref (.kstack c) = some x := hx
  have hdir : ρ d = .dir := hG.tag _ d hdref
  have hheld : ρ x = .held := hG.tag _ x hxref
  have hne : d ≠ x := ne_of_tag (ρ := ρ) (by simp [hdir, hheld])
  have hr := hG.range _ x hxref
  have hm : Ensures (do
      kfree (kmem cfg) x
      freevm (kmem cfg) d) s.heap (Halts (lawful cfg) ρ ∅) fun _ => Tracks (lawful cfg) ρ {x, d} := by
    simp only [ensures_bind, ensures_kfree (A := Vm.kmem cfg) hr]
    refine (freevm_rule (hG.mem.freed hheld hr) (by rw [upd_of_ne hne, hdir])).imp
      (fun _ => False.elim) fun _ h hr => ?_
    exact hr.trans (keeps_upd (S := {x, d}) _ (by simp)) (by simp)
  have htask := hG.busy_zombie hz
  refine hG.run hm fun _ h hr => ?_
  obtain ⟨ρ', hT, hk⟩ := hr
  refine ⟨ρ', hG.setProc hT hk ?_ (by simp [Proc.dir]) (by simp [htask, Task.dir]) (by simp)
    ⟨⟨(hG.size c).1, by simp [htask, Task.Small]⟩, by simp [Proc.Busy, htask]⟩⟩
  rintro y (rfl | rfl)
  · exact .inr (.inr hxref)
  · exact .inl hdref

/-! ## Every step -/

/-- A pointer other than those of processes gets a page, or loses it. -/
theorem Good.setOther {r : Ref} {o : Option Page} (hG : Good cfg ρ s)
    (hT : Tagged (lawful cfg) ρ' s'.heap) (hk : Keeps S ρ ρ') (hr : s'.ref r = o)
    (hother : ∀ r', r' ≠ r → s'.ref r' = s.ref r') (hS : ∀ x ∈ S, s.ref r = some x)
    (ho : ∀ x, o = some x → ρ x = .free ∧ ρ' x = r.tag)
    (hfresh : ∀ x, s'.Fresh cfg x ↔ s.Fresh cfg x) (hproc : s'.proc = s.proc)
    (hhalt : s'.halted = s.halted) : Good cfg ρ' s' := by
  refine hG.next hT hk (fun r' x hx => ?_) (fun x hx => ?_) ?_ (hhalt ▸ hG.sound)
  · by_cases hrr : r' = r
    · subst hrr
      obtain ⟨hfree, htag⟩ := ho x (hr.symm.trans hx)
      refine .inr ⟨hfree, htag, fun r'' hr'' => ?_⟩
      by_contra hne
      exact hG.ref_ne_free ((hother r'' hne) ▸ hr'') hfree
    · have hold : s.ref r' = some x := (hother r' hrr) ▸ hx
      exact .inl ⟨hold, fun hxS => hrr (hG.inj r' r x hold (hS x hxS))⟩
  · have hx := (hfresh x).mp hx
    exact ⟨hx, fun hxS => (hG.fresh x hx).2 r (hS x hxS)⟩
  · intro p
    rw [hproc]
    exact hG.procsOk p

theorem Good.kmem (hG : Good cfg ρ s) (k : Kmem) (hk : k.freelist = s.heap.kmem.freelist) :
    Good cfg ρ { s with heap := { s.heap with kmem := k } } := by
  have hT : Tagged (lawful cfg) ρ { s.heap with kmem := k } :=
    hG.mem.shrink (by simpa only [lawful, hk] using hG.mem.ok) (by simp only [lawful, hk, subset_refl])
  exact hG.next (S := ∅) hT (.refl _ _) (fun r x hx => .inl ⟨hx, by simp⟩)
    (fun x hx => ⟨hx, by simp⟩) hG.procsOk hG.sound

theorem Good.kinit1 (hG : Good cfg ρ s) (hlow : s.low = false) :
    Inv cfg (s.run (freerange cfg (cfg.split - cfg.first) cfg.first) fun _ s =>
      { s with low := true }) := by
  have hsplit : cfg.first + (cfg.split - cfg.first) = cfg.split :=
    Nat.add_sub_cancel' cfg.first_le
  refine hG.kinit (fun y hle hlt => ?_) (fun s => by funext r; cases r <;> rfl) (fun _ => rfl)
    (fun _ => rfl) (fun _ => rfl) fun h y hy => ?_
  · rw [hsplit] at hlt
    exact ⟨.inl hlow, by simp [Vm.kmem, hle, Nat.lt_of_lt_of_le hlt cfg.split_le]⟩
  · rw [hsplit]
    rcases hy with hy | hy
    · simp at hy
    · exact ⟨.inl hlow, fun hlt => absurd hy.2 (Nat.not_le.mpr hlt.2)⟩

theorem Good.kinit2 (hG : Good cfg ρ s) (hlow : s.low = true) (hhigh : s.high = false) :
    Inv cfg (s.run (freerange cfg (cfg.last - cfg.split) cfg.split) fun _ s =>
      { s with high := true }) := by
  have hlast : cfg.split + (cfg.last - cfg.split) = cfg.last := Nat.add_sub_cancel' cfg.split_le
  refine hG.kinit (fun y hle hlt => ?_) (fun s => by funext r; cases r <;> rfl) (fun _ => rfl)
    (fun _ => rfl) (fun _ => rfl) fun h y hy => ?_
  · rw [hlast] at hlt
    exact ⟨.inr ⟨hhigh, hle⟩, by simp [Vm.kmem, Nat.le_trans cfg.first_le hle, hlt]⟩
  · rcases hy with hy | hy
    · simp [hlow] at hy
    · simp at hy

theorem Good.kvmalloc (hG : Good cfg ρ s) :
    Inv cfg (s.run (setupkvm (Vm.kmem cfg) cfg.kmap) fun r s => { s with kpgdir := r }) := by
  refine hG.run (setupkvm_rule cfg.kmap_high hG.mem) fun o h hr => ?_
  obtain ⟨ρ', hT, hk, hr⟩ := hr
  refine ⟨ρ', hG.setOther (r := .kpgdir) (o := o) hT hk rfl ?_ (by simp) hr (fun _ => Iff.rfl)
    rfl rfl⟩
  intro r' hne
  cases r' <;> first | rfl | exact absurd rfl hne

theorem Good.startother {c : Nat} (hG : Good cfg ρ s) :
    Inv cfg (s.run (kalloc (Vm.kmem cfg) .page) fun r s =>
      { s with cpuStack := upd s.cpuStack c r }) := by
  refine hG.run (kalloc_tracks hG.mem) fun o h hr => ?_
  obtain ⟨ρ', hT, hk, hr⟩ := hr
  refine ⟨ρ', hG.setOther (r := .cpuStack c) (o := o) hT hk (upd_self ..) ?_ (by simp) hr
    (fun _ => Iff.rfl) rfl rfl⟩
  intro r' hne
  cases r' with
  | cpuStack c' => exact upd_of_ne fun hcc => hne (by rw [hcc])
  | _ => rfl

theorem Good.pipealloc {n : Nat} (hG : Good cfg ρ s) :
    Inv cfg (s.run (kalloc (Vm.kmem cfg) .page) fun r s => { s with pipe := upd s.pipe n r }) := by
  refine hG.run (kalloc_tracks hG.mem) fun o h hr => ?_
  obtain ⟨ρ', hT, hk, hr⟩ := hr
  refine ⟨ρ', hG.setOther (r := .pipe n) (o := o) hT hk (upd_self ..) ?_ (by simp) hr
    (fun _ => Iff.rfl) rfl rfl⟩
  intro r' hne
  cases r' with
  | pipe n' => exact upd_of_ne fun hnn => hne (by rw [hnn])
  | _ => rfl

theorem Good.pipeclose {n : Nat} {x : Page} (hG : Good cfg ρ s) (hx : s.pipe n = some x) :
    Inv cfg (s.run (kfree (Vm.kmem cfg) x) fun _ s => { s with pipe := upd s.pipe n none }) := by
  have hxref : s.ref (.pipe n) = some x := hx
  have hheld : ρ x = .held := hG.tag _ x hxref
  have hr := hG.range _ x hxref
  refine hG.run (Q := fun _ h => h = s.heap.freed (Vm.kmem cfg) x) ((ensures_kfree (A := Vm.kmem cfg) hr).mpr rfl) fun _ h hh => ?_
  subst hh
  refine ⟨_, hG.setOther (r := .pipe n) (o := none) (S := {x}) (hG.mem.freed hheld hr)
    (keeps_upd _ fun _ => rfl) (upd_self ..) ?_ ?_ (by simp) (fun _ => Iff.rfl) rfl rfl⟩
  · intro r' hne
    cases r' with
    | pipe n' => exact upd_of_ne fun hnn => hne (by rw [hnn])
    | _ => rfl
  · rintro y rfl
    exact hxref

theorem Good.execSetup {p : Nat} (hG : Good cfg ρ s) (hready : (s.proc p).ready = true) :
    Inv cfg (s.run (setupkvm (Vm.kmem cfg) cfg.kmap) fun r s =>
      match r with
      | none => s
      | some d => s.setTask p (.exec d 0)) := by
  obtain ⟨halive, _⟩ := Proc.ready_iff.mp hready
  refine hG.run (setupkvm_rule cfg.kmap_high hG.mem) fun o h hr => ?_
  obtain ⟨ρ', hT, hk, hr⟩ := hr
  cases o with
  | none =>
      exact ⟨ρ', hG.next hT hk (fun r x hx => .inl ⟨hx, by simp⟩) (fun x hx => ⟨hx, by simp⟩)
        hG.procsOk hG.sound⟩
  | some d =>
      obtain ⟨hfree, hd⟩ := hr d rfl
      refine ⟨ρ', hG.setProc hT hk (by simp) (fun x hx => .inl ⟨hx, by simp⟩)
        (fun x hx => .inr ?_) (fun x hx => .inl ⟨hx, by simp⟩)
        ⟨⟨(hG.size p).1, Nat.zero_le _⟩, halive⟩⟩
      cases hx
      refine ⟨hfree, hd, fun hdd => ?_⟩
      exact hG.ref_ne_free (r := .pgdir p) hdd hfree

/-- Exchange the directory of `exec` and that of the process. -/
def Ref.swap (p : Nat) (r : Ref) : Ref :=
  if r = .pgdir p then .exec p else if r = .exec p then .pgdir p else r

theorem Ref.swap_swap (p : Nat) (r : Ref) : (r.swap p).swap p = r := by
  unfold Ref.swap
  by_cases h1 : r = .pgdir p
  · simp [h1]
  · by_cases h2 : r = .exec p
    · simp [h2]
    · simp [h1, h2]

/-- `exec` commits to the new image. -/
theorem Good.execCommit {p : Nat} {d old : Page} {sz : Nat} (hG : Good cfg ρ s)
    (ht : (s.proc p).task = .stack d sz) (hold : (s.proc p).pgdir = some old) :
    Good cfg ρ (s.setProc p { s.proc p with pgdir := some d, sz := sz, task := .old old }) := by
  have hb := hG.busy p
  have hsz := (hG.size p).2
  simp only [Proc.Busy, Task.Small, ht] at hb hsz
  have hdref : s.ref (.exec p) = some d := by simp [State.ref, ht, Task.dir]
  have holdref : s.ref (.pgdir p) = some old := by simp [State.ref, Proc.dir, hb, hold]
  -- each pointer of the new state is one of the old state, of the same kind
  have href : ∀ r x, (s.setProc p { s.proc p with
      pgdir := some d, sz := sz, task := .old old }).ref r = some x →
      s.ref (r.swap p) = some x ∧ (r.swap p).tag = r.tag := by
    intro r x hr
    rcases ref_setProc hr with ⟨h, h1, h2, _⟩ | ⟨rfl, h⟩ | ⟨rfl, h⟩ | ⟨rfl, h⟩
    · have hswap : r.swap p = r := by simp [Ref.swap, h1, h2]
      rw [hswap]
      exact ⟨h, rfl⟩
    · have hswap : (Ref.pgdir p).swap p = .exec p := by simp [Ref.swap]
      simp only [Proc.dir, hb] at h
      cases h
      rw [hswap]
      exact ⟨hdref, rfl⟩
    · have hswap : (Ref.exec p).swap p = .pgdir p := by simp [Ref.swap]
      cases h
      rw [hswap]
      exact ⟨holdref, rfl⟩
    · exact ⟨h, rfl⟩
  refine ⟨hG.mem, fun r x hr => ?_, fun r x hr => ?_, fun r1 r2 x h1 h2 => ?_, fun x hx => ?_,
    fun p' => ?_, fun p' => ?_, hG.sound⟩
  · obtain ⟨hr', htag⟩ := href r x hr
    rw [hG.tag _ x hr', htag]
  · exact hG.range _ x (href r x hr).1
  · have he := hG.inj _ _ x (href r1 x h1).1 (href r2 x h2).1
    rw [← r1.swap_swap p, he, r2.swap_swap p]
  · obtain ⟨hheld, hnone⟩ := hG.fresh x hx
    exact ⟨hheld, fun r hr => hnone _ (href r x hr).1⟩
  · by_cases hp : p' = p
    · subst hp
      simp only [State.setProc, upd_self]
      exact ⟨hsz, trivial⟩
    · simpa only [State.setProc, upd_of_ne hp] using hG.size p'
  · by_cases hp : p' = p
    · subst hp
      simp only [State.setProc, upd_self]
      exact hb
    · simpa only [State.setProc, upd_of_ne hp] using hG.busy p'

theorem Inv.act {a : Act} (hI : Inv cfg s) (h : act cfg s a = some s') : Inv cfg s' := by
  obtain ⟨ρ, hG⟩ := hI
  cases a <;> simp only [Vm.act] at h
  case kinit1 =>
    split at h
    · cases h
    · rename_i hlow
      cases h
      exact hG.kinit1 (by simpa using hlow)
  case kvmalloc =>
    split at h
    · cases h
      exact hG.kvmalloc
    · cases h
  case startother c =>
    split at h
    · cases h
      exact hG.startother
    · cases h
  case kinit2 =>
    split at h
    · rename_i hc
      cases h
      exact hG.kinit2 hc.1 hc.2
    · cases h
  case userAlloc p =>
    split at h
    · rename_i hc
      cases h
      refine hG.allocproc hc.2 fun ρ' h x hG' => ⟨ρ', hG'.setTask (by simp [Task.dir]) trivial ?_⟩
      simp [Proc.Busy, State.setProc]
    · cases h
  case userinit p =>
    split at h
    · cases h
      exact hG.userinit
    · cases h
  case forkAlloc p np =>
    split at h
    · rename_i hc
      obtain ⟨halive, _⟩ := Proc.ready_iff.mp hc.1
      have hne : np ≠ p := by
        rintro rfl
        simp [halive] at hc
      cases h
      refine hG.allocproc hc.2 fun ρ' h x hG' => ⟨ρ', hG'.setTask (by simp [Task.dir]) trivial ?_⟩
      simp [Proc.Busy, State.setProc, upd_of_ne hne.symm, halive, hne]
    · cases h
  case forkCopy p =>
    split at h
    · rename_i np d ht hd
      cases hx : (s.proc np).kstack with
      | none => simp [hx] at h
      | some x =>
          rw [hx, Option.map_some] at h
          rw [← Option.some.inj h]
          exact hG.forkCopy ht hd hx
    · cases h
  case execSetup p =>
    split at h
    · cases h
      exact hG.execSetup ‹_›
    · cases h
  case execSegment p newsz =>
    split at h
    · cases h
      exact hG.execSegment ‹_›
    · cases h
  case execStack p =>
    split at h
    · rename_i ht
      rw [← Option.some.inj h]
      exact hG.execStack ht
    · cases h
  case execBad p =>
    split at h
    · rename_i ht
      cases h
      exact hG.execFree (by simp [ht, Task.dir])
    · rename_i ht
      cases h
      exact hG.execFree (by simp [ht, Task.dir])
    · cases h
  case execCommit p =>
    split at h
    · rename_i ht hd
      cases h
      exact ⟨ρ, hG.execCommit ht hd⟩
    · cases h
  case execFree p =>
    split at h
    · rename_i ht
      cases h
      exact hG.execFree (by simp [ht, Task.dir])
    · cases h
  case sbrk p n =>
    split at h
    · rename_i hready
      obtain ⟨d, hd, rfl⟩ := Option.map_eq_some_iff.mp h
      exact hG.growproc (Proc.ready_iff.mp hready).1 hd
    · cases h
  case exit p =>
    split at h
    · rename_i hready
      obtain ⟨halive, htask⟩ := Proc.ready_iff.mp hready
      cases h
      refine ⟨ρ, hG.setProc (S := ∅) hG.mem (.refl _ _) (by simp) (fun x hx => .inl ⟨?_, by simp⟩)
        (fun x hx => .inl ⟨hx, by simp⟩) (fun x hx => .inl ⟨hx, by simp⟩)
        ⟨hG.size p, by simp [Proc.Busy, htask]⟩⟩
      simpa [State.ref, Proc.dir, halive] using hx
    · cases h
  case wait p c =>
    split at h
    · rename_i hc
      split at h
      · rename_i hd hx
        cases h
        exact hG.reap hc.2 hd hx
      · cases h
    · cases h
  case pipealloc n =>
    split at h
    · cases h
      exact hG.pipealloc
    · cases h
  case pipeclose n =>
    obtain ⟨x, hx, rfl⟩ := Option.map_eq_some_iff.mp h
    exact hG.pipeclose hx

/-- **The invariant of a step.** -/
theorem Inv.step {a : Act × List Bool} (hI : Inv cfg s) (h : step cfg s a = some s') :
    Inv cfg s' := by
  obtain ⟨ρ, hG⟩ := hI
  unfold Vm.step at h
  split at h
  · cases h
  · exact Inv.act ⟨ρ, hG.kmem ⟨s.heap.kmem.freelist, a.2⟩ rfl⟩ h

theorem inv_init (cfg : Config) : Inv cfg init := by
  refine ⟨fun _ => .held, ⟨List.nodup_nil, by simp [init, lawful], by simp, by simp, by simp⟩, ?_, ?_, ?_,
    fun x _ => ⟨rfl, ?_⟩, fun p => ⟨Nat.zero_le _, trivial⟩, fun p => trivial, by simp [init]⟩
  · intro r x hr
    cases r <;> cases hr
  · intro r x hr
    cases r <;> cases hr
  · intro r r' x hr
    cases r <;> cases hr
  · intro r hr
    cases r <;> cases hr

/-! ## One role -/

/-- The directory of a pointer, and the tag of its `i`-th table. -/
theorem Good.hasTable {r : Ref} {i : Nat} {t : Page} (hG : Good cfg ρ s) (h : s.HasTable r i t) :
    ∃ d, s.ref r = some d ∧ ρ t = .table d i := by
  obtain ⟨d, pde, hdir, hr, hc, hi⟩ := h
  have hd : ρ d = .dir := by
    rw [hG.tag r d hr, Ref.tag, if_pos hdir]
  obtain ⟨pde', hc', hpde⟩ := hG.mem.dir d hd
  cases hc.symm.trans hc'
  exact ⟨d, hr, hpde i t hi⟩

/-- The role of a page fixes its tag. -/
def Role.Tagged (s : State) : Role → Tag → Prop
  | .free _, τ => τ = .free
  | .ref r, τ => τ = r.tag
  | .table r i, τ => ∃ d, s.ref r = some d ∧ τ = .table d i
  | .user r i j, τ => ∃ d, s.ref r = some d ∧ τ = .user d i j

theorem Good.uses {x : Page} {r : Role} (hG : Good cfg ρ s) (h : s.Uses x r) :
    r.Tagged s (ρ x) := by
  cases r with
  | free n => exact hG.mem.free x (List.mem_of_getElem? h)
  | ref r => exact hG.tag r x h
  | table r i => exact hG.hasTable h
  | user r i j =>
      obtain ⟨hi, t, pte, e, ht, hc, he, rfl⟩ := h
      obtain ⟨d, hd, htag⟩ := hG.hasTable ht
      obtain ⟨_, pte', hc', hpte⟩ := hG.mem.tab t d i htag
      cases hc.symm.trans hc'
      exact ⟨d, hd, hpte hi j e he⟩

/-- One tag, one role. -/
theorem Good.role_unique {x : Page} {r r' : Role} (hG : Good cfg ρ s) (h : s.Uses x r)
    (h' : s.Uses x r') : r = r' := by
  have ht := hG.uses h
  have ht' := hG.uses h'
  generalize ρ x = τ at ht ht'
  cases r with
  | free n =>
      cases ht
      cases r' with
      | free n' =>
          have hlt : n < s.heap.kmem.freelist.length := (List.getElem?_eq_some_iff.mp h).1
          rw [(List.getElem?_inj hlt hG.mem.ok).mp (h.trans h'.symm)]
      | ref r' => rcases r'.tag_held_or_dir with e | e <;> cases ht'.trans e
      | table r' i' => obtain ⟨d, _, ⟨⟩⟩ := ht'
      | user r' i' j' => obtain ⟨d, _, ⟨⟩⟩ := ht'
  | ref r =>
      cases r' with
      | free n' =>
          cases ht'
          rcases r.tag_held_or_dir with e | e <;> cases ht.trans e
      | ref r' => rw [hG.inj r r' x h h']
      | table r' i' =>
          obtain ⟨d, _, rfl⟩ := ht'
          rcases r.tag_held_or_dir with e | e <;> cases ht.trans e
      | user r' i' j' =>
          obtain ⟨d, _, rfl⟩ := ht'
          rcases r.tag_held_or_dir with e | e <;> cases ht.trans e
  | table r i =>
      obtain ⟨d, hd, rfl⟩ := ht
      cases r' with
      | free n' => cases ht'
      | ref r' => rcases r'.tag_held_or_dir with e | e <;> cases ht'.trans e
      | table r' i' =>
          obtain ⟨d', hd', ⟨⟩⟩ := ht'
          rw [hG.inj r r' d hd hd']
      | user r' i' j' => obtain ⟨d', _, ⟨⟩⟩ := ht'
  | user r i j =>
      obtain ⟨d, hd, rfl⟩ := ht
      cases r' with
      | free n' => cases ht'
      | ref r' => rcases r'.tag_held_or_dir with e | e <;> cases ht'.trans e
      | table r' i' => obtain ⟨d', _, ⟨⟩⟩ := ht'
      | user r' i' j' =>
          obtain ⟨d', hd', ⟨⟩⟩ := ht'
          rw [hG.inj r r' d hd hd']

/-- **Isolation**: in every state that the kernel reaches a page has at most
one role, and no page is read as a directory or table that it is not. -/
theorem pages_isolated (cfg : Config) {s : State} (h : Reaches (step cfg) init s) :
    (∀ x r r', s.Uses x r → s.Uses x r' → r = r') ∧ s.halted ≠ some .junk := by
  obtain ⟨ρ, hG⟩ := h.invariant (I := Inv cfg) (fun _ _ _ => Inv.step) (inv_init cfg)
  exact ⟨fun x r r' => hG.role_unique, hG.sound⟩

/-- A machine with 31 pages and one page of kernel. -/
def smallConfig : Config where
  first := 1
  split := 4
  last := 32
  kmap := [⟨KERNPAGE, 0, 1, true⟩]
  initcode := []
  first_pos := by decide
  first_le := by decide
  split_le := by decide
  kmap_high := by simp

/-- The machine starts, the first process forks, and the child has just
committed to a new image. -/
def forkExec : List (Act × List Bool) :=
  [(.kinit1, []), (.kvmalloc, []), (.startother 1, []), (.kinit2, []), (.userAlloc 0, []),
   (.userinit 0, []), (.forkAlloc 0 1, []), (.pipealloc 0, []), (.forkCopy 0, []),
   (.execSetup 1, []), (.execSegment 1 5000, []), (.execStack 1, []), (.execCommit 1, []),
   (.sbrk 0 4096, [true])]

/-- After `forkExec` there are three directories of processes. -/
theorem pages_isolated_forkExec : ∃ s, Reaches (step smallConfig) init s ∧
    (s.ref (.pgdir 0) = some 30 ∧ s.ref (.pgdir 1) = some 20 ∧ s.ref (.exec 1) = some 24) ∧
    (∀ x r r', s.Uses x r → s.Uses x r' → r = r') ∧ s.halted ≠ some .junk := by
  have hrun : (execAll (step smallConfig) init forkExec).map (fun s =>
      decide (s.ref (.pgdir 0) = some 30 ∧ s.ref (.pgdir 1) = some 20 ∧
        s.ref (.exec 1) = some 24)) = some true := by
    decide +kernel
  obtain ⟨s, hs, hd⟩ := Option.map_eq_some_iff.mp hrun
  have hreach := reaches_of_execAll hs
  exact ⟨s, hreach, of_decide_eq_true hd, pages_isolated smallConfig hreach⟩

end Xv6.Vm
