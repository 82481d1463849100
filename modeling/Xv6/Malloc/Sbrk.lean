import Xv6.Malloc.Runs
import Xv6.Vm.Grow

/-!
# Malloc — over the kernel's `sbrk`

The byte count that `morecore` passes is an `int` for the kernel. From 2³¹
bytes on it is negative there, or zero: the kernel then takes memory away or
leaves it as it is, and reports the old end of it, where `morecore` puts a
block that does not exist. For the last seven requests of all the number of
units wraps around to 1. And `allocuvm` reports success although it could not
make a page table for some page, which is then not mapped.
-/

namespace Xv6.Malloc

open Lib Lib.Block
open Vm (Page Kmem Config Stop Sharp Covers kmem lawful answers entry pgup PGSIZE KERNBASE KERNPAGE)

/-! ## `sys_sbrk` -/

/-- Memory, the size of the process, and where the kernel has stopped, if it
has. -/
structure Process where
  heap : Vm.Heap Kmem
  sz : Nat
  stop : Option Stop

/-- A word as the kernel reads it, an `int`. -/
def argint (n : Nat) : Int := if n < 2 ^ 31 then n else (n : Int) - 2 ^ 32

/-- `sbrk` for the process with the directory `d`; `none` for -1. -/
def sbrk (cfg : Config) (d : Page) (p : Process) (n : Nat) : Option Nat × Process :=
  match Vm.sysSbrk (kmem cfg) d p.sz (argint n) p.heap with
  | .ok ((addr, sz), h) =>
      (if addr = -1 then none else some (addr % 2 ^ 32).toNat, ⟨h, sz, p.stop⟩)
  | .error (e, h) => (none, ⟨h, p.sz, some e⟩)

variable {cfg : Config} {d : Page} {p : Process} {n : Nat}

theorem sbrk_error {e : Stop} {h : Vm.Heap Kmem}
    (hrun : Vm.growprocMem (kmem cfg) d p.sz (argint n) p.heap = .error (e, h)) :
    sbrk cfg d p n = (none, ⟨h, p.sz, some e⟩) := by
  have hsys : Vm.sysSbrk (kmem cfg) d p.sz (argint n) p.heap = .error (e, h) := by
    simp only [Vm.sysSbrk, bind, StateT.bind, hrun, Except.bind]
  rw [sbrk, hsys]

theorem sbrk_ok (hsz : p.sz < KERNBASE) {r : Int} {sz : Nat} {h : Vm.Heap Kmem}
    (hrun : Vm.growprocMem (kmem cfg) d p.sz (argint n) p.heap = .ok ((r, sz), h)) :
    sbrk cfg d p n = (if r < 0 then none else some p.sz, ⟨h, sz, p.stop⟩) := by
  rw [sbrk, Vm.sysSbrk_ok hrun]
  by_cases hr : r < 0
  · simp only [if_pos hr, if_true]
  · simp only [if_neg hr, if_neg (Vm.brk_ne hsz.le), Vm.brk_toNat hsz]

/-! ## Requests that the kernel understands -/

/-- A process that has asked for whole units only. -/
def Regular (p : Process) : Prop := 8 ∣ p.sz ∧ p.sz < KERNBASE

instance (p : Process) : Decidable (Regular p) := inferInstanceAs (Decidable (_ ∧ _))

/-- The end of the memory of a process. -/
def top (p : Process) : Nat := if Regular p then p.sz else 2 ^ 32

theorem Regular.top_eq (hp : Regular p) : top p = p.sz := if_pos hp

theorem regular_of_top (h : top p < 2 ^ 32) : Regular p := by
  by_contra hno
  rw [top, if_neg hno] at h
  exact absurd h (Nat.lt_irrefl _)

theorem argint_of_lt (hn : n < 2 ^ 31) : argint n = n := if_pos hn

/-- The break moves by the count, or stays. -/
theorem sbrk_of_lt (cfg : Config) (d : Page) (hp : Regular p) (h0 : 0 < n) (hn : n < 2 ^ 31) :
    (sbrk cfg d p n).1 = none ∧ (sbrk cfg d p n).2.sz = p.sz ∨
      (sbrk cfg d p n).1 = some p.sz ∧ (sbrk cfg d p n).2.sz = p.sz + n ∧ p.sz + n < KERNBASE := by
  have hsz : p.sz < 2 ^ 31 := hp.2
  have hspec := Vm.growprocMem_grow_size (A := kmem cfg) (d := d) (h := p.heap) h0
    (by omega : p.sz + n < 2 ^ 32)
  rw [← argint_of_lt hn] at hspec
  cases hrun : Vm.growprocMem (kmem cfg) d p.sz (argint n) p.heap with
  | error e =>
      rw [sbrk_error hrun]
      exact .inl ⟨rfl, rfl⟩
  | ok r =>
      obtain ⟨r, h'⟩ := r
      rcases hspec.of_ok hrun with rfl | ⟨rfl, hlt⟩
      · rw [sbrk_ok hp.2 hrun]
        exact .inl ⟨rfl, rfl⟩
      · rw [sbrk_ok hp.2 hrun]
        exact .inr ⟨rfl, rfl, hlt⟩

/-- So `sbrk` returns fresh addresses, up to half of the address space. -/
theorem sbrk_fresh (cfg : Config) (d : Page) : Fresh (sbrk cfg d) top (2 ^ 31 - 8) where
  grown p n a h0 hn hdvd hp hres := by
    have hreg := regular_of_top hp
    rcases sbrk_of_lt cfg d hreg h0 (by omega) with ⟨hno, _⟩ | ⟨hsome, hsz, hlt⟩
    · cases hno.symm.trans hres
    · have hreg' : Regular (sbrk cfg d p n).2 := by
        rw [Regular, hsz]
        exact ⟨Nat.dvd_add hreg.1 hdvd, hlt⟩
      obtain rfl := Option.some.inj (hsome.symm.trans hres)
      rw [hreg.top_eq, hreg'.top_eq, hsz]
      unfold KERNBASE at hlt
      exact ⟨hreg.1, Nat.le_refl _, Nat.le_refl _, by omega⟩
  refused p n h0 hn hdvd hp hres := by
    have hreg := regular_of_top hp
    rcases sbrk_of_lt cfg d hreg h0 (by omega) with ⟨_, hsz⟩ | ⟨hsome, _⟩
    · have hreg' : Regular (sbrk cfg d p n).2 := by
        rw [Regular, hsz]
        exact hreg
      rw [hreg'.top_eq, hsz, ← hreg.top_eq]
      exact ⟨Nat.le_refl _, hp⟩
    · cases hsome.symm.trans hres

/-- The size of a process stays below the kernel. -/
theorem sbrk_sz_lt (hsz : p.sz < KERNBASE) : (sbrk cfg d p n).2.sz < KERNBASE := by
  cases hrun : Vm.growprocMem (kmem cfg) d p.sz (argint n) p.heap with
  | error e =>
      rw [sbrk_error hrun]
      exact hsz
  | ok r =>
      rw [sbrk_ok hsz hrun]
      exact (Vm.growprocMem_lt hsz (argint n)).of_ok hrun

/-! ## What is mapped -/

/-- The kernel runs, and maps all of the process and no more. -/
structure Mapped (cfg : Config) (d : Page) (p : Process) : Prop where
  sharp : ∃ ρ, Sharp (lawful cfg) ρ p.heap ∧ ρ d = .dir
  covers : Covers p.heap d p.sz
  running : p.stop = none

/-- `allocuvm` cannot grow the process by `n` bytes. -/
def Full (cfg : Config) (d : Page) (p : Process) (n : Nat) : Prop :=
  p.sz + n < KERNBASE → (answers (kmem cfg) d p.sz (p.sz + n) p.heap).short = true

/-- It grows the process by `n` bytes without losing a page, or not at all. -/
def Whole (cfg : Config) (d : Page) (p : Process) (n : Nat) : Prop :=
  Full cfg d p n ∨ (answers (kmem cfg) d p.sz (p.sz + n) p.heap).lost = []

instance (p : Process) (n : Nat) : Decidable (Full cfg d p n) :=
  inferInstanceAs (Decidable (_ → _))

instance (p : Process) (n : Nat) : Decidable (Whole cfg d p n) :=
  inferInstanceAs (Decidable (_ ∨ _))

/-- Growing a process that is mapped. -/
theorem Mapped.grow (hm : Mapped cfg d p) (hsz : p.sz < KERNBASE) (h0 : 0 < n) (hn : n < 2 ^ 31) :
    (Whole cfg d p n → Mapped cfg d (sbrk cfg d p n).2) ∧
      ((sbrk cfg d p n).1 = none ↔ Full cfg d p n) := by
  obtain ⟨ρ, hS, hd⟩ := hm.sharp
  have hspec := Vm.growprocMem_grown hS hd hm.covers h0 hn
  rw [← argint_of_lt hn] at hspec
  obtain ⟨r, h', hrun, hsharp, hr⟩ := hspec.exists_ok
  rw [sbrk_ok hsz hrun]
  split at hr
  case isTrue hc =>
    obtain ⟨rfl, hmoves, _⟩ := hr
    have hnot : ¬ Full cfg d p n := fun hf => by simp [hf hc.1] at hc
    refine ⟨fun hw => ⟨hsharp, ?_, hm.running⟩, iff_of_false (by simp) hnot⟩
    exact (hmoves (hw.resolve_left hnot)).covers
  case isFalse hc =>
    obtain ⟨rfl, hstay⟩ := hr
    refine ⟨fun _ => ⟨hsharp, ?_, hm.running⟩, iff_of_true rfl fun hlt => by simpa [hlt] using hc⟩
    intro v
    rw [hstay.entries d hd]
    exact hm.covers v

/-- **A count of 2³¹ or more, or 0**: the kernel reports success and returns
the old end, or the process has lost all of its memory. -/
theorem Mapped.shrink (hm : Mapped cfg d p) (hsz : p.sz < KERNBASE) (h0 : 0 < p.sz)
    (hn : n = 0 ∨ 2 ^ 31 ≤ n ∧ n < 2 ^ 32) :
    (sbrk cfg d p n).1 = none ∧ Covers (sbrk cfg d p n).2.heap d 0 ∨
      (sbrk cfg d p n).1 = some p.sz := by
  rcases hn with rfl | ⟨hlo, hhi⟩
  · rw [sbrk_ok hsz (Vm.growprocMem_zero ..)]
    exact .inr rfl
  obtain ⟨ρ, hS, hd⟩ := hm.sharp
  have hneg : argint n = -((2 ^ 32 - n : Nat) : Int) := by
    rw [argint, if_neg (Nat.not_lt.mpr hlo)]
    omega
  have hspec := Vm.growprocMem_shrunk hS hd hm.covers (by omega : 0 < 2 ^ 32 - n) (by omega)
  rw [← hneg] at hspec
  obtain ⟨r, h', hrun, hr⟩ := hspec.exists_ok
  rw [sbrk_ok hsz hrun]
  split at hr
  · obtain ⟨rfl, _⟩ := hr
    rw [if_neg (Nat.ne_of_gt h0)]
    exact .inr rfl
  · obtain ⟨rfl, hmoves⟩ := hr
    by_cases heq : p.sz = 2 ^ 32 - n
    · rw [if_pos heq]
      refine .inl ⟨rfl, ?_⟩
      rw [← heq, Nat.sub_self] at hmoves
      exact hmoves.covers
    · rw [if_neg heq]
      exact .inr rfl

/-! ## A block that does not exist -/

section Bogus

variable {κ : Type} {base n t : Nat} {h h₁ : Heap κ} {live fl : List Lib.Block}

/-- The next block of the list, or `base`. -/
theorem Ring.ptr_mem (hr : Ring base h fl) {b : Lib.Block} (hb : b ∈ root base :: fl) :
    ∃ c ∈ root base :: fl, h.ptr b.addr = c.addr := by
  obtain ⟨u, v, hsplit⟩ := List.append_of_mem hb
  have hheader := hr.size_of_split hsplit
  rw [Heap.ptr, hheader]
  cases v with
  | nil => exact ⟨root base, List.mem_cons_self, rfl⟩
  | cons c v =>
      refine ⟨c, ?_, rfl⟩
      rw [hsplit]
      exact List.mem_append_right _ (List.mem_cons_of_mem _ List.mem_cons_self)

/-- The header of the last block, where `bp` is above all of them. -/
theorem Ring.last_header (hr : Ring base h fl) {bp : Nat} {u v : List Lib.Block} {d : Lib.Block}
    (hsplit : root base :: fl = u ++ d :: v) (hv : ∀ c ∈ v, bp < c.addr)
    (habove : ∀ b ∈ fl, b.addr < bp) (hbase : base < bp) : h.mem d.addr = ⟨base, d.size⟩ := by
  have hnil : v = [] := by
    rw [List.eq_nil_iff_forall_not_mem]
    intro c hc
    have hmem : c ∈ root base :: fl := by
      rw [hsplit]
      exact List.mem_append_right _ (List.mem_cons_of_mem _ hc)
    have hlt := hv c hc
    rcases List.mem_cons.mp hmem with rfl | hmem
    · exact absurd hlt (Nat.lt_asymm hbase)
    · exact absurd hlt (Nat.lt_asymm (habove c hmem))
  rw [hr.size_of_split hsplit, hnil]
  rfl

/-- What `free` makes of a block `bp` above all others that has `n` units in
its header: `bp` follows the last block, or is part of it. -/
structure Appended (base n bp : Nat) (fl : List Lib.Block) (d : Lib.Block) (h h₁ : Heap κ) : Prop where
  mem : d ∈ root base :: fl
  freep : h₁.freep = d.addr
  kernel : h₁.kernel = h.kernel
  link : (h₁.ptr d.addr = bp ∧ h₁.size bp = n) ∨
    (d.addr + 8 * d.size = bp ∧ h₁.size d.addr = d.size + n ∧
      ∃ c ∈ root base :: fl, h₁.ptr d.addr = c.addr)
  frame : ∀ a, a ≠ bp → a ≠ d.addr → h₁.mem a = h.mem a

theorem Ring.free_above (hr : Ring base h fl) {bp : Nat} (hbp : bp + 8 < 2 ^ 32)
    (habove : ∀ b ∈ fl, b.stop 8 ≤ bp) (hbase : base + 8 ≤ bp) (hn : h.size bp = n)
    (hlt : ∀ b ∈ fl, b.size + n < 2 ^ 32) (hnlt : n < 2 ^ 32)
    (hrun : h.free (plus bp 1) = some h₁) : ∃ d, Appended base n bp fl d h h₁ := by
  have hbelow : ∀ b ∈ fl, b.addr < bp := by
    intro b hb
    have hle := habove b hb
    have hpos := hr.pos b hb
    rw [stop] at hle
    omega
  obtain ⟨u, d, v, hsplit, hd, hv, hwalk⟩ :=
    hr.walk_between (by omega) (by omega : base < bp) fun b hb => Nat.ne_of_lt (hbelow b hb)
  have hmem : d ∈ root base :: fl := by
    rw [hsplit]
    exact List.mem_append_right _ List.mem_cons_self
  have hheader := hr.last_header hsplit hv hbelow (by omega)
  have hroot : h.size base = 0 := by
    have hl := hr.linked.1
    rw [Heap.size]
    exact congrArg Header.size hl
  -- joined to `base` or not, the block is as large, and leads into the list
  have hnext : ∃ c ∈ root base :: fl, h.joinNext bp d.addr = h.set bp ⟨c.addr, n⟩ := by
    have hptr : h.ptr d.addr = base := congrArg Header.ptr hheader
    rw [Heap.joinNext, hptr, hn, hroot]
    split
    · obtain ⟨c, hc, heq⟩ := hr.ptr_mem (List.mem_cons_self : root base ∈ root base :: fl)
      refine ⟨c, hc, ?_⟩
      rw [Nat.add_zero, Nat.mod_eq_of_lt hnlt]
      exact congrArg (fun q => h.set bp ⟨q, n⟩) heq
    · exact ⟨root base, List.mem_cons_self, rfl⟩
  obtain ⟨c, hc, hnext⟩ := hnext
  rw [Heap.free, headerOf_plus hbp, hwalk] at hrun
  obtain rfl := Option.some.inj hrun
  have hdne : d.addr ≠ bp := Nat.ne_of_lt hd
  have hsize : (h.set bp ⟨c.addr, n⟩).size d.addr = d.size := by
    rw [Heap.size, set_mem_of_ne hdne, hheader]
  have hstop : d.addr + 8 * d.size ≤ bp := by
    rcases List.mem_cons.mp hmem with rfl | hfl
    · show base + 8 * 0 ≤ bp
      omega
    · exact habove d hfl
  refine ⟨d, hmem, rfl, ?_, ?_, ?_⟩
  · rw [hnext, Heap.joinPrev]
    split <;> rfl
  · rw [hnext, Heap.joinPrev, hsize, plus, Nat.mod_eq_of_lt (by omega)]
    by_cases hjoin : d.addr + 8 * d.size = bp
    · rw [if_pos hjoin]
      have hdn : d.size + n < 2 ^ 32 := by
        rcases List.mem_cons.mp hmem with rfl | hfl
        · show 0 + n < 2 ^ 32
          omega
        · exact hlt d hfl
      refine .inr ⟨hjoin, ?_, c, hc, ?_⟩
      · simp only [Heap.size, set_mem_self, Nat.mod_eq_of_lt hdn]
      · simp only [Heap.ptr, set_mem_self]
    · rw [if_neg hjoin]
      refine .inl ⟨?_, ?_⟩
      · simp only [Heap.ptr, set_mem_self]
      · simp only [Heap.size, set_mem_of_ne (Ne.symm hdne), set_mem_self]
  · intro a ha hda
    rw [hnext, Heap.joinPrev]
    split
    · show ((h.set bp _).set d.addr _).mem a = _
      rw [set_mem_of_ne hda, set_mem_of_ne ha]
    · show ((h.set bp _).set d.addr _).mem a = _
      rw [set_mem_of_ne hda, set_mem_of_ne ha]

/-- The pointer that `take` returns, from the end of the block it is cut off. -/
theorem take_fst {prevp c : Nat} (hptr : h.ptr prevp = c)
    (hc : c + 8 * (h.size c - n) + 8 < 2 ^ 32) : (h.take n prevp).1 = c + 8 * (h.size c - n) + 8 := by
  rw [Heap.take, hptr]
  by_cases heq : h.size c = n
  · simp only [if_pos heq]
    have hzero : h.size c - n = 0 := by omega
    rw [plus_eq (by omega), hzero]
  · have hsize : (h.set c ⟨h.ptr c, h.size c - n⟩).size c = h.size c - n := by
      rw [Heap.size, set_mem_self]
    simp only [if_neg heq, hsize]
    have hplus : plus c (h.size c - n) = c + 8 * (h.size c - n) :=
      Nat.mod_eq_of_lt (by omega)
    rw [hplus, plus_eq (by omega)]

theorem Heap.take_kernel (h : Heap κ) (n prevp : Nat) : (h.take n prevp).2.kernel = h.kernel := by
  rw [Heap.take]
  dsimp only
  split <;> rfl

/-- **The loop of `malloc`** then does not return the null pointer: the block
is there for it, as the others are too small. -/
theorem Appended.loop {bp : Nat} {d : Lib.Block} (ha : Appended base n bp fl d h h₁)
    (hr : Ring base h fl) (hbp : bp + 8 < 2 ^ 32) (hbelow : ∀ b ∈ root base :: fl, b.addr < bp)
    (hsmall : ∀ b ∈ root base :: fl, b.size < n) (sbrk : κ → Nat → Option Nat × κ) {laps r : Nat}
    {h' : Heap κ} (hrun : mallocLoop sbrk n laps h₁ h₁.freep = some (r, h')) :
    r ≠ 0 ∧ h'.kernel = h₁.kernel := by
  cases laps with
  | zero => cases hrun
  | succ laps =>
      -- where the lap ends, a block is cut off up to which there are `bp` bytes
      have hfound : ∀ prevp, walk (h₁.lapEnds n) h₁.ptr FUEL h₁.freep = some prevp →
          ∃ c, h₁.ptr prevp = c ∧ n ≤ h₁.size c ∧ c + 8 * (h₁.size c - n) = bp := by
        intro prevp hwalk
        rw [ha.freep] at hwalk
        rcases ha.link with ⟨hptr, hsize⟩ | ⟨hend, hsize, c₀, hc₀, hptr⟩
        · have hends : h₁.lapEnds n d.addr = true := by
            rw [Heap.lapEnds, hptr, hsize, decide_eq_true (Nat.le_refl n), Bool.true_or]
          have hfuel : FUEL = 1073741823 + 1 := rfl
          rw [hfuel, walk, if_pos hends] at hwalk
          obtain rfl := Option.some.inj hwalk
          exact ⟨bp, hptr, Nat.le_of_eq hsize.symm, by rw [hsize, Nat.sub_self]; rfl⟩
        · have hclosed : ∀ a, (∃ b ∈ root base :: fl, a = b.addr) →
              ∃ b ∈ root base :: fl, h₁.ptr a = b.addr := by
            rintro a ⟨b, hb, rfl⟩
            by_cases hbd : b.addr = d.addr
            · rw [hbd]
              exact ⟨c₀, hc₀, hptr⟩
            · rw [Heap.ptr, ha.frame _ (Nat.ne_of_lt (hbelow b hb)) hbd]
              exact hr.ptr_mem hb
          obtain ⟨hmem, hends⟩ := walk_invariant hclosed ⟨d, ha.mem, rfl⟩ hwalk
          obtain ⟨b, hb, hnext⟩ := hclosed prevp hmem
          -- it is the last block, as it is large enough or is `freep`
          have hbd : b.addr = d.addr := by
            by_contra hne
            rw [Heap.lapEnds, hnext, ha.freep, beq_false_of_ne hne, Bool.or_false,
              decide_eq_true_eq, Heap.size, ha.frame _ (Nat.ne_of_lt (hbelow b hb)) hne] at hends
            obtain ⟨u, v, hsplit⟩ := List.append_of_mem hb
            rw [hr.size_of_split hsplit] at hends
            exact absurd hends (Nat.not_le.mpr (hsmall b hb))
          refine ⟨d.addr, hnext.trans hbd, ?_, ?_⟩
          · omega
          · rw [hsize, Nat.add_sub_cancel]
            exact hend
      rw [mallocLoop] at hrun
      cases hwalk : walk (h₁.lapEnds n) h₁.ptr FUEL h₁.freep with
      | none =>
          rw [hwalk] at hrun
          cases hrun
      | some prevp =>
          obtain ⟨c, hptr, hle, hend⟩ := hfound prevp hwalk
          simp only [hwalk, Option.bind_eq_bind, Option.bind_some, hptr, if_pos hle,
            Option.pure_def] at hrun
          have hfst : (h₁.take n prevp).1 = c + 8 * (h₁.size c - n) + 8 :=
            take_fst hptr (by omega)
          have htake := h₁.take_kernel n prevp
          rw [Option.some.inj hrun] at hfst htake
          exact ⟨by omega, htake⟩

end Bogus

/-! ## Which requests are served -/

section Requests

variable {base : Nat} {h h' : Heap Process} {live fl : List Lib.Block}

/-- A request of half of the address space or more: `malloc` returns the
null pointer only after the process has lost its memory. -/
theorem Sound.large (hs : Sound base (top h.kernel) h live fl) (hm : Mapped cfg d h.kernel)
    (hbase : 0 < base) (hlo : 2 ^ 31 ≤ 8 * n) (hhi : 8 * n ≤ 2 ^ 32) {laps r : Nat}
    (hrun : Malloc.mallocLoop (sbrk cfg d) n (laps + 1) h h.freep = some (r, h')) :
    h'.kernel.sz < KERNBASE ∧ (r = 0 → Covers h'.kernel.heap d 0) := by
  have hreg := regular_of_top hs.top_lt
  have hsz : h.kernel.sz < 2 ^ 31 := hreg.2
  have hbounds : ∀ b ∈ fl, base + 8 ≤ b.addr ∧ b.stop 8 ≤ h.kernel.sz := by
    intro b hb
    have hb := hs.block_bounds (.inl hb)
    rw [hreg.top_eq] at hb
    exact hb.2
  have hbase8 : base + 8 ≤ h.kernel.sz := hreg.top_eq ▸ hs.base_le
  have hnone : ∀ b ∈ fl, b.size < n := by
    intro b hb
    have hstop := (hbounds b hb).2
    rw [stop] at hstop
    omega
  have hcore : coreUnits n = n := if_neg (by omega)
  obtain ⟨prevp, hwalk, hsmall⟩ := hs.ring.lap_over hs.base_lt (by omega) hnone
  rw [Malloc.mallocLoop] at hrun
  simp only [hwalk, Option.bind_eq_bind, Option.bind_some, if_neg (Nat.not_le.mpr hsmall),
    Option.bind_eq_some_iff] at hrun
  obtain ⟨r₁, hmore, hrun⟩ := hrun
  rw [Malloc.morecore, hcore] at hmore
  have hcount : n * 8 % 2 ^ 32 = 0 ∨ 2 ^ 31 ≤ n * 8 % 2 ^ 32 ∧ n * 8 % 2 ^ 32 < 2 ^ 32 := by omega
  generalize n * 8 % 2 ^ 32 = count at hcount hmore
  have hlt : (sbrk cfg d h.kernel count).2.sz < KERNBASE := sbrk_sz_lt hreg.2
  rcases hm.shrink hreg.2 (by omega) hcount with ⟨hres, hlost⟩ | hres
  · simp only [hres] at hmore
    obtain rfl := Option.some.inj hmore
    simp only [if_true] at hrun
    obtain ⟨_, rfl⟩ := Prod.mk.inj (Option.some.inj hrun)
    exact ⟨hlt, fun _ => hlost⟩
  · simp only [hres, Option.bind_eq_bind, Option.bind_eq_some_iff] at hmore
    obtain ⟨h₁, hfree, hmore⟩ := hmore
    obtain rfl := Option.some.inj hmore
    -- the block is put at the end of the memory, and found there
    have hbelow : ∀ b ∈ root base :: fl, b.addr < h.kernel.sz := by
      refine List.forall_mem_cons.mpr ⟨by show base < _; omega, fun b hb => ?_⟩
      have hstop := (hbounds b hb).2
      have hpos := hs.ring.pos b hb
      rw [stop] at hstop
      omega
    have hring := hs.ring.set (fun b hb => Nat.ne_of_lt (hbelow b hb))
      ⟨h.ptr h.kernel.sz, n⟩
    have hsize : (h.set h.kernel.sz ⟨h.ptr h.kernel.sz, n⟩).size h.kernel.sz = n := by
      rw [Heap.size, set_mem_self]
    have hring' : Ring base ({ h.set h.kernel.sz ⟨h.ptr h.kernel.sz, n⟩ with
        kernel := (sbrk cfg d h.kernel count).2
        regions := ⟨h.kernel.sz, n⟩ :: h.regions } : Heap Process) fl :=
      ⟨hring.linked, hring.spaced, hring.pos, hring.inRange, hring.freep⟩
    obtain ⟨c, hc⟩ := hring'.free_above (by omega) (fun b hb => (hbounds b hb).2) hbase8 hsize
      (fun b hb => by have := hnone b hb; omega) (by omega) hfree
    have hne : h₁.freep ≠ 0 := by
      rw [hc.freep]
      rcases List.mem_cons.mp hc.mem with rfl | hmem
      · exact Nat.ne_of_gt hbase
      · exact Nat.ne_of_gt (Nat.lt_trans hbase (hs.ring.base_lt hmem))
    rw [if_neg hne] at hrun
    obtain ⟨hr, hkernel⟩ := hc.loop hring' (by omega) hbelow
      (List.forall_mem_cons.mpr ⟨by show 0 < n; omega, hnone⟩) (sbrk cfg d) hrun
    rw [hkernel, hc.kernel]
    exact ⟨hlt, fun h0 => absurd h0 hr⟩

end Requests

section Whole

variable {base : Nat} {s₀ s s' : St Process} {nbytes : UInt32}

/-- The bytes from `a` up to `b` are of the process, and mapped. -/
def Obtained (d : Page) (p : Process) (a b : Nat) : Prop :=
  b ≤ p.sz ∧ ∀ v, a / PGSIZE ≤ v → v * PGSIZE < b → v < KERNPAGE ∧ entry p.heap d v ≠ none

theorem Mapped.obtained (hm : Mapped cfg d p) (a : Nat) {b : Nat} (hb : b ≤ p.sz) :
    Obtained d p a b := by
  refine ⟨hb, fun v _ hv => (hm.covers v).mpr ?_⟩
  unfold pgup PGSIZE at *
  omega

/-- `malloc` returns, with the program still in memory, and what it returns
is null or a block of at least `nbytes` bytes in the memory of the process. -/
def Honest (cfg : Config) (d : Page) (base : Nat) (s : St Process) (nbytes : UInt32) : Prop :=
  ∃ r h', Malloc.malloc (sbrk cfg d) base s.heap nbytes.toNat = some (r, h') ∧
    h'.kernel.stop = none ∧ Obtained d h'.kernel base (base + 8) ∧
    (r = 0 ∨ nbytes.toNat ≤ 8 * ((blockOf h' r).size - 1) ∧
      Obtained d h'.kernel (blockOf h' r).addr ((blockOf h' r).stop 8))

/-- A lap of the loop of `malloc` finds no block of `n` units. -/
def Exhausted (h : Heap Process) (n : Nat) : Prop :=
  ∀ q ∈ walk (h.lapEnds n) h.ptr FUEL h.freep, h.size (h.ptr q) < n

/-- The free list has no block. -/
def NoFree (base : Nat) (h : Heap Process) : Prop := h.freep = 0 ∨ h.ptr base = base

/-- The count of bytes is one that the kernel understands, or wraps around where
there is no memory for even one unit. -/
def Sized (cfg : Config) (d : Page) (base : Nat) (s : St Process) (nbytes : Nat) : Prop :=
  nbytes ≤ 2 ^ 31 - 16 ∨
    2 ^ 32 - 8 < nbytes ∧ NoFree base s.heap ∧ Full cfg d s.heap.kernel (8 * coreUnits 1)

/-- And where the kernel is asked for memory, no page is lost. -/
def Fair (cfg : Config) (d : Page) (base : Nat) (s : St Process) : Act → Prop
  | .malloc nbytes => Sized cfg d base s nbytes.toNat ∧
      (Exhausted (init base s.heap) (nunits nbytes.toNat) →
        Whole cfg d s.heap.kernel (8 * coreUnits (nunits nbytes.toNat)))
  | _ => True

instance (h : Heap Process) (n : Nat) : Decidable (Exhausted h n) := by
  unfold Exhausted
  infer_instance

instance (base : Nat) (h : Heap Process) : Decidable (NoFree base h) :=
  inferInstanceAs (Decidable (_ ∨ _))

instance (base : Nat) (s : St Process) (nbytes : Nat) : Decidable (Sized cfg d base s nbytes) :=
  inferInstanceAs (Decidable (_ ∨ _ ∧ _))

instance (base : Nat) (s : St Process) : (a : Act) → Decidable (Fair cfg d base s a)
  | .malloc _ => inferInstanceAs (Decidable (_ ∧ (_ → _)))
  | .free _ => instDecidableTrue
  | .write _ _ => instDecidableTrue

theorem nunits_of_le {nbytes : Nat} (h : nbytes ≤ 2 ^ 32 - 8) :
    nunits nbytes = (nbytes + 7) / 8 + 1 := by
  have : nbytes + 8 - 1 < 2 ^ 32 := by omega
  rw [nunits, Nat.mod_eq_of_lt this]
  rfl

/-- **The number of units wraps around.** -/
theorem nunits_of_gt {nbytes : Nat} (h : 2 ^ 32 - 8 < nbytes) (hlt : nbytes < 2 ^ 32) :
    nunits nbytes = 1 := by
  rw [nunits]
  omega

theorem Sized.core_le {nbytes : Nat} (h : Sized cfg d base s nbytes) (hlt : nbytes < 2 ^ 32) :
    8 * coreUnits (nunits nbytes) ≤ 2 ^ 31 - 8 := by
  rcases h with hle | ⟨hgt, _⟩
  · rw [nunits_of_le (by omega), coreUnits]
    split <;> omega
  · rw [nunits_of_gt hgt hlt]
    decide

theorem init_kernel (base : Nat) (h : Heap Process) : (Malloc.init base h).kernel = h.kernel := by
  unfold Malloc.init
  split <;> rfl

theorem noFree_iff {h : Heap Process} {fl : List Lib.Block} (hr : Ring base (Malloc.init base h) fl) :
    NoFree base h ↔ fl = [] := by
  have hptr : (Malloc.init base h).ptr base = nextOf base fl := by
    rw [Heap.ptr]
    exact congrArg Header.ptr hr.linked.1
  have hnil : nextOf base fl = base ↔ fl = [] := by
    cases fl with
    | nil => exact ⟨fun _ => rfl, fun _ => rfl⟩
    | cons b fl =>
        have hlt := hr.base_lt (List.mem_cons_self : b ∈ b :: fl)
        exact ⟨fun heq => absurd heq (Nat.ne_of_gt hlt), fun heq => absurd heq (List.cons_ne_nil _ _)⟩
  rw [← hnil, ← hptr, NoFree]
  by_cases hfreep : h.freep = 0
  · rw [Malloc.init, if_pos hfreep]
    refine ⟨fun _ => ?_, fun _ => .inl hfreep⟩
    show ((h.set base ⟨base, 0⟩).mem base).ptr = base
    rw [set_mem_self]
  · rw [Malloc.init, if_neg hfreep]
    exact ⟨fun hor => hor.resolve_left hfreep, .inr⟩

/-- A request for which there is no unit left over. -/
theorem refuses_one_iff {h : Heap Process} {fl : List Lib.Block}
    (hr : Ring base (Malloc.init base h) fl) (hm : Mapped cfg d h.kernel)
    (hsz : h.kernel.sz < KERNBASE) : Refuses (sbrk cfg d) (Malloc.init base h) fl 1 ↔
      NoFree base h ∧ Full cfg d h.kernel (8 * coreUnits 1) := by
  rw [Refuses, init_kernel, (hm.grow hsz (by decide) (by decide)).2, noFree_iff hr]
  refine and_congr_left fun _ => ?_
  constructor
  · intro hall
    rw [List.eq_nil_iff_forall_not_mem]
    intro b hb
    exact absurd (hall b hb) (Nat.not_lt.mpr (hr.pos b hb))
  · rintro rfl b hb
    exact absurd hb List.not_mem_nil

/-! ## Every history -/

/-- The kernel after `malloc`. -/
theorem Mapped.malloc (hm : Mapped cfg d s.heap.kernel) (hi : Inv base top s) {h' : Heap Process}
    {fl : List Lib.Block} (hr : Ring base (Malloc.init base s.heap) fl)
    (hlt : 8 * coreUnits (nunits n) ≤ 2 ^ 31 - 8)
    (hwhole : Exhausted (Malloc.init base s.heap) (nunits n) →
      Whole cfg d s.heap.kernel (8 * coreUnits (nunits n)))
    (hasked : Asked (sbrk cfg d) (Malloc.init base s.heap) h' fl (nunits n)) :
    Mapped cfg d h'.kernel := by
  have hreg := regular_of_top hi.top_lt
  rw [Asked, init_kernel] at hasked
  rcases hasked with heq | ⟨hnone, heq⟩
  · rw [heq]
    exact hm
  · obtain ⟨q, hwalk, hsmall⟩ := hr.lap_over (by have := hi.base_le; have := hi.top_lt; omega)
      (nunits_pos n) hnone
    have hex : Exhausted (Malloc.init base s.heap) (nunits n) := by
      intro q' hq'
      cases hwalk.symm.trans hq'
      exact hsmall
    have hcore : 0 < coreUnits (nunits n) := by
      unfold coreUnits
      split <;> omega
    rw [heq]
    exact (hm.grow hreg.2 (by omega) (by omega)).1 (hwhole hex)

/-- **Every fair step** leaves all of the process mapped. -/
theorem Mapped.step {a : Act} (hm : Mapped cfg d s.heap.kernel) (hi : Inv base top s)
    (hfair : Fair cfg d base s a) (hstep : Malloc.step (sbrk cfg d) base s a = some s') :
    Inv base top s' ∧ Mapped cfg d s'.heap.kernel := by
  have hasks : Asks (2 ^ 31 - 8) a := by
    rintro nbytes rfl
    exact hfair.1.core_le nbytes.toNat_lt
  refine ⟨hi.step (sbrk_fresh cfg d) (by decide) hasks hstep, ?_⟩
  cases a with
  | malloc nbytes =>
      obtain ⟨fl, r, h', _, hr, hrun, hasked, _⟩ :=
        hi.malloc (sbrk_fresh cfg d) (by decide) (hasks nbytes rfl)
      rw [Malloc.step, hrun] at hstep
      obtain rfl := Option.some.inj hstep
      exact hm.malloc hi hr (hasks nbytes rfl) hfair.2 hasked
  | free q =>
      rw [Malloc.step] at hstep
      split at hstep
      · obtain ⟨h', _, hrun, hkernel, _⟩ := hi.free ‹_›
        rw [hrun] at hstep
        obtain rfl := Option.some.inj hstep
        show Mapped cfg d h'.kernel
        rw [hkernel]
        exact hm
      · cases hstep
  | write a v =>
      rw [Malloc.step] at hstep
      split at hstep
      · obtain rfl := Option.some.inj hstep
        exact hm
      · cases hstep

theorem Mapped.reached (hk : Mapped cfg d s₀.heap.kernel) (h0 : Start base top s₀)
    (hrun : Reaches (guarded (Fair cfg d base) (Malloc.step (sbrk cfg d) base)) s₀ s) :
    Inv base top s ∧ Mapped cfg d s.heap.kernel := by
  refine hrun.invariant (I := fun s => Inv base top s ∧ Mapped cfg d s.heap.kernel)
    (fun s a s' hi hstep => ?_) ⟨h0.inv, hk⟩
  obtain ⟨hfair, hstep⟩ := guarded_eq_some.mp hstep
  exact hi.2.step hi.1 hfair hstep

/-- **Which requests `malloc` serves.** After every history of requests that
are fair, `malloc` of `nbytes` returns null or a block that is large enough
and in the memory of the process, if this request is fair as well; and only
if `nbytes` is at most 2³¹ - 16, or is more than 2³² - 8 and there is no
memory for even one unit. -/
theorem malloc_honest_of_fair (h0 : Start base top s₀) (hk : Mapped cfg d s₀.heap.kernel)
    (hrun : Reaches (guarded (Fair cfg d base) (Malloc.step (sbrk cfg d) base)) s₀ s)
    (nbytes : UInt32) : (Fair cfg d base s (.malloc nbytes) → Honest cfg d base s nbytes) ∧
      (Honest cfg d base s nbytes → Sized cfg d base s nbytes.toNat) := by
  obtain ⟨hi, hm⟩ := hk.reached h0 hrun
  have hreg := regular_of_top hi.top_lt
  have hlt := nbytes.toNat_lt
  constructor
  · intro hfair
    have hcore := hfair.1.core_le hlt
    obtain ⟨fl, r, h', fl', hring, hmalloc, hasked, hres⟩ :=
      hi.malloc (sbrk_fresh cfg d) (by decide) hcore
    have hm' := hm.malloc hi hring hcore hfair.2 hasked
    have hbase : ∀ live, Sound base (top h'.kernel) h' live fl' →
        Obtained d h'.kernel base (base + 8) := by
      intro live hs
      exact hm'.obtained base ((regular_of_top hs.top_lt).top_eq ▸ hs.base_le)
    rcases hres with ⟨rfl, _, hs⟩ | ⟨hr, hgave, hsize, _, hs⟩
    · exact ⟨0, h', hmalloc, hm'.running, hbase _ hs, .inl rfl⟩
    · refine ⟨r, h', hmalloc, hm'.running, hbase _ hs, .inr ⟨?_, hm'.obtained _ ?_⟩⟩
      · rcases hfair.1 with hle | ⟨hgt, hno⟩
        · rw [hsize, nunits_of_le (by omega)]
          omega
        · rw [nunits_of_gt hgt hlt] at hgave
          exact absurd ((refuses_one_iff hring hm hreg.2).mpr hno) hgave
      · have hbounds := (hs.block_bounds (.inr List.mem_cons_self)).2.2
        rwa [(regular_of_top hs.top_lt).top_eq] at hbounds
  · rintro ⟨r, h', hmalloc, _, hmapped, hres⟩
    by_contra hno
    have hbig : 2 ^ 31 - 16 < nbytes.toNat := by
      by_contra hle
      exact hno (.inl (by omega))
    by_cases hmid : nbytes.toNat ≤ 2 ^ 32 - 8
    · -- the kernel takes the request for another
      obtain ⟨fl, hs⟩ := hi.init
      have hunits := nunits_of_le hmid
      have hfuel : FUEL = 1073741823 + 1 := rfl
      rw [Malloc.malloc, hfuel] at hmalloc
      obtain ⟨hsz, hnull⟩ := hs.large (by rwa [init_kernel]) hi.base_pos (by omega) (by omega) hmalloc
      rcases hres with rfl | ⟨hsize, hblock⟩
      · have hzero := (hnull rfl (base / PGSIZE)).mp (hmapped.2 _ (Nat.le_refl _) (by
          unfold PGSIZE
          omega))
        exact absurd hzero (Nat.not_lt_zero _)
      · have hstop := hblock.1
        unfold KERNBASE at hsz
        rw [stop] at hstop
        omega
    · -- the block has one unit, which is its header
      have hgt : 2 ^ 32 - 8 < nbytes.toNat := by omega
      have hone := nunits_of_gt hgt hlt
      have hcore : 8 * coreUnits (nunits nbytes.toNat) ≤ 2 ^ 31 - 8 := by
        rw [hone]
        decide
      obtain ⟨fl, r', h'', fl', hring, hmalloc', _, hres'⟩ :=
        hi.malloc (sbrk_fresh cfg d) (by decide) hcore
      obtain ⟨rfl, rfl⟩ := Prod.mk.inj (Option.some.inj (hmalloc'.symm.trans hmalloc))
      rw [hone] at hres'
      rcases hres' with ⟨_, href, _⟩ | ⟨hr, _, hsize, _⟩
      · exact hno (.inr ⟨hgt, (refuses_one_iff hring hm hreg.2).mp href⟩)
      · obtain ⟨hbytes, _⟩ := hres.resolve_left hr
        rw [hsize] at hbytes
        omega

/-- A program of one page that has not called `malloc`. -/
def begun : St Process := ⟨⟨fun _ => ⟨0, 0⟩, 0, ⟨Vm.sparse 0, PGSIZE, none⟩, []⟩, []⟩

theorem begun_start : Start 8 top begun := ⟨by decide, by decide, by decide, rfl, rfl, rfl⟩

theorem begun_mapped : Mapped Vm.smallConfig 1 begun.heap.kernel where
  sharp := ⟨Vm.sparseTags 0, Vm.sharp_sparse (by decide), rfl⟩
  covers := Vm.covers_sparse
  running := rfl

/-- A second request, of 40000 bytes. -/
theorem malloc_honest_second : ∃ s : St Process,
    execAll (guarded (Fair Vm.smallConfig 1 8) (Malloc.step (sbrk Vm.smallConfig 1) 8)) begun
      [.malloc 100] = some s ∧ s.live = [⟨36752, 14⟩] ∧ Honest Vm.smallConfig 1 8 s 40000 := by
  have hrun : ((execAll (guarded (Fair Vm.smallConfig 1 8) (Malloc.step (sbrk Vm.smallConfig 1) 8))
      begun [.malloc 100]).map fun s => (s.live, decide (Fair Vm.smallConfig 1 8 s (.malloc 40000)))) =
      some ([⟨36752, 14⟩], true) := by decide +kernel
  obtain ⟨s, hs, heq⟩ := Option.map_eq_some_iff.mp hrun
  obtain ⟨hlive, hfair⟩ := Prod.mk.inj heq
  exact ⟨s, hs, hlive, (malloc_honest_of_fair begun_start begun_mapped (reaches_of_execAll hs)
    40000).1 (of_decide_eq_true hfair)⟩

/-- **The largest request of all** gets a block of one unit. -/
theorem malloc_short_block : Start 8 top begun ∧ Mapped Vm.smallConfig 1 begun.heap.kernel ∧
    (Malloc.malloc (sbrk Vm.smallConfig 1) 8 begun.heap (0xffffffff : UInt32).toNat).map
      (fun r => (r.1, blockOf r.2 r.1)) = some (36864, ⟨36856, 1⟩) ∧
    ¬ Honest Vm.smallConfig 1 8 begun 0xffffffff := by
  have hrun : (Malloc.malloc (sbrk Vm.smallConfig 1) 8 begun.heap (0xffffffff : UInt32).toNat).map
      (fun r => (r.1, blockOf r.2 r.1)) = some (36864, ⟨36856, 1⟩) := by decide +kernel
  refine ⟨begun_start, begun_mapped, hrun, ?_⟩
  rintro ⟨r, h', hmalloc, _, _, hres⟩
  rw [hmalloc] at hrun
  obtain ⟨hr, hblock⟩ := Prod.mk.inj (Option.some.inj hrun)
  have hr : r = 36864 := hr
  have hblock : blockOf h' r = ⟨36856, 1⟩ := hblock
  rcases hres with hnull | ⟨hbytes, _⟩
  · omega
  · rw [hblock] at hbytes
    exact absurd hbytes (by decide)

end Whole

end Xv6.Malloc
