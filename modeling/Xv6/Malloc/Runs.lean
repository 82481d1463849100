import Xv6.Malloc.Alloc

/-!
# Malloc — every history of a program

What holds after any sequence of `malloc`, of `free` for the blocks that the
program has, and of writes into them, over every `sbrk` that returns fresh
memory.
-/

namespace Xv6.Malloc

open Lib Block

variable {κ : Type} {base n : Nat} {h h' : Heap κ} {fl live : List Block}
variable {sbrk : κ → Nat → Option Nat × κ} {top : κ → Nat} {limit : Nat}

/-! ## `malloc` -/

/-- No free block has `n` units, and `sbrk` does not return memory for one. -/
def Refuses (sbrk : κ → Nat → Option Nat × κ) (h : Heap κ) (fl : List Block) (n : Nat) : Prop :=
  (∀ b ∈ fl, b.size < n) ∧ (sbrk h.kernel (8 * coreUnits n)).1 = none

/-- `malloc` leaves the kernel as it is, or no free block has `n` units and it
asks once. -/
def Asked (sbrk : κ → Nat → Option Nat × κ) (h h' : Heap κ) (fl : List Block) (n : Nat) : Prop :=
  h'.kernel = h.kernel ∨
    (∀ b ∈ fl, b.size < n) ∧ h'.kernel = (sbrk h.kernel (8 * coreUnits n)).2

namespace Sound

variable {t : Nat}

/-- Blocks of the program share no unit. -/
theorem live_nodup (hs : Sound base t h live fl) : (total 8 live).Nodup := by
  have hnodup := hs.nodup
  rw [← hs.account] at hnodup
  exact (Multiset.nodup_add.mp hnodup).2.1

theorem free_live_disjoint (hs : Sound base t h live fl) :
    Disjoint (total 8 fl) (total 8 live) := by
  have hnodup := hs.nodup
  rw [← hs.account] at hnodup
  exact (Multiset.nodup_add.mp hnodup).2.2

theorem addr_mem_live (hs : Sound base t h live fl) {b : Block} (hb : b ∈ live) :
    b.addr ∈ total 8 live :=
  Multiset.mem_of_le (units_le_total hb) (addr_mem_units (hs.pos b hb))

/-- A block is taken from the list. -/
theorem taken {r : Nat} {nb : Block} {fl' : List Block} (hs : Sound base t h live fl) (hn : 0 < n)
    (ht : Taken base h h' n r nb fl fl') : Sound base t h' (nb :: live) fl' := by
  have hpos : 0 < nb.size := by rw [ht.size]; exact hn
  refine ⟨ht.ring, List.forall_mem_cons.mpr ⟨hpos, hs.pos⟩,
    List.forall_mem_cons.mpr ⟨by rw [ht.header, ht.size], fun b hb => ?_⟩, ?_, ?_, ?_, hs.base_le,
    hs.top_lt⟩
  · have hne : b.addr ≠ nb.addr := by
      intro heq
      have hfree : nb.addr ∈ total 8 fl := by
        rw [ht.total]
        exact Multiset.mem_add.mpr (.inl (addr_mem_units hpos))
      exact Multiset.disjoint_left.mp hs.free_live_disjoint hfree (heq ▸ hs.addr_mem_live hb)
    rw [Heap.size, ht.frame _ hne (hs.addr_ne hb)]
    exact hs.header b hb
  · rw [ht.regions, ← hs.account, ht.total, total_cons, add_left_comm, add_assoc]
  · rw [ht.regions]
    exact hs.nodup
  · rw [ht.regions]
    exact hs.bounds

/-- What `malloc` does with the lap it made. -/
theorem mallocLoop_found (sbrk : κ → Nat → Option Nat × κ)
    (hs : Sound base (top h.kernel) h live fl) (hn : 0 < n) (hfits : ∃ b ∈ fl, n ≤ b.size) (laps : Nat) :
    ∃ nb h' fl', mallocLoop sbrk n (laps + 1) h h.freep = some (plus nb.addr 1, h') ∧
      nb.size = n ∧ h'.kernel = h.kernel ∧ h'.regions = h.regions ∧
      Sound base (top h'.kernel) h' (nb :: live) fl' := by
  obtain ⟨prevp, hwalk, hlap⟩ := hs.ring.lap hs.base_lt hn
  cases hlap with
  | around hnone _ =>
      obtain ⟨b, hb, hle⟩ := hfits
      exact absurd hle (Nat.not_le.mpr (hnone b hb))
  | @found u v d c hsplit hfit hsize =>
      obtain ⟨nb, fl', ht⟩ := hs.ring.take hsplit hfit hn
      refine ⟨nb, (h.take n d.addr).2, fl', ?_, ht.size, ht.kernel, ht.regions, ?_⟩
      · rw [mallocLoop]
        simp only [hwalk, Option.bind_eq_bind, Option.bind_some, hsize, if_pos hfit,
          Option.pure_def]
        rw [← ht.result]
      · rw [ht.kernel]
        exact hs.taken hn ht

/-- **The loop of `malloc`** ends: with a block of `n` units, or with the
null pointer where there is none to be had. -/
theorem mallocLoop (hf : Fresh sbrk top limit) (hs : Sound base (top h.kernel) h live fl)
    (hbase : 0 < base) (hn : 0 < n) (hlimit : limit < 2 ^ 32) (hcore : 8 * coreUnits n ≤ limit)
    (laps : Nat) :
    ∃ r h' fl', Malloc.mallocLoop sbrk n (laps + 2) h h.freep = some (r, h') ∧
      Asked sbrk h h' fl n ∧ ((r = 0 ∧ Refuses sbrk h fl n ∧ Sound base (top h'.kernel) h' live fl') ∨
        ∃ nb, r = plus nb.addr 1 ∧ ¬ Refuses sbrk h fl n ∧ nb.size = n ∧
          Sound base (top h'.kernel) h' (nb :: live) fl') := by
  by_cases hfits : ∃ b ∈ fl, n ≤ b.size
  · obtain ⟨nb, h', fl', hrun, hsize, hkernel, _, hs'⟩ :=
      hs.mallocLoop_found sbrk hn hfits (laps + 1)
    obtain ⟨b, hb, hle⟩ := hfits
    have hnot : ¬ Refuses sbrk h fl n := fun hno => absurd hle (Nat.not_le.mpr (hno.1 b hb))
    exact ⟨_, h', fl', hrun, .inl hkernel, .inr ⟨nb, rfl, hnot, hsize, hs'⟩⟩
  · have hnone : ∀ b ∈ fl, b.size < n := fun b hb =>
      Nat.lt_of_not_le fun hle => hfits ⟨b, hb, hle⟩
    obtain ⟨prevp, hwalk, hsmall⟩ := hs.ring.lap_over hs.base_lt hn hnone
    obtain ⟨r, h₁, fl₁, hrun, hs₁, hasked, hr⟩ := hs.morecore hf hcore hlimit
    have hunfold : Malloc.mallocLoop sbrk n (laps + 2) h h.freep =
        if r = 0 then some (0, h₁) else Malloc.mallocLoop sbrk n (laps + 1) h₁ r := by
      rw [Malloc.mallocLoop]
      simp only [hwalk, Option.bind_eq_bind, Option.bind_some, if_neg (Nat.not_le.mpr hsmall),
        hrun, Option.pure_def]
    rw [hunfold]
    rcases hr with ⟨rfl, href⟩ | ⟨rfl, hgave, hfits₁⟩
    · exact ⟨0, h₁, fl₁, if_pos rfl, .inr ⟨hnone, hasked⟩, .inl ⟨rfl, ⟨hnone, href⟩, hs₁⟩⟩
    · have hfreep : h₁.freep ≠ 0 := hs₁.ring.freep_ne_zero hbase
      obtain ⟨nb, h', fl', hrun', hsize, hkernel, _, hs'⟩ :=
        hs₁.mallocLoop_found sbrk hn hfits₁ laps
      exact ⟨_, h', fl', (if_neg hfreep).trans hrun', .inr ⟨hnone, hkernel.trans hasked⟩,
        .inr ⟨nb, rfl, fun hno => hgave hno.2, hsize, hs'⟩⟩

end Sound

/-! ## The invariant of a program -/

/-- What holds in every state: nothing was allocated yet, or all is
accounted for. -/
structure Inv (base : Nat) (top : κ → Nat) (s : St κ) : Prop where
  base_pos : 0 < base
  base_le : base + 8 ≤ top s.heap.kernel
  top_lt : top s.heap.kernel < 2 ^ 32
  heap : (s.heap.freep = 0 ∧ s.live = [] ∧ s.heap.regions = []) ∨
    ∃ fl, Sound base (top s.heap.kernel) s.heap s.live fl

/-- A program before its first call, with memory up to `top`. -/
structure Start (base : Nat) (top : κ → Nat) (s : St κ) : Prop where
  base_pos : 0 < base
  base_le : base + 8 ≤ top s.heap.kernel
  top_lt : top s.heap.kernel < 2 ^ 32
  freep : s.heap.freep = 0
  live : s.live = []
  regions : s.heap.regions = []

theorem Start.inv {s : St κ} (h : Start base top s) : Inv base top s :=
  ⟨h.base_pos, h.base_le, h.top_lt, .inl ⟨h.freep, h.live, h.regions⟩⟩

theorem Sound.inv {s : St κ} (hs : Sound base (top s.heap.kernel) s.heap s.live fl)
    (hbase : 0 < base) : Inv base top s := ⟨hbase, hs.base_le, hs.top_lt, .inr ⟨fl, hs⟩⟩

/-- The first call of `malloc` sets up the list. -/
theorem Inv.init {s : St κ} (hi : Inv base top s) :
    ∃ fl, Sound base (top (Malloc.init base s.heap).kernel) (Malloc.init base s.heap) s.live fl := by
  rcases hi.heap with ⟨hfreep, hlive, hregions⟩ | ⟨fl, hs⟩
  · have hinit : Malloc.init base s.heap = { s.heap.set base ⟨base, 0⟩ with freep := base } :=
      if_pos hfreep
    have hmem : (s.heap.set base ⟨base, 0⟩).mem base = ⟨base, 0⟩ := set_mem_self ..
    rw [hinit, hlive]
    refine ⟨[], ⟨⟨hmem, trivial⟩, List.pairwise_singleton _ _, fun b hb => absurd hb List.not_mem_nil,
      fun b hb => absurd hb List.not_mem_nil, ⟨root base, List.mem_singleton_self _, rfl⟩⟩,
      fun b hb => absurd hb List.not_mem_nil, fun b hb => absurd hb List.not_mem_nil, ?_, ?_,
      fun a ha => ?_, hi.base_le, hi.top_lt⟩
    · show total 8 [] + total 8 [] = total 8 s.heap.regions
      rw [hregions]
      rfl
    · show (total 8 s.heap.regions).Nodup
      rw [hregions]
      exact Multiset.nodup_zero
    · have hmem : a ∈ total 8 s.heap.regions := ha
      rw [hregions] at hmem
      exact absurd hmem (Multiset.notMem_zero a)
  · have hinit : Malloc.init base s.heap = s.heap :=
      if_neg (hs.ring.freep_ne_zero hi.base_pos)
    rw [hinit]
    exact ⟨fl, hs⟩

theorem nunits_pos (nbytes : Nat) : 0 < nunits nbytes := Nat.succ_pos _

/-- A block of the program, from the pointer to it. -/
theorem Sound.blockOf_plus {t : Nat} (hs : Sound base t h live fl) {b : Block} (hb : b ∈ live) :
    blockOf h (plus b.addr 1) = b ∧ plus b.addr 1 = b.addr + 8 := by
  have hstop := (hs.block_bounds (.inr hb)).2.2
  have hpos := hs.pos b hb
  have hlt := hs.top_lt
  rw [stop] at hstop
  have hplus : b.addr + 8 < 2 ^ 32 := by omega
  refine ⟨?_, plus_eq hplus⟩
  rw [blockOf, headerOf_plus hplus, hs.header b hb]

/-- **`malloc`** from every state with the invariant: it returns, and what
it returns is null or a new block of the right size. -/
theorem Inv.malloc (hf : Fresh sbrk top limit) {s : St κ} (hi : Inv base top s) {nbytes : Nat}
    (hlimit : limit < 2 ^ 32) (hcore : 8 * coreUnits (nunits nbytes) ≤ limit) :
    ∃ fl r h' fl', Ring base (Malloc.init base s.heap) fl ∧
      Malloc.malloc sbrk base s.heap nbytes = some (r, h') ∧
      Asked sbrk (Malloc.init base s.heap) h' fl (nunits nbytes) ∧
      ((r = 0 ∧ Refuses sbrk (Malloc.init base s.heap) fl (nunits nbytes) ∧
          Sound base (top h'.kernel) h' s.live fl') ∨
        (r ≠ 0 ∧ ¬ Refuses sbrk (Malloc.init base s.heap) fl (nunits nbytes) ∧
          (blockOf h' r).size = nunits nbytes ∧ r = (blockOf h' r).addr + 8 ∧
          Sound base (top h'.kernel) h' (blockOf h' r :: s.live) fl')) := by
  obtain ⟨fl, hs⟩ := hi.init
  have hfuel : FUEL = 1073741822 + 2 := rfl
  obtain ⟨r, h', fl', hrun, hasked, hres⟩ :=
    hs.mallocLoop hf hi.base_pos (nunits_pos nbytes) hlimit hcore 1073741822
  refine ⟨fl, r, h', fl', hs.ring, ?_, hasked, ?_⟩
  · rw [Malloc.malloc, hfuel]
    exact hrun
  · rcases hres with ⟨rfl, hno, hs'⟩ | ⟨nb, rfl, hgave, hsize, hs'⟩
    · exact .inl ⟨rfl, hno, hs'⟩
    · obtain ⟨hblock, hplus⟩ := hs'.blockOf_plus List.mem_cons_self
      rw [hblock, hplus]
      exact .inr ⟨Nat.succ_ne_zero _, hgave, hsize, rfl, hs'⟩

/-! ## `free` and writes -/

/-- Two blocks of the program, taken from different places of the list. -/
theorem Sound.erase_disjoint {t : Nat} (hs : Sound base t h live fl) {b : Block} (hb : b ∈ live) :
    Disjoint (b.units 8) (total 8 (live.erase b)) := by
  have hnodup := hs.live_nodup
  rw [total_erase hb] at hnodup
  exact (Multiset.nodup_add.mp hnodup).2.2

theorem Sound.addr_ne_of_erase {t : Nat} (hs : Sound base t h live fl) {b c : Block} (hb : b ∈ live)
    (hc : c ∈ live.erase b) {a : Nat} (ha : a ∈ b.units 8) : c.addr ≠ a := by
  intro heq
  have hcpos := hs.pos c (List.mem_of_mem_erase hc)
  have hmem : a ∈ total 8 (live.erase b) :=
    Multiset.mem_of_le (units_le_total hc) (heq ▸ addr_mem_units hcpos)
  exact Multiset.disjoint_left.mp (hs.erase_disjoint hb) ha hmem

/-- **`free`** of a block of the program returns, and the block is free. -/
theorem Sound.free {t : Nat} (hs : Sound base t h live fl) {b : Block} (hb : b ∈ live) :
    ∃ h' fl', h.free (plus b.addr 1) = some h' ∧ h'.kernel = h.kernel ∧
      Sound base t h' (live.erase b) fl' := by
  obtain ⟨_, hlo, hstop⟩ := hs.block_bounds (.inr hb)
  have hpos := hs.pos b hb
  have htop := hs.top_lt
  obtain ⟨h', fl', hrun, hins⟩ := hs.ring.free hs.base_lt (by omega) hpos (by omega)
    (hs.header b hb) fun c hc => hs.apart hc hb
  refine ⟨h', fl', hrun, hins.kernel, hins.ring, fun c hc => hs.pos c (List.mem_of_mem_erase hc),
    fun c hc => ?_, ?_, ?_, ?_, hs.base_le, hs.top_lt⟩
  · have hlive := List.mem_of_mem_erase hc
    rw [Heap.size, hins.frame _ (hs.addr_ne_of_erase hb hc (addr_mem_units hpos))
      (hs.addr_ne hlive)]
    exact hs.header c hlive
  · rw [hins.total, hins.regions, ← hs.account, total_erase hb, add_assoc, add_left_comm]
  · rw [hins.regions]
    exact hs.nodup
  · rw [hins.regions]
    exact hs.bounds

theorem mem_payload {b : Block} {a : Nat} (h : a ∈ payload b) : a ∈ b.units 8 ∧ a ≠ b.addr := by
  obtain ⟨k, hk, rfl⟩ := mem_units.mp h
  have hk' : k < b.size - 1 := hk
  refine ⟨mem_units.mpr ⟨k + 1, by omega, ?_⟩, ?_⟩
  · show b.addr + 8 * (k + 1) = b.addr + 8 + 8 * k
    omega
  · show b.addr + 8 + 8 * k ≠ b.addr
    omega

/-- A write into a block of the program changes no header. -/
theorem Sound.write {t : Nat} (hs : Sound base t h live fl) {b : Block} (hb : b ∈ live) {a : Nat}
    (ha : a ∈ payload b) (v : Header) : Sound base t (h.set a v) live fl := by
  obtain ⟨hunit, hne⟩ := mem_payload ha
  have hlive : a ∈ total 8 live := Multiset.mem_of_le (units_le_total hb) hunit
  have hring : ∀ c ∈ root base :: fl, c.addr ≠ a := by
    refine List.forall_mem_cons.mpr ⟨?_, fun c hc heq => ?_⟩
    · have := (hs.bounds a (hs.units_subset (.inr hb) hunit)).2.1
      show base ≠ a
      omega
    · have hfree : a ∈ total 8 fl :=
        Multiset.mem_of_le (units_le_total hc) (heq ▸ addr_mem_units (hs.ring.pos c hc))
      exact Multiset.disjoint_left.mp hs.free_live_disjoint hfree hlive
  refine ⟨hs.ring.set hring v, hs.pos, fun c hc => ?_, hs.account, hs.nodup, hs.bounds, hs.base_le,
    hs.top_lt⟩
  have hca : c.addr ≠ a := by
    by_cases hcb : c = b
    · rw [hcb]
      exact Ne.symm hne
    · exact hs.addr_ne_of_erase hb ((List.mem_erase_of_ne hcb).mpr hc) hunit
  rw [Heap.size, set_mem_of_ne hca]
  exact hs.header c hc

theorem Sound.live_apart {t : Nat} (hs : Sound base t h live fl) : live.Pairwise (Apart 8) :=
  pairwise_apart (fun _ hb => (hs.block_bounds (.inr hb)).1) hs.pos hs.live_nodup

/-! ## Every step -/

theorem free_congr {p p' : Nat} (heq : headerOf p = headerOf p') : h.free p = h.free p' := by
  rw [Heap.free, Heap.free, heq]

/-- `free` of what the program has. -/
theorem Inv.free {s : St κ} (hi : Inv base top s) {p : Nat} (hp : blockOf s.heap p ∈ s.live) :
    ∃ h' fl', s.heap.free p = some h' ∧ h'.kernel = s.heap.kernel ∧
      Sound base (top h'.kernel) h' (s.live.erase (blockOf s.heap p)) fl' := by
  rcases hi.heap with ⟨_, hlive, _⟩ | ⟨fl, hs⟩
  · rw [hlive] at hp
    exact absurd hp List.not_mem_nil
  · obtain ⟨h', fl', hrun, hkernel, hs'⟩ := hs.free hp
    have hstop := (hs.block_bounds (.inr hp)).2.2
    have hpos := hs.pos _ hp
    have htop := hs.top_lt
    rw [stop] at hstop
    have hhead : headerOf p = headerOf (plus (headerOf p) 1) :=
      (headerOf_plus (show headerOf p + 8 < 2 ^ 32 by
        have : (blockOf s.heap p).addr = headerOf p := rfl
        omega)).symm
    refine ⟨h', fl', (free_congr hhead).trans hrun, hkernel, ?_⟩
    rw [hkernel]
    exact hs'

/-- What `malloc` may be asked for, with a kernel that can be asked for `limit`
bytes. -/
def Asks (limit : Nat) (a : Act) : Prop :=
  ∀ nbytes, a = .malloc nbytes → 8 * coreUnits (nunits nbytes.toNat) ≤ limit

/-- **Every step** keeps the invariant. -/
theorem Inv.step (hf : Fresh sbrk top limit) (hlimit : limit < 2 ^ 32) {s s' : St κ} {a : Act}
    (hi : Inv base top s) (hasks : Asks limit a) (hstep : Malloc.step sbrk base s a = some s') :
    Inv base top s' := by
  cases a with
  | malloc nbytes =>
      obtain ⟨_, r, h', fl', _, hrun, _, hres⟩ := hi.malloc hf hlimit (hasks nbytes rfl)
      rw [Malloc.step, hrun] at hstep
      obtain rfl := Option.some.inj hstep
      rcases hres with ⟨hr, _, hs'⟩ | ⟨hr, _, _, _, hs'⟩
      · have hlive : (if r = 0 then s.live else blockOf h' r :: s.live) = s.live := if_pos hr
        exact Sound.inv (hlive.symm ▸ hs') hi.base_pos
      · have hlive : (if r = 0 then s.live else blockOf h' r :: s.live) = blockOf h' r :: s.live :=
          if_neg hr
        exact Sound.inv (hlive.symm ▸ hs') hi.base_pos
  | free p =>
      rw [Malloc.step] at hstep
      by_cases hp : blockOf s.heap p ∈ s.live
      · obtain ⟨h', fl', hrun, _, hs'⟩ := hi.free hp
        rw [if_pos hp, hrun] at hstep
        obtain rfl := Option.some.inj hstep
        exact Sound.inv hs' hi.base_pos
      · rw [if_neg hp] at hstep
        cases hstep
  | write a v =>
      rw [Malloc.step] at hstep
      by_cases hex : ∃ b ∈ s.live, a ∈ payload b
      · rw [if_pos hex] at hstep
        obtain ⟨b, hb, ha⟩ := hex
        obtain rfl := Option.some.inj hstep
        rcases hi.heap with ⟨_, hlive, _⟩ | ⟨fl, hs⟩
        · rw [hlive] at hb
          exact absurd hb List.not_mem_nil
        · exact Sound.inv (hs.write hb ha v) hi.base_pos
      · rw [if_neg hex] at hstep
        cases hstep

/-- The request of a `malloc`, rounded up to whole units, is less than 2³¹
bytes. -/
def Small (_ : St κ) : Act → Prop
  | .malloc nbytes => (nbytes.toNat + 7) / 8 * 8 < 2 ^ 31
  | _ => True

instance (s : St κ) (a : Act) : Decidable (Small s a) := by
  cases a <;> unfold Small <;> infer_instance

theorem nunits_eq {nbytes : Nat} (h : (nbytes + 7) / 8 * 8 < 2 ^ 31) :
    nunits nbytes = (nbytes + 7) / 8 + 1 := by
  have : nbytes + 8 - 1 < 2 ^ 32 := by omega
  rw [nunits, Nat.mod_eq_of_lt this]
  rfl

theorem coreUnits_le {nbytes : Nat} (h : (nbytes + 7) / 8 * 8 < 2 ^ 31) :
    8 * coreUnits (nunits nbytes) ≤ 2 ^ 31 := by
  rw [nunits_eq h, coreUnits]
  split <;> omega

theorem Small.asks {s : St κ} {a : Act} (h : Small s a) : Asks (2 ^ 31) a := by
  rintro nbytes rfl
  exact coreUnits_le h

theorem Inv.reached (hf : Fresh sbrk top (2 ^ 31)) {s₀ s : St κ} (h0 : Start base top s₀)
    (hrun : Reaches (guarded Small (Malloc.step sbrk base)) s₀ s) : Inv base top s := by
  refine hrun.invariant (fun s a s' hi hstep => ?_) h0.inv
  obtain ⟨hsmall, hstep⟩ := guarded_eq_some.mp hstep
  exact hi.step hf (by decide) hsmall.asks hstep

/-- **The invariant of `malloc` and `free`.** After every history of a
program whose requests are less than 2³¹ bytes: the free list is a ring by
increasing addresses with `base` in it and no two of its blocks next to each
other, apart from the blocks in use; these are apart from each other; the
units of both together are those that `sbrk` returned, each once; `malloc`
returns null or a block that is large enough and is new; and `free` of what
the program has returns. -/
theorem malloc_free_sound (hf : Fresh sbrk top (2 ^ 31)) {s₀ s : St κ} (h0 : Start base top s₀)
    (hrun : Reaches (guarded Small (Malloc.step sbrk base)) s₀ s) :
    (∃ fl, (s.heap.freep ≠ 0 → Ring base s.heap fl) ∧
      (∀ b ∈ fl, ∀ c ∈ s.live, Apart 8 b c) ∧
      total 8 fl + total 8 s.live = total 8 s.heap.regions) ∧
    s.live.Pairwise (Apart 8) ∧ (total 8 s.heap.regions).Nodup ∧
    (∀ nbytes : UInt32, Small s (.malloc nbytes) →
      ∃ r h', Malloc.malloc sbrk base s.heap nbytes.toNat = some (r, h') ∧
        (r ≠ 0 → r = (blockOf h' r).addr + 8 ∧ nbytes.toNat ≤ 8 * ((blockOf h' r).size - 1) ∧
          (∀ b ∈ s.live, Apart 8 (blockOf h' r) b) ∧
          ∀ a ∈ (blockOf h' r).units 8, a ∈ total 8 h'.regions)) ∧
    ∀ p, blockOf s.heap p ∈ s.live → ∃ h', s.heap.free p = some h' := by
  have hi := Inv.reached hf h0 hrun
  have hlist : ∃ fl, (s.heap.freep ≠ 0 → Ring base s.heap fl) ∧
      (∀ b ∈ fl, ∀ c ∈ s.live, Apart 8 b c) ∧
      total 8 fl + total 8 s.live = total 8 s.heap.regions ∧
      s.live.Pairwise (Apart 8) ∧ (total 8 s.heap.regions).Nodup := by
    rcases hi.heap with ⟨hfreep, hlive, hregions⟩ | ⟨fl, hs⟩
    · rw [hlive, hregions]
      exact ⟨[], fun h => absurd hfreep h, fun _ hb => absurd hb List.not_mem_nil, rfl,
        List.Pairwise.nil, Multiset.nodup_zero⟩
    · exact ⟨fl, fun _ => hs.ring, fun _ hb _ hc => hs.apart hb hc, hs.account, hs.live_apart,
        hs.nodup⟩
  obtain ⟨fl, hring, hapart, haccount, hlive, hnodup⟩ := hlist
  refine ⟨⟨fl, hring, hapart, haccount⟩, hlive, hnodup, fun nbytes hsmall => ?_, fun p hp => ?_⟩
  · obtain ⟨_, r, h', fl', _, hmalloc, _, hres⟩ := hi.malloc hf (by decide) (coreUnits_le hsmall)
    refine ⟨r, h', hmalloc, fun hr => ?_⟩
    rcases hres with ⟨hr0, _⟩ | ⟨_, _, hsize, haddr, hs'⟩
    · exact absurd hr0 hr
    · refine ⟨haddr, ?_, (List.pairwise_cons.mp hs'.live_apart).1, fun a ha =>
        hs'.units_subset (.inr List.mem_cons_self) ha⟩
      rw [hsize, nunits_eq hsmall]
      omega
  · obtain ⟨h', _, hfree, _⟩ := hi.free hp
    exact ⟨h', hfree⟩

/-- A kernel whose memory grows upwards; its state is the top, in units. -/
def upwards (k n : Nat) : Option Nat × Nat :=
  if 8 * k + n < 2 ^ 32 then (some (8 * k), k + n / 8) else (none, k)

theorem upwards_fresh : Fresh upwards (8 * ·) (2 ^ 31) where
  grown k n a _ _ hdvd _ hres := by
    obtain ⟨m, rfl⟩ := hdvd
    unfold upwards at hres ⊢
    split at hres
    · rename_i hlt
      obtain rfl := Option.some.inj hres
      rw [if_pos hlt]
      show 8 ∣ 8 * k ∧ 8 * k ≤ 8 * k ∧ 8 * k + 8 * m ≤ 8 * (k + 8 * m / 8) ∧
        8 * (k + 8 * m / 8) < 2 ^ 32
      omega
    · cases hres
  refused k n _ _ _ hlt hres := by
    unfold upwards at hres ⊢
    split at hres
    · cases hres
    · rename_i hge
      rw [if_neg hge]
      exact ⟨Nat.le_refl _, hlt⟩

/-- A program of one page that has not called `malloc`. -/
def unused : St Nat := ⟨⟨fun _ => ⟨0, 0⟩, 0, 512, []⟩, []⟩

theorem unused_start : Start 8 (8 * ·) unused := ⟨by decide, by decide, by decide, rfl, rfl, rfl⟩

/-- Two blocks, one of them freed, and a third that is cut from its end. -/
theorem malloc_free_sound_three : ∃ s : St Nat,
    execAll (guarded Small (Malloc.step upwards 8)) unused
      [.malloc 100, .malloc 20, .free 36760, .malloc 8] = some s ∧
    s.live = [⟨36848, 2⟩, ⟨36720, 4⟩] ∧ s.live.Pairwise (Apart 8) ∧
    (∃ fl, (s.heap.freep ≠ 0 → Ring 8 s.heap fl) ∧
      total 8 fl + total 8 s.live = total 8 s.heap.regions) := by
  have hrun : (execAll (guarded Small (Malloc.step upwards 8)) unused
      [.malloc 100, .malloc 20, .free 36760, .malloc 8]).map St.live =
      some [⟨36848, 2⟩, ⟨36720, 4⟩] := by decide +kernel
  obtain ⟨s, hs, hlive⟩ := Option.map_eq_some_iff.mp hrun
  obtain ⟨⟨fl, hring, _, haccount⟩, hapart, _⟩ :=
    malloc_free_sound upwards_fresh unused_start (reaches_of_execAll hs)
  exact ⟨s, hs, hlive, hapart, fl, hring, haccount⟩

end Xv6.Malloc
