import Xv6.Malloc.Free

/-!
# Malloc — `malloc` over any `sbrk`

All that `sbrk` is asked to do is to return fresh memory above what it
returned before. Then every unit of it is in one free block or in one block
of the program; a lap around the list finds a block if there is one, and
after `morecore` there is one.
-/

namespace Xv6.Malloc

open Lib Block

variable {κ : Type} {base top n : Nat} {h h' : Heap κ} {fl live : List Block}

/-! ## The invariant -/

/-- **Each unit is free or in use**, and none twice. -/
structure Sound (base top : Nat) (h : Heap κ) (live fl : List Block) : Prop where
  ring : Ring base h fl
  pos : ∀ b ∈ live, 0 < b.size
  header : ∀ b ∈ live, h.size b.addr = b.size
  account : total 8 fl + total 8 live = total 8 h.regions
  nodup : (total 8 h.regions).Nodup
  bounds : ∀ a ∈ total 8 h.regions, 8 ∣ a ∧ base + 8 ≤ a ∧ a + 8 ≤ top
  base_le : base + 8 ≤ top
  top_lt : top < 2 ^ 32

namespace Sound

theorem base_lt (hs : Sound base top h live fl) : base < 2 ^ 32 := by
  have := hs.base_le
  have := hs.top_lt
  omega

theorem units_subset (hs : Sound base top h live fl) {b : Block} (hb : b ∈ fl ∨ b ∈ live) {a : Nat}
    (ha : a ∈ b.units 8) : a ∈ total 8 h.regions := by
  rw [← hs.account]
  rcases hb with hb | hb
  · exact Multiset.mem_add.mpr (.inl (Multiset.mem_of_le (units_le_total hb) ha))
  · exact Multiset.mem_add.mpr (.inr (Multiset.mem_of_le (units_le_total hb) ha))

theorem size_pos (hs : Sound base top h live fl) {b : Block} (hb : b ∈ fl ∨ b ∈ live) :
    0 < b.size := hb.elim (hs.ring.pos b) (hs.pos b)

/-- Blocks are at whole units, between `base` and `top`. -/
theorem block_bounds (hs : Sound base top h live fl) {b : Block} (hb : b ∈ fl ∨ b ∈ live) :
    8 ∣ b.addr ∧ base + 8 ≤ b.addr ∧ b.stop 8 ≤ top := by
  have hpos := hs.size_pos hb
  obtain ⟨hdvd, hlo, _⟩ := hs.bounds _ (hs.units_subset hb (addr_mem_units hpos))
  have hlast : b.addr + 8 * (b.size - 1) ∈ b.units 8 := mem_units.mpr ⟨b.size - 1, by omega, rfl⟩
  obtain ⟨_, _, hhi⟩ := hs.bounds _ (hs.units_subset hb hlast)
  refine ⟨hdvd, hlo, ?_⟩
  rw [stop]
  omega

/-- A free block and one in use are apart. -/
theorem apart (hs : Sound base top h live fl) {b c : Block} (hb : b ∈ fl) (hc : c ∈ live) :
    Apart 8 b c := by
  have hnodup := hs.nodup
  rw [← hs.account] at hnodup
  have hdisj : Disjoint (b.units 8) (c.units 8) :=
    ((Multiset.nodup_add.mp hnodup).2.2).mono (units_le_total hb) (units_le_total hc)
  exact apart_of_disjoint (hs.block_bounds (.inl hb)).1 (hs.block_bounds (.inr hc)).1
    hdisj (hs.ring.pos b hb) (hs.pos c hc)

/-- So the header of a block in use is no header of the list. -/
theorem addr_ne (hs : Sound base top h live fl) {c : Block} (hc : c ∈ live) :
    ∀ b ∈ root base :: fl, c.addr ≠ b.addr := by
  refine List.forall_mem_cons.mpr ⟨?_, fun b hb => ?_⟩
  · have := (hs.block_bounds (.inr hc)).2.1
    show c.addr ≠ base
    omega
  · have hap := hs.apart hb hc
    have hbpos := hs.ring.pos b hb
    have hcpos := hs.pos c hc
    rw [Apart, stop, stop] at hap
    omega

end Sound

/-! ## One lap -/

/-- The nodes of the ring are different addresses. -/
theorem Ring.nodup (hr : Ring base h fl) : (base :: fl.map addr).Nodup := by
  have hlt : (base :: fl.map addr).Pairwise (· < ·) := by
    have hmap : ((root base :: fl).map addr).Pairwise (· < ·) := by
      refine List.pairwise_map.mpr (hr.spaced.imp fun {b c} hbc => ?_)
      exact Nat.lt_of_le_of_lt (Nat.le_add_right _ _) hbc
    exact hmap
  exact hlt.imp fun hab => Nat.ne_of_lt hab

theorem Ring.size_of_split (hr : Ring base h fl) {u v : List Block} {c : Block}
    (hsplit : root base :: fl = u ++ c :: v) :
    h.mem c.addr = ⟨nextOf base v, c.size⟩ := by
  have hl := hr.linked
  rw [hsplit] at hl
  exact hl.header

/-- How a lap ends. -/
inductive Lap (base : Nat) (h : Heap κ) (fl : List Block) (n : Nat) : Nat → Prop
  | found {u v : List Block} {d c : Block} (hsplit : root base :: fl = u ++ d :: c :: v)
      (hfit : n ≤ c.size) (hsize : h.size (h.ptr d.addr) = c.size) : Lap base h fl n d.addr
  | around {prevp : Nat} (hnone : ∀ b ∈ fl, b.size < n)
      (hsize : h.size (h.ptr prevp) < n) : Lap base h fl n prevp

/-- **A lap of `malloc`** ends, at a block that is large enough or with none
of them large enough. -/
theorem Ring.lap (hr : Ring base h fl) (hbase : base < 2 ^ 32) (hn : 0 < n) :
    ∃ prevp, walk (h.lapEnds n) h.ptr FUEL h.freep = some prevp ∧ Lap base h fl n prevp := by
  -- the block before `freep` ends it at the latest
  obtain ⟨last, hlast, hnext⟩ := hr.follows.exists_next hr.freep_mem
  have hends : h.lapEnds n last = true := by
    rw [Heap.lapEnds, hnext, beq_self_eq_true, Bool.or_true]
  obtain ⟨u, b, v, hperm, hfollows, hhead, hpass, hstop, hwalk⟩ :=
    walk_ring hr.follows hr.freep_mem ⟨last, hlast, hends⟩
  refine ⟨b, hwalk FUEL (hr.length_lt hbase), ?_⟩
  have hb : b ∈ (root base :: fl).map addr :=
    hperm.mem_iff.mp (List.mem_append_right _ List.mem_cons_self)
  obtain ⟨d, hd, rfl⟩ := List.mem_map.mp hb
  obtain ⟨u', v', hsplit⟩ := List.append_of_mem hd
  have hptr : h.ptr d.addr = nextOf base v' := by rw [Heap.ptr, hr.size_of_split hsplit]
  by_cases hfit : n ≤ h.size (h.ptr d.addr)
  · cases v' with
    | nil =>
        have hroot : h.size base = 0 := by rw [Heap.size, hr.linked.1]
        rw [hptr, nextOf, hroot] at hfit
        omega
    | cons c v' =>
        have hsplit' : root base :: fl = (u' ++ [d]) ++ c :: v' := by rw [hsplit]; simp
        have hc : h.size (h.ptr d.addr) = c.size := by
          rw [hptr, nextOf, Heap.size, hr.size_of_split hsplit']
        exact .found hsplit (hc ▸ hfit) hc
  · refine .around (fun x hx => ?_) (Nat.lt_of_not_le hfit)
    -- the lap came to the block before `freep`, so it saw all of them
    have hfreep : h.ptr d.addr = h.freep := by
      rw [Heap.lapEnds, Bool.or_eq_true, decide_eq_true_eq, beq_iff_eq] at hstop
      exact hstop.resolve_left hfit
    have hv : v = [] := by
      cases v with
      | nil => rfl
      | cons e v =>
          have he : e = h.freep := (follows_append.mp hfollows).2.1.symm.trans hfreep
          have hnodup := hperm.nodup_iff.mpr hr.nodup
          rw [he] at hhead hnodup
          -- `freep` would be there twice, first and again
          cases u with
          | nil =>
              rw [Option.some.inj hhead] at hnodup
              exact absurd List.mem_cons_self (List.nodup_cons.mp hnodup).1
          | cons f u =>
              rw [Option.some.inj hhead] at hnodup
              refine absurd ?_ (List.nodup_cons.mp hnodup).1
              exact List.mem_append_right _ (List.mem_cons_of_mem _ List.mem_cons_self)
    subst hv
    obtain ⟨rest, hrest⟩ := List.head?_eq_some_iff.mp hhead
    rw [hrest] at hfollows
    have hxmem : x.addr ∈ h.freep :: rest := by
      rw [← hrest]
      exact hperm.mem_iff.mpr (List.mem_cons_of_mem _ (List.mem_map_of_mem (f := addr) hx))
    obtain ⟨c, hc, hcx⟩ := hfollows.exists_next hxmem
    rw [← hrest] at hc
    have hxsize : h.size x.addr = x.size := by
      obtain ⟨w, z, hwz⟩ := List.append_of_mem (List.mem_cons_of_mem (root base) hx)
      rw [Heap.size, hr.size_of_split hwz]
    rcases List.mem_append.mp hc with hc | hc
    · have hno := hpass c hc
      rw [Heap.lapEnds, hcx, hxsize, Bool.or_eq_false_iff, decide_eq_false_iff_not] at hno
      exact Nat.lt_of_not_le hno.1
    · rw [List.mem_singleton.mp hc] at hcx
      rw [hcx, hxsize] at hfit
      exact Nat.lt_of_not_le hfit

/-- A lap that finds nothing. -/
theorem Ring.lap_over (hr : Ring base h fl) (hbase : base < 2 ^ 32) (hn : 0 < n)
    (hnone : ∀ b ∈ fl, b.size < n) :
    ∃ prevp, walk (h.lapEnds n) h.ptr FUEL h.freep = some prevp ∧ h.size (h.ptr prevp) < n := by
  obtain ⟨prevp, hwalk, hlap⟩ := hr.lap hbase hn
  refine ⟨prevp, hwalk, ?_⟩
  cases hlap with
  | @found u v d c hsplit hfit _ =>
      have hc : c ∈ root base :: fl := by
        rw [hsplit]
        exact List.mem_append_right _ (List.mem_cons_of_mem _ List.mem_cons_self)
      rcases List.mem_cons.mp hc with hroot | hc
      · rw [hroot] at hfit
        exact absurd (Nat.lt_of_lt_of_le hn hfit) (Nat.lt_irrefl 0)
      · exact absurd hfit (Nat.not_le.mpr (hnone c hc))
  | around _ hsmall => exact hsmall

/-! ## `malloc` takes a block -/

/-- What `malloc` leaves when it has taken a block of `n` units. -/
structure Taken (base : Nat) (h h' : Heap κ) (n r : Nat) (nb : Block) (fl fl' : List Block) :
    Prop where
  ring : Ring base h' fl'
  result : r = plus nb.addr 1
  size : nb.size = n
  header : h'.size nb.addr = n
  total : total 8 fl = nb.units 8 + total 8 fl'
  kernel : h'.kernel = h.kernel
  regions : h'.regions = h.regions
  frame : ∀ a, a ≠ nb.addr → (∀ b ∈ root base :: fl, a ≠ b.addr) → h'.mem a = h.mem a

/-- The list with the block after `d` changed or gone. -/
theorem Ring.replace (hr : Ring base h fl) {u v t : List Block} {d c : Block}
    (hsplit : root base :: fl = u ++ d :: c :: v)
    (hmem : ∀ a, a ≠ d.addr → a ≠ c.addr → (∃ b ∈ root base :: fl, a = b.addr) →
      h'.mem a = h.mem a)
    (hd : h'.mem d.addr = ⟨nextOf base (t ++ v), d.size⟩) (ht : Linked h'.mem t (nextOf base v))
    (hspaced : (t ++ v).Pairwise (Below 8)) (hbelow : ∀ b ∈ t, c.addr ≤ b.addr)
    (hblocks : ∀ b ∈ t, 0 < b.size ∧ b.stop 8 < 2 ^ 32) (hfreep : h'.freep = d.addr) :
    ∃ fl', root base :: fl' = u ++ d :: (t ++ v) ∧ Ring base h' fl' := by
  have hl := hr.linked
  have hs := hr.spaced
  rw [hsplit] at hl hs
  obtain ⟨hlu, hld, hlc, hlv⟩ := linked_append.mp hl
  obtain ⟨hsu, hsd, hcross⟩ := List.pairwise_append.mp hs
  obtain ⟨hdc, hsc⟩ := List.pairwise_cons.mp hsd
  obtain ⟨hcv, _⟩ := List.pairwise_cons.mp hsc
  have hlt : ∀ {b e : Block}, Below 8 b e → b.addr < e.addr := fun hbe =>
    Nat.lt_of_le_of_lt (Nat.le_add_right _ _) hbe
  have hin : ∀ b ∈ u ++ d :: c :: v, ∃ e ∈ root base :: fl, b.addr = e.addr :=
    fun b hb => ⟨b, hsplit ▸ hb, rfl⟩
  have hu : Linked h'.mem u d.addr := hlu.congr fun b hb =>
    hmem _ (Nat.ne_of_lt (hlt (hcross b hb d List.mem_cons_self)))
      (Nat.ne_of_lt (hlt (hcross b hb c (List.mem_cons_of_mem _ List.mem_cons_self))))
      (hin b (List.mem_append_left _ hb))
  have hv : Linked h'.mem v base := hlv.congr fun b hb =>
    hmem _ (Nat.ne_of_gt (hlt (hdc b (List.mem_cons_of_mem _ hb))))
      (Nat.ne_of_gt (hlt (hcv b hb)))
      (hin b (List.mem_append_right _ (List.mem_cons_of_mem _ (List.mem_cons_of_mem _ hb))))
  -- what was before `c` is before all that stands for it
  have hbefore : ∀ b : Block, Below 8 b c → (∀ e ∈ v, Below 8 b e) → ∀ e ∈ t ++ v, Below 8 b e := by
    intro b hbc hbv e he
    rcases List.mem_append.mp he with he | he
    · exact Nat.lt_of_lt_of_le hbc (hbelow e he)
    · exact hbv e he
  have hspaced' : (u ++ d :: (t ++ v)).Pairwise (Below 8) := by
    refine List.pairwise_append.mpr ⟨hsu, List.pairwise_cons.mpr ⟨?_, hspaced⟩, fun b hb => ?_⟩
    · exact hbefore d (hdc c List.mem_cons_self) fun e he => hdc e (List.mem_cons_of_mem _ he)
    · refine List.forall_mem_cons.mpr ⟨hcross b hb d List.mem_cons_self, ?_⟩
      exact hbefore b (hcross b hb c (List.mem_cons_of_mem _ List.mem_cons_self)) fun e he =>
        hcross b hb e (List.mem_cons_of_mem _ (List.mem_cons_of_mem _ he))
  have hold : ∀ b ∈ u ++ d :: c :: v, b = root base ∨ 0 < b.size ∧ b.stop 8 < 2 ^ 32 := by
    intro b hb
    rw [← hsplit] at hb
    rcases List.mem_cons.mp hb with rfl | hb
    · exact .inl rfl
    · exact .inr ⟨hr.pos b hb, hr.inRange b hb⟩
  have hhead : (u ++ d :: (t ++ v)).head? = some (root base) := by
    have hsh := congrArg List.head? hsplit
    cases u with
    | nil => exact hsh.symm
    | cons r u => exact hsh.symm
  have hnew : ∀ b ∈ u ++ d :: (t ++ v), b = root base ∨ 0 < b.size ∧ b.stop 8 < 2 ^ 32 := by
    intro b hb
    rcases List.mem_append.mp hb with hb | hb
    · exact hold b (List.mem_append_left _ hb)
    · rcases List.mem_cons.mp hb with rfl | hb
      · exact hold b (List.mem_append_right _ List.mem_cons_self)
      · rcases List.mem_append.mp hb with hb | hb
        · exact .inr (hblocks b hb)
        · exact hold b (List.mem_append_right _
            (List.mem_cons_of_mem _ (List.mem_cons_of_mem _ hb)))
  obtain ⟨fl', hfl', hring⟩ := Ring.of_list hhead
    (linked_append.mpr ⟨hu, hd, linked_append.mpr ⟨ht, hv⟩⟩) hspaced' hnew
    ⟨d, List.mem_append_right _ List.mem_cons_self, hfreep⟩
  exact ⟨fl', hfl'.symm, hring⟩

/-- **`malloc` takes the block** that the lap found, or the end of it. -/
theorem Ring.take (hr : Ring base h fl) {u v : List Block} {d c : Block}
    (hsplit : root base :: fl = u ++ d :: c :: v) (hfit : n ≤ c.size) (hn : 0 < n) :
    ∃ nb fl', Taken base h (h.take n d.addr).2 n (h.take n d.addr).1 nb fl fl' := by
  have hl := hr.linked
  have hs := hr.spaced
  rw [hsplit] at hl hs
  obtain ⟨_, hld, hlc, _⟩ := linked_append.mp hl
  obtain ⟨_, hsd, hcross⟩ := List.pairwise_append.mp hs
  obtain ⟨hdc, hsc⟩ := List.pairwise_cons.mp hsd
  obtain ⟨hcv, hsv⟩ := List.pairwise_cons.mp hsc
  have hlt : ∀ {b e : Block}, Below 8 b e → b.addr < e.addr := fun hbe =>
    Nat.lt_of_le_of_lt (Nat.le_add_right _ _) hbe
  have hdclt : d.addr < c.addr := hlt (hdc c List.mem_cons_self)
  have hcstop : c.stop 8 < 2 ^ 32 := by
    have hmem : c ∈ root base :: fl := by
      rw [hsplit]
      exact List.mem_append_right _ (List.mem_cons_of_mem _ List.mem_cons_self)
    rcases List.mem_cons.mp hmem with hc | hc
    · rw [hc] at hfit
      exact absurd (Nat.lt_of_lt_of_le hn hfit) (Nat.lt_irrefl 0)
    · exact hr.inRange c hc
  rw [stop] at hcstop
  have htotal : total 8 fl = total 8 u + (d.units 8 + (c.units 8 + total 8 v)) := by
    rw [← total_root base, hsplit, total_append, total_cons, total_cons]
  have hptr : h.ptr d.addr = c.addr := by rw [Heap.ptr, hld]; rfl
  have hcsize : h.size c.addr = c.size := by rw [Heap.size, hlc]
  have hcptr : h.ptr c.addr = nextOf base v := by rw [Heap.ptr, hlc]
  have hdsize : h.size d.addr = d.size := by rw [Heap.size, hld]
  have hcmem : c ∈ root base :: fl := by
    rw [hsplit]
    exact List.mem_append_right _ (List.mem_cons_of_mem _ List.mem_cons_self)
  have hdmem : d ∈ root base :: fl := by
    rw [hsplit]
    exact List.mem_append_right _ List.mem_cons_self
  by_cases heq : c.size = n
  -- all of it: `d` is linked to what follows
  · have htake : h.take n d.addr = (plus c.addr 1,
        { h.set d.addr ⟨nextOf base v, d.size⟩ with freep := d.addr }) := by
      rw [Heap.take, hptr, if_pos (hcsize.trans heq), hcptr, hdsize]
    rw [htake]
    have hmem : ∀ a, a ≠ d.addr → (h.set d.addr ⟨nextOf base v, d.size⟩).mem a = h.mem a :=
      fun a hne => set_mem_of_ne hne
    have hrep : ∃ fl', root base :: fl' = u ++ d :: ([] ++ v) ∧
        Ring base { h.set d.addr ⟨nextOf base v, d.size⟩ with freep := d.addr } fl' :=
      hr.replace hsplit (fun a hne _ _ => hmem a hne) (set_mem_self ..) trivial hsv
        (fun b hb => absurd hb List.not_mem_nil) (fun b hb => absurd hb List.not_mem_nil) rfl
    obtain ⟨fl', hfl', hring⟩ := hrep
    refine ⟨c, fl', hring, rfl, heq, ?_, ?_, rfl, rfl, fun a _ hall => hmem a (hall d hdmem)⟩
    · exact (congrArg Header.size (hmem _ (Nat.ne_of_gt hdclt))).trans (hcsize.trans heq)
    · rw [htotal, ← total_root base fl', hfl', total_append, total_cons, List.nil_append]
      rw [add_left_comm (d.units 8), add_left_comm (total 8 u)]
  -- the last `n` units
  · have hgt : n < c.size := Nat.lt_of_le_of_ne hfit (Ne.symm heq)
    set q := c.addr + 8 * (c.size - n) with hq
    have hplus : plus c.addr (c.size - n) = q := plus_eq (by omega)
    set h₁ := h.set c.addr ⟨nextOf base v, c.size - n⟩ with hh₁
    have hsize₁ : h₁.size c.addr = c.size - n := congrArg Header.size (set_mem_self ..)
    have htake : h.take n d.addr = (plus q 1,
        { h₁.set q ⟨h₁.ptr q, n⟩ with freep := d.addr }) := by
      rw [Heap.take, hptr, hcsize, if_neg heq, hcptr]
      show (plus (plus c.addr (h₁.size c.addr)) 1, _) = _
      rw [hsize₁, hplus]
    rw [htake]
    have hmem : ∀ a, a ≠ c.addr → a ≠ q → (h₁.set q ⟨h₁.ptr q, n⟩).mem a = h.mem a := by
      intro a hc hne
      exact (set_mem_of_ne hne).trans (set_mem_of_ne hc)
    have hqc : c.addr ≠ q := by omega
    have hself : (h₁.set q ⟨h₁.ptr q, n⟩).mem c.addr = ⟨nextOf base v, c.size - n⟩ :=
      (set_mem_of_ne hqc).trans (set_mem_self ..)
    have hnode : ∀ a, a ≠ c.addr → (∃ b ∈ root base :: fl, a = b.addr) → a ≠ q := by
      rintro a hne ⟨b, hb, rfl⟩
      rw [hsplit] at hb
      rcases List.mem_append.mp hb with hb | hb
      · have := hlt (hcross b hb c (List.mem_cons_of_mem _ List.mem_cons_self))
        omega
      · rcases List.mem_cons.mp hb with rfl | hb
        · omega
        · rcases List.mem_cons.mp hb with rfl | hb
          · exact absurd rfl hne
          · have := hcv b hb
            rw [Below, stop] at this
            omega
    have hrep : ∃ fl', root base :: fl' = u ++ d :: ([⟨c.addr, c.size - n⟩] ++ v) ∧
        Ring base { h₁.set q ⟨h₁.ptr q, n⟩ with freep := d.addr } fl' := by
      refine hr.replace hsplit (fun a _ hc hnodes => hmem a hc (hnode a hc hnodes))
        ((hmem _ (Nat.ne_of_lt hdclt) (hnode _ (Nat.ne_of_lt hdclt) ⟨d, hdmem, rfl⟩)).trans hld)
        ⟨hself, trivial⟩ (List.pairwise_cons.mpr ⟨fun b hb => ?_, hsv⟩)
        (fun b hb => Nat.le_of_eq (by rw [List.mem_singleton.mp hb])) (fun b hb => ?_) rfl
      · have := hcv b hb
        rw [Below, stop] at this ⊢
        show c.addr + 8 * (c.size - n) < b.addr
        omega
      · rw [List.mem_singleton.mp hb]
        refine ⟨Nat.sub_pos_of_lt hgt, ?_⟩
        rw [stop]
        show c.addr + 8 * (c.size - n) < 2 ^ 32
        omega
    obtain ⟨fl', hfl', hring⟩ := hrep
    refine ⟨⟨q, n⟩, fl', hring, rfl, rfl, congrArg Header.size (set_mem_self ..), ?_, rfl, rfl,
      fun a hne hall => hmem a (hall c hcmem) hne⟩
    have hc : c.units 8 = units 8 ⟨c.addr, c.size - n⟩ + units 8 ⟨q, n⟩ := by
      rw [hq, ← units_add, Nat.sub_add_cancel hfit]
    rw [htotal, ← total_root base fl', hfl', total_append, total_cons, List.singleton_append,
      total_cons, hc, add_assoc, add_left_comm _ (units 8 ⟨q, n⟩), add_left_comm (d.units 8),
      add_left_comm (total 8 u)]

/-! ## `morecore` -/

/-- What `sbrk` is asked for: where it returns memory for at most `limit`
bytes, that is at whole units and above all that was there before. `top` is
the end of it. -/
structure Fresh (sbrk : κ → Nat → Option Nat × κ) (top : κ → Nat) (limit : Nat) : Prop where
  grown : ∀ k n a, 0 < n → n ≤ limit → 8 ∣ n → top k < 2 ^ 32 → (sbrk k n).1 = some a →
    8 ∣ a ∧ top k ≤ a ∧ a + n ≤ top (sbrk k n).2 ∧ top (sbrk k n).2 < 2 ^ 32
  refused : ∀ k n, 0 < n → n ≤ limit → 8 ∣ n → top k < 2 ^ 32 → (sbrk k n).1 = none →
    top k ≤ top (sbrk k n).2 ∧ top (sbrk k n).2 < 2 ^ 32

section Sbrk

variable {sbrk : κ → Nat → Option Nat × κ} {top : κ → Nat} {limit : Nat}

/-- More of the address space is in use, and nothing else changed. -/
theorem Sound.raise {t t' : Nat} (hs : Sound base t h live fl) (hle : t ≤ t') (hlt : t' < 2 ^ 32)
    {k : κ} : Sound base t' { h with kernel := k } live fl where
  ring := ⟨hs.ring.linked, hs.ring.spaced, hs.ring.pos, hs.ring.inRange, hs.ring.freep⟩
  pos := hs.pos
  header := hs.header
  account := hs.account
  nodup := hs.nodup
  bounds a ha := by
    obtain ⟨hdvd, hlo, hhi⟩ := hs.bounds a ha
    exact ⟨hdvd, hlo, Nat.le_trans hhi hle⟩
  base_le := Nat.le_trans hs.base_le hle
  top_lt := hlt

/-- A header outside of all blocks does not matter. -/
theorem Ring.set (hr : Ring base h fl) {a : Nat} (ha : ∀ b ∈ root base :: fl, b.addr ≠ a)
    (x : Header) : Ring base (h.set a x) fl :=
  ⟨hr.linked.congr fun b hb => set_mem_of_ne (ha b hb), hr.spaced, hr.pos, hr.inRange, hr.freep⟩

/-- Memory at `top` is added as a free block. -/
theorem Sound.extend {t t' p nu : Nat} (hs : Sound base t h live fl) (hdvd : 8 ∣ p) (hp : t ≤ p)
    (hnu : 0 < nu) (hend : p + 8 * nu ≤ t') (hlt : t' < 2 ^ 32) (k : κ) :
    ∃ h' fl', ({ h.set p ⟨h.ptr p, nu⟩ with
        kernel := k, regions := ⟨p, nu⟩ :: h.regions } : Heap κ).free (plus p 1) = some h' ∧
      Sound base t' h' live fl' ∧ h'.kernel = k ∧ h'.regions = ⟨p, nu⟩ :: h.regions ∧
      ∃ b ∈ fl', nu ≤ b.size := by
  have hstop : ∀ b ∈ fl, b.stop 8 ≤ p := fun b hb =>
    Nat.le_trans (hs.block_bounds (.inl hb)).2.2 hp
  have hbase := hs.base_le
  have hne : ∀ b ∈ root base :: fl, b.addr ≠ p := by
    refine List.forall_mem_cons.mpr ⟨?_, fun b hb => ?_⟩
    · show base ≠ p
      omega
    · have h1 := hstop b hb
      have h2 := hs.ring.pos b hb
      rw [stop] at h1
      omega
  set h₁ : Heap κ := { h.set p ⟨h.ptr p, nu⟩ with
    kernel := k, regions := ⟨p, nu⟩ :: h.regions } with hh₁
  have hr₁ : Ring base h₁ fl := by
    have hr := hs.ring.set hne ⟨h.ptr p, nu⟩
    exact ⟨hr.linked, hr.spaced, hr.pos, hr.inRange, hr.freep⟩
  have hsize : h₁.size p = nu := congrArg Header.size (set_mem_self ..)
  have hfree : ∃ h' fl', h₁.free (plus p 1) = some h' ∧ Inserted base h₁ h' ⟨p, nu⟩ fl fl' := by
    refine @Ring.free κ base h₁ fl ⟨p, nu⟩ hr₁ hs.base_lt ?_ hnu ?_ hsize
      fun b hb => .inl (hstop b hb)
    · show base < p
      omega
    · rw [stop]
      show p + 8 * nu < 2 ^ 32
      omega
  obtain ⟨h', fl', hrun, hins⟩ := hfree
  refine ⟨h', fl', hrun, ⟨hins.ring, hs.pos, fun b hb => ?_, ?_, ?_, fun a ha => ?_, by omega, hlt⟩,
    hins.kernel, hins.regions, hins.fits⟩
  · -- the headers of the blocks in use are below
    have hb' := hs.block_bounds (.inr hb)
    have hbpos := hs.pos b hb
    have hbp : b.addr ≠ p := by
      rw [stop] at hb'
      omega
    have hmem : h'.mem b.addr = h.mem b.addr :=
      (hins.frame _ hbp (hs.addr_ne hb)).trans (set_mem_of_ne hbp)
    rw [Heap.size, hmem]
    exact hs.header b hb
  · rw [hins.total, hins.regions, add_assoc, hs.account]
    exact (total_cons ..).symm
  · have hnew : (units 8 ⟨p, nu⟩).Nodup := by
      refine (Multiset.nodup_range nu).map fun i j hij => ?_
      have hij' : p + 8 * i = p + 8 * j := hij
      omega
    rw [hins.regions, hh₁]
    show (total 8 (⟨p, nu⟩ :: h.regions)).Nodup
    rw [total_cons]
    refine Multiset.nodup_add.mpr ⟨hnew, hs.nodup, Multiset.disjoint_left.mpr fun {a} ha hold => ?_⟩
    obtain ⟨i, _, rfl⟩ := mem_units.mp ha
    have hhi := (hs.bounds _ hold).2.2
    have hpi : p + 8 * i + 8 ≤ t := hhi
    omega
  · rw [hins.regions, hh₁] at ha
    have hcons : a ∈ total 8 (⟨p, nu⟩ :: h.regions) := ha
    rw [total_cons] at hcons
    rcases Multiset.mem_add.mp hcons with ha | ha
    · obtain ⟨i, hi, rfl⟩ := mem_units.mp ha
      have hi' : i < nu := hi
      refine ⟨Nat.dvd_add hdvd (Nat.dvd_mul_right 8 i), ?_, ?_⟩
      · show base + 8 ≤ p + 8 * i
        omega
      · show p + 8 * i + 8 ≤ t'
        omega
    · obtain ⟨hd, hlo, hhi⟩ := hs.bounds a ha
      exact ⟨hd, hlo, by omega⟩

/-- The result of `morecore`. -/
theorem Sound.morecore (hf : Fresh sbrk top limit) (hs : Sound base (top h.kernel) h live fl)
    (hn : 8 * coreUnits n ≤ limit) (hlimit : limit < 2 ^ 32) :
    ∃ r h' fl', morecore sbrk h n = some (r, h') ∧ Sound base (top h'.kernel) h' live fl' ∧
      h'.kernel = (sbrk h.kernel (8 * coreUnits n)).2 ∧
      (r = 0 ∧ (sbrk h.kernel (8 * coreUnits n)).1 = none ∨
        r = h'.freep ∧ (sbrk h.kernel (8 * coreUnits n)).1 ≠ none ∧ ∃ b ∈ fl', n ≤ b.size) := by
  have hcore : 0 < coreUnits n ∧ n ≤ coreUnits n := by
    rw [coreUnits]
    split <;> omega
  have hmod : coreUnits n * 8 % 2 ^ 32 = 8 * coreUnits n := by
    rw [Nat.mul_comm]
    exact Nat.mod_eq_of_lt (by omega)
  have hpos : 0 < 8 * coreUnits n := by omega
  rw [Malloc.morecore, hmod]
  cases hr : (sbrk h.kernel (8 * coreUnits n)).1 with
  | none =>
      obtain ⟨hle, hlt⟩ :=
        hf.refused h.kernel _ hpos hn (Nat.dvd_mul_right _ _) hs.top_lt hr
      exact ⟨0, _, fl, rfl, hs.raise hle hlt, rfl, .inl ⟨rfl, rfl⟩⟩
  | some p =>
      obtain ⟨hdvd, hle, hend, hlt⟩ :=
        hf.grown h.kernel _ p hpos hn (Nat.dvd_mul_right _ _) hs.top_lt hr
      obtain ⟨h', fl', hrun, hs', hkernel, _, hfits⟩ :=
        hs.extend hdvd hle hcore.1 hend hlt (sbrk h.kernel (8 * coreUnits n)).2
      refine ⟨h'.freep, h', fl', ?_, hkernel ▸ hs', hkernel, .inr ⟨rfl, Option.some_ne_none p, ?_⟩⟩
      · simp only [hrun, Option.bind_eq_bind, Option.bind_some, Option.pure_def]
      · obtain ⟨b, hb, hsize⟩ := hfits
        exact ⟨b, hb, Nat.le_trans hcore.2 hsize⟩

end Sbrk

end Xv6.Malloc
