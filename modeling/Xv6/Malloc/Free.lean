import Xv6.Malloc.Model

/-!
# Malloc — the free list and `free`

The free list is a ring: `base`, which is a block of no units, and the free
blocks by increasing addresses, none of them next to another. `free` walks
around it to the one place where the block belongs, from wherever `freep`
is, and joins it to its neighbours.
-/

namespace Xv6.Malloc

open Lib Block

variable {κ : Type} {mem mem' : Nat → Header} {base q : Nat} {h : Heap κ} {fl : List Block}

/-! ## Lists of headers -/

/-- The address of the first block of a list, or `q`. -/
def nextOf (q : Nat) : List Block → Nat
  | [] => q
  | b :: _ => b.addr

/-- The headers of the blocks are linked, the last one to `q`. -/
def Linked (mem : Nat → Header) : List Block → Nat → Prop
  | [], _ => True
  | b :: bs, q => mem b.addr = ⟨nextOf q bs, b.size⟩ ∧ Linked mem bs q

theorem nextOf_append (q : Nat) (u v : List Block) : nextOf q (u ++ v) = nextOf (nextOf q v) u := by
  cases u <;> rfl

theorem linked_append {u v : List Block} :
    Linked mem (u ++ v) q ↔ Linked mem u (nextOf q v) ∧ Linked mem v q := by
  induction u with
  | nil => exact (and_iff_right trivial).symm
  | cons b u ih => rw [List.cons_append, Linked, Linked, ih, nextOf_append, and_assoc]

theorem Linked.congr {bs : List Block} (hl : Linked mem bs q)
    (heq : ∀ b ∈ bs, mem' b.addr = mem b.addr) : Linked mem' bs q := by
  induction bs with
  | nil => trivial
  | cons b bs ih =>
      obtain ⟨hb, hbs⟩ := List.forall_mem_cons.mp heq
      exact ⟨hb.trans hl.1, ih hl.2 hbs⟩

theorem Linked.follows {bs : List Block} (hl : Linked h.mem bs q) :
    Follows h.ptr (bs.map addr) q := by
  induction bs with
  | nil => trivial
  | cons b bs ih =>
      refine ⟨?_, ih hl.2⟩
      rw [Heap.ptr, hl.1]
      cases bs <;> rfl

/-! ## The ring -/

/-- `base`, as a block. -/
abbrev root (base : Nat) : Block := ⟨base, 0⟩

/-- **The free list.** -/
structure Ring (base : Nat) (h : Heap κ) (fl : List Block) : Prop where
  linked : Linked h.mem (root base :: fl) base
  spaced : (root base :: fl).Pairwise (Below 8)
  pos : ∀ b ∈ fl, 0 < b.size
  inRange : ∀ b ∈ fl, b.stop 8 < 2 ^ 32
  freep : ∃ b ∈ root base :: fl, h.freep = b.addr

namespace Ring

theorem base_lt (hr : Ring base h fl) {b : Block} (hb : b ∈ fl) : base < b.addr :=
  (List.pairwise_cons.mp hr.spaced).1 b hb

theorem follows (hr : Ring base h fl) : Follows h.ptr (base :: fl.map addr) base :=
  hr.linked.follows

theorem freep_mem (hr : Ring base h fl) : h.freep ∈ base :: fl.map addr := by
  obtain ⟨b, hb, heq⟩ := hr.freep
  rw [heq]
  exact List.mem_map_of_mem (f := addr) hb

theorem freep_ne_zero (hr : Ring base h fl) (hbase : 0 < base) : h.freep ≠ 0 := by
  obtain ⟨b, hb, heq⟩ := hr.freep
  rw [heq]
  rcases List.mem_cons.mp hb with rfl | hb
  · exact Nat.ne_of_gt hbase
  · exact Nat.ne_of_gt (Nat.lt_trans hbase (hr.base_lt hb))

/-- The bound of the loops is not reached. -/
theorem length_lt (hr : Ring base h fl) (hbase : base < 2 ^ 32) :
    (fl.map addr).length < FUEL := by
  have hlen : base + 8 * fl.length ≤ 2 ^ 32 + 8 := by
    refine length_le_of_below (by omega) (List.pairwise_cons.mp hr.spaced).2 hr.pos fun b hb => ?_
    have hlt := hr.inRange b hb
    rw [stop] at hlt
    exact ⟨Nat.le_of_lt (hr.base_lt hb), by omega⟩
  rw [List.length_map, FUEL]
  omega

end Ring

/-- The header of a block of the list. -/
theorem Linked.header {u v : List Block} {d : Block} (hl : Linked mem (u ++ d :: v) q) :
    mem d.addr = ⟨nextOf q v, d.size⟩ := (linked_append.mp hl).2.1

/-- A block that is between others in the order of the list. -/
theorem exists_gap {R : List Block} {bp : Nat} (hs : R.Pairwise (Below 8)) (hne : R ≠ [])
    (hhead : ∀ b, R.head? = some b → b.addr < bp) (hnew : ∀ b ∈ R, b.addr ≠ bp) :
    ∃ u d v, R = u ++ d :: v ∧ d.addr < bp ∧ ∀ c ∈ v, bp < c.addr := by
  induction R with
  | nil => exact absurd rfl hne
  | cons d R ih =>
      have hd : d.addr < bp := hhead d rfl
      obtain ⟨_, hnew⟩ := List.forall_mem_cons.mp hnew
      obtain ⟨_, hs⟩ := List.pairwise_cons.mp hs
      by_cases hall : ∀ c ∈ R, bp < c.addr
      · exact ⟨[], d, R, rfl, hd, hall⟩
      · cases R with
        | nil => exact absurd (fun c hc => absurd hc List.not_mem_nil) hall
        | cons e R =>
            -- the next block is below `bp`, or all that follow are above
            have he : e.addr < bp := by
              by_contra hle
              have hlt : bp < e.addr :=
                Nat.lt_of_le_of_ne (Nat.le_of_not_lt hle) (Ne.symm (hnew e List.mem_cons_self))
              refine hall (List.forall_mem_cons.mpr ⟨hlt, fun c hc => ?_⟩)
              have hec := (List.pairwise_cons.mp hs).1 c hc
              rw [Below, stop] at hec
              omega
            obtain ⟨u, d', v, huv, hd', hv⟩ := ih hs (List.cons_ne_nil e R)
              (fun b hb => (Option.some.inj hb) ▸ he) hnew
            exact ⟨d :: u, d', v, by rw [huv]; rfl, hd', hv⟩

/-! ## The loop of `free` -/

/-- Where the loop may end, and what is on either side. -/
theorem Ring.between_iff (hr : Ring base h fl) {bp : Nat} (hbp : base < bp) {u v : List Block}
    {d : Block} (hsplit : root base :: fl = u ++ d :: v) :
    h.between bp d.addr = true ↔ d.addr < bp ∧ ∀ c ∈ v, bp < c.addr := by
  have hheader : h.ptr d.addr = nextOf base v := by
    have hl := hr.linked
    rw [hsplit] at hl
    rw [Heap.ptr, hl.header]
  have hspaced := hr.spaced
  rw [hsplit] at hspaced
  have hd : base ≤ d.addr := by
    have hmem : d ∈ root base :: fl := by
      rw [hsplit]
      exact List.mem_append_right _ List.mem_cons_self
    rcases List.mem_cons.mp hmem with rfl | hmem
    · exact Nat.le_refl base
    · exact Nat.le_of_lt (hr.base_lt hmem)
  simp only [Heap.between, hheader, Bool.or_eq_true, Bool.and_eq_true, decide_eq_true_eq]
  cases v with
  | nil =>
      rw [nextOf]
      constructor
      · intro hor
        exact ⟨by omega, fun c hc => absurd hc List.not_mem_nil⟩
      · intro hlt
        omega
  | cons c v =>
      rw [nextOf]
      have hsp := List.pairwise_append.mp hspaced
      have hdc : d.addr < c.addr := by
        have hb := (List.pairwise_cons.mp hsp.2.1).1 c List.mem_cons_self
        rw [Below, stop] at hb
        omega
      have hcv : ∀ e ∈ v, c.addr < e.addr := by
        intro e he
        have hb := (List.pairwise_cons.mp (List.pairwise_cons.mp hsp.2.1).2).1 e he
        rw [Below, stop] at hb
        omega
      constructor
      · intro hor
        refine ⟨by omega, List.forall_mem_cons.mpr ⟨by omega, fun e he => ?_⟩⟩
        have := hcv e he
        omega
      · rintro ⟨hlt, hall⟩
        have := hall c List.mem_cons_self
        omega

/-- **The loop of `free` ends**, at the block before the gap. -/
theorem Ring.walk_between (hr : Ring base h fl) (hbase : base < 2 ^ 32) {bp : Nat}
    (hbp : base < bp) (hnew : ∀ b ∈ fl, b.addr ≠ bp) :
    ∃ u d v, root base :: fl = u ++ d :: v ∧ d.addr < bp ∧ (∀ c ∈ v, bp < c.addr) ∧
      walk (h.between bp) h.ptr FUEL h.freep = some d.addr := by
  have hgap : ∃ u d v, root base :: fl = u ++ d :: v ∧ d.addr < bp ∧ ∀ c ∈ v, bp < c.addr :=
    exists_gap hr.spaced (List.cons_ne_nil _ _) (fun b hb => (Option.some.inj hb) ▸ hbp)
      (List.forall_mem_cons.mpr ⟨Nat.ne_of_lt hbp, hnew⟩)
  obtain ⟨u, d, v, hsplit, hd, hv⟩ := hgap
  have hmem : ∀ {u v : List Block} {d : Block}, root base :: fl = u ++ d :: v →
      d.addr ∈ base :: fl.map addr := by
    intro u v d hs
    have hin : d ∈ root base :: fl := by
      rw [hs]
      exact List.mem_append_right _ List.mem_cons_self
    exact List.mem_map_of_mem (f := addr) hin
  obtain ⟨_, b, _, hperm, _, _, _, hstop, hwalk⟩ := walk_ring hr.follows hr.freep_mem
    ⟨d.addr, hmem hsplit, (hr.between_iff hbp hsplit).mpr ⟨hd, hv⟩⟩
  -- the block it ends at is one of the list, so the gap is there
  have hb : b ∈ (root base :: fl).map addr :=
    hperm.mem_iff.mp (List.mem_append_right _ List.mem_cons_self)
  obtain ⟨e, he, rfl⟩ := List.mem_map.mp hb
  obtain ⟨u', v', hsplit'⟩ := List.append_of_mem he
  obtain ⟨he, hv'⟩ := (hr.between_iff hbp hsplit').mp hstop
  exact ⟨u', e, v', hsplit', he, hv', hwalk FUEL (hr.length_lt hbase)⟩

/-! ## Joining blocks -/

theorem plus_eq {p n : Nat} (hlt : p + 8 * n < 2 ^ 32) : plus p n = p + 8 * n :=
  Nat.mod_eq_of_lt hlt

theorem headerOf_plus {p : Nat} (hlt : p + 8 < 2 ^ 32) : headerOf (plus p 1) = p := by
  rw [plus_eq hlt, headerOf]
  omega

/-- The block after the join with what follows it, and the rest. -/
structure Joined (base : Nat) (h h' : Heap κ) (new : Block) (v : List Block) (nb : Block)
    (v' : List Block) : Prop where
  heap : h' = h.set new.addr ⟨nextOf base v', nb.size⟩
  addr : nb.addr = new.addr
  suffix : v' <:+ v
  total : total 8 (nb :: v') = new.units 8 + total 8 v
  size : new.size ≤ nb.size
  inRange : nb.stop 8 < 2 ^ 32
  below : ∀ c ∈ v', Below 8 nb c

/-- The blocks after the new one are at higher addresses. -/
theorem Joined.lt_addr {new nb c : Block} {v v' : List Block} (hj : Joined base h h' new v nb v')
    (hc : c ∈ v') : new.addr < c.addr :=
  hj.addr ▸ Nat.lt_of_le_of_lt (Nat.le_add_right _ _) (hj.below c hc)

theorem joinNext_spec {new : Block} {p : Nat} {v : List Block} (hsize : h.size new.addr = new.size)
    (hnew : new.stop 8 < 2 ^ 32) (hbase : base < new.addr) (hptr : h.ptr p = nextOf base v)
    (hlinked : Linked h.mem v base) (hspaced : v.Pairwise (Below 8))
    (hrange : ∀ c ∈ v, c.stop 8 < 2 ^ 32) (hv : ∀ c ∈ v, new.stop 8 ≤ c.addr) :
    ∃ nb v', Joined base h (h.joinNext new.addr p) new v nb v' := by
  rw [Heap.joinNext, hsize, hptr]
  rw [stop] at hnew
  rw [plus_eq hnew]
  by_cases hjoin : new.addr + 8 * new.size = nextOf base v
  -- the next block begins where this one ends
  · cases v with
    | nil =>
        rw [nextOf] at hjoin
        omega
    | cons c v =>
        rw [nextOf] at hjoin
        have hc := hrange c List.mem_cons_self
        rw [stop] at hc
        have hcsize : h.size c.addr = c.size := by rw [Heap.size, hlinked.1]
        have hmod : (new.size + h.size c.addr) % 2 ^ 32 = new.size + c.size := by
          rw [hcsize]
          exact Nat.mod_eq_of_lt (by omega)
        have hnext : h.ptr c.addr = nextOf base v := by rw [Heap.ptr, hlinked.1]
        refine ⟨⟨new.addr, new.size + c.size⟩, v, ⟨?_, rfl, List.suffix_cons c v, ?_,
          Nat.le_add_right _ _, ?_, fun e he => ?_⟩⟩
        · rw [nextOf, if_pos hjoin, hmod, hnext]
        · rw [total_cons, total_cons, units_add, hjoin, add_assoc]
        · rw [stop]
          show new.addr + 8 * (new.size + c.size) < 2 ^ 32
          omega
        · have hce := (List.pairwise_cons.mp hspaced).1 e he
          rw [Below, stop] at hce ⊢
          show new.addr + 8 * (new.size + c.size) < e.addr
          omega
  · refine ⟨new, v, ⟨if_neg hjoin, rfl, List.suffix_refl v, by rw [total_cons], Nat.le_refl _, ?_,
      fun e he => ?_⟩⟩
    · rw [stop]
      exact hnew
    · have hle := hv e he
      rw [stop] at hle
      rw [Below, stop]
      -- only the first block could touch this one
      cases v with
      | nil => exact absurd he List.not_mem_nil
      | cons c v =>
          rw [nextOf] at hjoin
          have hc := hv c List.mem_cons_self
          rw [stop] at hc
          rcases List.mem_cons.mp he with rfl | he
          · omega
          · have hce := (List.pairwise_cons.mp hspaced).1 e he
            rw [Below, stop] at hce
            omega

theorem set_mem_self (h : Heap κ) (a : Nat) (x : Header) : (h.set a x).mem a = x := upd_self ..

theorem set_mem_of_ne {a p : Nat} {x : Header} (hne : p ≠ a) : (h.set a x).mem p = h.mem p :=
  upd_of_ne hne

/-- A list that begins with `base` is a ring. -/
theorem Ring.of_list {R : List Block} (hhead : R.head? = some (root base))
    (hlinked : Linked h.mem R base) (hspaced : R.Pairwise (Below 8))
    (hblocks : ∀ b ∈ R, b = root base ∨ 0 < b.size ∧ b.stop 8 < 2 ^ 32)
    (hfreep : ∃ b ∈ R, h.freep = b.addr) : ∃ fl, R = root base :: fl ∧ Ring base h fl := by
  obtain ⟨fl, rfl⟩ := List.head?_eq_some_iff.mp hhead
  have hfl : ∀ b ∈ fl, 0 < b.size ∧ b.stop 8 < 2 ^ 32 := by
    intro b hb
    rcases hblocks b (List.mem_cons_of_mem _ hb) with rfl | h
    · exact absurd ((List.pairwise_cons.mp hspaced).1 _ hb) (Nat.lt_irrefl _)
    · exact h
  exact ⟨fl, rfl, hlinked, hspaced, fun b hb => (hfl b hb).1, fun b hb => (hfl b hb).2, hfreep⟩

/-- **Insertion**: what `free` makes of the list. -/
structure Inserted (base : Nat) (h h' : Heap κ) (new : Block) (fl fl' : List Block) : Prop where
  ring : Ring base h' fl'
  total : total 8 fl' = new.units 8 + total 8 fl
  fits : ∃ b ∈ fl', new.size ≤ b.size
  kernel : h'.kernel = h.kernel
  regions : h'.regions = h.regions
  frame : ∀ a, a ≠ new.addr → (∀ b ∈ root base :: fl, a ≠ b.addr) → h'.mem a = h.mem a

theorem total_root (base : Nat) (fl : List Block) : total 8 (root base :: fl) = total 8 fl := by
  rw [total_cons]
  exact zero_add _

section Join

variable {new d nb : Block} {u v v' : List Block}

/-- What stands around the gap. -/
structure Gap (base : Nat) (h : Heap κ) (fl : List Block) (new d : Block) (u v : List Block) :
    Prop where
  ring : Ring base h fl
  split : root base :: fl = u ++ d :: v
  base_lt : base < new.addr
  pos : 0 < new.size
  lt : d.addr < new.addr
  stop_le : d.stop 8 ≤ new.addr

namespace Gap

theorem linked (g : Gap base h fl new d u v) :
    Linked h.mem u d.addr ∧ h.mem d.addr = ⟨nextOf base v, d.size⟩ ∧ Linked h.mem v base := by
  have hl := g.ring.linked
  rw [g.split] at hl
  exact linked_append.mp hl

theorem spaced (g : Gap base h fl new d u v) :
    u.Pairwise (Below 8) ∧ (d :: v).Pairwise (Below 8) ∧ ∀ b ∈ u, ∀ c ∈ d :: v, Below 8 b c := by
  have hs := g.ring.spaced
  rw [g.split] at hs
  exact List.pairwise_append.mp hs

theorem blocks (g : Gap base h fl new d u v) :
    ∀ b ∈ u ++ d :: v, b = root base ∨ 0 < b.size ∧ b.stop 8 < 2 ^ 32 := by
  intro b hb
  rw [← g.split] at hb
  rcases List.mem_cons.mp hb with rfl | hb
  · exact .inl rfl
  · exact .inr ⟨g.ring.pos b hb, g.ring.inRange b hb⟩

theorem total (g : Gap base h fl new d u v) :
    Block.total 8 fl = Block.total 8 u + (d.units 8 + Block.total 8 v) := by
  rw [← total_root base, g.split, total_append, total_cons]

/-- The blocks before `d` are at other addresses. -/
theorem addr_lt (g : Gap base h fl new d u v) {b : Block} (hb : b ∈ u) : b.addr < d.addr :=
  Nat.lt_of_le_of_lt (Nat.le_add_right _ _) (g.spaced.2.2 b hb d List.mem_cons_self)

theorem suffix_linked (g : Gap base h fl new d u v) {h₁ : Heap κ}
    (hj : Joined base h h₁ new v nb v') : Linked h.mem v' base := by
  obtain ⟨w, hw⟩ := hj.suffix
  have hl := g.linked.2.2
  rw [← hw] at hl
  exact (linked_append.mp hl).2

/-- **The new list** is `u`, then a list `t` that begins at the address of
`d`, linked by headers that differ from the old ones only there and at the
new block. -/
theorem inserted (g : Gap base h fl new d u v) {h' : Heap κ} {e : Block} {t : List Block}
    (hmem : ∀ a, a ≠ new.addr → a ≠ d.addr → h'.mem a = h.mem a) (haddr : e.addr = d.addr)
    (hroot : d = root base → e = d) (hlinked : Linked h'.mem (e :: t) base)
    (hspaced : (e :: t).Pairwise (Below 8)) (hbelow : ∀ c ∈ t, d.addr < c.addr)
    (hblocks : ∀ b ∈ e :: t, b = root base ∨ 0 < b.size ∧ b.stop 8 < 2 ^ 32)
    (htotal : Block.total 8 (e :: t) = new.units 8 + (d.units 8 + Block.total 8 v))
    (hfits : ∃ b ∈ e :: t, new.size ≤ b.size) (hkernel : h'.kernel = h.kernel)
    (hregions : h'.regions = h.regions) (hfreep : h'.freep = d.addr) :
    ∃ fl', Inserted base h h' new fl fl' := by
  have hhead : (u ++ e :: t).head? = some (root base) := by
    have hsplit := congrArg List.head? g.split
    cases u with
    | nil =>
        have hd : d = root base := (Option.some.inj hsplit).symm
        rw [List.nil_append, List.head?_cons, hroot hd, hd]
    | cons r u => exact hsplit.symm
  have hu : Linked h'.mem u e.addr := by
    rw [haddr]
    refine g.linked.1.congr fun b hb => hmem _ ?_ (Nat.ne_of_lt (g.addr_lt hb))
    exact Nat.ne_of_lt (Nat.lt_trans (g.addr_lt hb) g.lt)
  have hcross : ∀ b ∈ u, ∀ c ∈ e :: t, Below 8 b c := by
    intro b hb c hc
    have hbd := g.spaced.2.2 b hb d List.mem_cons_self
    rw [Below] at hbd ⊢
    rcases List.mem_cons.mp hc with rfl | hc
    · rw [haddr]
      exact hbd
    · exact Nat.lt_trans hbd (hbelow c hc)
  obtain ⟨fl', hfl', hring⟩ := Ring.of_list hhead (linked_append.mpr ⟨hu, hlinked⟩)
    (List.pairwise_append.mpr ⟨g.spaced.1, hspaced, hcross⟩)
    (fun b hb => (List.mem_append.mp hb).elim (fun hb => g.blocks b (List.mem_append_left _ hb))
      (hblocks b))
    ⟨e, List.mem_append_right _ List.mem_cons_self, hfreep.trans haddr.symm⟩
  refine ⟨fl', hring, ?_, ?_, hkernel, hregions, fun a hne hall => ?_⟩
  · rw [← total_root base, ← hfl', total_append, htotal, g.total]
    exact add_left_comm _ _ _
  · obtain ⟨b, hb, hle⟩ := hfits
    have hmem' : b ∈ root base :: fl' := hfl' ▸ List.mem_append_right _ hb
    rcases List.mem_cons.mp hmem' with rfl | hb'
    · exact absurd (Nat.lt_of_lt_of_le g.pos hle) (Nat.lt_irrefl 0)
    · exact ⟨b, hb', hle⟩
  · refine hmem a hne (hall d ?_)
    rw [g.split]
    exact List.mem_append_right _ List.mem_cons_self

end Gap

/-- The last header that `free` writes, and the list it leaves. -/
theorem joinPrev_spec (g : Gap base h fl new d u v) {h₁ : Heap κ}
    (hj : Joined base h h₁ new v nb v') :
    ∃ fl', Inserted base h { h₁.joinPrev new.addr d.addr with freep := d.addr } new fl fl' := by
  have hmem₁ : ∀ a, a ≠ new.addr → h₁.mem a = h.mem a := by
    intro a hne
    rw [hj.heap]
    exact set_mem_of_ne hne
  have hself : h₁.mem new.addr = ⟨nextOf base v', nb.size⟩ := by
    rw [hj.heap]
    exact set_mem_self ..
  have hdsize : h₁.size d.addr = d.size := by
    rw [Heap.size, hmem₁ _ (Nat.ne_of_lt g.lt), g.linked.2.1]
  have hnbstop := hj.inRange
  have hnbpos := Nat.lt_of_lt_of_le g.pos hj.size
  have hdstop := g.stop_le
  have htotal := hj.total
  rw [total_cons] at htotal
  rw [stop, hj.addr] at hnbstop
  rw [stop] at hdstop
  have hplus : plus d.addr d.size = d.addr + 8 * d.size := plus_eq (by omega)
  have hv' : v'.Pairwise (Below 8) :=
    ((List.pairwise_cons.mp g.spaced.2.1).2).sublist hj.suffix.sublist
  have hblocks : ∀ c ∈ v', c = root base ∨ 0 < c.size ∧ c.stop 8 < 2 ^ 32 := fun c hc =>
    g.blocks c (List.mem_append_right _ (List.mem_cons_of_mem _ (hj.suffix.subset hc)))
  have hkernel : h₁.kernel = h.kernel := by rw [hj.heap]; rfl
  have hregions : h₁.regions = h.regions := by rw [hj.heap]; rfl
  by_cases hjoin : d.addr + 8 * d.size = new.addr
  -- `d` ends where the block begins: it takes it in
  · have hmod : (d.size + nb.size) % 2 ^ 32 = d.size + nb.size := Nat.mod_eq_of_lt (by omega)
    have hheap : h₁.joinPrev new.addr d.addr =
        h₁.set d.addr ⟨nextOf base v', d.size + nb.size⟩ := by
      rw [Heap.joinPrev, hdsize, hplus, if_pos hjoin, Heap.ptr, Heap.size, hself, hmod]
    rw [hheap]
    have hmem : ∀ a, a ≠ d.addr →
        (h₁.set d.addr ⟨nextOf base v', d.size + nb.size⟩).mem a = h₁.mem a :=
      fun a hne => set_mem_of_ne hne
    have hlt : ∀ c ∈ v', d.addr < c.addr := fun c hc => Nat.lt_trans g.lt (hj.lt_addr hc)
    refine g.inserted (e := ⟨d.addr, d.size + nb.size⟩) (t := v')
      (fun a hne hned => (hmem a hned).trans (hmem₁ a hne)) rfl (fun hd => ?_) ⟨?_, ?_⟩
      (List.pairwise_cons.mpr ⟨fun c hc => ?_, hv'⟩) hlt
      (List.forall_mem_cons.mpr ⟨.inr ⟨Nat.add_pos_right _ hnbpos, ?_⟩, hblocks⟩) ?_
      ⟨_, List.mem_cons_self, Nat.le_trans hj.size (Nat.le_add_left _ _)⟩ hkernel hregions rfl
    · rw [hd] at hjoin
      exact absurd hjoin (Nat.ne_of_lt g.base_lt)
    · exact set_mem_self ..
    · refine (g.suffix_linked hj).congr fun c hc => ?_
      have hc' := hj.lt_addr hc
      exact (hmem _ (Nat.ne_of_gt (hlt c hc))).trans (hmem₁ _ (Nat.ne_of_gt hc'))
    · have hb := hj.below c hc
      rw [Below, stop, hj.addr] at hb
      rw [Below, stop]
      show d.addr + 8 * (d.size + nb.size) < c.addr
      omega
    · rw [stop]
      show d.addr + 8 * (d.size + nb.size) < 2 ^ 32
      omega
    · have hnb : nb = ⟨d.addr + 8 * d.size, nb.size⟩ := by
        rw [hjoin, ← hj.addr]
      rw [total_cons, units_add, ← hnb, add_assoc, htotal]
      exact add_left_comm _ _ _
  · have hheap : h₁.joinPrev new.addr d.addr = h₁.set d.addr ⟨new.addr, d.size⟩ := by
      rw [Heap.joinPrev, hdsize, hplus, if_neg hjoin]
    rw [hheap]
    have hmem : ∀ a, a ≠ d.addr → (h₁.set d.addr ⟨new.addr, d.size⟩).mem a = h₁.mem a :=
      fun a hne => set_mem_of_ne hne
    have hlt : ∀ c ∈ nb :: v', d.addr < c.addr := by
      refine List.forall_mem_cons.mpr ⟨hj.addr ▸ g.lt, fun c hc => ?_⟩
      exact Nat.lt_trans g.lt (hj.lt_addr hc)
    refine g.inserted (e := d) (t := nb :: v')
      (fun a hne hned => (hmem a hned).trans (hmem₁ a hne)) rfl (fun _ => rfl) ⟨?_, ?_, ?_⟩
      (List.pairwise_cons.mpr ⟨fun c hc => ?_, List.pairwise_cons.mpr ⟨hj.below, hv'⟩⟩) hlt
      (List.forall_mem_cons.mpr ⟨g.blocks d (List.mem_append_right _ List.mem_cons_self),
        List.forall_mem_cons.mpr ⟨.inr ⟨hnbpos, hj.inRange⟩, hblocks⟩⟩) ?_
      ⟨nb, List.mem_cons_of_mem _ List.mem_cons_self, hj.size⟩ hkernel hregions rfl
    · rw [nextOf, hj.addr]
      exact set_mem_self ..
    · rw [hj.addr]
      exact (hmem _ (Nat.ne_of_gt g.lt)).trans hself
    · refine (g.suffix_linked hj).congr fun c hc => ?_
      have hc' := hj.lt_addr hc
      exact (hmem _ (Nat.ne_of_gt (hlt c (List.mem_cons_of_mem _ hc)))).trans
        (hmem₁ _ (Nat.ne_of_gt hc'))
    · rw [Below, stop]
      rcases List.mem_cons.mp hc with rfl | hc
      · rw [hj.addr]
        omega
      · have := hj.lt_addr hc
        omega
    · rw [total_cons, total_cons, htotal]
      exact add_left_comm _ _ _

end Join

/-- **`free`**: a block that is apart from the free ones goes into the list. -/
theorem Ring.free {new : Block} (hr : Ring base h fl) (hbase : base < 2 ^ 32)
    (hlt : base < new.addr) (hpos : 0 < new.size) (hnew : new.stop 8 < 2 ^ 32)
    (hsize : h.size new.addr = new.size) (hapart : ∀ b ∈ fl, Apart 8 b new) :
    ∃ h' fl', h.free (plus new.addr 1) = some h' ∧ Inserted base h h' new fl fl' := by
  have hne : ∀ b ∈ fl, b.addr ≠ new.addr := by
    intro b hb heq
    have hbpos := hr.pos b hb
    have := hapart b hb
    rw [Apart, stop, stop] at this
    omega
  obtain ⟨u, d, v, hsplit, hd, hv, hwalk⟩ := hr.walk_between hbase hlt hne
  have hmem : ∀ b ∈ u ++ d :: v, b = root base ∨ Apart 8 b new := by
    intro b hb
    rw [← hsplit] at hb
    rcases List.mem_cons.mp hb with rfl | hb
    · exact .inl rfl
    · exact .inr (hapart b hb)
  have hstop : d.stop 8 ≤ new.addr := by
    rcases hmem d (List.mem_append_right _ List.mem_cons_self) with rfl | hap
    · exact Nat.le_of_lt hlt
    · rw [Apart, stop, stop] at hap
      rw [stop]
      omega
  have hafter : ∀ c ∈ v, new.stop 8 ≤ c.addr := by
    intro c hc
    have hgt := hv c hc
    rcases hmem c (List.mem_append_right _ (List.mem_cons_of_mem _ hc)) with rfl | hap
    · exact absurd hgt (Nat.lt_asymm hlt)
    · rw [Apart, stop, stop] at hap
      rw [stop]
      omega
  have g : Gap base h fl new d u v := ⟨hr, hsplit, hlt, hpos, hd, hstop⟩
  have hrange : ∀ c ∈ v, c.stop 8 < 2 ^ 32 := by
    intro c hc
    rcases g.blocks c (List.mem_append_right _ (List.mem_cons_of_mem _ hc)) with rfl | hb
    · exact absurd (hv _ hc) (Nat.lt_asymm hlt)
    · exact hb.2
  have hptr : h.ptr d.addr = nextOf base v := by rw [Heap.ptr, g.linked.2.1]
  obtain ⟨nb, v', hj⟩ := joinNext_spec hsize hnew hlt hptr g.linked.2.2
    (List.pairwise_cons.mp g.spaced.2.1).2 hrange hafter
  obtain ⟨fl', hins⟩ := joinPrev_spec g hj
  refine ⟨_, fl', ?_, hins⟩
  rw [stop] at hnew
  rw [Heap.free, headerOf_plus (by omega)]
  simp only [hwalk, Option.bind_eq_bind, Option.bind_some, Option.pure_def]

end Xv6.Malloc
