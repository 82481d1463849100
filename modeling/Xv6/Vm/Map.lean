import Xv6.Vm.Space

/-!
# Vm — `walkpgdir` and `mappages`, exactly

`walkpgdir` finds the page table of a page or makes one, and fails only
when `kalloc` does. Mapping a page is that, and a store to the entry.
-/

namespace Xv6.Vm

open Lib

variable {κ : Type} {A : Allocator κ} {L : Lawful A} {ρ ρ' : Page → Tag} {h h' : Heap κ}
  {d t : Page} {v : Nat}

/-! ## The page table of a page -/

/-- Memory with a new page table. -/
def Heap.addTable (h : Heap κ) (d : Page) (pde : Nat → Option Page) (i : Nat) (t : Page) (k : κ) :
    Heap κ :=
  { h with
    content := upd (upd h.content t (.tab fun _ => none)) d (.dir (upd pde i (some t)))
    kmem := k }

/-- From `h` to `h'` the directory `d` gets the page table `t` for `v`, if it
did not have one. -/
structure Tabled (L : Lawful A) (d : Page) (v : Nat) (t : Page) (ρ : Page → Tag) (h : Heap κ)
    (ρ' : Page → Tag) (h' : Heap κ) : Prop where
  sharp : Sharp L ρ' h'
  kept : ∀ x, ρ x ≠ .free → ρ' x = ρ x
  taken : ∀ x, ρ x = .free → ρ' x = .free ∨ ρ' x = .table d (pdx v)
  content : ∀ x, ρ x ≠ .free → x ≠ d → h'.content x = h.content x
  table : table h' d = upd (table h d) (pdx v) (some t)
  entry : entry h' d = entry h d
  log : h'.log = h.log

theorem Tabled.refl (hS : Sharp L ρ h) (ht : Vm.table h d (pdx v) = some t) :
    Tabled L d v t ρ h ρ h where
  sharp := hS
  kept _ _ := rfl
  taken _ hx := .inl hx
  content _ _ _ := rfl
  table := by rw [← ht, upd_eq_self]
  entry := rfl
  log := rfl

/-- `walkpgdir` makes a page table. -/
theorem Tabled.of_kalloc {pde : Nat → Option Page} {k : κ} (hE : Exact L) (hS : Sharp L ρ h)
    (hd : ρ d = .dir) (hc : h.content d = .dir pde) (hi : pde (pdx v) = none)
    (hv : pdx v < NPDENTRIES) (hk : A.kalloc .table h.kmem = (some t, k)) :
    ∃ ρ', Tabled L d v t ρ h ρ' (h.addTable d pde (pdx v) t k) := by
  obtain ⟨hfree, hvalid, hS1⟩ := hS.take hE hk
  have hdt : d ≠ t := ne_of_tag (ρ := ρ) (by simp [hd, hfree])
  obtain ⟨hS2, htab, hent⟩ := hS1.newTable (d := d) (by rw [upd_of_ne hdt, hd]) hc hi (upd_self ..)
    hvalid hv
  rw [upd_upd] at hS2
  refine ⟨upd ρ t (.table d (pdx v)), hS2, ?_, ?_, ?_, htab, hent, rfl⟩
  · intro x hx
    have hxt : x ≠ t := by
      rintro rfl
      exact hx hfree
    exact upd_of_ne hxt
  · intro x hx
    by_cases hxt : x = t
    · right
      rw [hxt, upd_self]
    · left
      rw [upd_of_ne hxt, hx]
  · intro x hx hxd
    have hxt : x ≠ t := by
      rintro rfl
      exact hx hfree
    simp only [Heap.addTable, upd_of_ne hxd, upd_of_ne hxt]

section Walk

variable {E : Stop × Heap κ → Prop} {Q : Option (Page × Nat) → Heap κ → Prop}

theorem ensures_walk_present (hS : Sharp L ρ h) (hd : ρ d = .dir)
    (ht : table h d (pdx v) = some t) :
    Ensures (walkpgdir A d v true) h E Q ↔ Q (some (t, ptx v)) h := by
  obtain ⟨pde, hc, _⟩ := hS.dir d hd
  rw [table_of_dir hc] at ht
  simp only [walkpgdir, ensures_bind, ensures_dirAt hc, ht, ensures_pure]

theorem ensures_walk_fail {k : κ} (hS : Sharp L ρ h) (hd : ρ d = .dir)
    (ht : table h d (pdx v) = none) (hk : A.kalloc .table h.kmem = (none, k)) :
    Ensures (walkpgdir A d v true) h E Q ↔ Q none { h with kmem := k } := by
  obtain ⟨pde, hc, _⟩ := hS.dir d hd
  rw [table_of_dir hc] at ht
  simp only [walkpgdir, ensures_bind, ensures_dirAt hc, ht, Bool.true_eq_false, if_false]
  rw [Ensures, kalloc, hk]
  exact ensures_pure _

theorem ensures_walk_new {pde : Nat → Option Page} {k : κ} (hc : h.content d = .dir pde)
    (ht : pde (pdx v) = none) (hk : A.kalloc .table h.kmem = (some t, k)) :
    Ensures (walkpgdir A d v true) h E Q ↔
      Q (some (t, ptx v)) (h.addTable d pde (pdx v) t k) := by
  simp only [walkpgdir, ensures_bind, ensures_dirAt hc, ht, Bool.true_eq_false, if_false]
  rw [Ensures, kalloc, hk]
  exact Iff.rfl

end Walk

/-! ## Entries -/

/-- Memory with another entry in a page table. -/
def Heap.setEntry (h : Heap κ) (t : Page) (pte : Nat → Option Pte) (j : Nat) (e : Pte) : Heap κ :=
  { h with content := upd h.content t (.tab (upd pte j (some e))) }

/-- **One page of `mappages`**, once there is a page table for it. -/
theorem ensures_map_entry {w u : Bool} {n : Nat} {pa : Page} {E : Stop × Heap κ → Prop}
    {Q : Bool → Heap κ → Prop} {pte : Nat → Option Pte}
    (hwalk : ∀ Q', Ensures (walkpgdir A d v true) h E Q' ↔ Q' (some (t, ptx v)) h')
    (hc : h'.content t = .tab pte) (hnone : pte (ptx v) = none) :
    Ensures (mappages A d w u (n + 1) v pa) h E Q ↔
      Ensures (mappages A d w u n (v + 1) (pa + 1)) (h'.setEntry t pte (ptx v) ⟨pa, w, u⟩) E Q := by
  simp only [mappages, ensures_bind, hwalk, ensures_tabAt hc, hnone, Option.isSome_none,
    Bool.false_eq_true, if_false, ensures_setContent, Heap.setEntry]

theorem ensures_map_fail {w u : Bool} {n : Nat} {pa : Page} {E : Stop × Heap κ → Prop}
    {Q : Bool → Heap κ → Prop}
    (hwalk : ∀ Q', Ensures (walkpgdir A d v true) h E Q' ↔ Q' none h') :
    Ensures (mappages A d w u (n + 1) v pa) h E Q ↔ Q false h' := by
  simp only [mappages, ensures_bind, hwalk, ensures_pure]

/-- A page that is mapped already. -/
theorem ensures_map_remap {w u : Bool} {n : Nat} {pa : Page} {E : Stop × Heap κ → Prop}
    {Q : Bool → Heap κ → Prop} (hS : Sharp L ρ h) (hd : ρ d = .dir) (hmap : entry h d v ≠ none) :
    Ensures (mappages A d w u (n + 1) v pa) h E Q ↔ E (.panic "remap", h) := by
  cases ht : table h d (pdx v) with
  | none => exact absurd (entry_of_none ht) hmap
  | some t =>
      obtain ⟨_, pte, hc⟩ := tag_of_table hS.toTagged hd ht
      rw [entry_of_tab ht hc] at hmap
      have hsome : (pte (ptx v)).isSome = true := Option.isSome_iff_ne_none.mpr hmap
      simp only [mappages, ensures_bind, ensures_walk_present hS hd ht, ensures_tabAt hc, hsome,
        if_true, ensures_panic]

/-! ## A new page -/

/-- From `h` to `h'` the page `m` is taken from the free list, filled with `c`
and mapped at `v`, with its page table. -/
structure Mapped (L : Lawful A) (d : Page) (v : Nat) (m : Page) (c : Content) (w u : Bool)
    (ρ : Page → Tag) (h : Heap κ) (ρ' : Page → Tag) (h' : Heap κ) : Prop where
  sharp : Sharp L ρ' h'
  free : ρ m = .free
  tag : ρ' m = .user d (pdx v) (ptx v)
  kept : ∀ x, ρ x ≠ .free → ρ' x = ρ x
  taken : ∀ x, ρ x = .free → x ≠ m → ρ' x = .free ∨ ρ' x = .table d (pdx v)
  content : ∀ x, ρ x ≠ .free → x ≠ d → (∀ i, ρ x ≠ .table d i) → h'.content x = h.content x
  page : h'.content m = c
  tables : Vm.tables h' d = upd (Vm.tables h d) (pdx v) true
  entry : Vm.entry h' d = upd (Vm.entry h d) v (some ⟨m, w, u⟩)

/-- A page from `kalloc`, filled with `c`. -/
theorem Sharp.takeFilled {m : Page} {k : κ} (hE : Exact L) (hS : Sharp L ρ h)
    (hk : A.kalloc .page h.kmem = (some m, k)) (c : Content) :
    ρ m = .free ∧ A.valid m = true ∧
      Sharp L (upd ρ m .held) { h with content := upd h.content m c, kmem := k } := by
  obtain ⟨hfree, hvalid, hS1⟩ := hS.take hE hk
  exact ⟨hfree, hvalid, hS1.setHeld (upd_self ..) c⟩

/-- The page is mapped once there is a page table for it. -/
theorem Mapped.of_tabled {m : Page} {c : Content} {w u : Bool} {k : κ} {pte : Nat → Option Pte}
    {ρ₂ : Page → Tag} {h₂ : Heap κ} (hS : Sharp L ρ h) (hd : ρ d = .dir) (hfree : ρ m = .free)
    (hvalid : A.valid m = true) (hv : v < KERNPAGE) (hnone : Vm.entry h d v = none)
    (hT : Tabled L d v t (upd ρ m .held)
      { h with content := upd h.content m c, kmem := k } ρ₂ h₂)
    (hc : h₂.content t = .tab pte) :
    Mapped L d v m c w u ρ h (upd ρ₂ m (.user d (pdx v) (ptx v)))
      (h₂.setEntry t pte (ptx v) ⟨m, w, u⟩) := by
  have hdm : d ≠ m := ne_of_tag (ρ := ρ) (by simp [hd, hfree])
  have hread := read_upd (x := m) (c := c) (k := k) hS.toTagged hd (by simp [hfree])
    (by simp [hfree])
  have hheld : upd ρ m .held m = .held := upd_self ..
  have hm2 : ρ₂ m = .held := by rw [hT.kept m (by simp), hheld]
  have hd2 : ρ₂ d = .dir := by
    have hd1 : upd ρ m .held d = .dir := by rw [upd_of_ne hdm, hd]
    rw [hT.kept d (by simp [hd1]), hd1]
  have ht2 : Vm.table h₂ d (pdx v) = some t := by rw [hT.table, upd_self]
  have htag := (tag_of_table hT.sharp.toTagged hd2 ht2).1
  have htm : t ≠ m := ne_of_tag (ρ := ρ₂) (by simp [htag, hm2])
  have hpte : pte (ptx v) = none := by
    rw [← entry_of_tab ht2 hc, hT.entry, hread.2, hnone]
  obtain ⟨hent, htab⟩ := entry_setPte (o := some ⟨m, w, u⟩) hT.sharp.toTagged hd2 ht2 hc
  -- tags and contents of the pages that were in use
  have hold : ∀ x, ρ x ≠ .free → x ≠ m ∧ upd ρ m .held x = ρ x ∧ ρ₂ x = ρ x := by
    intro x hx
    have hxm : x ≠ m := fun hxm => hx (hxm ▸ hfree)
    have hx1 : upd ρ m .held x = ρ x := upd_of_ne hxm
    exact ⟨hxm, hx1, by rw [hT.kept x (by rwa [hx1]), hx1]⟩
  refine ⟨hT.sharp.map hd2 ht2 hc hv hpte hm2 hvalid rfl, hfree, upd_self .., ?_, ?_, ?_, ?_, ?_, ?_⟩
  · intro x hx
    obtain ⟨hxm, _, hx2⟩ := hold x hx
    rw [upd_of_ne hxm, hx2]
  · intro x hx hxm
    rw [upd_of_ne hxm]
    apply hT.taken
    rw [upd_of_ne hxm, hx]
  · intro x hx hxd hxt
    obtain ⟨hxm, hx1, hx2⟩ := hold x hx
    have hxt' : x ≠ t := by
      rintro rfl
      rw [hx2] at htag
      exact hxt _ htag
    simp only [Heap.setEntry, upd_of_ne hxt']
    rw [hT.content x (by rwa [hx1]) hxd]
    exact upd_of_ne hxm
  · simp only [Heap.setEntry, upd_of_ne htm.symm]
    rw [hT.content m (by simp) hdm.symm]
    exact upd_self ..
  · funext i
    show (Vm.table (h₂.setEntry t pte (ptx v) ⟨m, w, u⟩) d i).isSome = _
    rw [Heap.setEntry, htab, hT.table]
    by_cases hi : i = pdx v
    · rw [hi, upd_self, upd_self]
      rfl
    · rw [upd_of_ne hi, upd_of_ne hi, hread.1]
      rfl
  · rw [Heap.setEntry, hent, hT.entry, hread.2]

/-- **A page that was just taken is mapped**, unless it needs a page table and
there is none. -/
theorem map_taken {m : Page} {c : Content} {w u : Bool} {k₁ : κ} (hE : Exact L)
    (hS : Sharp L ρ h) (hd : ρ d = .dir) (hv : v < KERNPAGE) (hnone : entry h d v = none)
    (hk : A.kalloc .page h.kmem = (some m, k₁)) :
    Ensures (mappages A d w u 1 v m) { h with content := upd h.content m c, kmem := k₁ }
      (fun _ => False) fun b h' =>
      (b = true ∧ (∃ ρ', Mapped L d v m c w u ρ h ρ' h') ∧
        (tables h d (pdx v) = true ∧ h'.kmem = k₁ ∨
          tables h d (pdx v) = false ∧ ∃ t, A.kalloc .table k₁ = (some t, h'.kmem))) ∨
      (b = false ∧ tables h d (pdx v) = false ∧ A.kalloc .table k₁ = (none, h'.kmem) ∧
        h'.content = upd h.content m c ∧ ρ m = .free ∧ Sharp L (upd ρ m .held) h') := by
  have hpdx : pdx v < NPDENTRIES := Nat.lt_of_lt_of_le (pdx_lt hv) (by decide)
  obtain ⟨hmfree, hvalid, hS1⟩ := hS.takeFilled hE hk c
  have hdm : d ≠ m := ne_of_tag (ρ := ρ) (by simp [hd, hmfree])
  have hd1 : upd ρ m .held d = .dir := by rw [upd_of_ne hdm, hd]
  have hread := read_upd (x := m) (c := c) (k := k₁) hS.toTagged hd (by simp [hmfree])
    (by simp [hmfree])
  cases ht : table h d (pdx v) with
  | some t =>
      have ht1 : table { h with content := upd h.content m c, kmem := k₁ } d (pdx v) = some t := by
        rw [hread.1, ht]
      obtain ⟨_, pte, hc⟩ := tag_of_table hS1.toTagged hd1 ht1
      have hpte : pte (ptx v) = none := by rw [← entry_of_tab ht1 hc, hread.2, hnone]
      rw [ensures_map_entry (fun _ => ensures_walk_present hS1 hd1 ht1) hc hpte]
      left
      refine ⟨rfl, ⟨_, .of_tabled hS hd hmfree hvalid hv hnone (.refl hS1 ht1) hc⟩, .inl ?_⟩
      exact ⟨by simp [tables, ht], rfl⟩
  | none =>
      have htabs : tables h d (pdx v) = false := by simp [tables, ht]
      have ht1 : table { h with content := upd h.content m c, kmem := k₁ } d (pdx v) = none := by
        rw [hread.1, ht]
      rcases hk' : A.kalloc .table k₁ with ⟨_ | t, k₂⟩
      · rw [ensures_map_fail (fun _ => ensures_walk_fail hS1 hd1 ht1 hk')]
        exact .inr ⟨rfl, htabs, rfl, rfl, hmfree, Sharp.fail hE hS1 hk'⟩
      · obtain ⟨pde, hc, _⟩ := hS1.dir d hd1
        have hi : pde (pdx v) = none := by rw [← table_of_dir hc, ht1]
        obtain ⟨ρ₂, hT⟩ := Tabled.of_kalloc hE hS1 hd1 hc hi hpdx hk'
        have hdt : d ≠ t := by
          have := (Sharp.take hE hS1 hk').1
          exact ne_of_tag (ρ := upd ρ m .held) (by simp [hd1, this])
        have hct : (Heap.addTable { h with content := upd h.content m c, kmem := k₁ }
            d pde (pdx v) t k₂).content t = .tab fun _ => none := by
          simp only [Heap.addTable, upd_of_ne hdt.symm, upd_self]
        rw [ensures_map_entry (fun _ => ensures_walk_new hc hi hk') hct rfl]
        left
        exact ⟨rfl, ⟨_, .of_tabled hS hd hmfree hvalid hv hnone hT hct⟩, .inr ⟨htabs, t, rfl⟩⟩

end Xv6.Vm
