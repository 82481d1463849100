import Xv6.Vm.Rules

/-!
# Vm — address spaces

What a page directory maps, page by page, and tags that say exactly what
every page is used for. The tags of `Vm.Tags` may name a use that a page
does not have any more; here a page tagged `free` is on the free list and
one tagged `user` is mapped. A page that was taken from the free list and
is not reached from anywhere is `held`.
-/

namespace Xv6.Vm

open Lib

/-! ## Reading a directory -/

section Reading

variable {κ : Type} {A : Allocator κ} {L : Lawful A} {ρ : Page → Tag} {h : Heap κ} {d : Page}

/-- The `i`-th page table of a directory. -/
def table (h : Heap κ) (d : Page) (i : Nat) : Option Page :=
  match h.content d with
  | .dir pde => pde i
  | _ => none

/-- Which page tables a directory has. -/
def tables (h : Heap κ) (d : Page) (i : Nat) : Bool := (table h d i).isSome

/-- The entry of a page, if it is mapped. -/
def entry (h : Heap κ) (d : Page) (v : Nat) : Option Pte :=
  match table h d (pdx v) with
  | none => none
  | some t =>
      match h.content t with
      | .tab pte => pte (ptx v)
      | _ => none

theorem table_of_dir {pde : Nat → Option Page} (hc : h.content d = .dir pde) (i : Nat) :
    table h d i = pde i := by
  simp only [table, hc]

theorem entry_of_none {v : Nat} (ht : table h d (pdx v) = none) : entry h d v = none := by
  simp only [entry, ht]

theorem entry_of_tab {v : Nat} {t : Page} {pte : Nat → Option Pte}
    (ht : table h d (pdx v) = some t) (hc : h.content t = .tab pte) :
    entry h d v = pte (ptx v) := by
  simp only [entry, ht, hc]

theorem entry_congr {h' : Heap κ} {v : Nat} (ht : table h' d (pdx v) = table h d (pdx v))
    (hc : ∀ t, table h d (pdx v) = some t → h'.content t = h.content t) :
    entry h' d v = entry h d v := by
  simp only [entry, ht]
  cases hi : table h d (pdx v) with
  | none => rfl
  | some t => simp only [hc t hi]

/-- The page tables of a directory are its own. -/
theorem tag_of_table {i : Nat} {t : Page} (hT : Tagged L ρ h) (hd : ρ d = .dir)
    (ht : table h d i = some t) : ρ t = .table d i ∧ ∃ pte, h.content t = .tab pte := by
  obtain ⟨pde, hc, hpde⟩ := hT.dir d hd
  rw [table_of_dir hc] at ht
  have htag := hpde i t ht
  obtain ⟨_, pte, hc', _⟩ := hT.tab t d i htag
  exact ⟨htag, pte, hc'⟩

/-- `walkpgdir` without allocation only reads. -/
theorem walk_find (hT : Tagged L ρ h) (hd : ρ d = .dir) (v : Nat) {E : Stop × Heap κ → Prop}
    {Q : Option (Page × Nat) → Heap κ → Prop} :
    Ensures (walkpgdir A d v false) h E Q ↔ Q ((table h d (pdx v)).map fun t => (t, ptx v)) h := by
  obtain ⟨pde, hc, _⟩ := hT.dir d hd
  simp only [walkpgdir, ensures_bind, ensures_dirAt hc, table_of_dir hc]
  cases pde (pdx v) with
  | none => simp
  | some t => simp

/-- A store to the entry of a page. -/
theorem entry_setPte {v : Nat} {t : Page} {pte : Nat → Option Pte} {o : Option Pte}
    (hT : Tagged L ρ h) (hd : ρ d = .dir)
    (ht : table h d (pdx v) = some t) (hc : h.content t = .tab pte) :
    entry { h with content := upd h.content t (.tab (upd pte (ptx v) o)) } d
        = upd (entry h d) v o ∧
      table { h with content := upd h.content t (.tab (upd pte (ptx v) o)) } d = table h d := by
  have htag := (tag_of_table hT hd ht).1
  have hne : d ≠ t := ne_of_tag (ρ := ρ) (by simp [hd, htag])
  have htab : table { h with content := upd h.content t (.tab (upd pte (ptx v) o)) } d
      = table h d := by
    funext i
    simp only [table, upd_of_ne hne]
  refine ⟨?_, htab⟩
  funext v'
  by_cases hv : pdx v' = pdx v
  · rw [entry_of_tab (t := t) (by rw [htab, hv, ht]) (upd_self ..)]
    by_cases hvv : v' = v
    · rw [hvv, upd_self, upd_self]
    · have hj : ptx v' ≠ ptx v := by
        intro hj
        unfold ptx pdx NPTENTRIES at *
        omega
      rw [upd_of_ne hj, upd_of_ne hvv, entry_of_tab (t := t) (by rw [hv, ht]) hc]
  · have hvv : v' ≠ v := by
      rintro rfl
      exact hv rfl
    rw [upd_of_ne hvv]
    refine entry_congr (by rw [htab]) fun t' ht' => ?_
    have htag' := (tag_of_table hT hd ht').1
    have htt : t' ≠ t := ne_of_tag (ρ := ρ) (by
      rw [htag, htag']
      intro he
      injection he with _ hi
      exact hv hi)
    exact upd_of_ne htt

end Reading

/-! ## Exact tags -/

variable {κ : Type} {A : Allocator κ} {L : Lawful A} {ρ : Page → Tag} {h h' : Heap κ} {d : Page}

/-- The allocator loses no page. -/
structure Exact (L : Lawful A) : Prop where
  kalloc_none : ∀ u k k', L.ok k → A.kalloc u k = (none, k') → L.free k' = L.free k
  kalloc_some : ∀ u k x k', L.ok k → A.kalloc u k = (some x, k') → L.free k' = L.free k \ {x}
  kfree : ∀ x k, L.ok k → x ∉ L.free k → L.free (A.kfree x k) = insert x (L.free k)

/-- **Exact tags**: the tag of a page says what it is used for now. -/
structure Sharp (L : Lawful A) (ρ : Page → Tag) (h : Heap κ) : Prop extends Tagged L ρ h where
  isFree : ∀ x, ρ x = .free → x ∈ L.free h.kmem
  mapped : ∀ x d i j, ρ x = .user d i j → ρ d = .dir ∧ ∃ v e, v < KERNPAGE ∧ pdx v = i ∧
    ptx v = j ∧ entry h d v = some e ∧ e.page = x
  index : ∀ t d i, ρ t = .table d i → i < NPDENTRIES

theorem Sharp.mem_free (hS : Sharp L ρ h) (x : Page) : x ∈ L.free h.kmem ↔ ρ x = .free :=
  ⟨hS.free x, hS.isFree x⟩

theorem page_ext {v w : Nat} (hi : pdx v = pdx w) (hj : ptx v = ptx w) : v = w := by
  unfold pdx at hi
  unfold ptx at hj
  rw [← Nat.div_add_mod v NPTENTRIES, ← Nat.div_add_mod w NPTENTRIES, hi, hj]

theorem pdx_lt {v : Nat} (hv : v < KERNPAGE) : pdx v < pdx KERNPAGE :=
  Nat.div_lt_of_lt_mul (Nat.lt_of_lt_of_le hv (by decide))

/-- A user page is tagged with its place. -/
theorem tag_of_entry {v : Nat} {e : Pte} (hT : Tagged L ρ h) (hd : ρ d = .dir) (hv : v < KERNPAGE)
    (he : entry h d v = some e) : ρ e.page = .user d (pdx v) (ptx v) := by
  cases ht : table h d (pdx v) with
  | none =>
      rw [entry_of_none ht] at he
      cases he
  | some t =>
      obtain ⟨htag, pte, hc⟩ := tag_of_table hT hd ht
      rw [entry_of_tab ht hc] at he
      obtain ⟨_, pte', hc', hpte⟩ := hT.tab t d (pdx v) htag
      cases hc.symm.trans hc'
      exact hpte (pdx_lt hv) (ptx v) e he

/-- What a directory maps depends on the directory and its page tables. -/
theorem read_frame (hT : Tagged L ρ h) (hd : ρ d = .dir) (hc : h'.content d = h.content d)
    (htc : ∀ t i, ρ t = .table d i → h'.content t = h.content t) :
    table h' d = table h d ∧ entry h' d = entry h d := by
  have htab : table h' d = table h d := by
    funext i
    simp only [table, hc]
  refine ⟨htab, ?_⟩
  funext v
  apply entry_congr (by rw [htab])
  intro t ht
  exact htc t (pdx v) (tag_of_table hT hd ht).1

/-- Reading after a store to a page that is neither a directory nor a table. -/
theorem read_upd {x : Page} {c : Content} {k : κ} (hT : Tagged L ρ h) (hd : ρ d = .dir)
    (hxd : ρ x ≠ .dir) (hxt : ∀ i, ρ x ≠ .table d i) :
    table { h with content := upd h.content x c, kmem := k } d = table h d ∧
      entry { h with content := upd h.content x c, kmem := k } d = entry h d := by
  apply read_frame hT hd
  · exact upd_of_ne fun hdx => hxd (hdx ▸ hd)
  · intro t i ht
    exact upd_of_ne fun htx => hxt i (htx ▸ ht)

/-- Another content for a page that is neither a directory nor a page table. -/
theorem Sharp.setPage {x : Page} (hS : Sharp L ρ h) (hxd : ρ x ≠ .dir)
    (hxt : ∀ d i, ρ x ≠ .table d i) (c : Content) :
    Sharp L ρ { h with content := upd h.content x c } where
  toTagged := hS.toTagged.setPage hxd hxt c
  isFree := hS.isFree
  mapped y d i j hy := by
    obtain ⟨hd, hy⟩ := hS.mapped y d i j hy
    have hread : entry { h with content := upd h.content x c } d = entry h d :=
      (read_upd (k := h.kmem) hS.toTagged hd hxd (hxt d)).2
    rw [hread]
    exact ⟨hd, hy⟩
  index := hS.index

theorem Sharp.setHeld {x : Page} (hS : Sharp L ρ h) (hx : ρ x = .held) (c : Content) :
    Sharp L ρ { h with content := upd h.content x c } :=
  hS.setPage (by simp [hx]) (by simp [hx]) c

/-! ## The allocator -/

/-- The allocator has the same pages as before. -/
theorem Sharp.setKmem {k : κ} (hS : Sharp L ρ h) (hok : L.ok k)
    (hfree : L.free k = L.free h.kmem) : Sharp L ρ { h with kmem := k } where
  toTagged := hS.toTagged.shrink hok (by rw [hfree])
  isFree x hx := by
    rw [hfree]
    exact hS.isFree x hx
  mapped := hS.mapped
  index := hS.index

theorem Sharp.fail {u : Use} {k : κ} (hE : Exact L) (hS : Sharp L ρ h)
    (hk : A.kalloc u h.kmem = (none, k)) : Sharp L ρ { h with kmem := k } :=
  hS.setKmem (L.kalloc_none u h.kmem k hS.ok hk).1 (hE.kalloc_none u h.kmem k hS.ok hk)

/-- **`kalloc`**: a free page becomes held. -/
theorem Sharp.take {u : Use} {x : Page} {k : κ} (hE : Exact L) (hS : Sharp L ρ h)
    (hk : A.kalloc u h.kmem = (some x, k)) :
    ρ x = .free ∧ A.valid x = true ∧ Sharp L (upd ρ x .held) { h with kmem := k } := by
  have hrun : kalloc A u h = .ok (some x, { h with kmem := k }) := by
    simp only [kalloc, hk]
  obtain ⟨_, hx, hvalid, hT⟩ := (kalloc_rule u hS.toTagged).of_ok hrun
  refine ⟨hx, hvalid, hT, ?_, ?_, ?_⟩
  · intro y hy
    obtain ⟨hyx, hy⟩ := of_upd_eq hy (by simp)
    rw [hE.kalloc_some u h.kmem x k hS.ok hk]
    exact ⟨hS.isFree y hy, hyx⟩
  · intro y d i j hy
    obtain ⟨hd, hmap⟩ := hS.mapped y d i j (of_upd_eq hy (by simp)).2
    have hdx : d ≠ x := ne_of_tag (ρ := ρ) (by simp [hd, hx])
    exact ⟨by rw [upd_of_ne hdx, hd], hmap⟩
  · exact fun t d i ht => hS.index t d i (of_upd_eq ht (by simp)).2

/-! ## Entries -/

/-- A page that is held becomes an empty page table. -/
theorem Sharp.newTable {x : Page} {pde : Nat → Option Page} {i : Nat} (hS : Sharp L ρ h)
    (hd : ρ d = .dir) (hpde : h.content d = .dir pde) (hi : pde i = none) (hx : ρ x = .held)
    (hr : A.valid x = true) (hlt : i < NPDENTRIES) :
    Sharp L (upd ρ x (.table d i)) { h with
        content := upd (upd h.content x (.tab fun _ => none)) d (.dir (upd pde i (some x))) } ∧
      table { h with
        content := upd (upd h.content x (.tab fun _ => none)) d (.dir (upd pde i (some x))) } d
        = upd (table h d) i (some x) ∧
      entry { h with
        content := upd (upd h.content x (.tab fun _ => none)) d (.dir (upd pde i (some x))) } d
        = entry h d := by
  have hT := hS.toTagged.newTable hd hpde hi hx hr
  have hdx : d ≠ x := ne_of_tag (ρ := ρ) (by simp [hx, hd])
  generalize hh : ({ h with
    content := upd (upd h.content x (.tab fun _ => none)) d
      (.dir (upd pde i (some x))) } : Heap κ) = h1 at hT ⊢
  have hcd : h1.content d = .dir (upd pde i (some x)) := by
    rw [← hh]
    exact upd_self ..
  have hcx : h1.content x = .tab fun _ => none := by
    rw [← hh]
    simp only [upd_of_ne hdx.symm, upd_self]
  have hother : ∀ y, y ≠ d → y ≠ x → h1.content y = h.content y := by
    intro y hyd hyx
    rw [← hh]
    simp only [upd_of_ne hyd, upd_of_ne hyx]
  have htab : table h1 d = upd (table h d) i (some x) := by
    funext i'
    rw [table_of_dir hcd]
    by_cases hii : i' = i
    · rw [hii, upd_self, upd_self]
    · rw [upd_of_ne hii, upd_of_ne hii, table_of_dir hpde]
  have hent : entry h1 d = entry h d := by
    funext v
    by_cases hv : pdx v = i
    · -- the new table is empty, and there was none before
      rw [entry_of_none (h := h) (by rw [table_of_dir hpde, hv, hi])]
      exact entry_of_tab (t := x) (by rw [htab, hv, upd_self]) hcx
    · apply entry_congr
      · rw [htab, upd_of_ne hv]
      · intro t ht
        have htag := (tag_of_table hS.toTagged hd ht).1
        exact hother t (ne_of_tag (ρ := ρ) (by simp [hd, htag]))
          (ne_of_tag (ρ := ρ) (by simp [hx, htag]))
  refine ⟨⟨hT, ?_, ?_, ?_⟩, htab, hent⟩
  · intro y hy
    obtain ⟨hyx, hy⟩ := of_upd_eq hy (by simp)
    rw [← hh]
    exact hS.isFree y hy
  · intro y d' i' j hy
    obtain ⟨hd', hmap⟩ := hS.mapped y d' i' j (of_upd_eq hy (by simp)).2
    have hdx' : d' ≠ x := ne_of_tag (ρ := ρ) (by simp [hx, hd'])
    refine ⟨by rw [upd_of_ne hdx', hd'], ?_⟩
    by_cases hdd : d' = d
    · rw [hdd, hent, ← hdd]
      exact hmap
    · have hread : entry h1 d' = entry h d' := by
        apply (read_frame hS.toTagged hd' (hother d' hdd hdx') ?_).2
        intro t i'' ht
        exact hother t (ne_of_tag (ρ := ρ) (by simp [hd, ht]))
          (ne_of_tag (ρ := ρ) (by simp [hx, ht]))
      rw [hread]
      exact hmap
  · intro t d' i' ht
    by_cases htx : t = x
    · rw [htx, upd_self] at ht
      cases ht
      exact hlt
    · rw [upd_of_ne htx] at ht
      exact hS.index t d' i' ht

/-- Reading another directory after a store to a table of `d`. -/
theorem entry_setPte_of_ne {t d' : Page} {i : Nat} {c : Content} (hT : Tagged L ρ h)
    (ht : ρ t = .table d i) (hd' : ρ d' = .dir) (hne : d' ≠ d) :
    entry { h with content := upd h.content t c } d' = entry h d' := by
  apply (read_upd (k := h.kmem) hT hd' (by simp [ht]) ?_).2
  intro i' hi'
  rw [ht] at hi'
  cases hi'
  exact hne rfl

/-- A page that is held is mapped at a free place of the user's part. -/
theorem Sharp.map {t m : Page} {v : Nat} {pte : Nat → Option Pte} {e : Pte} (hS : Sharp L ρ h)
    (hd : ρ d = .dir) (ht : table h d (pdx v) = some t) (hc : h.content t = .tab pte)
    (hv : v < KERNPAGE) (hnone : pte (ptx v) = none) (hm : ρ m = .held)
    (hr : A.valid m = true) (he : e.page = m) :
    Sharp L (upd ρ m (.user d (pdx v) (ptx v)))
      { h with content := upd h.content t (.tab (upd pte (ptx v) (some e))) } := by
  have htag := (tag_of_table hS.toTagged hd ht).1
  have htm : t ≠ m := ne_of_tag (ρ := ρ) (by simp [htag, hm])
  have hT := hS.toTagged.retag (hS.toTagged.loose_of_held hm) (by simp [hm])
    (.user d (pdx v) (ptx v)) (fun _ => hr) (by simp) (by simp)
  have hT' := hT.setPte (d := d) (i := pdx v) (j := ptx v) (o := some e)
    (by rw [upd_of_ne htm, htag]) hc (by
      rintro _ e' ⟨⟩
      rw [he, upd_self])
  have hent := (entry_setPte (o := some e) hS.toTagged hd ht hc).1
  have hdm : ∀ d', ρ d' = .dir → d' ≠ m := fun d' hd' => ne_of_tag (ρ := ρ) (by simp [hd', hm])
  refine ⟨hT', ?_, ?_, ?_⟩
  · exact fun y hy => hS.isFree y (of_upd_eq hy (by simp)).2
  · intro y d' i j hy
    by_cases hym : y = m
    · rw [hym, upd_self] at hy
      cases hy
      refine ⟨by rw [upd_of_ne (hdm d hd), hd], v, e, hv, rfl, rfl, ?_, by rw [he, hym]⟩
      rw [hent, upd_self]
    · rw [upd_of_ne hym] at hy
      obtain ⟨hd', w, e', hw, hi, hj, he', hey⟩ := hS.mapped y d' i j hy
      refine ⟨by rw [upd_of_ne (hdm d' hd'), hd'], w, e', hw, hi, hj, ?_, hey⟩
      by_cases hdd : d' = d
      · -- the place was free, so this is another one
        have hwv : w ≠ v := by
          rintro rfl
          rw [hdd, entry_of_tab ht hc, hnone] at he'
          cases he'
        rw [hdd, hent, upd_of_ne hwv, ← hdd]
        exact he'
      · rw [entry_setPte_of_ne hS.toTagged htag hd' hdd]
        exact he'
  · exact fun t' d' i ht' => hS.index t' d' i (of_upd_eq ht' (by simp)).2

/-- An entry of the kernel's part changes, or the flags of a user's entry. -/
theorem Sharp.setPte {t : Page} {v : Nat} {pte : Nat → Option Pte} {o : Option Pte}
    (hS : Sharp L ρ h) (hd : ρ d = .dir) (ht : table h d (pdx v) = some t)
    (hc : h.content t = .tab pte)
    (ho : v < KERNPAGE → o.map Pte.page = (pte (ptx v)).map Pte.page)
    (hhigh : ¬ v < KERNPAGE → ¬ pdx v < pdx KERNPAGE) :
    Sharp L ρ { h with content := upd h.content t (.tab (upd pte (ptx v) o)) } := by
  have htag := (tag_of_table hS.toTagged hd ht).1
  have hent := (entry_setPte (o := o) hS.toTagged hd ht hc).1
  refine ⟨hS.toTagged.setPte htag hc ?_, hS.isFree, ?_, hS.index⟩
  · intro hi e he
    have hv : v < KERNPAGE := by
      by_contra hv
      exact hhigh hv hi
    have hpage := ho hv
    rw [he, Option.map_some] at hpage
    obtain ⟨e', he', hee⟩ := Option.map_eq_some_iff.mp hpage.symm
    rw [← hee]
    exact tag_of_entry hS.toTagged hd hv (by rw [entry_of_tab ht hc, he'])
  · intro y d' i j hy
    obtain ⟨hd', w, e, hw, hi, hj, he, hey⟩ := hS.mapped y d' i j hy
    by_cases hdd : d' = d
    · by_cases hwv : w = v
      · have hpage := ho (hwv ▸ hw)
        rw [hdd, hwv, entry_of_tab ht hc] at he
        rw [he, Option.map_some] at hpage
        obtain ⟨e', he', hee⟩ := Option.map_eq_some_iff.mp hpage
        refine ⟨hd', w, e', hw, hi, hj, ?_, hee.trans hey⟩
        rw [hdd, hent, hwv, upd_self, he']
      · refine ⟨hd', w, e, hw, hi, hj, ?_, hey⟩
        rw [hdd, hent, upd_of_ne hwv, ← hdd]
        exact he
    · refine ⟨hd', w, e, hw, hi, hj, ?_, hey⟩
      rw [entry_setPte_of_ne hS.toTagged htag hd' hdd]
      exact he

/-- Memory after the page of an entry is freed and the entry cleared. -/
def Heap.released (A : Allocator κ) (h : Heap κ) (t : Page) (pte : Nat → Option Pte) (j : Nat)
    (x : Page) : Heap κ :=
  { h.freed A x with content := upd (h.freed A x).content t (.tab (upd pte j none)) }

/-- **A user page is freed** and is not mapped any more. -/
theorem Sharp.release {t : Page} {v : Nat} {pte : Nat → Option Pte} {e : Pte} (hE : Exact L)
    (hS : Sharp L ρ h) (hd : ρ d = .dir) (ht : table h d (pdx v) = some t)
    (hc : h.content t = .tab pte) (hv : v < KERNPAGE) (he : pte (ptx v) = some e) :
    Sharp L (upd ρ e.page .free) (h.released A t pte (ptx v) e.page) ∧
      table (h.released A t pte (ptx v) e.page) d = table h d ∧
      entry (h.released A t pte (ptx v) e.page) d = upd (entry h d) v none := by
  have hT := hS.toTagged
  have htag := (tag_of_table hT hd ht).1
  have hx : ρ e.page = .user d (pdx v) (ptx v) :=
    tag_of_entry hT hd hv (by rw [entry_of_tab ht hc, he])
  have hne : t ≠ e.page := ne_of_tag (ρ := ρ) (by simp [htag, hx])
  have hr := hT.range e.page (by simp [hx])
  have hnot : e.page ∉ L.free h.kmem := fun hmem => by cases hx.symm.trans (hT.free _ hmem)
  have hT1 : Tagged L ρ { h with content := upd h.content t (.tab (upd pte (ptx v) none)) } :=
    hT.setPte htag hc fun _ e' he' => by cases he'
  have hT2 := (hT.unmap htag hc (pdx_lt hv) he).freed (upd_self ..) hr
  rw [upd_upd] at hT2
  -- the two stores are to different pages
  have hheap : h.released A t pte (ptx v) e.page =
      { h with
        content := upd (upd h.content t (.tab (upd pte (ptx v) none))) e.page (filled 1)
        kmem := A.kfree e.page h.kmem } := by
    simp only [Heap.released, Heap.freed, upd_comm hne.symm]
  have hread : ∀ d', ρ d' = .dir →
      table (h.released A t pte (ptx v) e.page) d' =
          table { h with content := upd h.content t (.tab (upd pte (ptx v) none)) } d' ∧
        entry (h.released A t pte (ptx v) e.page) d' =
          entry { h with content := upd h.content t (.tab (upd pte (ptx v) none)) } d' := by
    intro d' hd'
    rw [hheap]
    exact read_upd hT1 hd' (by simp [hx]) (by simp [hx])
  obtain ⟨hent, htab⟩ := entry_setPte (o := none) hT hd ht hc
  refine ⟨⟨?_, ?_, ?_, ?_⟩, by rw [(hread d hd).1, htab], by rw [(hread d hd).2, hent]⟩
  · rw [hheap]
    exact hT2
  · intro y hy
    rw [hheap]
    show y ∈ L.free (A.kfree e.page h.kmem)
    rw [hE.kfree e.page h.kmem hT.ok hnot]
    by_cases hye : y = e.page
    · exact .inl hye
    · rw [upd_of_ne hye] at hy
      exact .inr (hS.isFree y hy)
  · intro y d' i j hy
    have hye : y ≠ e.page := by
      rintro rfl
      rw [upd_self] at hy
      cases hy
    rw [upd_of_ne hye] at hy
    obtain ⟨hd', w, e', hw, hi, hj, he', hey⟩ := hS.mapped y d' i j hy
    have hde : d' ≠ e.page := ne_of_tag (ρ := ρ) (by simp [hd', hx])
    refine ⟨by rw [upd_of_ne hde, hd'], w, e', hw, hi, hj, ?_, hey⟩
    rw [(hread d' hd').2]
    by_cases hdd : d' = d
    · have hwv : w ≠ v := by
        rintro rfl
        rw [hdd, entry_of_tab ht hc, he] at he'
        cases he'
        exact hye hey.symm
      rw [hdd, hent, upd_of_ne hwv, ← hdd]
      exact he'
    · rw [entry_setPte_of_ne hT htag hd' hdd]
      exact he'
  · intro t' d' i ht'
    have hte : t' ≠ e.page := by
      rintro rfl
      rw [upd_self] at ht'
      cases ht'
    rw [upd_of_ne hte] at ht'
    exact hS.index t' d' i ht'

/-- What a step of `deallocuvm` does to the other pages. -/
theorem released_content {t x y : Page} {pte : Nat → Option Pte} {j : Nat} (hyt : y ≠ t)
    (hyx : y ≠ x) : (h.released A t pte j x).content y = h.content y := by
  simp only [Heap.released, Heap.freed, upd_of_ne hyt, upd_of_ne hyx]

end Xv6.Vm
