import Xv6.Vm.Model
import Mathlib.Data.Set.Insert

/-!
# Vm — every page has one use

A tag says what a page is used for. A reference that the kernel follows
fixes the tag of the page that it refers to: a page on the free list is
`free`, the `i`-th entry of a directory `d` refers to a page tagged
`table d i`, and so on. As a page has one tag, it has one referrer.

A page may keep a tag that nothing refers to; such a page has leaked.
The tags are chosen by the proof; each function of `Vm.Model` comes with
a rule that gives the tags after it from the tags before it.
-/

namespace Xv6.Vm

open Lib

inductive Tag
  | free
  /-- Held by a pointer that is not of the page tables, or not in use. -/
  | held
  | dir
  | table (d : Page) (i : Nat)
  | user (d : Page) (i j : Nat)

/-- What the proofs need of an allocator: it hands out the pages of `free`,
and a page that it handed out only after `kfree`. -/
structure Lawful {κ : Type} (A : Allocator κ) where
  free : κ → Set Page
  ok : κ → Prop
  zero : A.valid 0 = false
  kalloc_none : ∀ u k k', ok k → A.kalloc u k = (none, k') → ok k' ∧ free k' ⊆ free k
  kalloc_some : ∀ u k x k', ok k → A.kalloc u k = (some x, k') →
    ok k' ∧ x ∈ free k ∧ x ∉ free k' ∧ free k' ⊆ free k
  kfree : ∀ x k, ok k → x ∉ free k → ok (A.kfree x k) ∧ free (A.kfree x k) ⊆ insert x (free k)

variable {κ : Type} {A : Allocator κ} {L : Lawful A}

/-- The references in memory agree with the tags. -/
structure Tagged (L : Lawful A) (ρ : Page → Tag) (h : Heap κ) : Prop where
  ok : L.ok h.kmem
  free : ∀ x ∈ L.free h.kmem, ρ x = .free
  range : ∀ x, ρ x ≠ .held → A.valid x = true
  dir : ∀ d, ρ d = .dir →
    ∃ pde, h.content d = .dir pde ∧ ∀ i t, pde i = some t → ρ t = .table d i
  tab : ∀ t d i, ρ t = .table d i →
    (ρ d = .dir ∧ ∃ pde, h.content d = .dir pde ∧ pde i = some t) ∧
    ∃ pte, h.content t = .tab pte ∧
      (i < pdx KERNPAGE → ∀ j e, pte j = some e → ρ e.page = .user d i j)

/-- Pages that pointers outside the page tables may refer to keep their tag,
but for those of `S`. -/
def Keeps (S : Set Page) (ρ ρ' : Page → Tag) : Prop :=
  ∀ x, x ∉ S → ρ x = .held ∨ ρ x = .dir → ρ' x = ρ x

theorem Keeps.refl (S : Set Page) (ρ : Page → Tag) : Keeps S ρ ρ := fun _ _ _ => rfl

theorem Keeps.trans {S S' : Set Page} {ρ ρ' ρ'' : Page → Tag} (h : Keeps S ρ ρ')
    (h' : Keeps S' ρ' ρ'') (hS : ∀ x ∈ S', ρ x = .held ∨ ρ x = .dir → x ∈ S) :
    Keeps S ρ ρ'' := by
  intro x hx hρ
  have h1 : ρ' x = ρ x := h x hx hρ
  rw [h' x (fun hx' => hx (hS x hx' hρ)) (h1 ▸ hρ), h1]

/-- Memory can be tagged, with the tags of `ρ` where pointers may refer. -/
def Tracks (L : Lawful A) (ρ : Page → Tag) (S : Set Page) (h : Heap κ) : Prop :=
  ∃ ρ', Tagged L ρ' h ∧ Keeps S ρ ρ'

/-- So it can where a program panics. -/
def Halts (L : Lawful A) (ρ : Page → Tag) (S : Set Page) (e : Stop × Heap κ) : Prop :=
  e.1 ≠ .junk ∧ Tracks L ρ S e.2

theorem Tracks.trans {S S' : Set Page} {ρ ρ' : Page → Tag} {h : Heap κ} (hk : Keeps S ρ ρ')
    (ht : Tracks L ρ' S' h) (hS : ∀ x ∈ S', ρ x = .held ∨ ρ x = .dir → x ∈ S) :
    Tracks L ρ S h := by
  obtain ⟨ρ'', hT, hk'⟩ := ht
  exact ⟨ρ'', hT, hk.trans hk' hS⟩

theorem Halts.trans {S S' : Set Page} {ρ ρ' : Page → Tag} {e : Stop × Heap κ}
    (hk : Keeps S ρ ρ') (ht : Halts L ρ' S' e)
    (hS : ∀ x ∈ S', ρ x = .held ∨ ρ x = .dir → x ∈ S) : Halts L ρ S e :=
  ⟨ht.1, ht.2.trans hk hS⟩

section Rules

variable {ρ : Page → Tag} {h : Heap κ} {d : Page}

/-! ## Retagging -/

theorem ne_of_tag {x y : Page} (h : ρ x ≠ ρ y) : x ≠ y := fun hxy => h (hxy ▸ rfl)

/-- A page that is neither a directory nor a page table takes another content. -/
theorem Tagged.setPage {x : Page} (hT : Tagged L ρ h) (hxd : ρ x ≠ .dir)
    (hxt : ∀ d i, ρ x ≠ .table d i) (c : Content) :
    Tagged L ρ { h with content := upd h.content x c } where
  ok := hT.ok
  free := hT.free
  range := hT.range
  dir d hd := by
    have hne : d ≠ x := fun hdx => hxd (hdx ▸ hd)
    simpa only [upd_of_ne hne] using hT.dir d hd
  tab t d i ht := by
    obtain ⟨⟨hd, hpde⟩, hpte⟩ := hT.tab t d i ht
    have hdx : d ≠ x := fun hdx => hxd (hdx ▸ hd)
    have htx : t ≠ x := fun htx => hxt d i (htx ▸ ht)
    simp only [upd_of_ne hdx, upd_of_ne htx]
    exact ⟨⟨hd, hpde⟩, hpte⟩

/-- A page that nothing refers to takes another content. -/
theorem Tagged.setHeld {x : Page} (hT : Tagged L ρ h) (hx : ρ x = .held) (c : Content) :
    Tagged L ρ { h with content := upd h.content x c } :=
  hT.setPage (by simp [hx]) (by simp [hx]) c

/-- No reference in memory leads to a page. -/
structure Loose (L : Lawful A) (ρ : Page → Tag) (h : Heap κ) (x : Page) : Prop where
  free : x ∉ L.free h.kmem
  dir : ∀ d pde i, ρ d = .dir → h.content d = .dir pde → pde i ≠ some x
  tab : ∀ t d i pte j e, ρ t = .table d i → h.content t = .tab pte → i < pdx KERNPAGE →
    pte j = some e → e.page ≠ x

theorem Tagged.loose {x : Page} (hT : Tagged L ρ h) (hfree : x ∉ L.free h.kmem)
    (hx : ρ x = .held ∨ ρ x = .free) : Loose L ρ h x where
  free := hfree
  dir d pde i hd hc hi := by
    obtain ⟨pde', hc', hpde'⟩ := hT.dir d hd
    cases hc.symm.trans hc'
    simp [hpde' i x hi] at hx
  tab t d i pte j e ht hc hi he hex := by
    obtain ⟨_, pte', hc', hpte'⟩ := hT.tab t d i ht
    cases hc.symm.trans hc'
    subst hex
    simp [hpte' hi j e he] at hx

theorem Tagged.loose_of_held {x : Page} (hT : Tagged L ρ h) (hx : ρ x = .held) :
    Loose L ρ h x :=
  hT.loose (fun hmem => by cases hx.symm.trans (hT.free x hmem)) (.inl hx)

/-- **Retagging**: a page that no reference leads to gets another tag, if it
is not a directory and does not become a table. -/
theorem Tagged.retag {x : Page} (hT : Tagged L ρ h) (hx : Loose L ρ h x) (hxd : ρ x ≠ .dir)
    (τ : Tag) (hr : τ ≠ .held → A.valid x = true)
    (hdir : τ = .dir → h.content x = .dir fun _ => none) (htab : ∀ d i, τ ≠ .table d i) :
    Tagged L (upd ρ x τ) h where
  ok := hT.ok
  free y hy := by
    have hne : y ≠ x := fun hyx => hx.free (hyx ▸ hy)
    rw [upd_of_ne hne, hT.free y hy]
  range y hy := by
    by_cases hyx : y = x
    · subst hyx
      exact hr (by rwa [upd_self] at hy)
    · exact hT.range y (by rwa [upd_of_ne hyx] at hy)
  dir d hd := by
    by_cases hdx : d = x
    · subst hdx
      exact ⟨_, hdir (by rwa [upd_self] at hd), fun i t hi => by cases hi⟩
    · rw [upd_of_ne hdx] at hd
      obtain ⟨pde, hc, hpde⟩ := hT.dir d hd
      refine ⟨pde, hc, fun i t hi => ?_⟩
      have hne : t ≠ x := fun htx => hx.dir d pde i hd hc (htx ▸ hi)
      rw [upd_of_ne hne, hpde i t hi]
  tab t d i ht := by
    have htx : t ≠ x := by
      rintro rfl
      exact htab d i (by rwa [upd_self] at ht)
    rw [upd_of_ne htx] at ht
    obtain ⟨⟨hd, hpde⟩, pte, hc, hpte⟩ := hT.tab t d i ht
    have hdx : d ≠ x := fun hdx => hxd (hdx ▸ hd)
    refine ⟨⟨by rw [upd_of_ne hdx, hd], hpde⟩, pte, hc, fun hi j e he => ?_⟩
    rw [upd_of_ne (hx.tab t d i pte j e ht hc hi he), hpte hi j e he]

/-- A page that nothing refers to becomes an empty page table of a
directory that has none there. -/
theorem Tagged.newTable {x : Page} {pde : Nat → Option Page} {i : Nat} (hT : Tagged L ρ h)
    (hd : ρ d = .dir) (hpde : h.content d = .dir pde) (hi : pde i = none) (hx : ρ x = .held)
    (hr : A.valid x = true) :
    Tagged L (upd ρ x (.table d i))
      { h with
        content := upd (upd h.content x (.tab fun _ => none)) d (.dir (upd pde i (some x))) } where
  ok := hT.ok
  free y hy := by
    have hne : y ≠ x := ne_of_tag (ρ := ρ) (by simp [hx, hT.free y hy])
    rw [upd_of_ne hne, hT.free y hy]
  range y hy := by
    by_cases hyx : y = x
    · exact hyx ▸ hr
    · exact hT.range y (by rwa [upd_of_ne hyx] at hy)
  dir d' hd' := by
    have hdx : d' ≠ x := by
      rintro rfl
      simp at hd'
    rw [upd_of_ne hdx] at hd'
    obtain ⟨pde', hc, hpde'⟩ := hT.dir d' hd'
    have old : ∀ i' t, pde' i' = some t → upd ρ x (.table d i) t = .table d' i' := by
      intro i' t ht
      have hne : t ≠ x := ne_of_tag (ρ := ρ) (by simp [hx, hpde' i' t ht])
      rw [upd_of_ne hne, hpde' i' t ht]
    by_cases hdd : d' = d
    · subst hdd
      cases hc.symm.trans hpde
      refine ⟨_, upd_self .., fun i' t ht => ?_⟩
      by_cases hii : i' = i
      · subst hii
        rw [upd_self, Option.some_inj] at ht
        rw [← ht, upd_self]
      · rw [upd_of_ne hii] at ht
        exact old i' t ht
    · simp only [upd_of_ne hdd, upd_of_ne hdx]
      exact ⟨pde', hc, old⟩
  tab t d' i' ht := by
    have hdx : d ≠ x := ne_of_tag (ρ := ρ) (by simp [hx, hd])
    by_cases htx : t = x
    · subst htx
      rw [upd_self] at ht
      cases ht
      refine ⟨⟨by rw [upd_of_ne hdx, hd], _, upd_self .., upd_self ..⟩, fun _ => none, ?_,
        fun _ j e he => by cases he⟩
      simp only [upd_of_ne hdx.symm, upd_self]
    · rw [upd_of_ne htx] at ht
      obtain ⟨⟨hd', pde', hc', hpde'⟩, pte, hc, hpte⟩ := hT.tab t d' i' ht
      have hdx' : d' ≠ x := ne_of_tag (ρ := ρ) (by simp [hx, hd'])
      have htd : t ≠ d := ne_of_tag (ρ := ρ) (by simp [hd, ht])
      refine ⟨⟨by rw [upd_of_ne hdx', hd'], ?_⟩, pte, ?_, fun hlt j e he => ?_⟩
      · by_cases hdd : d' = d
        · subst hdd
          cases hc'.symm.trans hpde
          have hii : i' ≠ i := by
            rintro rfl
            cases hi.symm.trans hpde'
          exact ⟨_, upd_self .., by rw [upd_of_ne hii, hpde']⟩
        · simp only [upd_of_ne hdd, upd_of_ne hdx']
          exact ⟨pde', hc', hpde'⟩
      · simp only [upd_of_ne htd, upd_of_ne htx, hc]
      · have hne : e.page ≠ x := ne_of_tag (ρ := ρ) (by simp [hx, hpte hlt j e he])
        rw [upd_of_ne hne, hpte hlt j e he]

/-- An entry of a page table changes. -/
theorem Tagged.setPte {t : Page} {i j : Nat} {pte : Nat → Option Pte} {o : Option Pte}
    (hT : Tagged L ρ h) (ht : ρ t = .table d i) (hpte : h.content t = .tab pte)
    (ho : i < pdx KERNPAGE → ∀ e, o = some e → ρ e.page = .user d i j) :
    Tagged L ρ { h with content := upd h.content t (.tab (upd pte j o)) } where
  ok := hT.ok
  free := hT.free
  range := hT.range
  dir d' hd' := by
    have hne : d' ≠ t := ne_of_tag (ρ := ρ) (by simp [ht, hd'])
    simpa only [upd_of_ne hne] using hT.dir d' hd'
  tab t' d' i' ht' := by
    obtain ⟨⟨hd', hpde'⟩, pte', hc, hpte'⟩ := hT.tab t' d' i' ht'
    have hne : d' ≠ t := ne_of_tag (ρ := ρ) (by simp [ht, hd'])
    simp only [upd_of_ne hne]
    refine ⟨⟨hd', hpde'⟩, ?_⟩
    by_cases htt : t' = t
    · subst htt
      cases ht.symm.trans ht'
      cases hpte.symm.trans hc
      refine ⟨_, upd_self .., fun hi j' e he => ?_⟩
      by_cases hjj : j' = j
      · subst hjj
        rw [upd_self] at he
        exact ho hi e he
      · rw [upd_of_ne hjj] at he
        exact hpte' hi j' e he
    · simp only [upd_of_ne htt]
      exact ⟨pte', hc, hpte'⟩

/-- A directory has one page table at an index. -/
theorem Tagged.table_unique {t t' : Page} {i : Nat} (hT : Tagged L ρ h) (ht : ρ t = .table d i)
    (ht' : ρ t' = .table d i) : t = t' := by
  obtain ⟨⟨_, pde, hc, hi⟩, _⟩ := hT.tab t d i ht
  obtain ⟨⟨_, pde', hc', hi'⟩, _⟩ := hT.tab t' d i ht'
  cases hc.symm.trans hc'
  exact Option.some_inj.mp (hi.symm.trans hi')

/-- **Unmapping**: once the entry of a user page is cleared, nothing refers
to the page. -/
theorem Tagged.unmap {t : Page} {i j : Nat} {pte : Nat → Option Pte} {e : Pte}
    (hT : Tagged L ρ h) (ht : ρ t = .table d i) (hpte : h.content t = .tab pte)
    (hi : i < pdx KERNPAGE) (he : pte j = some e) :
    Tagged L (upd ρ e.page .held)
      { h with content := upd h.content t (.tab (upd pte j none)) } := by
  have hx : ρ e.page = .user d i j := by
    obtain ⟨_, pte', hc, hpte'⟩ := hT.tab t d i ht
    cases hpte.symm.trans hc
    exact hpte' hi j e he
  have hT' := hT.setPte (j := j) (o := none) ht hpte (fun _ e he => by cases he)
  refine hT'.retag ⟨?_, ?_, ?_⟩ (by simp [hx]) .held (absurd rfl) (by simp) (by simp)
  · intro hmem
    cases hx.symm.trans (hT.free _ hmem)
  · intro d' pde i' hd' hc hi'
    obtain ⟨pde', hc', hpde'⟩ := hT'.dir d' hd'
    cases hc.symm.trans hc'
    cases hx.symm.trans (hpde' i' _ hi')
  · intro t' d' i' pte' j' e' ht' hc hlt he' hee
    obtain ⟨_, pte'', hc', hpte'⟩ := hT'.tab t' d' i' ht'
    cases hc.symm.trans hc'
    -- another entry for the page is this very entry, which is clear
    cases hx.symm.trans (hee ▸ hpte' hlt j' e' he')
    obtain rfl := hT.table_unique ht ht'
    simp only [upd_self] at hc
    cases hc
    simp at he'

/-- What belongs to a directory is not in use any more. -/
def drop (d : Page) (ρ : Page → Tag) (x : Page) : Tag :=
  if x = d then .held
  else match ρ x with
    | .table d' i => if d' = d then .held else .table d' i
    | .user d' i j => if d' = d then .held else .user d' i j
    | τ => τ

theorem Tagged.drop (hT : Tagged L ρ h) (hd : ρ d = .dir) : Tagged L (Vm.drop d ρ) h where
  ok := hT.ok
  free y hy := by
    have hne : y ≠ d := ne_of_tag (ρ := ρ) (by simp [hd, hT.free y hy])
    simp [Vm.drop, hne, hT.free y hy]
  range y hy := by
    refine hT.range y fun hheld => hy ?_
    simp [Vm.drop, hheld]
  dir d' hd' := by
    have hne : d' ≠ d := by
      rintro rfl
      simp [Vm.drop] at hd'
    have hρ : ρ d' = .dir := by
      revert hd'
      simp only [Vm.drop, hne, if_false]
      cases ρ d' <;> simp <;> split <;> simp
    obtain ⟨pde, hc, hpde⟩ := hT.dir d' hρ
    refine ⟨pde, hc, fun i t hi => ?_⟩
    have htd : t ≠ d := ne_of_tag (ρ := ρ) (by simp [hd, hpde i t hi])
    simp [Vm.drop, htd, hpde i t hi, hne]
  tab t d' i ht := by
    have htd : t ≠ d := by
      rintro rfl
      simp [Vm.drop] at ht
    have hρ : ρ t = .table d' i ∧ d' ≠ d := by
      revert ht
      simp only [Vm.drop, htd, if_false]
      cases hρ : ρ t with
      | table d'' i' =>
          by_cases hdd : d'' = d
          · simp [hdd]
          · simp only [hdd, if_false]
            rintro h
            cases h
            exact ⟨rfl, hdd⟩
      | user d'' i' j => by_cases hdd : d'' = d <;> simp [hdd]
      | _ => simp
    obtain ⟨⟨hd', hpde⟩, pte, hc, hpte⟩ := hT.tab t d' i hρ.1
    refine ⟨⟨by simp [Vm.drop, hρ.2, hd'], hpde⟩, pte, hc, fun hi j e he => ?_⟩
    have hed : e.page ≠ d := ne_of_tag (ρ := ρ) (by simp [hd, hpte hi j e he])
    simp [Vm.drop, hed, hpte hi j e he, hρ.2]

theorem keeps_drop (d : Page) (ρ : Page → Tag) : Keeps {d} ρ (Vm.drop d ρ) := by
  intro x hx hρ
  have hne : x ≠ d := hx
  rcases hρ with hρ | hρ <;> simp [Vm.drop, hne, hρ]

/-! ## The allocator -/

/-- The allocator has fewer pages than before. -/
theorem Tagged.shrink {k : κ} (hT : Tagged L ρ h) (hk : L.ok k)
    (hsub : L.free k ⊆ L.free h.kmem) : Tagged L ρ { h with kmem := k } :=
  ⟨hk, fun x hx => hT.free x (hsub hx), hT.range, hT.dir, hT.tab⟩

theorem keeps_upd {x : Page} {S : Set Page} (τ : Tag) (h : ρ x = .held ∨ ρ x = .dir → x ∈ S) :
    Keeps S ρ (upd ρ x τ) := by
  intro y hy hρ
  have hne : y ≠ x := by
    rintro rfl
    exact hy (h hρ)
  exact upd_of_ne hne

/-- **`kalloc`** takes a free page, which becomes held. -/
theorem kalloc_rule (u : Use) (hT : Tagged L ρ h) :
    Ensures (kalloc A u) h (fun _ => False) fun r h' => h'.content = h.content ∧
      match r with
      | none => Tagged L ρ h'
      | some x => ρ x = .free ∧ A.valid x = true ∧ Tagged L (upd ρ x .held) h' := by
  unfold Ensures kalloc
  rcases hk : A.kalloc u h.kmem with ⟨_ | x, k⟩
  · obtain ⟨hok, hsub⟩ := L.kalloc_none u h.kmem k hT.ok hk
    exact ⟨rfl, hT.shrink hok hsub⟩
  · obtain ⟨hok, hmem, hnot, hsub⟩ := L.kalloc_some u h.kmem x k hT.ok hk
    have hx : ρ x = .free := hT.free x hmem
    have hT' : Tagged L ρ { h with kmem := k } := hT.shrink hok hsub
    exact ⟨rfl, hx, hT.range x (by simp [hx]), hT'.retag (hT'.loose hnot (.inr hx)) (by simp [hx])
      .held (absurd rfl) (by simp) (by simp)⟩

/-- What `kfree` does to memory. -/
def Heap.freed (A : Allocator κ) (h : Heap κ) (x : Page) : Heap κ :=
  { h with content := upd h.content x (filled 1), kmem := A.kfree x h.kmem }

theorem freed_of_ne {x y : Page} (hne : y ≠ x) : (h.freed A x).content y = h.content y :=
  upd_of_ne hne

theorem ensures_kfree {x : Page} (hr : A.valid x = true) {E : Stop × Heap κ → Prop}
    {Q : Unit → Heap κ → Prop} :
    Ensures (kfree A x) h E Q ↔ Q () (h.freed A x) := by
  simp only [kfree, hr, Bool.true_eq_false, if_false, ensures_modify]
  exact Iff.rfl

/-- **`kfree`** of a page that is held. -/
theorem Tagged.freed {x : Page} (hT : Tagged L ρ h) (hx : ρ x = .held)
    (hr : A.valid x = true) : Tagged L (upd ρ x .free) (h.freed A x) := by
  have hT' := hT.setHeld hx (filled 1)
  have hloose := hT'.loose_of_held hx
  have hT'' := hT'.retag hloose (by simp [hx]) .free (fun _ => hr) (by simp) (by simp)
  obtain ⟨hok, hsub⟩ := L.kfree x h.kmem hT.ok hloose.free
  refine ⟨hok, fun y hy => ?_, hT''.range, hT''.dir, hT''.tab⟩
  rcases hsub hy with rfl | hy
  · exact upd_self ..
  · exact hT''.free y hy

end Rules

end Xv6.Vm
