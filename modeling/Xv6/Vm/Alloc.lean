import Xv6.Vm.Map
import Xv6.Vm.Dealloc

/-!
# Vm — `allocuvm`

`allocuvm` does not look whether `mappages` found a page table. A page
whose table could not be made is taken from the free list and not mapped;
the call goes on, and may still report success. `serve` follows the
answers of `kalloc` and tells which pages are lost in this way, and
whether a call for a page fails in the end.
-/

namespace Xv6.Vm

open Lib

variable {κ : Type} {A : Allocator κ} {L : Lawful A} {ρ ρ' ρ₁ : Page → Tag} {h h' h₁ : Heap κ}
  {d : Page} {v n : Nat}

/-! ## The answers of `kalloc` -/

structure Served (κ : Type) where
  /-- How many pages `kalloc` hands out. -/
  count : Nat
  /-- Whether it then fails. -/
  short : Bool
  /-- The pages for which no page table could be made. -/
  lost : List Nat
  /-- Which page tables there are in the end, and the allocator then. -/
  tab : Nat → Bool
  kmem : κ

def Served.one (s : Served κ) : Served κ := { s with count := s.count + 1 }

def Served.lose (s : Served κ) (v : Nat) : Served κ :=
  { s with count := s.count + 1, lost := v :: s.lost }

/-- What `kalloc` answers to `allocuvm`, for `n` pages from `v`, when the
directory has the page tables of `tab`. -/
def serve (A : Allocator κ) : Nat → Nat → (Nat → Bool) → κ → Served κ
  | 0, _, tab, k => ⟨0, false, [], tab, k⟩
  | n + 1, v, tab, k =>
      match A.kalloc .page k with
      | (none, k) => ⟨0, true, [], tab, k⟩
      | (some _, k) =>
          if tab (pdx v) then (serve A n (v + 1) tab k).one
          else
            match A.kalloc .table k with
            | (none, k) => (serve A n (v + 1) tab k).lose v
            | (some _, k) => (serve A n (v + 1) (upd tab (pdx v) true) k).one

/-- The pages that are mapped in the end. -/
def Served.Maps (s : Served κ) (v w : Nat) : Prop := v ≤ w ∧ w < v + s.count ∧ w ∉ s.lost

section Serve

variable {tab : Nat → Bool} {k k₁ k₂ : κ} {m t : Page}

theorem serve_short (hk : A.kalloc .page k = (none, k₁)) :
    serve A (n + 1) v tab k = ⟨0, true, [], tab, k₁⟩ := by
  simp only [serve, hk]

theorem serve_present (hk : A.kalloc .page k = (some m, k₁)) (ht : tab (pdx v) = true) :
    serve A (n + 1) v tab k = (serve A n (v + 1) tab k₁).one := by
  simp only [serve, hk, ht, if_true]

theorem serve_lose (hk : A.kalloc .page k = (some m, k₁)) (ht : tab (pdx v) = false)
    (hk' : A.kalloc .table k₁ = (none, k₂)) :
    serve A (n + 1) v tab k = (serve A n (v + 1) tab k₂).lose v := by
  simp only [serve, hk, ht, Bool.false_eq_true, if_false, hk']

theorem serve_new (hk : A.kalloc .page k = (some m, k₁)) (ht : tab (pdx v) = false)
    (hk' : A.kalloc .table k₁ = (some t, k₂)) :
    serve A (n + 1) v tab k = (serve A n (v + 1) (upd tab (pdx v) true) k₂).one := by
  simp only [serve, hk, ht, Bool.false_eq_true, if_false, hk']

/-- What can be said of the answers for `n` pages from `v`: all pages are handed
out where no call for a page fails, the pages lost are among them, and the
page tables that there were are still there. -/
structure Served.Within (s : Served κ) (n v : Nat) (tab : Nat → Bool) : Prop where
  count_le : s.count ≤ n
  full : s.short = false → s.count = n
  lost : ∀ {w}, w ∈ s.lost → v ≤ w ∧ w < v + s.count
  tab : ∀ {i}, tab i = true → s.tab i = true

theorem Served.Within.one {s : Served κ} {tab' : Nat → Bool} (h : s.Within n (v + 1) tab')
    (htab : ∀ i, tab i = true → tab' i = true) : s.one.Within (n + 1) v tab where
  count_le := Nat.succ_le_succ h.count_le
  full hs := congrArg (· + 1) (h.full hs)
  lost hw := by
    have := h.lost hw
    simp only [Served.one]
    omega
  tab hi := h.tab (htab _ hi)

theorem Served.Within.lose {s : Served κ} (h : s.Within n (v + 1) tab) :
    (s.lose v).Within (n + 1) v tab where
  count_le := Nat.succ_le_succ h.count_le
  full hs := congrArg (· + 1) (h.full hs)
  lost hw := by
    simp only [Served.lose] at hw ⊢
    rcases List.mem_cons.mp hw with rfl | hw
    · omega
    · have := h.lost hw
      omega
  tab hi := h.tab hi

theorem serve_within : (serve A n v tab k).Within n v tab := by
  induction n generalizing v tab k with
  | zero => exact ⟨Nat.le_refl 0, fun _ => rfl, fun hw => absurd hw List.not_mem_nil, id⟩
  | succ n ih =>
      rcases hk : A.kalloc .page k with ⟨_ | m, k₁⟩
      · rw [serve_short hk]
        exact ⟨Nat.zero_le _, fun hs => absurd hs Bool.noConfusion,
          fun hw => absurd hw List.not_mem_nil, id⟩
      · cases ht : tab (pdx v) with
        | true =>
            rw [serve_present hk ht]
            exact ih.one fun _ hi => hi
        | false =>
            rcases hk' : A.kalloc .table k₁ with ⟨_ | t, k₂⟩
            · rw [serve_lose hk ht hk']
              exact ih.lose
            · rw [serve_new hk ht hk']
              refine ih.one fun i hi => ?_
              by_cases hiv : i = pdx v
              · rw [hiv, upd_self]
              · rw [upd_of_ne hiv, hi]

end Serve

/-! ## The pages handed out -/

/-- From `h` to `h'` the pages that `s` says are taken from the free list, from
`v` on, and mapped at `d`. -/
structure Grown (L : Lawful A) (d : Page) (v : Nat) (s : Served κ) (ρ : Page → Tag) (h : Heap κ)
    (ρ' : Page → Tag) (h' : Heap κ) : Prop where
  sharp : Sharp L ρ' h'
  kept : ∀ x, ρ x ≠ .free → ρ' x = ρ x
  content : ∀ x, ρ x ≠ .free → x ≠ d → (∀ i, ρ x ≠ .table d i) → h'.content x = h.content x
  tables : tables h' d = s.tab
  kmem : h'.kmem = s.kmem
  mapped : ∀ w, s.Maps v w →
    ∃ m, entry h' d w = some ⟨m, true, true⟩ ∧ ρ m = .free ∧ h'.content m = filled 0
  same : ∀ w, ¬ s.Maps v w → entry h' d w = entry h d w
  taken : ∀ x, ρ x = .free → ρ' x = .free ∨ (∃ i, ρ' x = .table d i) ∨
    (∃ w, s.Maps v w ∧ ρ' x = .user d (pdx w) (ptx w)) ∨ ρ' x = .held ∧ s.lost ≠ []
  lost : s.lost ≠ [] → ∃ x, ρ x = .free ∧ ρ' x = .held

theorem read_content (hc : h'.content = h.content) (d : Page) :
    table h' d = table h d ∧ entry h' d = entry h d := by
  have htab : table h' d = table h d := by
    funext i
    simp only [table, hc]
  refine ⟨htab, ?_⟩
  funext v
  exact entry_congr (by rw [htab]) fun t _ => by rw [hc]

theorem Grown.nothing {b : Bool} (hS : Sharp L ρ h') (hc : h'.content = h.content) :
    Grown L d v ⟨0, b, [], Vm.tables h d, h'.kmem⟩ ρ h ρ h' where
  sharp := hS
  kept _ _ := rfl
  content _ _ _ _ := by rw [hc]
  tables := by
    funext i
    simp only [Vm.tables, (read_content hc d).1]
  kmem := rfl
  mapped w hw := absurd hw.2.1 (Nat.not_lt.mpr hw.1)
  same _ _ := by rw [(read_content hc d).2]
  taken _ hx := .inl hx
  lost h := absurd rfl h

/-- **One page more, mapped.** -/
theorem Grown.one {s : Served κ} {m : Page} (hM : Mapped L d v m (filled 0) true true ρ h ρ₁ h₁) (hd : ρ d = .dir)
    (hlost : ∀ w ∈ s.lost, v + 1 ≤ w) (hG : Grown L d (v + 1) s ρ₁ h₁ ρ' h') :
    Grown L d v s.one ρ h ρ' h' := by
  have hmaps : ∀ w, s.one.Maps v w ↔ w = v ∨ s.Maps (v + 1) w := by
    intro w
    unfold Served.Maps Served.one
    constructor
    · rintro ⟨h1, h2, h3⟩
      simp only at h2 h3
      by_cases hwv : w = v
      · exact .inl hwv
      · exact .inr ⟨by omega, by omega, h3⟩
    · rintro (rfl | ⟨h1, h2, h3⟩)
      · refine ⟨Nat.le_refl _, by simp only; omega, fun hw => ?_⟩
        have := hlost w hw
        omega
      · exact ⟨by omega, by simp only; omega, h3⟩
  have hnot : ¬ s.Maps (v + 1) v := fun hv => by
    have := hv.1
    omega
  -- the new page is used from here on
  have hm1 : ρ₁ m ≠ .free := by simp [hM.tag]
  have hmd : m ≠ d := ne_of_tag (ρ := ρ) (by simp [hd, hM.free])
  refine ⟨hG.sharp, ?_, ?_, hG.tables, hG.kmem, ?_, ?_, ?_, ?_⟩
  · intro x hx
    have hx1 := hM.kept x hx
    rw [hG.kept x (by rwa [hx1]), hx1]
  · intro x hx hxd hxt
    have hx1 := hM.kept x hx
    rw [hG.content x (by rwa [hx1]) hxd (by rwa [hx1]), hM.content x hx hxd hxt]
  · intro w hw
    rcases (hmaps w).mp hw with rfl | hw
    · refine ⟨m, ?_, hM.free, ?_⟩
      · rw [hG.same w hnot, hM.entry, upd_self]
      · rw [hG.content m hm1 hmd (by simp [hM.tag]), hM.page]
    · obtain ⟨m', he, hfree, hc⟩ := hG.mapped w hw
      refine ⟨m', he, ?_, hc⟩
      by_contra hne
      rw [hM.kept m' hne] at hfree
      exact hne hfree
  · intro w hw
    rw [hmaps] at hw
    push Not at hw
    rw [hG.same w hw.2, hM.entry, upd_of_ne hw.1]
  · intro x hx
    by_cases hxm : x = m
    · right; right; left
      refine ⟨v, (hmaps v).mpr (.inl rfl), ?_⟩
      rw [hxm, hG.kept m hm1, hM.tag]
    · rcases hM.taken x hx hxm with hx1 | hx1
      · rcases hG.taken x hx1 with h | h | ⟨w, hw, h⟩ | h
        · exact .inl h
        · exact .inr (.inl h)
        · exact .inr (.inr (.inl ⟨w, (hmaps w).mpr (.inr hw), h⟩))
        · exact .inr (.inr (.inr h))
      · exact .inr (.inl ⟨pdx v, by rw [hG.kept x (by simp [hx1]), hx1]⟩)
  · intro hl
    obtain ⟨x, hx, hx'⟩ := hG.lost hl
    refine ⟨x, ?_, hx'⟩
    by_contra hne
    rw [hM.kept x hne] at hx
    exact hne hx

/-- **One page more, lost.** -/
theorem Grown.lose {s : Served κ} {m : Page} (hm : ρ m = .free)
    (htag : ρ₁ = upd ρ m .held) (hc : ∀ x, x ≠ m → h₁.content x = h.content x)
    (hent : entry h₁ d = entry h d)
    (hG : Grown L d (v + 1) s ρ₁ h₁ ρ' h') : Grown L d v (s.lose v) ρ h ρ' h' := by
  subst htag
  have hmaps : ∀ w, (s.lose v).Maps v w ↔ s.Maps (v + 1) w := by
    intro w
    unfold Served.Maps Served.lose
    simp only [List.mem_cons, not_or]
    constructor
    · rintro ⟨h1, h2, h3, h4⟩
      exact ⟨by omega, by omega, h4⟩
    · rintro ⟨h1, h2, h3⟩
      exact ⟨by omega, by omega, by omega, h3⟩
  have hne : ∀ x, ρ x ≠ .free → x ≠ m := fun x hx hxm => hx (hxm ▸ hm)
  have hmheld : upd ρ m .held m = .held := upd_self ..
  refine ⟨hG.sharp, ?_, ?_, hG.tables, hG.kmem, ?_, ?_, ?_, ?_⟩
  · intro x hx
    have hx1 : upd ρ m .held x = ρ x := upd_of_ne (hne x hx)
    rw [hG.kept x (by rwa [hx1]), hx1]
  · intro x hx hxd hxt
    have hx1 : upd ρ m .held x = ρ x := upd_of_ne (hne x hx)
    rw [hG.content x (by rwa [hx1]) hxd (by rwa [hx1]), hc x (hne x hx)]
  · intro w hw
    obtain ⟨m', he, hfree, hc'⟩ := hG.mapped w ((hmaps w).mp hw)
    refine ⟨m', he, ?_, hc'⟩
    have hmm : m' ≠ m := by
      rintro rfl
      rw [hmheld] at hfree
      cases hfree
    rwa [upd_of_ne hmm] at hfree
  · intro w hw
    rw [hG.same w fun hw' => hw ((hmaps w).mpr hw'), hent]
  · intro x hx
    by_cases hxm : x = m
    · right; right; right
      refine ⟨?_, List.cons_ne_nil _ _⟩
      rw [hxm, hG.kept m (by simp), hmheld]
    · have hx1 : upd ρ m .held x = .free := by rw [upd_of_ne hxm, hx]
      rcases hG.taken x hx1 with h | h | ⟨w, hw, h⟩ | h
      · exact .inl h
      · exact .inr (.inl h)
      · exact .inr (.inr (.inl ⟨w, (hmaps w).mpr hw, h⟩))
      · exact .inr (.inr (.inr ⟨h.1, List.cons_ne_nil _ _⟩))
  · intro _
    exact ⟨m, hm, by rw [hG.kept m (by simp), hmheld]⟩

/-- Another directory is as before. -/
theorem Grown.others {s : Served κ} {d' : Page} (hG : Grown L d v s ρ h ρ' h') (hS : Sharp L ρ h)
    (hd : ρ d = .dir) (hd' : ρ d' = .dir) (hne : d' ≠ d) : entry h' d' = entry h d' := by
  apply (read_frame hS.toTagged hd' ?_ ?_).2
  · exact hG.content d' (by simp [hd']) hne (by simp [hd'])
  · intro t i ht
    apply hG.content t (by simp [ht])
    · exact ne_of_tag (ρ := ρ) (by simp [hd, ht])
    · intro i' ht'
      rw [ht] at ht'
      cases ht'
      exact hne rfl

/-! ## The loop -/

/-- **The loop of `allocuvm`** follows the answers of `kalloc`; if a call for a
page fails it leaves the rest to `deallocuvm`. Of its `n` pages the first `f` are
not mapped; it panics if it comes to the next one and gets a page for it. -/
theorem allocLoop_grown {oldsz newsz f : Nat} (hE : Exact L) (hS : Sharp L ρ h) (hd : ρ d = .dir)
    (hnew : newsz ≤ KERNBASE) (htop : v + n ≤ KERNPAGE) (hfn : f ≤ n)
    (hfree : ∀ w, v ≤ w → w < v + f → entry h d w = none)
    (hmap : f < n → entry h d (v + f) ≠ none) :
    Ensures (allocLoop A d oldsz newsz n v) h
      (fun _ => f < n ∧ (serve A (min n (f + 1)) v (tables h d) h.kmem).short = false) fun r h' =>
      ∃ ρ₁ h₁, Grown L d v (serve A (min n (f + 1)) v (tables h d) h.kmem) ρ h ρ₁ h₁ ∧
        ((serve A (min n (f + 1)) v (tables h d) h.kmem).short = false →
          n ≤ f ∧ r = newsz ∧ h' = h₁) ∧
        ((serve A (min n (f + 1)) v (tables h d) h.kmem).short = true → r = 0 ∧ ∃ r',
          deallocuvm A d newsz oldsz h₁ = .ok (r', h')) := by
  induction n generalizing v f ρ h with
  | zero =>
      rw [Nat.zero_min]
      refine ⟨ρ, h, .nothing hS rfl, ?_, ?_⟩
      · intro _
        exact ⟨Nat.zero_le _, rfl, rfl⟩
      · intro hs
        cases hs
  | succ n ih =>
      have hv : v < KERNPAGE := by omega
      rw [allocLoop, ensures_bind, Nat.add_min_add_right]
      rcases hk : A.kalloc .page h.kmem with ⟨_ | m, k₁⟩
      · -- no page: what was mapped is freed again
        rw [serve_short hk]
        have hS1 := hS.fail hE hk
        rw [Ensures, kalloc, hk]
        simp only [ensures_bind, ensures_pure]
        have hdealloc : Ensures (deallocuvm A d newsz oldsz) { h with kmem := k₁ } (fun _ => False)
            fun r h' => Tracks L ρ ∅ h' ∧ r ≤ newsz := deallocuvm_rule hnew hS1.toTagged hd
        obtain ⟨r, h', hrun, -⟩ := hdealloc.exists_ok
        rw [Ensures, hrun]
        refine ⟨ρ, { h with kmem := k₁ }, .nothing hS1 rfl, ?_, ?_⟩
        · intro hs
          cases hs
        · intro _
          exact ⟨trivial, r, hrun⟩
      · rw [Ensures, kalloc, hk]
        simp only [ensures_bind, ensures_setContent]
        cases f with
        | zero =>
            obtain ⟨hmfree, _, hS1⟩ := hS.takeFilled hE hk (filled 0)
            have hdm : d ≠ m := ne_of_tag (ρ := ρ) (by simp [hd, hmfree])
            have hread := read_upd (x := m) (c := filled 0) (k := k₁) hS.toTagged hd
              (by simp [hmfree]) (by simp [hmfree])
            have hmapped := hmap (Nat.succ_pos n)
            rw [ensures_map_remap hS1 (by rw [upd_of_ne hdm, hd]) (by rw [hread.2]; exact hmapped)]
            refine ⟨Nat.succ_pos n, ?_⟩
            have htabs : tables h d (pdx v) = true := by
              cases ht : table h d (pdx v) with
              | none => exact absurd (entry_of_none ht) hmapped
              | some t => simp [tables, ht]
            rw [serve_present hk htabs, Nat.min_zero]
            rfl
        | succ f =>
            have hnone : entry h d v = none := hfree v (Nat.le_refl v) (by omega)
            refine (map_taken hE hS hd hv hnone hk).imp (fun _ => False.elim) ?_
            rintro b h₂ (⟨_, ⟨ρ₂, hM⟩, hkmem⟩ | ⟨_, htabs, hk', hc, hmfree, hS2⟩)
            · -- the page is mapped, and the loop goes on
              have hd2 := (hM.kept d (by simp [hd])).trans hd
              have hent : ∀ w, w ≠ v → entry h₂ d w = entry h d w := by
                intro w hw
                rw [hM.entry, upd_of_ne hw]
              have hfree2 : ∀ w, v + 1 ≤ w → w < v + 1 + f → entry h₂ d w = none := by
                intro w h1 h2
                rw [hent w (by omega)]
                exact hfree w (by omega) (by omega)
              have hmap2 : f < n → entry h₂ d (v + 1 + f) ≠ none := by
                intro hlt
                rw [hent _ (by omega), show v + 1 + f = v + (f + 1) by omega]
                exact hmap (by omega)
              have hserve : serve A (min n (f + 1) + 1) v (tables h d) h.kmem =
                  (serve A (min n (f + 1)) (v + 1) (tables h₂ d) h₂.kmem).one := by
                rcases hkmem with ⟨htabs, hkm⟩ | ⟨htabs, t, hk'⟩
                · rw [serve_present hk htabs, hM.tables, hkm, ← htabs, upd_eq_self]
                · rw [serve_new hk htabs hk', hM.tables]
              rw [hserve]
              refine (ih hM.sharp hd2 (by omega) (by omega) hfree2 hmap2).imp
                (fun _ he => ⟨by omega, he.2⟩) ?_
              rintro r h' ⟨ρ₁, h₁, hG, hok, hshort⟩
              refine ⟨ρ₁, h₁, hG.one hM hd fun w hw => (serve_within.lost hw).1, ?_, hshort⟩
              intro hs
              obtain ⟨hle, hr⟩ := hok hs
              exact ⟨by omega, hr⟩
            · -- no page table: the page is lost
              have hdm : d ≠ m := ne_of_tag (ρ := ρ) (by simp [hd, hmfree])
              have hd2 : upd ρ m .held d = .dir := by rw [upd_of_ne hdm, hd]
              have hread : table h₂ d = table h d ∧ entry h₂ d = entry h d := by
                refine read_frame hS.toTagged hd (by rw [hc, upd_of_ne hdm]) fun t i ht => ?_
                rw [hc, upd_of_ne (ne_of_tag (ρ := ρ) (by simp [ht, hmfree]))]
              have htabs2 : tables h₂ d = tables h d := by
                funext i
                simp only [tables, hread.1]
              have hfree2 : ∀ w, v + 1 ≤ w → w < v + 1 + f → entry h₂ d w = none := by
                intro w h1 h2
                rw [hread.2]
                exact hfree w (by omega) (by omega)
              have hmap2 : f < n → entry h₂ d (v + 1 + f) ≠ none := by
                intro hlt
                rw [hread.2, show v + 1 + f = v + (f + 1) by omega]
                exact hmap (by omega)
              have hloop := ih hS2 hd2 (by omega) (by omega) hfree2 hmap2
              rw [htabs2] at hloop
              rw [serve_lose hk htabs hk']
              refine hloop.imp (fun _ he => ⟨by omega, he.2⟩) ?_
              rintro r h' ⟨ρ₁, h₁, hG, hok, hshort⟩
              refine ⟨ρ₁, h₁, hG.lose hmfree rfl ?_ hread.2, ?_, hshort⟩
              · intro x hx
                rw [hc, upd_of_ne hx]
              · intro hs
                obtain ⟨hle, hr⟩ := hok hs
                exact ⟨by omega, hr⟩

/-! ## `allocuvm` -/

/-- The answers of `kalloc` to a call of `allocuvm`. -/
def answers (A : Allocator κ) (d : Page) (oldsz newsz : Nat) (h : Heap κ) : Served κ :=
  serve A (pgup newsz - pgup oldsz) (pgup oldsz) (tables h d) h.kmem

theorem pgup_mono {a b : Nat} (h : a ≤ b) : pgup a ≤ pgup b :=
  Nat.div_le_div_right (by omega)

/-- **`allocuvm`**, by the answers of `kalloc`. -/
theorem allocuvm_grown {oldsz newsz : Nat} (hE : Exact L) (hS : Sharp L ρ h) (hd : ρ d = .dir)
    (hle : oldsz ≤ newsz) (hnew : newsz < KERNBASE)
    (hfree : ∀ v, pgup oldsz ≤ v → v < pgup newsz → entry h d v = none) :
    Ensures (allocuvm A d oldsz newsz) h (fun _ => False) fun r h' =>
      ∃ ρ₁ h₁, Grown L d (pgup oldsz) (answers A d oldsz newsz h) ρ h ρ₁ h₁ ∧
        ((answers A d oldsz newsz h).short = false → r = newsz ∧ h' = h₁) ∧
        ((answers A d oldsz newsz h).short = true → r = 0 ∧ oldsz < newsz ∧ ∃ ρ',
          Frees L d (Visits (answers A d oldsz newsz h).tab (pgup oldsz) (pgup newsz))
            ρ₁ h₁ ρ' h') := by
  have hpg := pgup_mono hle
  have hsum : pgup oldsz + (pgup newsz - pgup oldsz) = pgup newsz := Nat.add_sub_cancel' hpg
  unfold allocuvm
  rw [if_neg (by omega), if_neg (by omega)]
  have htop : pgup oldsz + (pgup newsz - pgup oldsz) ≤ KERNPAGE := by
    rw [hsum]
    exact pgup_le hnew.le
  refine (allocLoop_grown hE hS hd hnew.le htop (Nat.le_refl _) (by rwa [hsum])
    fun hlt => absurd hlt (Nat.lt_irrefl _)).imp (fun _ he => absurd he.1 (Nat.lt_irrefl _)) ?_
  rintro r h' ⟨ρ₁, h₁, hG, hok, hshort⟩
  rw [Nat.min_eq_left (Nat.le_succ _)] at hG hok hshort
  refine ⟨ρ₁, h₁, hG, fun hs => (hok hs).2, ?_⟩
  intro hs
  obtain ⟨hr, r', hrun⟩ := hshort hs
  have hlt : oldsz < newsz := by
    by_contra hge
    have heq : oldsz = newsz := by omega
    rw [answers, heq, Nat.sub_self] at hs
    cases hs
  have hd1 : ρ₁ d = .dir := (hG.kept d (by simp [hd])).trans hd
  obtain ⟨_, ρ', hF⟩ := (deallocuvm_frees hE hnew.le hlt hG.sharp hd1).of_ok hrun
  rw [hG.tables] at hF
  exact ⟨hr, hlt, ρ', hF⟩

/-- What `allocuvm` reports: with `newsz`, that every page of the range is mapped
to a fresh page of zeros of its own; with 0, that none is and that nothing else
has changed. -/
structure Reports (ρ : Page → Tag) (d : Page) (oldsz newsz r : Nat) (h h' : Heap Kmem) : Prop where
  grown : r = newsz → ∀ v, pgup oldsz ≤ v → v < pgup newsz →
    ∃ m, entry h' d v = some ⟨m, true, true⟩ ∧ h'.content m = filled 0 ∧
      m ∈ h.kmem.freelist ∧ m ∉ h'.kmem.freelist ∧
      ∀ w e, w < KERNPAGE → entry h' d w = some e → e.page = m → w = v
  failed : r = 0 → (∀ v, pgup oldsz ≤ v → v < pgup newsz → entry h' d v = none) ∧
    (∀ v, ¬ (pgup oldsz ≤ v ∧ v < pgup newsz) → entry h' d v = entry h d v) ∧
    ∀ d', ρ d' = .dir → d' ≠ d → entry h' d' = entry h d'

section Reports

variable {cfg : Config} {h h' : Heap Kmem} {oldsz newsz : Nat}

/-- The pages that are handed out are of the range. -/
theorem answers_maps {w : Nat} (hle : oldsz ≤ newsz)
    (hw : (answers A d oldsz newsz h₁).Maps (pgup oldsz) w) :
    pgup oldsz ≤ w ∧ w < pgup newsz := by
  have hcount : (answers A d oldsz newsz h₁).count ≤ pgup newsz - pgup oldsz := serve_within.count_le
  have hpg := pgup_mono hle
  obtain ⟨h1, h2, _⟩ := hw
  omega

theorem answers_lost {w : Nat} (hle : oldsz ≤ newsz)
    (hw : w ∈ (answers A d oldsz newsz h₁).lost) : pgup oldsz ≤ w ∧ w < pgup newsz := by
  have hcount : (answers A d oldsz newsz h₁).count ≤ pgup newsz - pgup oldsz := serve_within.count_le
  have hrange : pgup oldsz ≤ w ∧ w < pgup oldsz + (answers A d oldsz newsz h₁).count :=
    serve_within.lost hw
  have hpg := pgup_mono hle
  omega

/-- All of the range is mapped when no call of `kalloc` fails. -/
theorem maps_of_full (hle : oldsz ≤ newsz) (hs : (answers A d oldsz newsz h₁).short = false)
    (hl : (answers A d oldsz newsz h₁).lost = []) {w : Nat} (h1 : pgup oldsz ≤ w)
    (h2 : w < pgup newsz) : (answers A d oldsz newsz h₁).Maps (pgup oldsz) w := by
  have hcount : (answers A d oldsz newsz h₁).count = pgup newsz - pgup oldsz := serve_within.full hs
  have hpg := pgup_mono hle
  refine ⟨h1, by omega, ?_⟩
  rw [hl]
  exact List.not_mem_nil

/-- **`allocuvm` delivers what it reports** exactly when every page table that it
asks for is made, if it reports success; and if it fails, when `deallocuvm`
passes over none of the pages that were mapped. -/
theorem allocuvm_reports_iff (hS : Sharp (lawful cfg) ρ h) (hd : ρ d = .dir)
    (hle : oldsz ≤ newsz) (hnew : newsz < KERNBASE)
    (hfree : ∀ v, pgup oldsz ≤ v → v < pgup newsz → entry h d v = none) :
    (∃ r h', allocuvm (kmem cfg) d oldsz newsz h = .ok (r, h') ∧
      Reports ρ d oldsz newsz r h h') ↔
    ((answers (kmem cfg) d oldsz newsz h).short = false →
      (answers (kmem cfg) d oldsz newsz h).lost = []) ∧
    ((answers (kmem cfg) d oldsz newsz h).short = true →
      ∀ v, (answers (kmem cfg) d oldsz newsz h).Maps (pgup oldsz) v →
        ¬ Skips (answers (kmem cfg) d oldsz newsz h).tab (pgup oldsz) v) := by
  have hrun := allocuvm_grown (exact_kmem cfg) hS hd hle hnew hfree
  constructor
  · rintro ⟨r, h', hok, hrep⟩
    obtain ⟨ρ₁, h₁, hG, hfull, hshort⟩ := hrun.of_ok hok
    constructor
    · -- a page that was lost is not mapped
      intro hs
      obtain ⟨rfl, rfl⟩ := hfull hs
      by_contra hl
      obtain ⟨w, hw⟩ := List.exists_mem_of_ne_nil _ hl
      obtain ⟨hlow, hlt⟩ := answers_lost hle hw
      obtain ⟨m, he, _⟩ := hrep.grown rfl w hlow hlt
      rw [hG.same w fun hmaps => hmaps.2.2 hw, hfree w hlow hlt] at he
      cases he
    · -- a page that was passed over is still mapped
      intro hs v hmaps hskip
      obtain ⟨rfl, hlt, ρ', hF⟩ := hshort hs
      obtain ⟨m, he, _⟩ := hG.mapped v hmaps
      have hrange := answers_maps hle hmaps
      have hnone := (hrep.failed rfl).1 v hrange.1 hrange.2
      rw [hF.same v fun hvis => hvis.2.2 hskip, he] at hnone
      cases hnone
  · rintro ⟨hfullcond, hshortcond⟩
    obtain ⟨r, h', hok, ρ₁, h₁, hG, hfull, hshort⟩ := hrun.exists_ok
    have hd1 : ρ₁ d = .dir := (hG.kept d (by simp [hd])).trans hd
    refine ⟨r, h', hok, ?_, ?_⟩
    · intro hr v h1 h2
      have hs : (answers (kmem cfg) d oldsz newsz h).short = false := by
        cases hs : (answers (kmem cfg) d oldsz newsz h).short with
        | false => rfl
        | true =>
            obtain ⟨hr0, hlt, _⟩ := hshort hs
            omega
      obtain ⟨_, rfl⟩ := hfull hs
      obtain ⟨m, he, hmfree, hc⟩ := hG.mapped v (maps_of_full hle hs (hfullcond hs) h1 h2)
      have hv : v < KERNPAGE := Nat.lt_of_lt_of_le h2 (pgup_le hnew.le)
      have htag : ρ₁ m = .user d (pdx v) (ptx v) := tag_of_entry hG.sharp.toTagged hd1 hv he
      refine ⟨m, he, hc, (hS.mem_free m).mpr hmfree, ?_, ?_⟩
      · intro hmem
        have := (hG.sharp.mem_free m).mp hmem
        rw [htag] at this
        cases this
      · intro w e hw hwe hpage
        have htag' := tag_of_entry hG.sharp.toTagged hd1 hw hwe
        rw [hpage, htag] at htag'
        injection htag' with _ hi hj
        exact (page_ext hi hj).symm
    · intro hr
      cases hs : (answers (kmem cfg) d oldsz newsz h).short with
      | false =>
          -- 0 is `newsz` itself, and there was nothing to do
          obtain ⟨hr', rfl⟩ := hfull hs
          have h0 : newsz = 0 := hr'.symm.trans hr
          have hempty : pgup newsz = 0 := by
            rw [h0]
            rfl
          refine ⟨fun v _ hlt => by omega, ?_, fun d' => hG.others hS hd⟩
          intro v hv
          exact hG.same v fun hmaps => hv (answers_maps hle hmaps)
      | true =>
          obtain ⟨_, _, ρ', hF⟩ := hshort hs
          refine ⟨?_, ?_, ?_⟩
          · intro v h1 h2
            by_cases hskip : Skips (answers (kmem cfg) d oldsz newsz h).tab (pgup oldsz) v
            · rw [hF.same v fun hvis => hvis.2.2 hskip,
                hG.same v fun hmaps => hshortcond hs v hmaps hskip, hfree v h1 h2]
            · exact hF.cleared v ⟨h1, h2, hskip⟩
          · intro v hv
            rw [hF.same v fun hvis => hv ⟨hvis.1, hvis.2.1⟩,
              hG.same v fun hmaps => hv (answers_maps hle hmaps)]
          · intro d' hd' hne
            have hd1' : ρ₁ d' = .dir := (hG.kept d' (by simp [hd'])).trans hd'
            have hlow : ∀ v, Visits (answers (kmem cfg) d oldsz newsz h).tab (pgup oldsz)
                (pgup newsz) v → v < KERNPAGE := fun v hvis =>
              Nat.lt_of_lt_of_le hvis.2.1 (pgup_le hnew.le)
            rw [hF.others hG.sharp hd1 hlow hd1' hne, hG.others hS hd hd' hne]

/-- There is a page for the first page of `sparse 1`, and one for its page table. -/
theorem allocuvm_reports_sparse :
    ∃ r h', allocuvm (kmem smallConfig) 1 0 PGSIZE (sparse 1) = .ok (r, h') ∧
      Reports (sparseTags 1) 1 0 PGSIZE r (sparse 1) h' := by
  refine (allocuvm_reports_iff (sharp_sparse (by decide)) rfl (by decide) (by decide) ?_).mpr ⟨?_, ?_⟩
  · intro v _ hv
    have hv0 : v = 0 := Nat.lt_one_iff.mp hv
    rw [hv0]
    rfl
  · intro _
    rfl
  · intro hs
    cases hs

/-- `sparse 1`, when the second call of `kalloc` fails. -/
def tight : Heap Kmem := { sparse 1 with kmem := ⟨List.range' 4 28, [false, true]⟩ }

/-- `allocuvm` reports success, and has mapped nothing. -/
theorem allocuvm_reports_nothing : Sharp (lawful smallConfig) (sparseTags 1) tight ∧
    sparseTags 1 1 = .dir ∧ 0 ≤ PGSIZE ∧ PGSIZE < KERNBASE ∧
    (∀ v, pgup 0 ≤ v → v < pgup PGSIZE → entry tight 1 v = none) ∧
    ¬ ∃ r h', allocuvm (kmem smallConfig) 1 0 PGSIZE tight = .ok (r, h') ∧
      Reports (sparseTags 1) 1 0 PGSIZE r tight h' := by
  refine ⟨(sharp_sparse (by decide)).setKmem List.nodup_range' rfl, rfl, by decide, by decide, ?_, ?_⟩
  · intro v _ hv
    have hv0 : v = 0 := Nat.lt_one_iff.mp hv
    rw [hv0]
    rfl
  · rintro ⟨r, h', hok, hrep⟩
    have hrun : (allocuvm (kmem smallConfig) 1 0 PGSIZE tight).toOption.map
        (fun r => decide (r.1 = PGSIZE ∧ entry r.2 1 0 = none)) = some true := by
      decide +kernel
    rw [hok] at hrun
    simp only [Except.toOption, Option.map_some, Option.some_inj, decide_eq_true_eq] at hrun
    obtain ⟨m, he, _⟩ := hrep.grown hrun.1 0 (by decide) (by decide)
    rw [hrun.2] at he
    cases he

end Reports

end Xv6.Vm
