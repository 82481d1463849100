import Xv6.Vm.Kernel

/-!
# Vm — `copyuvm`

The pages of the parent are copied one by one, each to a page of its own
at the same place. What the new directory is made of was free before, so
that neither directory sees what is written through the other.
-/

namespace Xv6.Vm

open Lib

variable {κ : Type} {A : Allocator κ} {L : Lawful A} {ρ ρ' ρ₁ : Page → Tag} {h h' h₁ : Heap κ}
  {d d' : Page} {v n : Nat}

/-! ## The loop -/

/-- The requests of the loop of `copyuvm`, for `n` pages from `v`. -/
def copyUses : Nat → Nat → (Nat → Bool) → List Use
  | 0, _, _ => []
  | n + 1, v, tab => .page :: (tableUse tab v ++ copyUses n (v + 1) (upd tab (pdx v) true))

theorem Mapped.extends {m : Page} {c : Content} {w u : Bool}
    (hM : Mapped L d v m c w u ρ h ρ' h') : Extends L d ρ h ρ' h' ∧ ¬ Leaks ρ ρ' := by
  have htaken : ∀ x, ρ x = .free → ρ' x = .free ∨ Owns ρ' d x := by
    intro x hx
    by_cases hxm : x = m
    · right; right; right
      exact ⟨_, _, by rw [hxm, hM.tag]⟩
    · rcases hM.taken x hx hxm with h | h
      · exact .inl h
      · exact .inr (.inr (.inl ⟨_, h⟩))
  refine ⟨⟨hM.sharp, hM.kept, hM.content, fun x hx => ?_⟩, ?_⟩
  · rcases htaken x hx with h | h
    · exact .inl h
    · exact .inr (.inl h)
  · rintro ⟨x, hx, hx'⟩
    by_cases hxm : x = m
    · rw [hxm, hM.tag] at hx'
      cases hx'
    · rcases hM.taken x hx hxm with h | h <;> rw [hx'] at h <;> cases h

/-- From `h` to `h'` the pages of `d` from `v` on are copied to `d'`. -/
structure Copied (d d' : Page) (v n : Nat) (ρ : Page → Tag) (h h' : Heap κ) : Prop where
  pages : ∀ w e, v ≤ w → w < v + n → entry h d w = some e →
    ∃ m, entry h' d' w = some ⟨m, e.write, e.user⟩ ∧ ρ m = .free ∧
      h'.content m = h.content e.page
  same : ∀ w, ¬ (v ≤ w ∧ w < v + n) → entry h' d' w = entry h d' w

/-- One page more. -/
theorem Copied.cons {m : Page} {e : Pte} (hS : Sharp L ρ h) (hd : ρ d = .dir) (hd' : ρ d' = .dir)
    (hne : d ≠ d') (htop : v + (n + 1) ≤ KERNPAGE) (he : entry h d v = some e)
    (hM : Mapped L d' v m (h.content e.page) e.write e.user ρ h ρ₁ h₁)
    (hX : Extends L d' ρ₁ h₁ ρ' h') (hC : Copied d d' (v + 1) n ρ₁ h₁ h') :
    Copied d d' v (n + 1) ρ h h' := by
  have hread : entry h₁ d = entry h d := (hM.extends.1.others hS hd' hd hne).2
  have hm1 : ρ₁ m ≠ .free := by simp [hM.tag]
  have hmd : m ≠ d' := ne_of_tag (ρ := ρ) (by simp [hd', hM.free])
  refine ⟨?_, ?_⟩
  · intro w e' h1 h2 he'
    by_cases hwv : w = v
    · rw [hwv, he] at he'
      cases he'
      refine ⟨m, ?_, hM.free, ?_⟩
      · rw [hwv, hC.same v (by omega), hM.entry, upd_self]
      · rw [hX.content m hm1 hmd (by simp [hM.tag]), hM.page]
    · obtain ⟨m', hent, hfree, hc⟩ := hC.pages w e' (by omega) (by omega) (by rw [hread, he'])
      refine ⟨m', hent, hM.extends.1.free hfree, ?_⟩
      -- a page of the parent is not touched
      have htag := tag_of_entry hS.toTagged hd (by omega) he'
      rw [hc, hM.content e'.page (by simp [htag]) (ne_of_tag (ρ := ρ) (by simp [htag, hd']))
        (by simp [htag])]
  · intro w hw
    rw [hC.same w (by omega), hM.entry, upd_of_ne (by omega)]

/-- **The loop of `copyuvm`** for `n` pages, of which the first `f` are present. A
page is lost where a request for a page table is refused. -/
theorem copyLoop_copied {f : Nat} (hE : Exact L) (hS : Sharp L ρ h) (hd : ρ d = .dir)
    (hd' : ρ d' = .dir) (hne : d ≠ d') (htop : v + n ≤ KERNPAGE) (hfn : f ≤ n)
    (hpresent : ∀ w, v ≤ w → w < v + f → entry h d w ≠ none)
    (hmissing : f < n → entry h d (v + f) = none)
    (hfree : ∀ w, v ≤ w → w < v + n → entry h d' w = none) :
    Ensures (copyLoop A d d' n v) h
      (fun _ => f < n ∧ (ask A (copyUses f v (tables h d')) h.kmem).1 = none)
      fun b h' => ∃ ρ', Extends L d' ρ h ρ' h' ∧
      (b = true → (ask A (copyUses f v (tables h d')) h.kmem).1 = none ∧ n ≤ f ∧ ¬ Leaks ρ ρ' ∧
        Copied d d' v n ρ h h') ∧
      (b = false → (ask A (copyUses f v (tables h d')) h.kmem).1 = some .page ∧ ¬ Leaks ρ ρ' ∨
        (ask A (copyUses f v (tables h d')) h.kmem).1 = some .table ∧ Leaks ρ ρ') := by
  induction n generalizing v f ρ h with
  | zero =>
      have hf : f = 0 := Nat.le_zero.mp hfn
      rw [hf]
      refine ⟨ρ, .refl hS, fun _ => ⟨rfl, Nat.le_refl 0, not_leaks_refl ρ, ?_, fun _ _ => rfl⟩, ?_⟩
      · intro w e h1 h2
        omega
      · intro hb
        cases hb
  | succ n ih =>
      simp only [copyLoop, ensures_bind, walk_find hS.toTagged hd]
      cases f with
      | zero =>
          -- the page is missing
          have hnone := hmissing (Nat.succ_pos n)
          cases ht : table h d (pdx v) with
          | none => exact ⟨Nat.succ_pos n, rfl⟩
          | some t =>
              obtain ⟨_, pte, hc⟩ := tag_of_table hS.toTagged hd ht
              rw [Nat.add_zero, entry_of_tab ht hc] at hnone
              simp only [Option.map_some, ensures_bind, ensures_tabAt hc, hnone, ensures_panic]
              exact ⟨Nat.succ_pos n, rfl⟩
      | succ f =>
          have hsome := hpresent v (Nat.le_refl v) (by omega)
          cases ht : table h d (pdx v) with
          | none => exact absurd (entry_of_none ht) hsome
          | some t =>
              obtain ⟨_, pte, hc⟩ := tag_of_table hS.toTagged hd ht
              rw [entry_of_tab ht hc] at hsome
              obtain ⟨e, hpte⟩ := Option.ne_none_iff_exists'.mp hsome
              have he : entry h d v = some e := by rw [entry_of_tab ht hc, hpte]
              simp only [Option.map_some, ensures_bind, ensures_tabAt hc, hpte]
              rcases hk : A.kalloc .page h.kmem with ⟨_ | m, k₁⟩
              · -- no page
                rw [Ensures, kalloc, hk]
                simp only [copyUses, ask, hk]
                refine ⟨ρ, ⟨hS.fail hE hk, fun _ _ => rfl, fun _ _ _ _ => rfl, fun _ hx => .inl hx⟩,
                  ?_, fun _ => .inl ⟨trivial, not_leaks_refl ρ⟩⟩
                intro hb
                cases hb
              · rw [Ensures, kalloc, hk]
                simp only [ensures_bind, ensures_get, ensures_setContent, copyUses, ask, hk]
                have hv : v < KERNPAGE := by omega
                have hnone : entry h d' v = none := hfree v (Nat.le_refl v) (by omega)
                refine (map_taken hE hS hd' hv hnone hk).imp (fun _ => False.elim) ?_
                rintro b h₂ (⟨rfl, ⟨ρ₂, hM⟩, hkmem⟩ | ⟨rfl, htabs, hk', hc', hmfree, hS2⟩)
                · -- the page is mapped, and the loop goes on
                  simp only [if_true]
                  obtain ⟨hX, htight⟩ := hM.extends
                  have hread : entry h₂ d = entry h d := (hX.others hS hd' hd hne).2
                  have hask : ask A (tableUse (tables h d') v ++
                      copyUses f (v + 1) (upd (tables h d') (pdx v) true)) k₁ =
                      ask A (copyUses f (v + 1) (tables h₂ d')) h₂.kmem := by
                    rw [ask_append, hM.tables]
                    rcases hkmem with ⟨htabs, hkm⟩ | ⟨htabs, t, hk'⟩
                    · simp [tableUse, htabs, ask, hkm]
                    · simp [tableUse, htabs, ask, hk']
                  have hpresent2 : ∀ w, v + 1 ≤ w → w < v + 1 + f → entry h₂ d w ≠ none := by
                    intro w h1 h2
                    rw [hread]
                    exact hpresent w (by omega) (by omega)
                  have hmissing2 : f < n → entry h₂ d (v + 1 + f) = none := by
                    intro hlt
                    rw [hread, show v + 1 + f = v + (f + 1) by omega]
                    exact hmissing (by omega)
                  have hfree2 : ∀ w, v + 1 ≤ w → w < v + 1 + n → entry h₂ d' w = none := by
                    intro w h1 h2
                    rw [hM.entry, upd_of_ne (by omega)]
                    exact hfree w (by omega) (by omega)
                  rw [hask]
                  refine (ih hM.sharp (hX.dir hd) (hX.dir hd') (by omega) (by omega) hpresent2
                    hmissing2 hfree2).imp (fun _ he => ⟨by omega, he.2⟩) ?_
                  rintro b h' ⟨ρ', hX', hok, hbad⟩
                  refine ⟨ρ', hX.trans hX' hd', ?_, ?_⟩
                  · intro hb
                    obtain ⟨hnone, hle, htight', hC⟩ := hok hb
                    refine ⟨hnone, by omega, ?_, .cons hS hd hd' hne htop he hM hX' hC⟩
                    rw [hX.leaks_trans hX']
                    exact fun h => h.elim htight htight'
                  · intro hb
                    rw [hX.leaks_trans hX']
                    rcases hbad hb with ⟨h1, h2⟩ | ⟨h1, h2⟩
                    · exact .inl ⟨h1, fun h => h.elim htight h2⟩
                    · exact .inr ⟨h1, .inr h2⟩
                · -- no page table: the page is lost
                  simp only [Bool.false_eq_true, if_false, ensures_pure]
                  have hask : (ask A (tableUse (tables h d') v ++
                      copyUses f (v + 1) (upd (tables h d') (pdx v) true)) k₁).1 = some .table := by
                    rw [ask_append]
                    simp [tableUse, htabs, ask, hk']
                  have hold : ∀ x, ρ x ≠ .free → x ≠ m := fun x hx hxm => hx (hxm ▸ hmfree)
                  refine ⟨upd ρ m .held, ⟨hS2, ?_, ?_, ?_⟩, ?_, ?_⟩
                  · intro x hx
                    exact upd_of_ne (hold x hx)
                  · intro x hx _ _
                    rw [hc', upd_of_ne (hold x hx)]
                  · intro x hx
                    by_cases hxm : x = m
                    · right; right
                      rw [hxm, upd_self]
                    · left
                      rw [upd_of_ne hxm, hx]
                  · intro hb
                    cases hb
                  · intro _
                    exact .inr ⟨hask, m, hmfree, upd_self ..⟩

/-! ## `copyuvm` -/

/-- The requests of `copyuvm`, when `f` pages are copied. -/
def forkUses (ks : List Kmap) (f : Nat) : List Use :=
  setupUses ks ++ copyUses f 0 (kernelTabs ks fun _ => false)

/-- What remains when no directory was made. -/
structure Gone (L : Lawful A) (ρ : Page → Tag) (h : Heap κ) (ρ' : Page → Tag) (h' : Heap κ) :
    Prop where
  sharp : Sharp L ρ' h'
  kept : ∀ x, ρ x ≠ .free → ρ' x = ρ x
  content : ∀ x, ρ x ≠ .free → h'.content x = h.content x

/-- The directory is freed again; what was lost is not. -/
theorem Made.gone (hE : Exact L) (hS : Sharp L ρ h) (hM : Made L d ρ h ρ₁ h₁) :
    Ensures (freevm A d) h₁ (fun _ => False) fun _ h' => ∃ ρ', Gone L ρ h ρ' h' ∧
      ∀ x, ρ x = .free → (ρ' x = .free ↔ ρ₁ x ≠ .held) := by
  refine (freevm_frees hE hM.sharp hM.dir).next ?_
  rintro _ h' ⟨ρ', hS', hfreed, hsame⟩
  have hnot : ∀ x, ρ x ≠ .free → ¬ Owns ρ₁ d x := by
    intro x hx
    rw [owns_congr (hM.kept x hx)]
    exact hS.not_owns hM.free hx
  refine ⟨ρ', ⟨hS', ?_, ?_⟩, ?_⟩
  · intro x hx
    rw [(hsame x (hnot x hx)).1, hM.kept x hx]
  · intro x hx
    rw [(hsame x (hnot x hx)).2, hM.content x hx]
  · intro x hx
    rcases hM.taken x hx with h1 | h1 | h1
    · have hown : ¬ Owns ρ₁ d x := fun hown => hown.ne_free hM.dir h1
      rw [(hsame x hown).1, h1]
      simp
    · rw [hfreed x h1]
      have hheld : ρ₁ x ≠ .held := by
        rcases h1 with rfl | ⟨i, h⟩ | ⟨i, j, h⟩
        · simp [hM.dir]
        · simp [h]
        · simp [h]
      simp [hheld]
    · have hown : ¬ Owns ρ₁ d x := by
        rintro (rfl | ⟨i, h⟩ | ⟨i, j, h⟩)
        · rw [hM.dir] at h1
          cases h1
        · rw [h] at h1
          cases h1
        · rw [h] at h1
          cases h1
      rw [(hsame x hown).1, h1]
      simp

/-- **`copyuvm`**, by the answers of `kalloc`, when the first `f` pages of the
parent are present. -/
theorem copyuvm_copied {ks : List Kmap} {sz f : Nat} (hE : Exact L) (hS : Sharp L ρ h)
    (hd : ρ d = .dir) (hks : KmapOk ks) (hsz : sz ≤ KERNBASE) (hf : f ≤ pgup sz)
    (hpresent : ∀ v, v < f → entry h d v ≠ none) (hmissing : f < pgup sz → entry h d f = none) :
    Ensures (copyuvm A ks d sz) h
      (fun _ => f < pgup sz ∧ (ask A (forkUses ks f) h.kmem).1 = none) fun r h' =>
      (r = none → ∃ ρ', Gone L ρ h ρ' h' ∧
        ((ask A (forkUses ks f) h.kmem).1 ≠ some .table ↔ ∀ x, ρ x = .free → ρ' x = .free)) ∧
      ∀ d', r = some d' → ∃ ρ', Made L d' ρ h ρ' h' ∧ ¬ Leaks ρ ρ' ∧ f = pgup sz ∧
        (ask A (forkUses ks f) h.kmem).1 = none ∧
        (∀ v e, v < pgup sz → entry h d v = some e →
          ∃ m, entry h' d' v = some ⟨m, e.write, e.user⟩ ∧ h'.content m = h.content e.page) ∧
        ∀ v, pgup sz ≤ v → v < KERNPAGE → entry h' d' v = none := by
  rw [copyuvm, ensures_bind]
  refine (setupkvm_made hE hS hks).imp (fun _ => False.elim) ?_
  rintro r h1 ⟨hkmem, ⟨hask, rfl, hS1, hc⟩ | ⟨d', ρ1, hM, htight, hr⟩⟩
  · -- no page for the directory
    have hask' : (ask A (forkUses ks f) h.kmem).1 = some .dir := by
      rw [forkUses, ask_append, if_neg (by simp [hask]), hask]
    simp only [ensures_pure, hask']
    refine ⟨fun _ => ⟨ρ, ⟨hS1, fun _ _ => rfl, fun _ _ => by rw [hc]⟩, ?_⟩, fun _ h => by cases h⟩
    exact iff_of_true (by simp) fun _ hx => hx
  · rcases hr with ⟨hask, rfl⟩ | ⟨hask, rfl, htabs, hents⟩
    · -- no page for a page table: the directory is lost
      have hask' : (ask A (forkUses ks f) h.kmem).1 = some .table := by
        rw [forkUses, ask_append, if_neg (by simp [hask]), hask]
      simp only [ensures_pure, hask']
      refine ⟨fun _ => ⟨ρ1, ⟨hM.sharp, hM.kept, hM.content⟩, ?_⟩, fun _ h => by cases h⟩
      refine iff_of_false (by simp) fun hall => ?_
      have := hall d' hM.free
      rw [hM.dir] at this
      cases this
    · have hask' : ask A (forkUses ks f) h.kmem =
          ask A (copyUses f 0 (tables h1 d')) h1.kmem := by
        rw [forkUses, ask_append, if_pos hask, ← hkmem, htabs]
      have hlow : ∀ v, v < KERNPAGE → entry h1 d' v = none := by
        intro v hv
        rw [hents, hks.kernelPte_low hv]
      have hne : d ≠ d' := ne_of_tag (ρ := ρ) (by simp [hd, hM.free])
      have hd1 : ρ1 d = .dir := (hM.kept d (by simp [hd])).trans hd
      have hread := (hM.others hS hd).2
      simp only [ensures_bind]
      refine (copyLoop_copied hE hM.sharp hd1 hM.dir hne (by simpa using pgup_le hsz) hf ?_ ?_
        ?_).imp (fun _ he => ⟨he.1, by rw [hask', he.2]⟩) ?_
      · intro w _ hw
        rw [hread]
        exact hpresent w (by omega)
      · intro hlt
        rw [hread, Nat.zero_add]
        exact hmissing hlt
      · intro w _ hw
        have := pgup_le hsz
        exact hlow w (by omega)
      · rintro b h2 ⟨ρ2, hX, hok, hbad⟩
        have hM2 := hM.extend hS hX
        cases b with
        | true =>
            simp only [if_true, ensures_pure, reduceCtorEq, false_implies, true_and,
              Option.some_inj]
            rintro _ rfl
            obtain ⟨hnone, hle, htight2, hC⟩ := hok rfl
            refine ⟨ρ2, hM2, ?_, by omega, by rw [hask', hnone], ?_, ?_⟩
            · rintro ⟨x, hx, hx2⟩
              by_cases hx1 : ρ1 x = .free
              · exact htight2 ⟨x, hx1, hx2⟩
              · rw [hX.kept x hx1] at hx2
                exact htight ⟨x, hx, hx2⟩
            · intro v e hv he
              obtain ⟨m, hent, _, hcm⟩ := hC.pages v e (Nat.zero_le v) (by omega) (by rw [hread, he])
              have htag := tag_of_entry hS.toTagged hd (Nat.lt_of_lt_of_le hv (pgup_le hsz)) he
              exact ⟨m, hent, by rw [hcm, hM.content e.page (by simp [htag])]⟩
            · intro v hv hv'
              rw [hC.same v (by omega)]
              exact hlow v hv'
        | false =>
            simp only [Bool.false_eq_true, if_false, ensures_bind]
            refine (hM2.gone hE hS).imp (fun _ => False.elim) ?_
            rintro _ h' ⟨ρ', hgone, hfree⟩
            rw [ensures_pure]
            refine ⟨fun _ => ⟨ρ', hgone, ?_⟩, fun _ h => by cases h⟩
            -- what is lost in the loop was free before
            have hleak : (∀ x, ρ x = .free → ρ' x = .free) ↔ ¬ Leaks ρ1 ρ2 := by
              constructor
              · rintro hall ⟨x, hx1, hx2⟩
                have hx : ρ x = .free := by
                  by_contra hnf
                  rw [hM.kept x hnf] at hx1
                  exact hnf hx1
                exact (hfree x hx).mp (hall x hx) hx2
              · intro htight2 x hx
                rw [hfree x hx]
                intro hx2
                by_cases hx1 : ρ1 x = .free
                · exact htight2 ⟨x, hx1, hx2⟩
                · rw [hX.kept x hx1] at hx2
                  exact htight ⟨x, hx, hx2⟩
            rw [hask', hleak]
            rcases hbad rfl with ⟨h1, h2⟩ | ⟨h1, h2⟩
            · exact iff_of_true (by simp [h1]) h2
            · exact iff_of_false (by simp [h1]) fun h => h h2

/-! ## Stores of the user -/

/-- What is at page `v` of the address space `d`. -/
def sees (h : Heap κ) (d : Page) (v : Nat) : Option Content := (entry h d v).map fun e => h.content e.page

/-- A store to page `v` of the address space `d`. -/
structure Store where
  dir : Page
  v : Nat
  bytes : Nat → UInt8

def Store.run (h : Heap κ) (s : Store) : Heap κ :=
  match entry h s.dir s.v with
  | none => h
  | some e => { h with content := upd h.content e.page (.data s.bytes) }

/-- A store to user memory changes nothing but a user page. -/
theorem Sharp.run {s : Store} (hS : Sharp L ρ h) (hd : ρ s.dir = .dir) (hv : s.v < KERNPAGE) :
    Sharp L ρ (s.run h) ∧ ∀ d', ρ d' = .dir → entry (s.run h) d' = entry h d' := by
  unfold Store.run
  cases he : entry h s.dir s.v with
  | none => exact ⟨hS, fun _ _ => rfl⟩
  | some e =>
      have htag := tag_of_entry hS.toTagged hd hv he
      refine ⟨hS.setPage (by simp [htag]) (by simp [htag]) _, ?_⟩
      intro d' hd'
      exact (read_upd (k := h.kmem) hS.toTagged hd' (by simp [htag]) (by simp [htag])).2

/-- **A store through one directory is not seen through another.** -/
theorem sees_run {s : Store} (hS : Sharp L ρ h) (hd : ρ s.dir = .dir) (hv : s.v < KERNPAGE)
    (hd' : ρ d' = .dir) (hne : d' ≠ s.dir) {u : Nat} (hu : u < KERNPAGE) :
    sees (s.run h) d' u = sees h d' u := by
  unfold sees
  rw [(hS.run hd hv).2 d' hd']
  cases he' : entry h d' u with
  | none => rfl
  | some e' =>
      rw [Option.map_some, Option.map_some, Option.some_inj]
      unfold Store.run
      cases he : entry h s.dir s.v with
      | none => rfl
      | some e =>
          have htag := tag_of_entry hS.toTagged hd hv he
          have htag' := tag_of_entry hS.toTagged hd' hu he'
          have hpage : e'.page ≠ e.page := ne_of_tag (ρ := ρ) (by
            rw [htag, htag']
            intro heq
            injection heq with heq
            exact hne heq)
          exact upd_of_ne hpage

/-- After any stores memory is in order. -/
theorem Sharp.run_all {ss : List Store} (hS : Sharp L ρ h)
    (hss : ∀ s ∈ ss, ρ s.dir = .dir ∧ s.v < KERNPAGE) : Sharp L ρ (ss.foldl Store.run h) := by
  induction ss generalizing h with
  | nil => exact hS
  | cons s ss ih =>
      obtain ⟨hs, hss⟩ := List.forall_mem_cons.mp hss
      exact ih (hS.run hs.1 hs.2).1 hss

/-! ## Parent and child -/

/-- The pages of an address space: the directory, its page tables and the user
pages. The pages that the kernel's part maps are everybody's. -/
def PageOf (h : Heap κ) (d x : Page) : Prop :=
  x = d ∨ (∃ i, table h d i = some x) ∨ ∃ v e, v < KERNPAGE ∧ entry h d v = some e ∧ e.page = x

theorem PageOf.owns {x : Page} (hS : Sharp L ρ h) (hd : ρ d = .dir) (hx : PageOf h d x) :
    Owns ρ d x := by
  rcases hx with rfl | ⟨i, hi⟩ | ⟨v, e, hv, he, rfl⟩
  · exact .inl rfl
  · exact .inr (.inl ⟨i, (tag_of_table hS.toTagged hd hi).1⟩)
  · exact .inr (.inr ⟨_, _, tag_of_entry hS.toTagged hd hv he⟩)

/-- What `fork` needs of `copyuvm`: the child has the parent's memory, as its own. -/
structure Forked (d d' : Page) (sz : Nat) (h h' : Heap κ) : Prop where
  copy : ∀ v, v < pgup sz → ∃ e m, entry h d v = some e ∧
    entry h' d' v = some ⟨m, e.write, e.user⟩ ∧ h'.content m = h.content e.page
  above : ∀ v, pgup sz ≤ v → v < KERNPAGE → entry h' d' v = none
  disjoint : ∀ x, PageOf h' d' x → ¬ PageOf h d x
  mappings : table h' d = table h d ∧ entry h' d = entry h d
  bytes : ∀ v e, v < KERNPAGE → entry h d v = some e → h'.content e.page = h.content e.page
  stores : ∀ (ss : List Store) (s : Store) (u : Nat),
    (∀ s ∈ ss, (s.dir = d ∨ s.dir = d') ∧ s.v < KERNPAGE) → s.v < KERNPAGE → u < KERNPAGE →
      (s.dir = d → sees (s.run (ss.foldl Store.run h')) d' u = sees (ss.foldl Store.run h') d' u) ∧
      (s.dir = d' → sees (s.run (ss.foldl Store.run h')) d u = sees (ss.foldl Store.run h') d u)

/-- **`copyuvm` copies the address space**: where it returns a directory, this
maps copies of the parent's pages, with their flags, and shares nothing with it. -/
theorem copyuvm_forks {cfg : Config} {h h' : Heap Kmem} {sz : Nat} (hks : KmapOk cfg.kmap)
    (hS : Sharp (lawful cfg) ρ h) (hd : ρ d = .dir) (hsz : sz < KERNBASE)
    (hpresent : ∀ v, v < pgup sz → entry h d v ≠ none)
    (hrun : copyuvm (kmem cfg) cfg.kmap d sz h = .ok (some d', h')) : Forked d d' sz h h' := by
  have hspec := copyuvm_copied (exact_kmem cfg) hS hd hks hsz.le (Nat.le_refl _) hpresent
    fun hlt => absurd hlt (Nat.lt_irrefl _)
  obtain ⟨ρ', hM, _, _, _, hpages, habove⟩ := (hspec.of_ok hrun).2 d' rfl
  have hne : d ≠ d' := ne_of_tag (ρ := ρ) (by simp [hd, hM.free])
  have hd1 : ρ' d = .dir := (hM.kept d (by simp [hd])).trans hd
  refine ⟨?_, habove, ?_, hM.others hS hd, ?_, ?_⟩
  · intro v hv
    obtain ⟨e, he⟩ := Option.ne_none_iff_exists'.mp (hpresent v hv)
    obtain ⟨m, hent, hc⟩ := hpages v e hv he
    exact ⟨e, m, he, hent, hc⟩
  · -- the pages of the parent were not free
    intro x hx' hx
    have hown := hx.owns hS hd
    have hfree : ρ x ≠ .free := hown.ne_free hd
    have hown' := hx'.owns hM.sharp hM.dir
    rw [owns_congr (hM.kept x hfree)] at hown'
    exact hS.not_owns hM.free hfree hown'
  · intro v e hv he
    have htag := tag_of_entry hS.toTagged hd hv he
    exact hM.content e.page (by simp [htag])
  · intro ss s u hss hv hu
    have hdirs : ∀ s ∈ ss, ρ' s.dir = .dir ∧ s.v < KERNPAGE := by
      intro s hs
      obtain ⟨hdir | hdir, hlt⟩ := hss s hs
      · exact ⟨by rw [hdir, hd1], hlt⟩
      · exact ⟨by rw [hdir, hM.dir], hlt⟩
    have hS' := hM.sharp.run_all hdirs
    constructor
    · intro hdir
      exact sees_run hS' (by rw [hdir, hd1]) hv hM.dir (by rw [hdir]; exact hne.symm) hu
    · intro hdir
      exact sees_run hS' (by rw [hdir, hM.dir]) hv hd1 (by rw [hdir]; exact hne) hu

theorem kmapOk_smallConfig : KmapOk smallConfig.kmap where
  high := by decide
  fits := by decide
  apart := by decide

/-- The process of one page in `sparse 0` forks. -/
theorem copyuvm_forks_sparse :
    ∃ h', copyuvm (kmem smallConfig) smallConfig.kmap 1 PGSIZE (sparse 0) = .ok (some 4, h') ∧
      Forked 1 4 PGSIZE (sparse 0) h' := by
  have hval : (copyuvm (kmem smallConfig) smallConfig.kmap 1 PGSIZE (sparse 0)).toOption.map
      (fun r => r.1) = some (some 4) := by
    decide +kernel
  cases hrun : copyuvm (kmem smallConfig) smallConfig.kmap 1 PGSIZE (sparse 0) with
  | error e =>
      rw [hrun] at hval
      cases hval
  | ok r =>
      obtain ⟨r, h'⟩ := r
      rw [hrun] at hval
      cases hval
      refine ⟨h', rfl, copyuvm_forks kmapOk_smallConfig (sharp_sparse (by decide)) rfl (by decide)
        ?_ hrun⟩
      intro v hv
      have hv0 : v = 0 := Nat.lt_one_iff.mp hv
      rw [hv0]
      exact Option.some_ne_none _

end Xv6.Vm
