import Xv6.Vm.Space
import Xv6.Vm.Isolation

/-!
# Vm — `deallocuvm`

Where a page table is missing, the loop of `deallocuvm` jumps by a whole
table from wherever it is. From the middle of a table it lands in the
middle of the next one, and passes over what is mapped before that place.
`Skips` says which pages those are, from the page tables that there are;
everything else in the range is freed.
-/

namespace Xv6.Vm

open Lib

/-! ## The pages that the loop comes to -/

/-- The walk from `a` passes over `v`: every page table from the one of `a` to
the one of `v` is missing, and `v` is nearer to the start of its own. -/
def Skips (tab : Nat → Bool) (a v : Nat) : Prop :=
  pdx a < pdx v ∧ ptx v < ptx a ∧ ∀ i, pdx a ≤ i → i < pdx v → tab i = false

/-- The walk from `a` to `top` comes to `v`, if there is a page table for it. -/
def Visits (tab : Nat → Bool) (a top v : Nat) : Prop := a ≤ v ∧ v < top ∧ ¬ Skips tab a v

section Visits

variable {tab : Nat → Bool} {a top v : Nat}

/-- The jump over a missing page table. -/
theorem visits_jump (ha : tab (pdx a) = false) (hv : tab (pdx v) = true) :
    Visits tab a top v ↔ Visits tab (a + NPTENTRIES) top v := by
  have hpdx : pdx (a + NPTENTRIES) = pdx a + 1 := Nat.add_div_right a (by decide)
  have hptx : ptx (a + NPTENTRIES) = ptx a := Nat.add_mod_right a NPTENTRIES
  have hne : pdx v ≠ pdx a := by
    intro heq
    rw [heq, ha] at hv
    cases hv
  have hva : v = NPTENTRIES * pdx v + ptx v := (Nat.div_add_mod v NPTENTRIES).symm
  have haa : a = NPTENTRIES * pdx a + ptx a := (Nat.div_add_mod a NPTENTRIES).symm
  have hjv : ptx v < NPTENTRIES := Nat.mod_lt v (by decide)
  have hja : ptx a < NPTENTRIES := Nat.mod_lt a (by decide)
  unfold NPTENTRIES at *
  constructor
  · rintro ⟨hle, htop, hskip⟩
    have hlt : pdx a < pdx v := by omega
    refine ⟨?_, htop, ?_⟩
    · -- in the next table, what is nearer to the start is passed over
      by_contra hnext
      apply hskip
      refine ⟨hlt, by omega, ?_⟩
      intro i hi hiv
      have : i = pdx a := by omega
      rw [this, ha]
    · rintro ⟨h1, h2, h3⟩
      apply hskip
      refine ⟨hlt, by omega, ?_⟩
      intro i hi hiv
      by_cases hia : i = pdx a
      · rw [hia, ha]
      · exact h3 i (by omega) hiv
  · rintro ⟨hle, htop, hskip⟩
    refine ⟨by omega, htop, ?_⟩
    rintro ⟨h1, h2, h3⟩
    apply hskip
    refine ⟨by omega, by omega, ?_⟩
    intro i hi hiv
    exact h3 i (by omega) hiv

/-- The step past a page that has a page table. -/
theorem visits_step (ha : tab (pdx a) = true) (hlt : a < top) :
    Visits tab a top v ↔ v = a ∨ Visits tab (a + 1) top v := by
  have hno : ¬ Skips tab a v := by
    rintro ⟨h1, _, h3⟩
    rw [h3 (pdx a) (Nat.le_refl _) h1] at ha
    cases ha
  -- past the end of the table the walk is at the start of the next one
  have hno' : ¬ Skips tab (a + 1) v := by
    rintro ⟨h1, h2, h3⟩
    by_cases heq : pdx (a + 1) = pdx a
    · rw [← heq, h3 (pdx (a + 1)) (Nat.le_refl _) h1] at ha
      cases ha
    · have hzero : ptx (a + 1) = 0 := by
        unfold pdx ptx NPTENTRIES at *
        omega
      omega
  constructor
  · rintro ⟨hle, htop, _⟩
    by_cases hva : v = a
    · exact .inl hva
    · exact .inr ⟨by omega, htop, hno'⟩
  · rintro (rfl | ⟨hle, htop, _⟩)
    · exact ⟨Nat.le_refl _, hlt, hno⟩
    · exact ⟨by omega, htop, hno⟩

/-- From the start of a page table nothing is passed over. -/
theorem not_skips_of_aligned (ha : ptx a = 0) : ¬ Skips tab a v := by
  rintro ⟨_, h, _⟩
  omega

theorem not_skips_of_table (ha : tab (pdx a) = true) : ¬ Skips tab a v := by
  rintro ⟨h1, _, h3⟩
  rw [h3 (pdx a) (Nat.le_refl _) h1] at ha
  cases ha

end Visits

/-! ## What is freed -/

variable {κ : Type} {A : Allocator κ} {L : Lawful A} {ρ ρ' ρ₁ : Page → Tag} {h h' h₁ : Heap κ}
  {d : Page} {D D' : Nat → Prop}

/-- From `h` to `h'` the pages that `d` maps at the places `D` are freed. -/
structure Frees (L : Lawful A) (d : Page) (D : Nat → Prop) (ρ : Page → Tag) (h : Heap κ)
    (ρ' : Page → Tag) (h' : Heap κ) : Prop where
  sharp : Sharp L ρ' h'
  table : table h' d = table h d
  cleared : ∀ v, D v → entry h' d v = none
  same : ∀ v, ¬ D v → entry h' d v = entry h d v
  freed : ∀ v e, D v → entry h d v = some e → ρ' e.page = .free
  kept : ∀ x, (∀ v e, D v → entry h d v = some e → e.page ≠ x) → ρ' x = ρ x
  content : ∀ x, (∀ v e, D v → entry h d v = some e → e.page ≠ x) → (∀ i, ρ x ≠ .table d i) →
    h'.content x = h.content x

theorem Frees.nothing (hS : Sharp L ρ h) (hD : ∀ v, ¬ D v) : Frees L d D ρ h ρ h where
  sharp := hS
  table := rfl
  cleared v hv := absurd hv (hD v)
  same _ _ := rfl
  freed v _ hv := absurd hv (hD v)
  kept _ _ := rfl
  content _ _ _ := rfl

/-- Places where nothing is mapped do not matter. -/
theorem Frees.congr (hF : Frees L d D ρ h ρ' h')
    (hD : ∀ v e, entry h d v = some e → (D v ↔ D' v)) : Frees L d D' ρ h ρ' h' where
  sharp := hF.sharp
  table := hF.table
  cleared v hv := by
    by_cases hDv : D v
    · exact hF.cleared v hDv
    · rw [hF.same v hDv]
      cases he : entry h d v with
      | none => rfl
      | some e => exact absurd ((hD v e he).mpr hv) hDv
  same v hv := by
    by_cases hDv : D v
    · rw [hF.cleared v hDv]
      cases he : entry h d v with
      | none => rfl
      | some e => exact absurd ((hD v e he).mp hDv) hv
    · exact hF.same v hDv
  freed v e hv he := hF.freed v e ((hD v e he).mpr hv) he
  kept x hx := hF.kept x fun v e hv he => hx v e ((hD v e he).mp hv) he
  content x hx := hF.content x fun v e hv he => hx v e ((hD v e he).mp hv) he

/-- **One page more**: the page at `v` is freed first. -/
theorem Frees.cons {v : Nat} {t : Page} {pte : Nat → Option Pte} {e : Pte} (hE : Exact L)
    (hS : Sharp L ρ h) (hd : ρ d = .dir) (ht : Vm.table h d (pdx v) = some t)
    (hc : h.content t = .tab pte) (hv : v < KERNPAGE) (he : pte (ptx v) = some e)
    (hF : Frees L d D (upd ρ e.page .free) (h.released A t pte (ptx v) e.page) ρ' h') :
    Frees L d (fun w => w = v ∨ D w) ρ h ρ' h' := by
  obtain ⟨_, htab, hent⟩ := hS.release hE hd ht hc hv he
  have htag := (tag_of_table hS.toTagged hd ht).1
  have hev : entry h d v = some e := by rw [entry_of_tab ht hc, he]
  -- what the rest frees was mapped elsewhere
  have hrest : ∀ w e', entry (h.released A t pte (ptx v) e.page) d w = some e' →
      entry h d w = some e' := by
    intro w e' hw
    rw [hent] at hw
    by_cases hwv : w = v
    · rw [hwv, upd_self] at hw
      cases hw
    · rwa [upd_of_ne hwv] at hw
  have hkeep : ∀ x, (∀ w e', w = v ∨ D w → entry h d w = some e' → e'.page ≠ x) →
      e.page ≠ x ∧ ∀ w e', D w →
        entry (h.released A t pte (ptx v) e.page) d w = some e' → e'.page ≠ x := by
    intro x hx
    exact ⟨hx v e (.inl rfl) hev, fun w e' hw hwe => hx w e' (.inr hw) (hrest w e' hwe)⟩
  refine ⟨hF.sharp, hF.table.trans htab, ?_, ?_, ?_, ?_, ?_⟩
  · intro w hw
    by_cases hDw : D w
    · exact hF.cleared w hDw
    · rcases hw with rfl | hw
      · rw [hF.same w hDw, hent, upd_self]
      · exact absurd hw hDw
  · intro w hw
    have hwv : w ≠ v := fun hwv => hw (.inl hwv)
    rw [hF.same w fun hDw => hw (.inr hDw), hent, upd_of_ne hwv]
  · intro w e' hw hwe
    by_cases hwv : w = v
    · have hee : e' = e := by
        rw [hwv, hev] at hwe
        exact (Option.some.inj hwe).symm
      rw [hee]
      by_cases hx : ∀ w e', D w →
          entry (h.released A t pte (ptx v) e.page) d w = some e' → e'.page ≠ e.page
      · rw [hF.kept e.page hx, upd_self]
      · simp only [not_forall, ne_eq, not_not] at hx
        obtain ⟨w', e'', hw', hwe', heq⟩ := hx
        rw [← heq]
        exact hF.freed w' e'' hw' hwe'
    · have hDw : D w := hw.resolve_left hwv
      apply hF.freed w e' hDw
      rw [hent, upd_of_ne hwv]
      exact hwe
  · intro x hx
    obtain ⟨hxe, hx'⟩ := hkeep x hx
    rw [hF.kept x hx', upd_of_ne (Ne.symm hxe)]
  · intro x hx hxt
    obtain ⟨hxe, hx'⟩ := hkeep x hx
    have hne : x ≠ t := fun hxt' => hxt (pdx v) (hxt' ▸ htag)
    rw [hF.content x hx', released_content hne (Ne.symm hxe)]
    intro i
    rw [upd_of_ne (Ne.symm hxe)]
    exact hxt i

/-- Another directory is as before. -/
theorem Frees.others {d' : Page} (hF : Frees L d D ρ h ρ' h')
    (hS : Sharp L ρ h) (hd : ρ d = .dir) (hD : ∀ v, D v → v < KERNPAGE)
    (hd' : ρ d' = .dir) (hne : d' ≠ d) : entry h' d' = entry h d' := by
  have hpage : ∀ v e, D v → entry h d v = some e → ρ e.page = .user d (pdx v) (ptx v) :=
    fun v e hv he => tag_of_entry hS.toTagged hd (hD v hv) he
  apply (read_frame hS.toTagged hd' ?_ ?_).2
  · apply hF.content d'
    · intro v e hv he
      exact ne_of_tag (ρ := ρ) (by simp [hpage v e hv he, hd'])
    · simp [hd']
  · intro t i ht
    apply hF.content t
    · intro v e hv he
      exact ne_of_tag (ρ := ρ) (by simp [hpage v e hv he, ht])
    · intro i' ht'
      rw [ht] at ht'
      cases ht'
      exact hne rfl

/-! ## The loop -/

/-- **The loop of `deallocuvm`** frees the pages that it comes to. -/
theorem deallocLoop_frees {top fuel a : Nat} (hE : Exact L) (htop : top ≤ KERNPAGE)
    (hfuel : top ≤ a + fuel) (hS : Sharp L ρ h) (hd : ρ d = .dir) :
    Ensures (deallocLoop A d top fuel a) h (fun _ => False) fun _ h' =>
      ∃ ρ', Frees L d (Visits (tables h d) a top) ρ h ρ' h' := by
  induction fuel generalizing a ρ h with
  | zero =>
      refine ⟨ρ, .nothing hS ?_⟩
      rintro v ⟨h1, h2, _⟩
      omega
  | succ fuel ih =>
      unfold deallocLoop
      by_cases hlt : a < top
      · have hv : a < KERNPAGE := Nat.lt_of_lt_of_le hlt htop
        simp only [hlt, if_true, ensures_bind, walk_find hS.toTagged hd]
        cases ht : table h d (pdx a) with
        | none =>
            have hfuel' : top ≤ a + NPTENTRIES + fuel := by
              unfold NPTENTRIES
              omega
            refine (ih hfuel' hS hd).next ?_
            rintro _ h' ⟨ρ', hF⟩
            refine ⟨ρ', hF.congr ?_⟩
            intro v e he
            have htv : tables h d (pdx v) = true := by
              cases htv : table h d (pdx v) with
              | none =>
                  rw [entry_of_none htv] at he
                  cases he
              | some t => simp [tables, htv]
            exact (visits_jump (by simp [tables, ht]) htv).symm
        | some t =>
            obtain ⟨htag, pte, hc⟩ := tag_of_table hS.toTagged hd ht
            have hta : tables h d (pdx a) = true := by simp [tables, ht]
            simp only [Option.map_some, ensures_bind, ensures_tabAt hc]
            cases he : pte (ptx a) with
            | none =>
                refine (ih (by omega) hS hd).next ?_
                rintro _ h' ⟨ρ', hF⟩
                refine ⟨ρ', hF.congr ?_⟩
                intro v e hve
                rw [visits_step hta hlt]
                have hva : v ≠ a := by
                  rintro rfl
                  rw [entry_of_tab ht hc, he] at hve
                  cases hve
                exact ⟨.inr, fun h => h.resolve_left hva⟩
            | some e =>
                have hev : entry h d a = some e := by rw [entry_of_tab ht hc, he]
                have hx := tag_of_entry hS.toTagged hd hv hev
                have hne : t ≠ e.page := ne_of_tag (ρ := ρ) (by simp [htag, hx])
                have hrange := hS.range e.page (by simp [hx])
                have hpos : e.page ≠ 0 := by
                  intro h0
                  rw [h0, L.zero] at hrange
                  cases hrange
                have hc' : (h.freed A e.page).content t = .tab pte := by
                  rw [freed_of_ne hne, hc]
                have hde : d ≠ e.page := ne_of_tag (ρ := ρ) (by simp [hd, hx])
                obtain ⟨hS', htab', _⟩ := hS.release hE hd ht hc hv he
                have hd' : upd ρ e.page .free d = .dir := by rw [upd_of_ne hde, hd]
                simp only [hpos, if_false, ensures_bind, ensures_kfree hrange,
                  ensures_tabAt hc', ensures_setContent]
                refine (ih (by omega) hS' hd').next ?_
                rintro _ h' ⟨ρ', hF⟩
                have htabs : tables (h.released A t pte (ptx a) e.page) d = tables h d := by
                  funext i
                  simp only [tables, htab']
                rw [htabs] at hF
                refine ⟨ρ', (Frees.cons hE hS hd ht hc hv he hF).congr ?_⟩
                intro v _ _
                exact (visits_step hta hlt).symm
      · simp only [hlt, if_false]
        refine ⟨ρ, .nothing hS ?_⟩
        rintro v ⟨h1, h2, _⟩
        omega

/-- **`deallocuvm`** frees the pages that its loop comes to. -/
theorem deallocuvm_frees {oldsz newsz : Nat} (hE : Exact L) (hsz : oldsz ≤ KERNBASE)
    (hlt : newsz < oldsz) (hS : Sharp L ρ h) (hd : ρ d = .dir) :
    Ensures (deallocuvm A d oldsz newsz) h (fun _ => False) fun r h' =>
      r = newsz ∧
        ∃ ρ', Frees L d (Visits (tables h d) (pgup newsz) (pgup oldsz)) ρ h ρ' h' := by
  unfold deallocuvm
  rw [if_neg (by omega)]
  simp only [ensures_bind, ensures_pure, true_and]
  exact deallocLoop_frees hE (pgup_le hsz) (by omega) hS hd

/-! ## The kernel's allocator -/

theorem exact_kmem (cfg : Config) : Exact (lawful cfg) where
  kalloc_none u k k' hok hk := by
    rcases k with ⟨_ | ⟨x, xs⟩, _ | ⟨_ | _, fs⟩⟩ <;> simp [kmem] at hk <;> subst hk <;> rfl
  kalloc_some u k x k' hok hk := by
    rcases k with ⟨_ | ⟨y, xs⟩, _ | ⟨_ | _, fs⟩⟩ <;> simp [kmem] at hk <;> obtain ⟨rfl, rfl⟩ := hk
    all_goals
      have hy : y ∉ xs := (List.nodup_cons.mp hok).1
      ext z
      simp only [lawful, Set.mem_ofPred_eq, List.mem_cons, Set.mem_sdiff, Set.mem_singleton_iff]
      constructor
      · intro hz
        exact ⟨.inr hz, fun hzy => hy (hzy ▸ hz)⟩
      · rintro ⟨hz, hne⟩
        exact hz.resolve_left hne
  kfree x k _ _ := by
    ext z
    exact List.mem_cons

/-- What `deallocuvm` is for: the pages that `d` maps from `lo` to `hi` are put
on the free list, each once, and no other entry changes. -/
structure Clears (ρ : Page → Tag) (d : Page) (lo hi : Nat) (h h' : Heap Kmem) : Prop where
  free : ∀ x, x ∈ h'.kmem.freelist ↔
    x ∈ h.kmem.freelist ∨ ∃ v e, lo ≤ v ∧ v < hi ∧ entry h d v = some e ∧ e.page = x
  once : h'.kmem.freelist.Nodup
  cleared : ∀ v, lo ≤ v → v < hi → entry h' d v = none
  same : ∀ v, ¬ (lo ≤ v ∧ v < hi) → entry h' d v = entry h d v
  others : ∀ d', ρ d' = .dir → d' ≠ d → entry h' d' = entry h d'

section Clears

variable {cfg : Config} {h h' : Heap Kmem} {lo hi : Nat}

/-- The free list after `Frees`. -/
theorem Frees.mem_freelist (hF : Frees (lawful cfg) d D ρ h ρ' h') (hS : Sharp (lawful cfg) ρ h)
    (x : Page) : x ∈ h'.kmem.freelist ↔
      x ∈ h.kmem.freelist ∨ ∃ v e, D v ∧ entry h d v = some e ∧ e.page = x := by
  have hfree' : x ∈ h'.kmem.freelist ↔ ρ' x = .free := hF.sharp.mem_free x
  have hfree : x ∈ h.kmem.freelist ↔ ρ x = .free := hS.mem_free x
  rw [hfree', hfree]
  constructor
  · intro hx
    by_cases hex : ∃ v e, D v ∧ entry h d v = some e ∧ e.page = x
    · exact .inr hex
    · left
      rw [← hF.kept x fun v e hv he hex' => hex ⟨v, e, hv, he, hex'⟩]
      exact hx
  · rintro (hx | ⟨v, e, hv, he, rfl⟩)
    · by_cases hex : ∃ v e, D v ∧ entry h d v = some e ∧ e.page = x
      · obtain ⟨v, e, hv, he, rfl⟩ := hex
        exact hF.freed v e hv he
      · rw [hF.kept x fun v e hv he hex' => hex ⟨v, e, hv, he, hex'⟩]
        exact hx
    · exact hF.freed v e hv he

/-- **`deallocuvm` clears its range** exactly when the walk passes over nothing
that is mapped. -/
theorem deallocuvm_clears_iff {oldsz newsz : Nat} (hS : Sharp (lawful cfg) ρ h) (hd : ρ d = .dir)
    (hlt : newsz < oldsz) (hsz : oldsz ≤ KERNBASE) :
    (∃ h', deallocuvm (kmem cfg) d oldsz newsz h = .ok (newsz, h') ∧
      Clears ρ d (pgup newsz) (pgup oldsz) h h') ↔
    ∀ v e, pgup newsz ≤ v → v < pgup oldsz → entry h d v = some e →
      ¬ Skips (tables h d) (pgup newsz) v := by
  have hrun := deallocuvm_frees (exact_kmem cfg) hsz hlt hS hd
  have hlow : ∀ v, v < pgup oldsz → v < KERNPAGE := fun v hv =>
    Nat.lt_of_lt_of_le hv (pgup_le hsz)
  constructor
  · rintro ⟨h', hok, hclear⟩ v e hlo hhi he hskip
    obtain ⟨_, ρ', hF⟩ := hrun.of_ok hok
    -- a page that is passed over stays mapped
    have hkeep := hF.same v fun hvis => hvis.2.2 hskip
    rw [hclear.cleared v hlo hhi, he] at hkeep
    cases hkeep
  · intro hskip
    obtain ⟨r, h', hok, rfl, ρ', hF⟩ := hrun.exists_ok
    have hF : Frees (lawful cfg) d (fun v => pgup r ≤ v ∧ v < pgup oldsz) ρ h ρ' h' := by
      apply hF.congr
      intro v e he
      exact ⟨fun hv => ⟨hv.1, hv.2.1⟩, fun hv => ⟨hv.1, hv.2, hskip v e hv.1 hv.2 he⟩⟩
    refine ⟨h', hok, ?_, hF.sharp.ok, fun v hlo hhi => hF.cleared v ⟨hlo, hhi⟩, hF.same, ?_⟩
    · intro x
      rw [hF.mem_freelist hS]
      simp only [and_assoc]
    · intro d' hd' hne
      exact hF.others hS hd (fun v hv => hlow v hv.2) hd' hne

end Clears

/-! ## A page that is passed over -/

/-- A directory in page 1 with one page table, its `i`-th, in page 2, which maps
page 3 at its first place. -/
def sparse (i : Nat) : Heap Kmem where
  content x :=
    if x = 1 then .dir (upd (fun _ => none) i (some 2))
    else if x = 2 then .tab (upd (fun _ => none) 0 (some ⟨3, true, true⟩))
    else filled 0
  kmem := ⟨List.range' 4 28, []⟩
  log := []

def sparseTags (i : Nat) (x : Page) : Tag :=
  if x = 1 then .dir
  else if x = 2 then .table 1 i
  else if x = 3 then .user 1 i 0
  else if 4 ≤ x ∧ x < 32 then .free
  else .held

theorem sparseTags_cases (i x : Nat) :
    (x = 1 ∧ sparseTags i x = .dir) ∨ (x = 2 ∧ sparseTags i x = .table 1 i) ∨
      (x = 3 ∧ sparseTags i x = .user 1 i 0) ∨ ((4 ≤ x ∧ x < 32) ∧ sparseTags i x = .free) ∨
      (¬ (4 ≤ x ∧ x < 32) ∧ sparseTags i x = .held) := by
  unfold sparseTags
  by_cases h1 : x = 1
  · exact .inl ⟨h1, if_pos h1⟩
  by_cases h2 : x = 2
  · exact .inr (.inl ⟨h2, by rw [if_neg h1, if_pos h2]⟩)
  by_cases h3 : x = 3
  · exact .inr (.inr (.inl ⟨h3, by rw [if_neg h1, if_neg h2, if_pos h3]⟩))
  rw [if_neg h1, if_neg h2, if_neg h3]
  by_cases h4 : 4 ≤ x ∧ x < 32
  · exact .inr (.inr (.inr (.inl ⟨h4, if_pos h4⟩)))
  · exact .inr (.inr (.inr (.inr ⟨h4, if_neg h4⟩)))

theorem mem_sparse_freelist (i x : Nat) : x ∈ (sparse i).kmem.freelist ↔ 4 ≤ x ∧ x < 32 := by
  show x ∈ List.range' 4 28 ↔ _
  rw [List.mem_range'_1]

theorem sharp_sparse {i : Nat} (hi : i < pdx KERNPAGE) :
    Sharp (lawful smallConfig) (sparseTags i) (sparse i) where
  ok := List.nodup_range'
  free x hx := by
    have hx : 4 ≤ x ∧ x < 32 := (mem_sparse_freelist i x).mp hx
    rcases sparseTags_cases i x with ⟨rfl, _⟩ | ⟨rfl, _⟩ | ⟨rfl, _⟩ | ⟨_, h⟩ | ⟨h4, _⟩
    · exact absurd hx.1 (by decide)
    · exact absurd hx.1 (by decide)
    · exact absurd hx.1 (by decide)
    · exact h
    · exact absurd hx h4
  range x hx := by
    have hvalid : ∀ y : Nat, 1 ≤ y → y < 32 → (kmem smallConfig).valid y = true := by
      intro y h1 h2
      simp [kmem, smallConfig, h1, h2]
    rcases sparseTags_cases i x with ⟨rfl, _⟩ | ⟨rfl, _⟩ | ⟨rfl, _⟩ | ⟨h4, _⟩ | ⟨_, h⟩
    · rfl
    · rfl
    · rfl
    · exact hvalid x (Nat.le_trans (by decide) h4.1) h4.2
    · exact absurd h hx
  dir d hd := by
    rcases sparseTags_cases i d with ⟨rfl, _⟩ | ⟨_, h⟩ | ⟨_, h⟩ | ⟨_, h⟩ | ⟨_, h⟩
    · refine ⟨_, rfl, ?_⟩
      intro i' t ht
      by_cases hii : i' = i
      · rw [hii, upd_self] at ht
        cases ht
        rw [hii]
        rfl
      · rw [upd_of_ne hii] at ht
        cases ht
    all_goals
      rw [h] at hd
      cases hd
  tab t d i' ht := by
    rcases sparseTags_cases i t with ⟨_, h⟩ | ⟨rfl, h⟩ | ⟨_, h⟩ | ⟨_, h⟩ | ⟨_, h⟩
    · rw [h] at ht
      cases ht
    · rw [h] at ht
      cases ht
      refine ⟨⟨rfl, _, rfl, upd_self ..⟩, _, rfl, ?_⟩
      intro _ j e he
      by_cases hj : j = 0
      · rw [hj, upd_self] at he
        cases he
        rw [hj]
        rfl
      · rw [upd_of_ne hj] at he
        cases he
    all_goals
      rw [h] at ht
      cases ht
  isFree x hx := by
    rcases sparseTags_cases i x with ⟨_, h⟩ | ⟨_, h⟩ | ⟨_, h⟩ | ⟨h4, _⟩ | ⟨_, h⟩
    · rw [h] at hx
      cases hx
    · rw [h] at hx
      cases hx
    · rw [h] at hx
      cases hx
    · exact (mem_sparse_freelist i x).mpr h4
    · rw [h] at hx
      cases hx
  mapped x d i' j hx := by
    rcases sparseTags_cases i x with ⟨_, h⟩ | ⟨_, h⟩ | ⟨rfl, h⟩ | ⟨_, h⟩ | ⟨_, h⟩
    · rw [h] at hx
      cases hx
    · rw [h] at hx
      cases hx
    · rw [h] at hx
      cases hx
      have hpdx : pdx (i * NPTENTRIES) = i := Nat.mul_div_cancel i (by decide)
      have hptx : ptx (i * NPTENTRIES) = 0 := Nat.mul_mod_left i NPTENTRIES
      refine ⟨rfl, i * NPTENTRIES, ⟨3, true, true⟩, ?_, hpdx, hptx, ?_, rfl⟩
      · unfold pdx KERNPAGE KERNBASE PGSIZE NPTENTRIES at *
        omega
      · have ht : table (sparse i) 1 (pdx (i * NPTENTRIES)) = some 2 := by
          rw [hpdx]
          show upd (fun _ => none) i (some 2) i = _
          rw [upd_self]
        rw [entry_of_tab ht rfl, hptx]
        rfl
    all_goals
      rw [h] at hx
      cases hx
  index t d i' ht := by
    rcases sparseTags_cases i t with ⟨_, h⟩ | ⟨rfl, h⟩ | ⟨_, h⟩ | ⟨_, h⟩ | ⟨_, h⟩
    · rw [h] at ht
      cases ht
    · rw [h] at ht
      cases ht
      exact Nat.lt_trans hi (by decide)
    all_goals
      rw [h] at ht
      cases ht

/-- From the start of the directory the walk finds the page. -/
theorem deallocuvm_clears_sparse :
    ∃ h', deallocuvm (kmem smallConfig) 1 (1030 * PGSIZE) 0 (sparse 1) = .ok (0, h') ∧
      Clears (sparseTags 1) 1 (pgup 0) (pgup (1030 * PGSIZE)) (sparse 1) h' :=
  (deallocuvm_clears_iff (sharp_sparse (by decide)) rfl (by decide) (by decide)).mpr
    fun _ _ _ _ _ => not_skips_of_aligned rfl

/-- From the sixth page it jumps over the page at 1024. -/
theorem deallocuvm_passes_over : Sharp (lawful smallConfig) (sparseTags 1) (sparse 1) ∧
    sparseTags 1 1 = .dir ∧ 5 * PGSIZE < 1030 * PGSIZE ∧ 1030 * PGSIZE ≤ KERNBASE ∧
    ¬ ∃ h', deallocuvm (kmem smallConfig) 1 (1030 * PGSIZE) (5 * PGSIZE) (sparse 1) =
        .ok (5 * PGSIZE, h') ∧
      Clears (sparseTags 1) 1 (pgup (5 * PGSIZE)) (pgup (1030 * PGSIZE)) (sparse 1) h' := by
  refine ⟨sharp_sparse (by decide), rfl, by decide, by decide, ?_⟩
  rintro ⟨h', hok, hclear⟩
  have hrun : (deallocuvm (kmem smallConfig) 1 (1030 * PGSIZE) (5 * PGSIZE) (sparse 1)).toOption.map
      (fun r => decide (entry r.2 1 1024 = none)) = some false := by
    decide +kernel
  rw [hok] at hrun
  have hnone := hclear.cleared 1024 (by decide) (by decide)
  simp [Except.toOption, hnone] at hrun

end Xv6.Vm
