import Xv6.Vm.Tags

/-!
# Vm — the page tables keep their tags

One rule for each function of `vm.c`: from memory that is tagged by `ρ` it
leads to memory that can be tagged again, with the tags of `ρ` on all
pages that pointers outside the page tables may refer to. Where a
function panics, memory is tagged as well.
-/

namespace Xv6.Vm

open Lib

section Primitives

variable {κ : Type} {h : Heap κ} {E : Stop × Heap κ → Prop}

theorem ensures_dirAt {d : Page} {pde : Nat → Option Page} {Q : (Nat → Option Page) → Heap κ → Prop}
    (hc : h.content d = .dir pde) : Ensures (dirAt d) h E Q ↔ Q pde h := by
  simp [dirAt, hc]

theorem ensures_tabAt {t : Page} {pte : Nat → Option Pte} {Q : (Nat → Option Pte) → Heap κ → Prop}
    (hc : h.content t = .tab pte) : Ensures (tabAt t) h E Q ↔ Q pte h := by
  simp [tabAt, hc]

@[simp] theorem ensures_setContent {x : Page} {c : Content} {Q : Unit → Heap κ → Prop} :
    Ensures (setContent x c) h E Q ↔ Q () { h with content := upd h.content x c } := Iff.rfl

@[simp] theorem ensures_panic {α : Type} {msg : String} {Q : α → Heap κ → Prop} :
    Ensures (panic msg) h E Q ↔ E (.panic msg, h) := Iff.rfl

end Primitives

variable {κ : Type} {A : Allocator κ} {L : Lawful A} {ρ : Page → Tag} {h : Heap κ} {d : Page}

/-! ## Walking and mapping -/

theorem walkpgdir_find (hT : Tagged L ρ h) (hd : ρ d = .dir) (v : Nat) :
    Ensures (walkpgdir A d v false) h (fun _ => False) fun r h' =>
      h' = h ∧ ∀ t j, r = some (t, j) → ρ t = .table d (pdx v) ∧ j = ptx v := by
  obtain ⟨pde, hc, hpde⟩ := hT.dir d hd
  simp only [walkpgdir, ensures_bind, ensures_dirAt hc]
  cases hi : pde (pdx v) with
  | none => simp
  | some t =>
      simp only [ensures_pure, Option.some_inj, Prod.mk.injEq, true_and]
      rintro t' j ⟨rfl, rfl⟩
      exact ⟨hpde _ _ hi, rfl⟩

theorem walkpgdir_alloc (hT : Tagged L ρ h) (hd : ρ d = .dir) (v : Nat) :
    Ensures (walkpgdir A d v true) h (fun _ => False) fun r h' =>
      ∃ ρ', Tagged L ρ' h' ∧ Keeps ∅ ρ ρ' ∧
        ∀ t j, r = some (t, j) → ρ' t = .table d (pdx v) ∧ j = ptx v := by
  obtain ⟨pde, hc, hpde⟩ := hT.dir d hd
  simp only [walkpgdir, ensures_bind, ensures_dirAt hc]
  cases hi : pde (pdx v) with
  | some t =>
      refine ⟨ρ, hT, .refl _ _, ?_⟩
      rintro t' j ⟨⟩
      exact ⟨hpde _ _ hi, rfl⟩
  | none =>
      simp only [Bool.true_eq_false, if_false, ensures_bind]
      refine (kalloc_rule .table hT).next fun r h' hr => ?_
      obtain ⟨hh, hr⟩ := hr
      cases r with
      | none => exact ⟨ρ, hr, .refl _ _, by simp⟩
      | some t =>
          obtain ⟨hfree, hrange, hT'⟩ := hr
          have hne : d ≠ t := ne_of_tag (ρ := ρ) (by simp [hd, hfree])
          have hT'' := hT'.newTable (d := d) (by rw [upd_of_ne hne, hd]) (by rw [hh, hc]) hi
            (upd_self ..) hrange
          simp only [ensures_bind, ensures_setContent, ensures_pure]
          refine ⟨_, hT'', ?_, ?_⟩
          · rw [upd_upd]
            exact keeps_upd _ (by simp [hfree])
          · rintro t' j ⟨⟩
            exact ⟨upd_self .., rfl⟩

/-- Pages are mapped in the kernel's part. -/
theorem mappages_kernel {w u : Bool} {n v : Nat} {pa : Page} (hT : Tagged L ρ h)
    (hd : ρ d = .dir) (hv : KERNPAGE ≤ v) :
    Ensures (mappages A d w u n v pa) h (Halts L ρ ∅) fun _ => Tracks L ρ ∅ := by
  induction n generalizing v pa ρ h with
  | zero => exact ⟨ρ, hT, .refl _ _⟩
  | succ n ih =>
      simp only [mappages, ensures_bind]
      refine (walkpgdir_alloc hT hd v).imp (fun _ => False.elim) fun r h' hr => ?_
      obtain ⟨ρ', hT', hk, hr⟩ := hr
      rcases r with _ | ⟨t, j⟩
      · exact ⟨ρ', hT', hk⟩
      obtain ⟨ht, rfl⟩ := hr t j rfl
      obtain ⟨_, pte, hc, _⟩ := hT'.tab t d _ ht
      have hhigh : ¬ pdx v < pdx KERNPAGE := Nat.not_lt.mpr (Nat.div_le_div_right hv)
      simp only [ensures_bind, ensures_tabAt hc]
      split
      · exact ⟨by simp, ρ', hT', hk⟩
      · simp only [ensures_bind, ensures_setContent]
        have hd' : ρ' d = .dir := (hk d (by simp) (.inr hd)).trans hd
        refine (ih (hT'.setPte ht hc fun hlt => absurd hlt hhigh) hd' (by omega)).imp
          (fun e he => he.trans hk (by simp)) fun _ h'' hr => hr.trans hk (by simp)

/-- A page that is held is mapped in the user's part. -/
theorem mappages_user {w u : Bool} {v : Nat} {m : Page} (hT : Tagged L ρ h)
    (hd : ρ d = .dir) (hm : ρ m = .held) (hr : A.valid m = true) :
    Ensures (mappages A d w u 1 v m) h (Halts L ρ {m}) fun _ => Tracks L ρ {m} := by
  simp only [mappages, ensures_bind]
  refine (walkpgdir_alloc hT hd v).imp (fun _ => False.elim) fun r h' hr' => ?_
  obtain ⟨ρ', hT', hk, hr'⟩ := hr'
  have hkm : Keeps {m} ρ ρ' := fun x _ => hk x (by simp)
  rcases r with _ | ⟨t, j⟩
  · exact ⟨ρ', hT', hkm⟩
  obtain ⟨ht, rfl⟩ := hr' t j rfl
  obtain ⟨_, pte, hc, _⟩ := hT'.tab t d _ ht
  simp only [ensures_bind, ensures_tabAt hc]
  split
  · exact ⟨by simp, ρ', hT', hkm⟩
  · simp only [ensures_bind, ensures_setContent, ensures_pure]
    have hm' : ρ' m = .held := (hk m (by simp) (.inl hm)).trans hm
    have htm : t ≠ m := ne_of_tag (ρ := ρ') (by simp [ht, hm'])
    have hT'' := hT'.retag (hT'.loose_of_held hm') (by simp [hm']) (.user d (pdx v) (ptx v))
      (fun _ => hr) (by simp) (by simp)
    refine ⟨_, hT''.setPte (d := d) (i := pdx v) (by rw [upd_of_ne htm, ht]) hc ?_,
      hkm.trans (keeps_upd (S := {m}) _ (by simp)) (by simp)⟩
    rintro _ e ⟨⟩
    exact upd_self ..

/-- A page that was just taken is mapped, whatever has been stored in it. -/
theorem mappages_new {w u : Bool} {v : Nat} {m : Page} {c : Content}
    (hT : Tagged L (upd ρ m .held) h) (hd : ρ d = .dir) (hfree : ρ m = .free)
    (hr : A.valid m = true) :
    Ensures (mappages A d w u 1 v m) { h with content := upd h.content m c } (Halts L ρ ∅)
      fun _ => Tracks L ρ ∅ := by
  have hne : d ≠ m := ne_of_tag (ρ := ρ) (by simp [hd, hfree])
  have hk : Keeps ∅ ρ (upd ρ m .held) := keeps_upd _ (by simp [hfree])
  have hm : ∀ x ∈ ({m} : Set Page), ρ x = .held ∨ ρ x = .dir → x ∈ (∅ : Set Page) := by
    rintro x rfl hx
    simp [hfree] at hx
  exact (mappages_user (hT.setHeld (upd_self ..) c) (by rw [upd_of_ne hne, hd]) (upd_self ..)
    hr).imp (fun _ he => he.trans hk hm) fun _ _ hr => hr.trans hk hm

/-! ## `setupkvm` -/

theorem mapKernel_rule {ks : List Kmap} (hks : ∀ k ∈ ks, KERNPAGE ≤ k.virt)
    (hT : Tagged L ρ h) (hd : ρ d = .dir) :
    Ensures (mapKernel A d ks) h (Halts L ρ ∅) fun _ => Tracks L ρ ∅ := by
  induction ks generalizing ρ h with
  | nil => exact ⟨ρ, hT, .refl _ _⟩
  | cons k ks ih =>
      simp only [mapKernel, ensures_bind]
      refine (mappages_kernel hT hd (hks k (by simp))).next fun b h' hr => ?_
      obtain ⟨ρ', hT', hk⟩ := hr
      split
      · have hd' : ρ' d = .dir := (hk d (by simp) (.inr hd)).trans hd
        exact (ih (fun k' hk' => hks k' (by simp [hk'])) hT' hd').imp
          (fun e he => he.trans hk (by simp)) fun _ h'' hr => hr.trans hk (by simp)
      · exact ⟨ρ', hT', hk⟩

/-- **`setupkvm`** makes a directory of a free page. -/
theorem setupkvm_rule {ks : List Kmap} (hks : ∀ k ∈ ks, KERNPAGE ≤ k.virt)
    (hT : Tagged L ρ h) :
    Ensures (setupkvm A ks) h (Halts L ρ ∅) fun r h' =>
      ∃ ρ', Tagged L ρ' h' ∧ Keeps ∅ ρ ρ' ∧ ∀ d, r = some d → ρ d = .free ∧ ρ' d = .dir := by
  simp only [setupkvm, ensures_bind]
  refine (kalloc_rule .dir hT).imp (fun _ => False.elim) fun r h' hr => ?_
  obtain ⟨_, hr⟩ := hr
  cases r with
  | none => exact ⟨ρ, hr, .refl _ _, by simp⟩
  | some d =>
      obtain ⟨hfree, hrange, hT'⟩ := hr
      have hT1 := hT'.setHeld (upd_self ..) (.dir fun _ => none)
      have hT2 := hT1.retag (hT1.loose_of_held (upd_self ..)) (by simp) .dir (fun _ => hrange)
        (fun _ => upd_self ..) (by simp)
      have hk : Keeps ∅ ρ (upd (upd ρ d .held) d .dir) := by
        rw [upd_upd]
        exact keeps_upd _ (by simp [hfree])
      simp only [ensures_bind, ensures_setContent]
      refine (mapKernel_rule hks hT2 (upd_self ..)).imp
        (fun e he => he.trans hk (by simp)) fun b h'' hr => ?_
      obtain ⟨ρ'', hT'', hk'⟩ := hr
      have hd : ρ'' d = .dir := by
        rw [hk' d (by simp) (by simp), upd_self]
      split
      · refine ⟨ρ'', hT'', hk.trans hk' (by simp), ?_⟩
        rintro d' ⟨⟩
        exact ⟨hfree, hd⟩
      · exact ⟨ρ'', hT'', hk.trans hk' (by simp), by simp⟩

/-! ## User memory -/

/-- `kfree` of a mapped page, and then clearing its entry. -/
theorem free_entry {t : Page} {i j : Nat} {pte : Nat → Option Pte} {e : Pte}
    (hT : Tagged L ρ h) (ht : ρ t = .table d i) (hc : h.content t = .tab pte)
    (hi : i < pdx KERNPAGE) (he : pte j = some e) :
    A.valid e.page = true ∧ t ≠ e.page ∧
      Tracks L ρ ∅
        { h.freed A e.page with
          content := upd (h.freed A e.page).content t (.tab (upd pte j none)) } := by
  have hx : ρ e.page = .user d i j := by
    obtain ⟨_, pte', hc', hpte⟩ := hT.tab t d i ht
    cases hc.symm.trans hc'
    exact hpte hi j e he
  have hne : t ≠ e.page := ne_of_tag (ρ := ρ) (by simp [ht, hx])
  have hr := hT.range e.page (by simp [hx])
  have hT' := (hT.unmap ht hc hi he).freed (upd_self ..) hr
  rw [upd_upd] at hT'
  refine ⟨hr, hne, upd ρ e.page .free, ?_, keeps_upd _ (by simp [hx])⟩
  simp only [Heap.freed, upd_comm hne.symm]
  exact hT'

theorem deallocLoop_rule {top fuel v : Nat} (htop : top ≤ KERNPAGE) (hT : Tagged L ρ h)
    (hd : ρ d = .dir) :
    Ensures (deallocLoop A d top fuel v) h (fun _ => False) fun _ => Tracks L ρ ∅ := by
  induction fuel generalizing v ρ h with
  | zero => exact ⟨ρ, hT, .refl _ _⟩
  | succ fuel ih =>
      unfold deallocLoop
      split
      · rename_i hv
        have hlow : pdx v < pdx KERNPAGE :=
          Nat.div_lt_of_lt_mul (Nat.lt_of_lt_of_le (Nat.lt_of_lt_of_le hv htop) (by decide))
        simp only [ensures_bind]
        refine (walkpgdir_find hT hd v).next fun r h' hr => ?_
        obtain ⟨rfl, hr⟩ := hr
        rcases r with _ | ⟨t, j⟩
        · exact ih hT hd
        obtain ⟨ht, rfl⟩ := hr t j rfl
        obtain ⟨_, pte, hc, _⟩ := hT.tab t d _ ht
        simp only [ensures_bind, ensures_tabAt hc]
        cases he : pte (ptx v) with
        | none => exact ih hT hd
        | some e =>
            obtain ⟨hrange, hne, ρ', hT', hk⟩ := free_entry hT ht hc hlow he
            have hpos : e.page ≠ 0 := by
              intro h0
              rw [h0, L.zero] at hrange
              cases hrange
            have hc' : (h'.freed A e.page).content t = .tab pte := by
              rw [freed_of_ne hne, hc]
            have hd' : ρ' d = .dir := (hk d (by simp) (.inr hd)).trans hd
            simp only [hpos, if_false, ensures_bind, ensures_kfree hrange, ensures_tabAt hc',
              ensures_setContent]
            exact (ih hT' hd').next fun _ h'' hr => hr.trans hk (by simp)
      · exact ⟨ρ, hT, .refl _ _⟩

theorem pgup_le {a : Nat} (h : a ≤ KERNBASE) : pgup a ≤ KERNPAGE := by
  unfold pgup KERNPAGE
  unfold KERNBASE PGSIZE at *
  omega

theorem deallocuvm_rule {oldsz newsz : Nat} (hsz : oldsz ≤ KERNBASE) (hT : Tagged L ρ h)
    (hd : ρ d = .dir) :
    Ensures (deallocuvm A d oldsz newsz) h (fun _ => False) fun r h' =>
      Tracks L ρ ∅ h' ∧ r ≤ oldsz := by
  unfold deallocuvm
  split
  · exact ⟨⟨ρ, hT, .refl _ _⟩, Nat.le_refl _⟩
  · simp only [ensures_bind]
    refine (deallocLoop_rule (pgup_le hsz) hT hd).next fun _ h' hr => ?_
    exact ⟨hr, by omega⟩

theorem allocLoop_rule {oldsz newsz n v : Nat} (hnew : newsz ≤ KERNBASE)
    (hT : Tagged L ρ h) (hd : ρ d = .dir) :
    Ensures (allocLoop A d oldsz newsz n v) h (Halts L ρ ∅) fun r h' =>
      Tracks L ρ ∅ h' ∧ r ≤ newsz := by
  induction n generalizing v ρ h with
  | zero => exact ⟨⟨ρ, hT, .refl _ _⟩, Nat.le_refl _⟩
  | succ n ih =>
      simp only [allocLoop, ensures_bind]
      refine (kalloc_rule .page hT).imp (fun _ => False.elim) fun r h' hr => ?_
      obtain ⟨_, hr⟩ := hr
      cases r with
      | none =>
          simp only [ensures_bind]
          refine (deallocuvm_rule hnew hr hd).imp (fun _ => False.elim) fun _ h'' hr => ?_
          exact ⟨hr.1, Nat.zero_le _⟩
      | some m =>
          obtain ⟨hfree, hrange, hT'⟩ := hr
          simp only [ensures_bind, ensures_setContent]
          refine (mappages_new hT' hd hfree hrange).next fun _ h'' hr => ?_
          obtain ⟨ρ'', hT'', hk2⟩ := hr
          have hd'' : ρ'' d = .dir := (hk2 d (by simp) (.inr hd)).trans hd
          exact (ih hT'' hd'').imp (fun e he => he.trans hk2 (by simp))
            fun _ h3 hr => ⟨hr.1.trans hk2 (by simp), hr.2⟩

theorem allocuvm_rule {oldsz newsz : Nat} (hold : oldsz ≤ KERNBASE) (hT : Tagged L ρ h)
    (hd : ρ d = .dir) :
    Ensures (allocuvm A d oldsz newsz) h (Halts L ρ ∅) fun r h' =>
      Tracks L ρ ∅ h' ∧ r ≤ KERNBASE := by
  unfold allocuvm
  split
  · exact ⟨⟨ρ, hT, .refl _ _⟩, Nat.zero_le _⟩
  split
  · exact ⟨⟨ρ, hT, .refl _ _⟩, hold⟩
  · rename_i hnew _
    have hnew : newsz ≤ KERNBASE := by omega
    exact (allocLoop_rule hnew hT hd).next fun _ h' hr => ⟨hr.1, hr.2.trans hnew⟩

/-! ## `freevm` -/

/-- The page tables of a directory that is not in use any more are freed. -/
theorem freeTables_rule {n i : Nat} {pde : Nat → Option Page} (hT : Tagged L ρ h)
    (hd : ρ d = .held) (hc : h.content d = .dir pde)
    (htab : ∀ i t, pde i = some t → t ≠ d ∧ A.valid t = true)
    (hheld : ∀ i' t, i ≤ i' → pde i' = some t → ρ t = .held)
    (hinj : ∀ i i' t, pde i = some t → pde i' = some t → i = i') :
    Ensures (freeTables A d n i) h (fun _ => False) fun _ h' =>
      ∃ ρ', Tagged L ρ' h' ∧ ρ' d = .held ∧ Keeps {x | ∃ i, pde i = some x} ρ ρ' := by
  induction n generalizing i ρ h with
  | zero => exact ⟨ρ, hT, hd, .refl _ _⟩
  | succ n ih =>
      simp only [freeTables, ensures_bind, ensures_dirAt hc]
      cases hi : pde i with
      | none => exact ih hT hd hc fun i' t hle => hheld i' t (by omega)
      | some t =>
          obtain ⟨htd, hrange⟩ := htab i t hi
          have hT' := hT.freed (hheld i t (Nat.le_refl i) hi) hrange
          have hd' : upd ρ t .free d = .held := by rw [upd_of_ne htd.symm, hd]
          have hc' : (h.freed A t).content d = .dir pde := by
            rw [freed_of_ne htd.symm, hc]
          have hk : Keeps {x | ∃ i, pde i = some x} ρ (upd ρ t .free) :=
            keeps_upd _ fun _ => ⟨i, hi⟩
          simp only [ensures_bind, ensures_kfree hrange]
          refine (ih hT' hd' hc' fun i' t' hle ht' => ?_).next fun _ h' hr => ?_
          · have hne : t' ≠ t := by
              rintro rfl
              have := hinj i i' t' hi ht'
              omega
            rw [upd_of_ne hne, hheld i' t' (by omega) ht']
          · obtain ⟨ρ', hT'', hd'', hk'⟩ := hr
            exact ⟨ρ', hT'', hd'', hk.trans hk' fun x hx _ => hx⟩

/-- **`freevm`** frees a directory and what belongs to it. -/
theorem freevm_rule (hT : Tagged L ρ h) (hd : ρ d = .dir) :
    Ensures (freevm A d) h (fun _ => False) fun _ => Tracks L ρ {d} := by
  simp only [freevm, ensures_bind]
  refine (deallocuvm_rule (Nat.le_refl _) hT hd).next fun _ h1 hr => ?_
  obtain ⟨⟨ρ1, hT1, hk1⟩, _⟩ := hr
  have hd1 : ρ1 d = .dir := (hk1 d (by simp) (.inr hd)).trans hd
  obtain ⟨pde, hc, hpde⟩ := hT1.dir d hd1
  -- from here on nothing refers to the directory, nor to its tables
  have hheld : drop d ρ1 d = .held := by simp [drop]
  have htd : ∀ i t, pde i = some t → t ≠ d := fun i t hi =>
    ne_of_tag (ρ := ρ1) (by simp [hd1, hpde i t hi])
  refine (freeTables_rule (hT1.drop hd1) hheld hc (fun i t hi => ⟨htd i t hi, ?_⟩)
    (fun i t _ hi => ?_) fun i i' t hi hi' => ?_).next fun _ h2 hr => ?_
  · exact hT1.range t (by simp [hpde i t hi])
  · simp [drop, hpde i t hi, htd i t hi]
  · have := (hpde i t hi).symm.trans (hpde i' t hi')
    cases this
    rfl
  · obtain ⟨ρ2, hT2, hd2, hk2⟩ := hr
    have hrange := hT1.range d (by simp [hd1])
    rw [ensures_kfree hrange]
    refine ⟨_, hT2.freed hd2 hrange, ?_⟩
    have hkd : Keeps {d} ρ (drop d ρ1) :=
      Keeps.trans (S := {d}) (fun x _ => hk1 x (by simp)) (keeps_drop d ρ1) fun x hx _ => hx
    refine (hkd.trans hk2 fun x hx hρ => ?_).trans
      (keeps_upd (S := {d}) .free fun _ => rfl) fun x hx _ => hx
    -- a table of the directory was not held
    obtain ⟨i, hi⟩ := hx
    have h1 : ρ1 x = ρ x := hk1 x (by simp) hρ
    rw [← h1, hpde i x hi] at hρ
    simp at hρ

/-! ## `copyuvm`, `inituvm` and `clearpteu` -/

theorem copyLoop_rule {d' : Page} {n v : Nat} (hT : Tagged L ρ h) (hd : ρ d = .dir)
    (hd' : ρ d' = .dir) :
    Ensures (copyLoop A d d' n v) h (Halts L ρ ∅) fun _ => Tracks L ρ ∅ := by
  induction n generalizing v ρ h with
  | zero => exact ⟨ρ, hT, .refl _ _⟩
  | succ n ih =>
      simp only [copyLoop, ensures_bind]
      refine (walkpgdir_find hT hd v).imp (fun _ => False.elim) fun r h' hr => ?_
      obtain ⟨rfl, hr⟩ := hr
      rcases r with _ | ⟨t, j⟩
      · exact ⟨by simp, ρ, hT, .refl _ _⟩
      obtain ⟨ht, rfl⟩ := hr t j rfl
      obtain ⟨_, pte, hc, _⟩ := hT.tab t d _ ht
      simp only [ensures_bind, ensures_tabAt hc]
      cases he : pte (ptx v) with
      | none => exact ⟨by simp, ρ, hT, .refl _ _⟩
      | some e =>
          simp only [ensures_bind]
          refine (kalloc_rule .page hT).imp (fun _ => False.elim) fun r h1 hr => ?_
          obtain ⟨_, hr⟩ := hr
          cases r with
          | none => exact ⟨ρ, hr, .refl _ _⟩
          | some m =>
              obtain ⟨hfree, hrange, hT1⟩ := hr
              simp only [ensures_bind, ensures_setContent]
              refine (mappages_new hT1 hd' hfree hrange).next fun b h2 hr => ?_
              obtain ⟨ρ2, hT2, hk2⟩ := hr
              split
              · exact (ih hT2 ((hk2 d (by simp) (.inr hd)).trans hd)
                  ((hk2 d' (by simp) (.inr hd')).trans hd')).imp
                  (fun e he => he.trans hk2 (by simp)) fun _ h3 hr => hr.trans hk2 (by simp)
              · exact ⟨ρ2, hT2, hk2⟩

/-- **`copyuvm`** makes a directory of a free page, or gives everything
back. -/
theorem copyuvm_rule {ks : List Kmap} {sz : Nat} (hks : ∀ k ∈ ks, KERNPAGE ≤ k.virt)
    (hT : Tagged L ρ h) (hd : ρ d = .dir) :
    Ensures (copyuvm A ks d sz) h (Halts L ρ ∅) fun r h' =>
      ∃ ρ', Tagged L ρ' h' ∧ Keeps ∅ ρ ρ' ∧ ∀ d', r = some d' → ρ d' = .free ∧ ρ' d' = .dir := by
  simp only [copyuvm, ensures_bind]
  refine (setupkvm_rule hks hT).next fun r h1 hr => ?_
  obtain ⟨ρ1, hT1, hk1, hr⟩ := hr
  cases r with
  | none => exact ⟨ρ1, hT1, hk1, by simp⟩
  | some d' =>
      obtain ⟨hfree, hd'⟩ := hr d' rfl
      have hd1 : ρ1 d = .dir := (hk1 d (by simp) (.inr hd)).trans hd
      simp only [ensures_bind]
      refine (copyLoop_rule hT1 hd1 hd').imp (fun e he => he.trans hk1 (by simp))
        fun b h2 hr => ?_
      obtain ⟨ρ2, hT2, hk2⟩ := hr
      have hd2 : ρ2 d' = .dir := (hk2 d' (by simp) (.inr hd')).trans hd'
      have hk : Keeps ∅ ρ ρ2 := hk1.trans hk2 (by simp)
      split
      · refine ⟨ρ2, hT2, hk, ?_⟩
        rintro d'' ⟨⟩
        exact ⟨hfree, hd2⟩
      · simp only [ensures_bind, ensures_pure]
        refine (freevm_rule hT2 hd2).imp (fun _ => False.elim) fun _ h3 hr => ?_
        obtain ⟨ρ3, hT3, hk3⟩ := hr
        refine ⟨ρ3, hT3, hk.trans hk3 ?_, by simp⟩
        rintro x rfl hx
        simp [hfree] at hx

theorem inituvm_rule {init : List UInt8} (hT : Tagged L ρ h) (hd : ρ d = .dir) :
    Ensures (inituvm A d init) h (Halts L ρ ∅) fun _ => Tracks L ρ ∅ := by
  unfold inituvm
  split
  · exact ⟨by simp, ρ, hT, .refl _ _⟩
  simp only [ensures_bind]
  refine (kalloc_rule .page hT).imp (fun _ => False.elim) fun r h' hr => ?_
  obtain ⟨_, hr⟩ := hr
  cases r with
  | none => exact ⟨by simp, ρ, hr, .refl _ _⟩
  | some m =>
      obtain ⟨hfree, hrange, hT'⟩ := hr
      simp only [ensures_bind, ensures_setContent]
      exact mappages_new hT' hd hfree hrange

theorem clearpteu_rule {v : Nat} (hT : Tagged L ρ h) (hd : ρ d = .dir) :
    Ensures (clearpteu A d v) h (Halts L ρ ∅) fun _ => Tracks L ρ ∅ := by
  simp only [clearpteu, ensures_bind]
  refine (walkpgdir_find hT hd v).imp (fun _ => False.elim) fun r h' hr => ?_
  obtain ⟨rfl, hr⟩ := hr
  rcases r with _ | ⟨t, j⟩
  · exact ⟨by simp, ρ, hT, .refl _ _⟩
  obtain ⟨ht, rfl⟩ := hr t j rfl
  obtain ⟨_, pte, hc, hpte⟩ := hT.tab t d _ ht
  simp only [ensures_bind, ensures_tabAt hc, ensures_setContent]
  refine ⟨ρ, hT.setPte ht hc fun hlt e he => ?_, .refl _ _⟩
  obtain ⟨e', he', rfl⟩ := Option.map_eq_some_iff.mp he
  exact hpte hlt _ e' he'

end Xv6.Vm
