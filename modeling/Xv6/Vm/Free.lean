import Xv6.Vm.Dealloc

/-!
# Vm — `freevm`

A directory owns itself, its page tables and the user pages that it maps.
`freevm` frees exactly those: the user pages by a walk that starts at 0 and
passes over nothing, the page tables by a scan of the directory.
-/

namespace Xv6.Vm

open Lib

variable {κ : Type} {A : Allocator κ} {L : Lawful A} {ρ : Page → Tag} {h : Heap κ} {d : Page}

/-- The pages that were allocated for `d`. -/
def Owns (ρ : Page → Tag) (d x : Page) : Prop :=
  x = d ∨ (∃ i, ρ x = .table d i) ∨ ∃ i j, ρ x = .user d i j

theorem drop_of_owns {x : Page} (hx : Owns ρ d x) : drop d ρ x = .held := by
  unfold drop
  by_cases hxd : x = d
  · rw [if_pos hxd]
  · rw [if_neg hxd]
    rcases hx with hx | ⟨i, hx⟩ | ⟨i, j, hx⟩
    · exact absurd hx hxd
    · simp [hx]
    · simp [hx]

theorem drop_of_not_owns {x : Page} (hx : ¬ Owns ρ d x) : drop d ρ x = ρ x := by
  unfold drop
  rw [if_neg fun hxd => hx (.inl hxd)]
  cases hρ : ρ x with
  | table d' i =>
      have hne : d' ≠ d := by
        rintro rfl
        exact hx (.inr (.inl ⟨i, hρ⟩))
      simp [hne]
  | user d' i j =>
      have hne : d' ≠ d := by
        rintro rfl
        exact hx (.inr (.inr ⟨i, j, hρ⟩))
      simp [hne]
  | _ => rfl

/-- A page keeps its tag, or nothing refers to it any more. -/
theorem of_drop_eq {x : Page} {τ : Tag} (hx : drop d ρ x = τ) (hτ : τ ≠ .held) :
    ρ x = τ ∧ ¬ Owns ρ d x := by
  by_cases hown : Owns ρ d x
  · rw [drop_of_owns hown] at hx
    exact absurd hx.symm hτ
  · rw [drop_of_not_owns hown] at hx
    exact ⟨hx, hown⟩

theorem Sharp.drop (hS : Sharp L ρ h) (hd : ρ d = .dir) : Sharp L (Vm.drop d ρ) h where
  toTagged := hS.toTagged.drop hd
  isFree x hx := hS.isFree x (of_drop_eq hx (by simp)).1
  mapped x d' i j hx := by
    obtain ⟨hρ, hown⟩ := of_drop_eq hx (by simp)
    obtain ⟨hd', hmap⟩ := hS.mapped x d' i j hρ
    have hne : ¬ Owns ρ d d' := by
      rintro (rfl | ⟨_, h⟩ | ⟨_, _, h⟩)
      · exact hown (.inr (.inr ⟨i, j, hρ⟩))
      · rw [hd'] at h
        cases h
      · rw [hd'] at h
        cases h
    exact ⟨(drop_of_not_owns hne).trans hd', hmap⟩
  index t d' i ht := hS.index t d' i (of_drop_eq ht (by simp)).1

/-- **`kfree`** of a page that is held. -/
theorem Sharp.freed {x : Page} (hE : Exact L) (hS : Sharp L ρ h) (hx : ρ x = .held)
    (hr : A.valid x = true) : Sharp L (upd ρ x .free) (h.freed A x) where
  toTagged := hS.toTagged.freed hx hr
  isFree y hy := by
    have hnot : x ∉ L.free h.kmem := fun hmem => by cases hx.symm.trans (hS.free x hmem)
    show y ∈ L.free (A.kfree x h.kmem)
    rw [hE.kfree x h.kmem hS.ok hnot]
    by_cases hyx : y = x
    · exact .inl hyx
    · rw [upd_of_ne hyx] at hy
      exact .inr (hS.isFree y hy)
  mapped y d' i j hy := by
    obtain ⟨hd', hmap⟩ := hS.mapped y d' i j (of_upd_eq hy (by simp)).2
    have hdx : d' ≠ x := ne_of_tag (ρ := ρ) (by simp [hd', hx])
    refine ⟨by rw [upd_of_ne hdx, hd'], ?_⟩
    have hread : entry (h.freed A x) d' = entry h d' :=
      (read_upd hS.toTagged hd' (by simp [hx]) (by simp [hx])).2
    rw [hread]
    exact hmap
  index t d' i ht := hS.index t d' i (of_upd_eq ht (by simp)).2

/-- The loop over the directory frees the page tables from `i` on. -/
theorem freeTables_frees {n i : Nat} {pde : Nat → Option Page} (hE : Exact L) (hS : Sharp L ρ h)
    (hc : h.content d = .dir pde) (htab : ∀ i t, pde i = some t → t ≠ d ∧ A.valid t = true)
    (hheld : ∀ i' t, i ≤ i' → pde i' = some t → ρ t = .held)
    (hinj : ∀ i i' t, pde i = some t → pde i' = some t → i = i') :
    Ensures (freeTables A d n i) h (fun _ => False) fun _ h' => ∃ ρ', Sharp L ρ' h' ∧
      (∀ i' t, i ≤ i' → i' < i + n → pde i' = some t → ρ' t = .free) ∧
      ∀ x, (∀ i', i ≤ i' → i' < i + n → pde i' ≠ some x) →
        ρ' x = ρ x ∧ h'.content x = h.content x := by
  induction n generalizing i ρ h with
  | zero =>
      refine ⟨ρ, hS, fun i' t h1 h2 => by omega, fun x _ => ⟨rfl, rfl⟩⟩
  | succ n ih =>
      simp only [freeTables, ensures_bind, ensures_dirAt hc]
      cases hi : pde i with
      | none =>
          refine (ih hS hc fun i' t hle => hheld i' t (by omega)).next ?_
          rintro _ h' ⟨ρ', hS', hfree, hsame⟩
          refine ⟨ρ', hS', ?_, ?_⟩
          · intro i' t h1 h2 ht
            have hne : i' ≠ i := by
              rintro rfl
              rw [hi] at ht
              cases ht
            exact hfree i' t (by omega) (by omega) ht
          · intro x hx
            exact hsame x fun i' h1 h2 => hx i' (by omega) (by omega)
      | some t =>
          obtain ⟨htd, hvalid⟩ := htab i t hi
          have hS1 := hS.freed hE (hheld i t (Nat.le_refl i) hi) hvalid
          have hc1 : (h.freed A t).content d = .dir pde := by rw [freed_of_ne htd.symm, hc]
          have hheld1 : ∀ i' t', i + 1 ≤ i' → pde i' = some t' → upd ρ t .free t' = .held := by
            intro i' t' hle ht'
            have hne : t' ≠ t := by
              rintro rfl
              have := hinj i i' t' hi ht'
              omega
            rw [upd_of_ne hne, hheld i' t' (by omega) ht']
          simp only [ensures_bind, ensures_kfree hvalid]
          refine (ih hS1 hc1 hheld1).next ?_
          rintro _ h' ⟨ρ', hS', hfree, hsame⟩
          refine ⟨ρ', hS', ?_, ?_⟩
          · intro i' t' h1 h2 ht'
            by_cases hii : i' = i
            · -- the table that was just freed does not occur again
              rw [hii, hi] at ht'
              cases ht'
              rw [(hsame t fun i' h1 _ h => by
                have := hinj i i' t hi h
                omega).1, upd_self]
            · exact hfree i' t' (by omega) (by omega) ht'
          · intro x hx
            have hxt : x ≠ t := by
              rintro rfl
              exact hx i (Nat.le_refl i) (by omega) hi
            obtain ⟨h1, h2⟩ := hsame x fun i' h1 h2 => hx i' (by omega) (by omega)
            exact ⟨by rw [h1, upd_of_ne hxt], by rw [h2, freed_of_ne hxt]⟩

/-- **`freevm`** frees what the directory owns, and nothing else. -/
theorem freevm_frees (hE : Exact L) (hS : Sharp L ρ h) (hd : ρ d = .dir) :
    Ensures (freevm A d) h (fun _ => False) fun _ h' => ∃ ρ', Sharp L ρ' h' ∧
      (∀ x, Owns ρ d x → ρ' x = .free) ∧
      ∀ x, ¬ Owns ρ d x → ρ' x = ρ x ∧ h'.content x = h.content x := by
  simp only [freevm, ensures_bind]
  refine (deallocuvm_frees hE (Nat.le_refl _) (by decide) hS hd).next ?_
  rintro _ h1 ⟨_, ρ1, hF⟩
  have huser : ∀ v e, v < KERNPAGE → entry h d v = some e → ρ e.page = .user d (pdx v) (ptx v) :=
    fun v e hv he => tag_of_entry hS.toTagged hd hv he
  have hvisit : ∀ v, v < KERNPAGE → Visits (tables h d) (pgup 0) (pgup KERNBASE) v := fun v hv =>
    ⟨Nat.zero_le v, hv, not_skips_of_aligned rfl⟩
  -- the user pages are free, and all others are as before
  have hfree1 : ∀ x i j, ρ x = .user d i j → ρ1 x = .free := by
    intro x i j hx
    obtain ⟨_, v, e, hv, _, _, he, rfl⟩ := hS.mapped x d i j hx
    exact hF.freed v e (hvisit v hv) he
  have hkept : ∀ x, (∀ i j, ρ x ≠ .user d i j) → ∀ v e,
      Visits (tables h d) (pgup 0) (pgup KERNBASE) v → entry h d v = some e → e.page ≠ x := by
    rintro x hx v e ⟨_, hv, _⟩ he rfl
    exact hx _ _ (huser v e hv he)
  have hd1 : ρ1 d = .dir := by
    rw [hF.kept d (hkept d (by simp [hd])), hd]
  obtain ⟨pde, hc, hpde⟩ := hF.sharp.dir d hd1
  have htd : ∀ i t, pde i = some t → t ≠ d := fun i t hi =>
    ne_of_tag (ρ := ρ1) (by simp [hd1, hpde i t hi])
  have hvalid : ∀ x, ρ1 x ≠ .held → A.valid x = true := hF.sharp.range
  -- from here on nothing refers to the directory, nor to its tables
  refine (freeTables_frees (i := 0) hE (hF.sharp.drop hd1) hc ?_ ?_ ?_).next ?_
  · intro i t hi
    exact ⟨htd i t hi, hvalid t (by simp [hpde i t hi])⟩
  · intro i t _ hi
    exact drop_of_owns (.inr (.inl ⟨i, hpde i t hi⟩))
  · intro i i' t hi hi'
    have := (hpde i t hi).symm.trans (hpde i' t hi')
    cases this
    rfl
  · rintro _ h2 ⟨ρ2, hS2, hfree2, hsame2⟩
    have hd2 : ρ2 d = .held := by
      rw [(hsame2 d fun i _ _ hi => htd i d hi rfl).1]
      exact drop_of_owns (.inl rfl)
    rw [ensures_kfree (hvalid d (by simp [hd1]))]
    refine ⟨_, hS2.freed hE hd2 (hvalid d (by simp [hd1])), ?_, ?_⟩
    · rintro x (rfl | ⟨i, hx⟩ | ⟨i, j, hx⟩)
      · exact upd_self ..
      · -- a page table is found by the scan
        have hx1 : ρ1 x = .table d i := by rw [hF.kept x (hkept x (by simp [hx])), hx]
        obtain ⟨⟨_, pde', hc', hi⟩, _⟩ := hF.sharp.tab x d i hx1
        cases hc.symm.trans hc'
        have hlt := hF.sharp.index x d i hx1
        rw [upd_of_ne (htd i x hi)]
        exact hfree2 i x (Nat.zero_le i) (by omega) hi
      · have hx1 := hfree1 x i j hx
        have hxd : x ≠ d := ne_of_tag (ρ := ρ) (by simp [hx, hd])
        rw [upd_of_ne hxd, (hsame2 x ?_).1, drop_of_not_owns ?_, hx1]
        · rintro (h | ⟨_, h⟩ | ⟨_, _, h⟩)
          · exact hxd h
          · rw [hx1] at h
            cases h
          · rw [hx1] at h
            cases h
        · intro i' _ _ hi'
          have := hpde i' x hi'
          rw [hx1] at this
          cases this
    · intro x hx
      have hxd : x ≠ d := fun h => hx (.inl h)
      have hnotuser : ∀ i j, ρ x ≠ .user d i j := fun i j h => hx (.inr (.inr ⟨i, j, h⟩))
      have hnottab : ∀ i, ρ x ≠ .table d i := fun i h => hx (.inr (.inl ⟨i, h⟩))
      have hx1 : ρ1 x = ρ x := hF.kept x (hkept x hnotuser)
      have hown1 : ¬ Owns ρ1 d x := by
        rintro (h | ⟨i, h⟩ | ⟨i, j, h⟩)
        · exact hxd h
        · exact hnottab i (hx1 ▸ h)
        · exact hnotuser i j (hx1 ▸ h)
      obtain ⟨h2tag, h2content⟩ := hsame2 x fun i _ _ hi => hown1 (.inr (.inl ⟨i, hpde i x hi⟩))
      refine ⟨?_, ?_⟩
      · rw [upd_of_ne hxd, h2tag, drop_of_not_owns hown1, hx1]
      · rw [freed_of_ne hxd, h2content, hF.content x (hkept x hnotuser) hnottab]

end Xv6.Vm
