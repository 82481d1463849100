import Xv6.Vm.Leak

/-!
# Vm — the life of a directory

A directory comes from `setupkvm` or `copyuvm`, grows and shrinks, and is
freed in the end. `freevm` then returns exactly what was taken for it,
unless `allocuvm` has lost a page on the way.
-/

namespace Xv6.Vm

open Lib

variable {cfg : Config} {ρ₀ ρ : Page → Tag} {h₀ h h' : Heap Kmem} {d : Page}

/-! ## Histories -/

/-- Where a directory comes from. -/
inductive Origin
  | setupkvm
  | copyuvm (src : Page) (sz : Nat)

def Origin.make (cfg : Config) : Origin → KernM Kmem (Option Page)
  | .setupkvm => Vm.setupkvm (kmem cfg) cfg.kmap
  | .copyuvm src sz => Vm.copyuvm (kmem cfg) cfg.kmap src sz

/-- A call on a directory. -/
inductive Op
  | allocuvm (oldsz newsz : Nat)
  | deallocuvm (oldsz newsz : Nat)
  | clearpteu (v : Nat)

/-- Run a call; whether it succeeds. -/
def Op.run (cfg : Config) (d : Page) : Op → KernM Kmem Bool
  | .allocuvm oldsz newsz => do
      let r ← Vm.allocuvm (kmem cfg) d oldsz newsz
      return r ≠ 0
  | .deallocuvm oldsz newsz => do
      let _ ← Vm.deallocuvm (kmem cfg) d oldsz newsz
      return true
  | .clearpteu v => do
      Vm.clearpteu (kmem cfg) d v
      return true

/-- The calls of `ops` succeed one after the other, from `h` to `h'`. -/
def Ran (cfg : Config) (d : Page) : List Op → Heap Kmem → Heap Kmem → Prop
  | [], h, h' => h' = h
  | op :: ops, h, h' => ∃ h₁, op.run cfg d h = .ok (true, h₁) ∧ Ran cfg d ops h₁ h'

/-- No request of `allocuvm` for a page table is refused, and `deallocuvm` takes
only from the user's part. -/
def Op.Fair (cfg : Config) (d : Page) (h : Heap Kmem) : Op → Prop
  | .allocuvm oldsz newsz => oldsz ≤ newsz → newsz < KERNBASE →
      (answersTo cfg d oldsz newsz h).lost = []
  | .deallocuvm oldsz newsz => newsz < oldsz → oldsz ≤ KERNBASE
  | .clearpteu _ => True

/-- So it is in each call of `ops`, from `h` on. -/
def FairRun (cfg : Config) (d : Page) : List Op → Heap Kmem → Prop
  | [], _ => True
  | op :: ops, h => op.Fair cfg d h ∧ ∀ h₁, op.run cfg d h = .ok (true, h₁) → FairRun cfg d ops h₁

/-- What `freevm` is for, after the calls `ops` on a directory: the free list has
again the pages that it had before there was the directory, each once, and the
pages put back are those of the address space. -/
def ReturnsAll (cfg : Config) (o : Origin) (ops : List Op) (h₀ : Heap Kmem) : Prop :=
  ∀ d h₁ h, o.make cfg h₀ = .ok (some d, h₁) → Ran cfg d ops h₁ h →
    ∃ h', freevm (kmem cfg) d h = .ok ((), h') ∧ SameFree h₀ h' ∧ h'.kmem.freelist.Nodup ∧
      ∀ x, x ∈ h'.kmem.freelist ∧ x ∉ h.kmem.freelist ↔ PageOf h d x

/-! ## What the directory holds -/

/-- The pages that were free at first are free now, or the directory's. -/
structure Holds (cfg : Config) (d : Page) (ρ₀ ρ : Page → Tag) (h : Heap Kmem) : Prop where
  sharp : Sharp (lawful cfg) ρ h
  dir : ρ d = .dir
  kept : ∀ x, ρ₀ x ≠ .free → ρ x = ρ₀ x
  taken : ∀ x, ρ₀ x = .free → ρ x = .free ∨ Owns ρ d x

theorem Holds.of_made (hM : Made (lawful cfg) d ρ₀ h₀ ρ h) (htight : ¬ Leaks ρ₀ ρ) :
    Holds cfg d ρ₀ ρ h where
  sharp := hM.sharp
  dir := hM.dir
  kept := hM.kept
  taken x hx := by
    rcases hM.taken x hx with h | h | h
    · exact .inl h
    · exact .inr h
    · exact absurd ⟨x, hx, h⟩ htight

/-- A directory that was just made holds what was taken for it. -/
theorem Holds.of_make {o : Origin} (hks : KmapOk cfg.kmap) (hS : Sharp (lawful cfg) ρ₀ h₀)
    (ho : ∀ src sz, o = .copyuvm src sz → ρ₀ src = .dir ∧ sz ≤ KERNBASE)
    (hmake : o.make cfg h₀ = .ok (some d, h)) : ρ₀ d = .free ∧ ∃ ρ, Holds cfg d ρ₀ ρ h := by
  cases o with
  | setupkvm =>
      obtain ⟨_, ⟨_, hr, _⟩ | ⟨d', ρ, hM, htight, ⟨_, hr⟩ | ⟨_, hr, _⟩⟩⟩ :=
        (setupkvm_made (exact_kmem cfg) hS hks).of_ok hmake
      · cases hr
      · cases hr
      · cases hr
        exact ⟨hM.free, ρ, .of_made hM htight⟩
  | copyuvm src sz =>
      obtain ⟨hsrc, hsz⟩ := ho src sz rfl
      have hspec := copyuvm_copied (exact_kmem cfg) hS hsrc hks hsz
        (leading_le (fun v => (entry h₀ src v).isSome) (pgup sz) 0) ?_ ?_
      · obtain ⟨ρ, hM, htight, _⟩ := (hspec.of_ok hmake).2 d rfl
        exact ⟨hM.free, ρ, .of_made hM htight⟩
      · intro v hv
        have hp := of_lt_leading (p := fun v => (entry h₀ src v).isSome) (Nat.zero_le v)
          (by rw [Nat.zero_add]; exact hv)
        exact Option.isSome_iff_ne_none.mp hp
      · intro hlt
        have hp := at_leading (p := fun v => (entry h₀ src v).isSome) hlt
        rw [Nat.zero_add] at hp
        simpa using hp

/-- `allocuvm` takes pages for the directory. -/
theorem Holds.grown {v : Nat} {s : Served Kmem} {ρ' : Page → Tag} (hH : Holds cfg d ρ₀ ρ h)
    (hG : Grown (lawful cfg) d v s ρ h ρ' h') (hlost : s.lost = []) : Holds cfg d ρ₀ ρ' h' where
  sharp := hG.sharp
  dir := (hG.kept d (by simp [hH.dir])).trans hH.dir
  kept x hx := by
    have hx1 := hH.kept x hx
    rw [hG.kept x (by rwa [hx1]), hx1]
  taken x hx := by
    rcases hH.taken x hx with hx1 | hx1
    · rcases hG.taken x hx1 with h | ⟨i, h⟩ | ⟨w, _, h⟩ | ⟨_, h⟩
      · exact .inl h
      · exact .inr (.inr (.inl ⟨i, h⟩))
      · exact .inr (.inr (.inr ⟨_, _, h⟩))
      · exact absurd hlost h
    · right
      rwa [owns_congr (hG.kept x (hx1.ne_free hH.dir))]

/-- `deallocuvm` gives pages of the directory back. -/
theorem Holds.frees {D : Nat → Prop} {ρ' : Page → Tag} (hH : Holds cfg d ρ₀ ρ h)
    (hS₀ : Sharp (lawful cfg) ρ₀ h₀) (hd₀ : ρ₀ d = .free) (hD : ∀ v, D v → v < KERNPAGE)
    (hF : Frees (lawful cfg) d D ρ h ρ' h') : Holds cfg d ρ₀ ρ' h' := by
  have huser : ∀ v e, D v → entry h d v = some e → ρ e.page = .user d (pdx v) (ptx v) :=
    fun v e hv he => tag_of_entry hH.sharp.toTagged hH.dir (hD v hv) he
  have hkept : ∀ x, (∀ i j, ρ x ≠ .user d i j) → ρ' x = ρ x := by
    intro x hx
    apply hF.kept x
    rintro v e hv he rfl
    exact hx _ _ (huser v e hv he)
  refine ⟨hF.sharp, ?_, ?_, ?_⟩
  · rw [hkept d (by simp [hH.dir]), hH.dir]
  · intro x hx
    have hx1 := hH.kept x hx
    rw [hkept x ?_, hx1]
    intro i j hij
    rw [hx1] at hij
    exact hS₀.not_owns hd₀ hx (.inr (.inr ⟨i, j, hij⟩))
  · intro x hx
    rcases hH.taken x hx with hx1 | rfl | ⟨i, hx1⟩ | ⟨i, j, hx1⟩
    · left
      rw [hkept x (by simp [hx1]), hx1]
    · exact .inr (.inl rfl)
    · right; right; left
      exact ⟨i, by rw [hkept x (by simp [hx1]), hx1]⟩
    · -- a user page is freed, or stays mapped
      by_cases hfreed : ∃ v e, D v ∧ entry h d v = some e ∧ e.page = x
      · obtain ⟨v, e, hv, he, rfl⟩ := hfreed
        exact .inl (hF.freed v e hv he)
      · right; right; right
        refine ⟨i, j, ?_⟩
        rw [hF.kept x fun v e hv he hex => hfreed ⟨v, e, hv, he, hex⟩, hx1]

/-- `clearpteu` changes a flag. -/
theorem Holds.clearpteu {v : Nat} (hH : Holds cfg d ρ₀ ρ h)
    (hrun : Vm.clearpteu (kmem cfg) d v h = .ok ((), h')) : Holds cfg d ρ₀ ρ h' := by
  have hspec : Ensures (Vm.clearpteu (kmem cfg) d v) h (fun _ => True) fun _ h' =>
      Sharp (lawful cfg) ρ h' := by
    simp only [Vm.clearpteu, ensures_bind, walk_find hH.sharp.toTagged hH.dir]
    cases ht : table h d (pdx v) with
    | none => exact trivial
    | some t =>
        obtain ⟨_, pte, hc⟩ := tag_of_table hH.sharp.toTagged hH.dir ht
        simp only [Option.map_some, ensures_bind, ensures_tabAt hc, ensures_setContent]
        apply hH.sharp.setPte hH.dir ht hc
        · intro _
          rw [Option.map_map]
          rfl
        · intro hv
          exact Nat.not_lt.mpr (Nat.div_le_div_right (Nat.not_lt.mp hv))
  exact ⟨hspec.of_ok hrun, hH.dir, hH.kept, hH.taken⟩

/-- **One call**: the directory holds what was taken for it. -/
theorem Holds.step {op : Op} (hH : Holds cfg d ρ₀ ρ h) (hS₀ : Sharp (lawful cfg) ρ₀ h₀)
    (hd₀ : ρ₀ d = .free) (hfair : op.Fair cfg d h) (hrun : op.run cfg d h = .ok (true, h')) :
    ∃ ρ', Holds cfg d ρ₀ ρ' h' := by
  cases op with
  | allocuvm oldsz newsz =>
      obtain ⟨r, hrun, hr⟩ := ok_of_bind_pure hrun
      have hr0 : r ≠ 0 := of_decide_eq_true hr
      by_cases hnew : newsz < KERNBASE
      · by_cases hle : oldsz ≤ newsz
        · obtain ⟨ρ₁, h₁, hG, hfull, hshort⟩ :=
            (allocuvm_answers hH.sharp hH.dir hle hnew).of_ok hrun
          cases hs : (answersTo cfg d oldsz newsz h).short with
          | true => exact absurd (hshort hs).1 hr0
          | false =>
              obtain ⟨_, rfl⟩ := hfull hs
              exact ⟨ρ₁, hH.grown hG (hfair hle hnew)⟩
        · -- nothing is done
          have hok : Vm.allocuvm (kmem cfg) d oldsz newsz h = .ok (oldsz, h) := by
            unfold Vm.allocuvm
            rw [if_neg (by omega), if_pos (by omega)]
            rfl
          rw [hok] at hrun
          cases hrun
          exact ⟨ρ, hH⟩
      · have hok : Vm.allocuvm (kmem cfg) d oldsz newsz h = .ok (0, h) := by
          unfold Vm.allocuvm
          rw [if_pos (by omega)]
          rfl
        rw [hok] at hrun
        cases hrun
        exact absurd rfl hr0
  | deallocuvm oldsz newsz =>
      obtain ⟨r, hrun, _⟩ := ok_of_bind_pure hrun
      by_cases hlt : newsz < oldsz
      · obtain ⟨_, ρ', hF⟩ :=
          (deallocuvm_frees (exact_kmem cfg) (hfair hlt) hlt hH.sharp hH.dir).of_ok hrun
        have hlow : ∀ v, Visits (tables h d) (pgup newsz) (pgup oldsz) v → v < KERNPAGE :=
          fun v hv => Nat.lt_of_lt_of_le hv.2.1 (pgup_le (hfair hlt))
        exact ⟨ρ', hH.frees hS₀ hd₀ hlow hF⟩
      · have hok : Vm.deallocuvm (kmem cfg) d oldsz newsz h = .ok (oldsz, h) := by
          unfold Vm.deallocuvm
          rw [if_pos (by omega)]
          rfl
        rw [hok] at hrun
        cases hrun
        exact ⟨ρ, hH⟩
  | clearpteu v =>
      obtain ⟨_, hrun, _⟩ := ok_of_bind_pure hrun
      exact ⟨ρ, hH.clearpteu hrun⟩

/-- **Any calls.** -/
theorem Holds.run {ops : List Op} (hH : Holds cfg d ρ₀ ρ h) (hS₀ : Sharp (lawful cfg) ρ₀ h₀)
    (hd₀ : ρ₀ d = .free) (hfair : FairRun cfg d ops h) (hran : Ran cfg d ops h h') :
    ∃ ρ', Holds cfg d ρ₀ ρ' h' := by
  induction ops generalizing ρ h with
  | nil =>
      cases hran
      exact ⟨ρ, hH⟩
  | cons op ops ih =>
      obtain ⟨h₁, hrun, hran⟩ := hran
      obtain ⟨ρ₁, hH₁⟩ := hH.step hS₀ hd₀ hfair.1 hrun
      exact ih hH₁ (hfair.2 h₁ hrun) hran

/-! ## `freevm` -/

/-- The pages with a tag of the directory are those of its address space. -/
theorem owns_iff {x : Page} (hS : Sharp (lawful cfg) ρ h) (hd : ρ d = .dir) :
    Owns ρ d x ↔ PageOf h d x := by
  refine ⟨?_, fun hx => hx.owns hS hd⟩
  rintro (rfl | ⟨i, hx⟩ | ⟨i, j, hx⟩)
  · exact .inl rfl
  · obtain ⟨⟨_, pde, hc, hi⟩, _⟩ := hS.tab x d i hx
    exact .inr (.inl ⟨i, by rw [table_of_dir hc, hi]⟩)
  · obtain ⟨_, v, e, hv, _, _, he, hex⟩ := hS.mapped x d i j hx
    exact .inr (.inr ⟨v, e, hv, he, hex⟩)

/-- **`freevm` returns everything**, if in no call of `allocuvm` before it a
request for a page table was refused. -/
theorem freevm_returns_all {o : Origin} {ops : List Op} (hks : KmapOk cfg.kmap)
    (hS₀ : Sharp (lawful cfg) ρ₀ h₀)
    (ho : ∀ src sz, o = .copyuvm src sz → ρ₀ src = .dir ∧ sz ≤ KERNBASE)
    (hfair : ∀ d h₁, o.make cfg h₀ = .ok (some d, h₁) → FairRun cfg d ops h₁) :
    ReturnsAll cfg o ops h₀ := by
  intro d h₁ h hmake hran
  obtain ⟨hd₀, ρ₁, hH₁⟩ := Holds.of_make hks hS₀ ho hmake
  obtain ⟨ρ, hH⟩ := hH₁.run hS₀ hd₀ (hfair d h₁ hmake) hran
  have hspec := freevm_frees (exact_kmem cfg) hH.sharp hH.dir
  obtain ⟨_, h', hrun, ρ', hS', hfreed, hsame⟩ := hspec.exists_ok
  refine ⟨h', hrun, ?_, hS'.ok, ?_⟩
  · rw [sameFree_iff hS₀ hS']
    · intro x hx
      rcases hH.taken x hx with h1 | h1
      · rw [(hsame x fun hown => hown.ne_free hH.dir h1).1, h1]
      · exact hfreed x h1
    · intro x hx
      have hnot : ¬ Owns ρ d x := by
        rw [owns_congr (hH.kept x hx)]
        exact hS₀.not_owns hd₀ hx
      rwa [(hsame x hnot).1, hH.kept x hx]
  · intro x
    have hmem : x ∈ h.kmem.freelist ↔ ρ x = .free := hH.sharp.mem_free x
    have hmem' : x ∈ h'.kmem.freelist ↔ ρ' x = .free := hS'.mem_free x
    rw [hmem, hmem', ← owns_iff hH.sharp hH.dir]
    constructor
    · rintro ⟨hx', hx⟩
      by_contra hown
      rw [(hsame x hown).1] at hx'
      exact hx hx'
    · intro hown
      exact ⟨hfreed x hown, hown.ne_free hH.dir⟩

/-- A directory is made, grows by a page that is then hidden from the user, and
shrinks again. -/
theorem freevm_returns_lone : ReturnsAll smallConfig .setupkvm
    [.allocuvm 0 PGSIZE, .clearpteu 0, .deallocuvm PGSIZE 0] (lone []).heap := by
  refine freevm_returns_all kmapOk_smallConfig (sharp_lone []) (by simp) ?_
  intro d h₁ hmake
  have hsz : PGSIZE ≤ KERNBASE := by decide
  refine ⟨?_, fun _ _ => ⟨trivial, fun _ _ => ⟨fun _ => hsz, fun _ _ => trivial⟩⟩⟩
  intro _ _
  have hval : (Origin.make smallConfig .setupkvm (lone []).heap).toOption.map (fun r =>
      (r.1.map fun d => (answersTo smallConfig d 0 PGSIZE r.2).lost)) = some (some []) := by
    decide +kernel
  rw [hmake] at hval
  simpa [Except.toOption] using hval

/-- The page for which there is no page table is not returned. -/
theorem freevm_misses_page : KmapOk smallConfig.kmap ∧
    Sharp (lawful smallConfig) (sparseTags 0) (lone [false, false, false, true]).heap ∧
    ¬ ReturnsAll smallConfig .setupkvm [.allocuvm 0 PGSIZE]
      (lone [false, false, false, true]).heap := by
  refine ⟨kmapOk_smallConfig, sharp_lone _, ?_⟩
  intro hall
  have hdir : (Origin.make smallConfig .setupkvm (lone [false, false, false, true]).heap).toOption.map
      (fun r => r.1) = some (some 4) := by
    decide +kernel
  have hfree : (Origin.make smallConfig .setupkvm
      (lone [false, false, false, true]).heap).toOption.map (fun r =>
        (Op.run smallConfig 4 (.allocuvm 0 PGSIZE) r.2).toOption.map fun q => (q.1,
          (freevm (kmem smallConfig) 4 q.2).toOption.map fun z =>
            decide (6 ∈ z.2.kmem.freelist))) = some (some (true, some false)) := by
    decide +kernel
  cases hmake : Origin.make smallConfig .setupkvm (lone [false, false, false, true]).heap with
  | error e =>
      rw [hmake] at hdir
      cases hdir
  | ok r =>
      obtain ⟨r, h₁⟩ := r
      rw [hmake] at hdir hfree
      cases hdir
      simp only [Except.toOption, Option.map_some, Option.some_inj] at hfree
      cases hrun : Op.run smallConfig 4 (.allocuvm 0 PGSIZE) h₁ with
      | error e =>
          rw [hrun] at hfree
          cases hfree
      | ok r =>
          obtain ⟨b, h⟩ := r
          rw [hrun] at hfree
          simp only [Option.map_some, Option.some_inj, Prod.mk.injEq] at hfree
          obtain ⟨rfl, hfree⟩ := hfree
          obtain ⟨h', hfreevm, hsame, _⟩ := hall 4 h₁ h hmake ⟨h, hrun, rfl⟩
          rw [hfreevm] at hfree
          have hmem : 6 ∈ h'.kmem.freelist := (hsame 6).mpr (by decide)
          simp [hmem] at hfree

end Xv6.Vm
