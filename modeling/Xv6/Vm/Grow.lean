import Xv6.Vm.Alloc

/-!
# Vm — `growproc` and `sbrk`

`growproc` on the memory of one process, with its result and the size that
it leaves. Sizes are computed modulo `2 ^ 32`, and the size 0 is also how
`allocuvm` and `deallocuvm` report an error.
-/

namespace Xv6.Vm

open Lib

section Model

variable {κ : Type} (A : Allocator κ)

/-- `growproc`: what it returns, and `proc->sz` then. -/
def growprocMem (d : Page) (sz : Nat) (n : Int) : KernM κ (Int × Nat) := do
  let newsz := ((sz + n) % 2 ^ 32).toNat
  if n > 0 then
    let r ← allocuvm A d sz newsz
    if r = 0 then return (-1, sz) else return (0, r)
  else if n < 0 then
    let r ← deallocuvm A d sz newsz
    if r = 0 then return (-1, sz) else return (0, r)
  else return (0, sz)

/-- The address that `sbrk` returns for the size `sz`, as an `int`. -/
def brk (sz : Nat) : Int := Int.bmod sz (2 ^ 32)

def sysSbrk (d : Page) (sz : Nat) (n : Int) : KernM κ (Int × Nat) := do
  let addr := brk sz
  let (r, sz) ← growprocMem A d sz n
  if r < 0 then return (-1, sz) else return (addr, sz)

end Model

/-! ## What `sbrk` is for -/

variable {κ : Type} {A : Allocator κ} {L : Lawful A} {ρ ρ' : Page → Tag} {h h' : Heap κ}
  {d : Page} {sz : Nat}

/-- The user pages that `d` maps are those of the first `sz` bytes. -/
def Covers (h : Heap κ) (d : Page) (sz : Nat) : Prop :=
  ∀ v, v < KERNPAGE ∧ entry h d v ≠ none ↔ v < pgup sz

/-- The break has moved by `n`: memory is as before, or zeros. -/
structure Moves (d : Page) (sz : Nat) (n : Int) (sz' : Nat) (h h' : Heap κ) : Prop where
  size : (sz' : Int) = sz + n
  covers : Covers h' d sz'
  common : ∀ v e, v < pgup sz → v < pgup sz' → entry h d v = some e →
    entry h' d v = some e ∧ h'.content e.page = h.content e.page
  fresh : ∀ v e, pgup sz ≤ v → v < pgup sz' → entry h' d v = some e →
    h'.content e.page = filled 0

/-- All mappings and the bytes of all user pages are as before. -/
structure Untouched (ρ : Page → Tag) (h h' : Heap κ) : Prop where
  entries : ∀ d, ρ d = .dir → entry h' d = entry h d
  bytes : ∀ x d i j, ρ x = .user d i j → h'.content x = h.content x

/-- `growproc` and `sbrk` move the break by `n`, or change nothing. -/
def SbrkExact (A : Allocator κ) (ρ : Page → Tag) (d : Page) (sz : Nat) (n : Int) (h : Heap κ) :
    Prop :=
  ∃ r sz' h', growprocMem A d sz n h = .ok ((r, sz'), h') ∧ (r = 0 ∨ r = -1) ∧
    (r = 0 → Moves d sz n sz' h h') ∧ (r = -1 → sz' = sz ∧ Untouched ρ h h') ∧
    ∃ addr, sysSbrk A d sz n h = .ok ((addr, sz'), h') ∧ (addr = brk sz → (sz' : Int) = sz + n)

theorem Covers.le (hcov : Covers h d sz) : sz ≤ KERNBASE := by
  have hpg : pgup sz ≤ KERNPAGE := by
    by_contra hlt
    exact Nat.lt_irrefl _ ((hcov KERNPAGE).mpr (Nat.lt_of_not_le hlt)).1
  unfold pgup KERNPAGE KERNBASE PGSIZE at *
  omega

/-- The walk from a page up to the end of memory passes over nothing: the page
before it is mapped, unless it is the first of its page table. -/
theorem Covers.not_skips {a v : Nat} {tab : Nat → Bool} (hcov : Covers h d sz) (ha : a ≤ pgup sz)
    (htab : ∀ i, tables h d i = true → tab i = true) : ¬ Skips tab a v := by
  by_cases h0 : ptx a = 0
  · exact not_skips_of_aligned h0
  · have hpos : 0 < a := by
      apply Nat.pos_of_ne_zero
      rintro rfl
      exact h0 rfl
    have hpdx : pdx (a - 1) = pdx a := by
      unfold pdx ptx NPTENTRIES at *
      omega
    have hmap := ((hcov (a - 1)).mpr (by omega)).2
    apply not_skips_of_table
    apply htab
    cases ht : table h d (pdx a) with
    | none => exact absurd (entry_of_none (by rw [hpdx, ht])) hmap
    | some t => simp [tables, ht]

/-! ## The results of `growproc` -/

theorem brk_ne (hsz : sz ≤ KERNBASE) : brk sz ≠ -1 := by
  unfold brk KERNBASE at *
  rw [Int.bmod_def]
  split <;> omega

theorem brk_toNat (hsz : sz < KERNBASE) : (brk sz % 2 ^ 32).toNat = sz := by
  have hmod := @Int.bmod_emod sz (2 ^ 32)
  unfold brk KERNBASE at *
  omega

theorem sysSbrk_ok {n r : Int} {sz' : Nat} (hrun : growprocMem A d sz n h = .ok ((r, sz'), h')) :
    sysSbrk A d sz n h = .ok ((if r < 0 then -1 else brk sz, sz'), h') := by
  simp only [sysSbrk, bind, StateT.bind, hrun, Except.bind]
  split <;> rfl

/-- From a move, or from nothing, `sbrk` is right as well. -/
theorem SbrkExact.of_run {n r : Int} {sz' : Nat} (hsz : sz ≤ KERNBASE)
    (hrun : growprocMem A d sz n h = .ok ((r, sz'), h'))
    (hr : (r = 0 ∧ Moves d sz n sz' h h') ∨ (r = -1 ∧ sz' = sz ∧ Untouched ρ h h')) :
    SbrkExact A ρ d sz n h := by
  refine ⟨r, sz', h', hrun, ?_, ?_, ?_, _, sysSbrk_ok hrun, ?_⟩
  · rcases hr with ⟨hr, _⟩ | ⟨hr, _⟩
    · exact .inl hr
    · exact .inr hr
  · intro h0
    rcases hr with ⟨_, hmove⟩ | ⟨hr, _⟩
    · exact hmove
    · omega
  · intro h1
    rcases hr with ⟨hr, _⟩ | ⟨_, hstay⟩
    · omega
    · exact hstay
  · intro haddr
    rcases hr with ⟨_, hmove⟩ | ⟨rfl, _⟩
    · exact hmove.size
    · exact absurd haddr.symm (brk_ne hsz)

theorem growprocMem_zero (A : Allocator κ) (d : Page) (sz : Nat) (h : Heap κ) :
    growprocMem A d sz 0 h = .ok ((0, sz), h) := rfl

/-- Growing by `m` bytes. -/
theorem growprocMem_pos {m r : Nat} (hm : 0 < m) (hlt : sz + m < 2 ^ 32)
    (hrun : allocuvm A d sz (sz + m) h = .ok (r, h')) :
    growprocMem A d sz m h = .ok (if r = 0 then (-1, sz) else (0, r), h') := by
  have hnew : (((sz : Int) + m) % 2 ^ 32).toNat = sz + m := by omega
  have hpos : (m : Int) > 0 := by omega
  simp only [growprocMem, hnew, hpos, if_true, bind, StateT.bind, hrun, Except.bind]
  split <;> rfl

/-- Shrinking by `m` bytes, to `newsz` modulo `2 ^ 32`. -/
theorem growprocMem_neg {m newsz r : Nat} (hm : 0 < m)
    (hnew : (((sz : Int) + -(m : Int)) % 2 ^ 32).toNat = newsz)
    (hrun : deallocuvm A d sz newsz h = .ok (r, h')) :
    growprocMem A d sz (-(m : Int)) h = .ok (if r = 0 then (-1, sz) else (0, r), h') := by
  have hpos : ¬ -(m : Int) > 0 := by omega
  have hneg : -(m : Int) < 0 := by omega
  simp only [growprocMem, hnew, hpos, hneg, if_true, if_false, bind, StateT.bind, hrun, Except.bind]
  split <;> rfl

/-! ## The sizes that there can be -/

/-- Whatever memory there is, `allocuvm` returns 0 or a size below the kernel. -/
theorem allocuvm_size (A : Allocator κ) (d : Page) (oldsz newsz : Nat) (h : Heap κ) :
    Ensures (allocuvm A d oldsz newsz) h (fun _ => True) fun r _ =>
      r = 0 ∨ r = newsz ∧ newsz < KERNBASE ∨ r = oldsz ∧ newsz < oldsz := by
  unfold allocuvm
  by_cases hbig : KERNBASE ≤ newsz
  · rw [if_pos hbig]
    exact .inl rfl
  by_cases hlt : newsz < oldsz
  · rw [if_neg hbig, if_pos hlt]
    exact .inr (.inr ⟨rfl, hlt⟩)
  rw [if_neg hbig, if_neg hlt]
  have hnew : newsz < KERNBASE := Nat.lt_of_not_le hbig
  generalize pgup newsz - pgup oldsz = n
  generalize pgup oldsz = v
  induction n generalizing v h with
  | zero => exact .inr (.inl ⟨rfl, hnew⟩)
  | succ n ih =>
      rw [allocLoop, ensures_bind]
      refine (ensures_true _ h).next fun m h1 _ => ?_
      cases m with
      | none =>
          rw [ensures_bind]
          exact (ensures_true _ h1).next fun _ _ _ => .inl rfl
      | some m =>
          simp only [ensures_bind, ensures_setContent]
          exact (ensures_true _ _).next fun _ h2 _ => ih h2 _

/-- `growproc` by `m` bytes moves the break by them, or leaves it. -/
theorem growprocMem_grow_size {m : Nat} (hm : 0 < m) (hlt : sz + m < 2 ^ 32) :
    Ensures (growprocMem A d sz m) h (fun _ => True) fun r _ =>
      r = (-1, sz) ∨ r = (0, sz + m) ∧ sz + m < KERNBASE := by
  have hnew : (((sz : Int) + m) % 2 ^ 32).toNat = sz + m := by omega
  have hpos : (m : Int) > 0 := by omega
  simp only [growprocMem, hnew, hpos, if_true, ensures_bind]
  refine (allocuvm_size A d sz (sz + m) h).next fun r h1 hr => ?_
  rcases hr with rfl | ⟨rfl, hle⟩ | ⟨_, hno⟩
  · exact .inl rfl
  · rw [if_neg (by omega)]
    exact .inr ⟨rfl, hle⟩
  · omega

/-- The size of a process stays below the kernel. -/
theorem growprocMem_lt (hsz : sz < KERNBASE) (n : Int) :
    Ensures (growprocMem A d sz n) h (fun _ => True) fun r _ => r.2 < KERNBASE := by
  unfold growprocMem
  generalize ((sz + n) % 2 ^ 32).toNat = newsz
  -- a size, or 0 for an error, as `growproc` takes it
  have hres : ∀ (r : Nat) (h1 : Heap κ), r < KERNBASE →
      Ensures (if r = 0 then (return (-1, sz) : KernM κ (Int × Nat)) else return (0, r)) h1
        (fun _ => True) fun r _ => r.2 < KERNBASE := by
    intro r h1 hr
    split
    · exact hsz
    · exact hr
  by_cases hpos : n > 0
  · simp only [hpos, if_true, ensures_bind]
    refine (allocuvm_size A d sz newsz h).next fun r h1 hr => hres r h1 ?_
    omega
  by_cases hneg : n < 0
  · simp only [hpos, hneg, if_true, if_false, ensures_bind, deallocuvm]
    by_cases hle : sz ≤ newsz
    · rw [if_pos hle]
      exact hres sz h hsz
    · rw [if_neg hle, ensures_bind]
      exact (ensures_true _ h).next fun _ h1 _ => hres newsz h1 (by omega)
  · simp only [hpos, hneg, if_false, ensures_pure]
    exact hsz

/-! ## Growing -/

theorem Untouched.refl (ρ : Page → Tag) (h : Heap κ) : Untouched ρ h h where
  entries _ _ := rfl
  bytes _ _ _ _ _ := rfl

section Growing

variable {m : Nat}

theorem Covers.entry_of_le {v : Nat} (hcov : Covers h d sz) (h1 : pgup sz ≤ v)
    (hv : v < KERNPAGE) : entry h d v = none := by
  by_contra hne
  have := (hcov v).mp ⟨hv, hne⟩
  omega

/-- All pages of the range are mapped. -/
theorem Moves.of_grown (hS : Sharp L ρ h) (hd : ρ d = .dir) (hcov : Covers h d sz)
    (hlt : sz + m < KERNBASE) (hs : (answers A d sz (sz + m) h).short = false)
    (hl : (answers A d sz (sz + m) h).lost = [])
    (hG : Grown L d (pgup sz) (answers A d sz (sz + m) h) ρ h ρ' h') :
    Moves d sz m (sz + m) h h' := by
  have hle : sz ≤ sz + m := Nat.le_add_right _ _
  have htop : pgup (sz + m) ≤ KERNPAGE := pgup_le hlt.le
  have hpg := pgup_mono hle
  refine ⟨by omega, ?_, ?_, ?_⟩
  · intro v
    constructor
    · rintro ⟨hv, hne⟩
      by_contra hge
      rw [hG.same v fun hmaps => hge (answers_maps hle hmaps).2] at hne
      exact hne (hcov.entry_of_le (by omega) hv)
    · intro hv
      refine ⟨by omega, ?_⟩
      by_cases hold : v < pgup sz
      · rw [hG.same v fun hmaps => absurd hmaps.1 (by omega)]
        exact ((hcov v).mpr hold).2
      · obtain ⟨p, he, _⟩ := hG.mapped v (maps_of_full hle hs hl (by omega) hv)
        rw [he]
        exact Option.some_ne_none _
  · intro v e hv _ he
    have htag := tag_of_entry hS.toTagged hd (by omega) he
    refine ⟨by rw [hG.same v fun hmaps => absurd hmaps.1 (by omega), he], ?_⟩
    exact hG.content e.page (by simp [htag]) (ne_of_tag (ρ := ρ) (by simp [htag, hd]))
      (by simp [htag])
  · intro v e h1 h2 he
    obtain ⟨p, he', _, hc⟩ := hG.mapped v (maps_of_full hle hs hl h1 h2)
    rw [he] at he'
    cases he'
    exact hc

/-- What was mapped before a failure is unmapped again. -/
theorem Untouched.of_short {ρ₁ : Page → Tag} {h₁ : Heap κ} (hS : Sharp L ρ h) (hd : ρ d = .dir)
    (hcov : Covers h d sz) (hlt : sz + m < KERNBASE)
    (hG : Grown L d (pgup sz) (answers A d sz (sz + m) h) ρ h ρ₁ h₁)
    (hF : Frees L d (Visits (answers A d sz (sz + m) h).tab (pgup sz) (pgup (sz + m)))
      ρ₁ h₁ ρ' h') : Untouched ρ h h' := by
  have hle : sz ≤ sz + m := Nat.le_add_right _ _
  have htop : pgup (sz + m) ≤ KERNPAGE := pgup_le hlt.le
  have hskip : ∀ v, ¬ Skips (answers A d sz (sz + m) h).tab (pgup sz) v := fun v =>
    hcov.not_skips (Nat.le_refl _) fun i => serve_within.tab
  have hd1 : ρ₁ d = .dir := (hG.kept d (by simp [hd])).trans hd
  constructor
  · intro d' hd'
    by_cases hdd : d' = d
    · rw [hdd]
      funext v
      by_cases hv : pgup sz ≤ v ∧ v < pgup (sz + m)
      · rw [hF.cleared v ⟨hv.1, hv.2, hskip v⟩, hcov.entry_of_le hv.1 (by omega)]
      · rw [hF.same v fun hvis => hv ⟨hvis.1, hvis.2.1⟩,
          hG.same v fun hmaps => hv (answers_maps hle hmaps)]
    · have hd1' : ρ₁ d' = .dir := (hG.kept d' (by simp [hd'])).trans hd'
      rw [hF.others hG.sharp hd1 (fun v hvis => Nat.lt_of_lt_of_le hvis.2.1 htop) hd1' hdd,
        hG.others hS hd hd' hdd]
  · intro x d' i j hx
    have hx1 : ρ₁ x = .user d' i j := (hG.kept x (by simp [hx])).trans hx
    rw [hF.content x ?_ (by simp [hx1]),
      hG.content x (by simp [hx]) (ne_of_tag (ρ := ρ) (by simp [hx, hd])) (by simp [hx])]
    -- what is freed was on the free list
    intro v e hvis he
    by_cases hmaps : (answers A d sz (sz + m) h).Maps (pgup sz) v
    · obtain ⟨p, he', hfree, _⟩ := hG.mapped v hmaps
      rw [he] at he'
      cases he'
      exact ne_of_tag (ρ := ρ) (by simp [hfree, hx])
    · have hv : v < KERNPAGE := Nat.lt_of_lt_of_le hvis.2.1 htop
      rw [hG.same v hmaps, hcov.entry_of_le hvis.1 hv] at he
      cases he

end Growing

/-! ## Shrinking -/

theorem Moves.of_frees {newsz : Nat} (hS : Sharp L ρ h) (hd : ρ d = .dir) (hcov : Covers h d sz)
    (hlt : newsz < sz)
    (hF : Frees L d (Visits (tables h d) (pgup newsz) (pgup sz)) ρ h ρ' h') :
    Moves d sz (-((sz - newsz : Nat) : Int)) newsz h h' := by
  have hpg := pgup_mono hlt.le
  have htop : pgup sz ≤ KERNPAGE := pgup_le hcov.le
  have hskip : ∀ v, ¬ Skips (tables h d) (pgup newsz) v := fun v =>
    hcov.not_skips hpg fun i hi => hi
  have hsame : ∀ v, v < pgup newsz → entry h' d v = entry h d v := fun v hv =>
    hF.same v fun hvis => absurd hvis.1 (by omega)
  refine ⟨by omega, ?_, ?_, ?_⟩
  · intro v
    constructor
    · rintro ⟨hv, hne⟩
      by_contra hge
      by_cases hold : v < pgup sz
      · exact hne (hF.cleared v ⟨by omega, hold, hskip v⟩)
      · rw [hF.same v fun hvis => hold hvis.2.1] at hne
        exact hne (hcov.entry_of_le (by omega) hv)
    · intro hv
      rw [hsame v hv]
      exact (hcov v).mpr (by omega)
  · intro v e _ hv he
    refine ⟨by rw [hsame v hv, he], ?_⟩
    have htag := tag_of_entry hS.toTagged hd (by omega) he
    apply hF.content e.page
    · -- a page is mapped in one place
      intro w e' hw he' hpage
      have htag' := tag_of_entry hS.toTagged hd (Nat.lt_of_lt_of_le hw.2.1 htop) he'
      rw [hpage, htag] at htag'
      injection htag' with _ hi hj
      have := page_ext hi hj
      have := hw.1
      omega
    · simp [htag]
  · intro v e h1 h2
    omega

/-! ## `sbrk` -/

section Sbrk

variable {cfg : Config} {h : Heap Kmem} {m : Nat}

/-- **Growing**, by the answers of `kalloc`. -/
theorem growprocMem_grown (hS : Sharp (lawful cfg) ρ h) (hd : ρ d = .dir) (hcov : Covers h d sz)
    (hm : 0 < m) (hmax : m < 2 ^ 31) :
    Ensures (growprocMem (kmem cfg) d sz m) h (fun _ => False) fun r h' =>
      (∃ ρ', Sharp (lawful cfg) ρ' h' ∧ ρ' d = .dir) ∧
      if sz + m < KERNBASE ∧ (answers (kmem cfg) d sz (sz + m) h).short = false then
        r = (0, sz + m) ∧
        ((answers (kmem cfg) d sz (sz + m) h).lost = [] → Moves d sz m (sz + m) h h') ∧
        ∀ w ∈ (answers (kmem cfg) d sz (sz + m) h).lost, w < pgup (sz + m) ∧ entry h' d w = none
      else r = (-1, sz) ∧ Untouched ρ h h' := by
  have h32 : sz + m < 2 ^ 32 := by
    have hsz := hcov.le
    unfold KERNBASE at hsz
    omega
  have hle : sz ≤ sz + m := Nat.le_add_right _ _
  by_cases hlt : sz + m < KERNBASE
  · have htop : pgup (sz + m) ≤ KERNPAGE := pgup_le hlt.le
    have hfree : ∀ v, pgup sz ≤ v → v < pgup (sz + m) → entry h d v = none := fun v h1 h2 =>
      hcov.entry_of_le h1 (Nat.lt_of_lt_of_le h2 htop)
    have hrun := allocuvm_grown (exact_kmem cfg) hS hd hle hlt hfree
    obtain ⟨r, h', hok, ρ₁, h₁, hG, hfull, hshort⟩ := hrun.exists_ok
    have hd1 : ρ₁ d = .dir := (hG.kept d (by simp [hd])).trans hd
    simp only [Ensures, growprocMem_pos hm h32 hok, hlt, true_and]
    cases hs : (answers (kmem cfg) d sz (sz + m) h).short with
    | true =>
        obtain ⟨rfl, _, ρ', hF⟩ := hshort hs
        refine ⟨⟨ρ', hF.sharp, ?_⟩, rfl, .of_short hS hd hcov hlt hG hF⟩
        rw [hF.kept d, hd1]
        intro v e hvis he
        have htag := tag_of_entry hG.sharp.toTagged hd1 (Nat.lt_of_lt_of_le hvis.2.1 htop) he
        exact ne_of_tag (ρ := ρ₁) (by simp [htag, hd1])
    | false =>
        obtain ⟨rfl, rfl⟩ := hfull hs
        refine ⟨⟨ρ₁, hG.sharp, hd1⟩, if_neg (by omega), fun hl =>
          .of_grown hS hd hcov hlt hs hl hG, fun w hw => ?_⟩
        obtain ⟨hlow, htop⟩ := answers_lost hle hw
        exact ⟨htop, by rw [hG.same w fun hmaps => hmaps.2.2 hw, hfree w hlow htop]⟩
  · have hok : allocuvm (kmem cfg) d sz (sz + m) h = .ok (0, h) := by
      unfold allocuvm
      rw [if_pos (by omega)]
      rfl
    simp only [Ensures, growprocMem_pos hm h32 hok, hlt, false_and, if_false]
    exact ⟨⟨ρ, hS, hd⟩, rfl, .refl ρ h⟩

/-- **Shrinking**: a size below 0 is a large one, and nothing is done. -/
theorem growprocMem_shrunk (hS : Sharp (lawful cfg) ρ h) (hd : ρ d = .dir) (hcov : Covers h d sz)
    (hm : 0 < m) (hmin : m ≤ 2 ^ 31) :
    Ensures (growprocMem (kmem cfg) d sz (-(m : Int))) h (fun _ => False) fun r h' =>
      if sz < m then r = (if sz = 0 then -1 else 0, sz) ∧ h' = h
      else r = (if sz = m then (-1, sz) else (0, sz - m)) ∧ Moves d sz (-(m : Int)) (sz - m) h h' := by
  have hsz := hcov.le
  have hsz' : sz ≤ 2 ^ 31 := hsz
  by_cases hlt : sz < m
  · have hnew : (((sz : Int) + -(m : Int)) % 2 ^ 32).toNat = sz + (2 ^ 32 - m) := by omega
    have hok : deallocuvm (kmem cfg) d sz (sz + (2 ^ 32 - m)) h = .ok (sz, h) := by
      unfold deallocuvm
      rw [if_pos (by omega)]
      rfl
    simp only [Ensures, growprocMem_neg hm hnew hok, hlt, if_true, and_true]
    split <;> rfl
  · have hnew : (((sz : Int) + -(m : Int)) % 2 ^ 32).toNat = sz - m := by omega
    have hrun := deallocuvm_frees (exact_kmem cfg) hsz (by omega : sz - m < sz) hS hd
    obtain ⟨r, h', hok, rfl, ρ', hF⟩ := hrun.exists_ok
    have hmoves := Moves.of_frees hS hd hcov (by omega) hF
    rw [show sz - (sz - m) = m by omega] at hmoves
    have hzero : sz - m = 0 ↔ sz = m := by omega
    simp only [Ensures, growprocMem_neg hm hnew hok, hlt, if_false, hzero, true_and]
    exact hmoves

/-- Growing is exact unless `allocuvm` loses a page and reports success. -/
theorem sbrkExact_grow (hS : Sharp (lawful cfg) ρ h) (hd : ρ d = .dir) (hcov : Covers h d sz)
    (hm : 0 < m) (hmax : m < 2 ^ 31) :
    SbrkExact (kmem cfg) ρ d sz m h ↔ (sz + m < KERNBASE →
      (answers (kmem cfg) d sz (sz + m) h).short = true ∨
        (answers (kmem cfg) d sz (sz + m) h).lost = []) := by
  have hspec := growprocMem_grown hS hd hcov hm hmax
  obtain ⟨r, h', hok, _, hr⟩ := hspec.exists_ok
  split at hr
  case isTrue hc =>
    obtain ⟨rfl, hmoves, hlost⟩ := hr
    simp only [hc.1, hc.2, true_implies, Bool.false_eq_true, false_or]
    refine ⟨?_, fun hl => .of_run hcov.le hok (.inl ⟨rfl, hmoves hl⟩)⟩
    rintro ⟨_, _, _, hrun', _, hmove, _⟩
    cases hok.symm.trans hrun'
    -- a page that was lost is of the new range, and not mapped
    by_contra hl
    obtain ⟨w, hw⟩ := List.exists_mem_of_ne_nil _ hl
    obtain ⟨hlow, hnone⟩ := hlost w hw
    exact (((hmove rfl).covers w).mpr hlow).2 hnone
  case isFalse hc =>
    obtain ⟨rfl, hstay⟩ := hr
    refine iff_of_true (.of_run hcov.le hok (.inr ⟨rfl, rfl, hstay⟩)) fun hlt => ?_
    exact .inl (by simpa [hlt] using hc)

/-- Shrinking is exact unless the new size is 0 or less. -/
theorem sbrkExact_shrink (hS : Sharp (lawful cfg) ρ h) (hd : ρ d = .dir) (hcov : Covers h d sz)
    (hm : 0 < m) (hmin : m ≤ 2 ^ 31) :
    SbrkExact (kmem cfg) ρ d sz (-(m : Int)) h ↔ sz = 0 ∨ m < sz := by
  have hspec := growprocMem_shrunk hS hd hcov hm hmin
  obtain ⟨r, h', hok, hr⟩ := hspec.exists_ok
  by_cases hlt : sz < m
  · rw [if_pos hlt] at hr
    obtain ⟨rfl, rfl⟩ := hr
    by_cases h0 : sz = 0
    · rw [if_pos h0] at hok
      exact iff_of_true (.of_run hcov.le hok (.inr ⟨rfl, rfl, .refl ρ _⟩)) (.inl h0)
    · rw [if_neg h0] at hok
      refine iff_of_false ?_ (by omega)
      rintro ⟨_, _, _, hrun', _, hmoves, _⟩
      cases hok.symm.trans hrun'
      have := (hmoves rfl).size
      omega
  · rw [if_neg hlt] at hr
    obtain ⟨rfl, hmoves⟩ := hr
    by_cases heq : sz = m
    · rw [if_pos heq] at hok
      refine iff_of_false ?_ (by omega)
      rintro ⟨_, _, _, hrun', _, _, hstay, _⟩
      cases hok.symm.trans hrun'
      -- the first page was mapped, and is not any more
      have hpos : 0 < pgup sz := by
        unfold pgup PGSIZE
        omega
      have hzero := ((hcov 0).mpr hpos).2
      rw [← (hstay rfl).2.entries d hd] at hzero
      have := (hmoves.covers 0).mp ⟨by decide, hzero⟩
      rw [heq, Nat.sub_self] at this
      exact absurd this (by decide)
    · rw [if_neg heq] at hok
      exact iff_of_true (.of_run hcov.le hok (.inl ⟨rfl, hmoves⟩)) (.inr (by omega))

/-- **`sbrk` is exact and atomic** exactly when the new size is positive, if the
process shrinks and has any memory; and if it grows, unless `allocuvm` reports
success after it could not make a page table. -/
theorem sbrk_exact_iff {n : Int} (hS : Sharp (lawful cfg) ρ h) (hd : ρ d = .dir)
    (hcov : Covers h d sz) (hmin : -2 ^ 31 ≤ n) (hmax : n < 2 ^ 31) :
    SbrkExact (kmem cfg) ρ d sz n h ↔
      (n < 0 → sz = 0 ∨ -n < sz) ∧
      (0 < n → sz + n < KERNBASE →
        (answers (kmem cfg) d sz (sz + n).toNat h).short = true ∨
          (answers (kmem cfg) d sz (sz + n).toNat h).lost = []) := by
  rcases Int.lt_trichotomy n 0 with hneg | rfl | hpos
  · obtain ⟨m, hm⟩ := Int.eq_ofNat_of_zero_le (by omega : 0 ≤ -n)
    have hn : n = -(m : Int) := by omega
    rw [hn, sbrkExact_shrink hS hd hcov (by omega) (by omega)]
    constructor
    · intro h
      exact ⟨fun _ => by omega, fun h => by omega⟩
    · rintro ⟨h, _⟩
      have := h (by omega)
      omega
  · refine iff_of_true (.of_run hcov.le (growprocMem_zero ..) (.inl ⟨rfl, ?_⟩)) ?_
    · refine ⟨by omega, hcov, fun v e _ _ he => ⟨he, rfl⟩, ?_⟩
      intro v e h1 h2
      omega
    · exact ⟨fun h => absurd h (by decide), fun h => absurd h (by decide)⟩
  · obtain ⟨m, rfl⟩ := Int.eq_ofNat_of_zero_le hpos.le
    have hnat : ((sz : Int) + m).toNat = sz + m := by omega
    rw [sbrkExact_grow hS hd hcov (by omega) (by omega), hnat]
    constructor
    · intro h
      exact ⟨fun h => by omega, fun _ hlt => h (by omega)⟩
    · rintro ⟨_, h⟩ hlt
      exact h hpos (by omega)

/-- One page is mapped in `sparse 0`. -/
theorem covers_sparse : Covers (sparse 0) 1 PGSIZE := by
  intro v
  have htab : ∀ i, table (sparse 0) 1 i = upd (fun _ => none) 0 (some 2) i := fun _ => rfl
  constructor
  · rintro ⟨_, hne⟩
    by_cases hi : pdx v = 0
    · have hent : entry (sparse 0) 1 v = upd (fun _ => none) 0 (some ⟨3, true, true⟩) (ptx v) :=
        entry_of_tab (t := 2) (by rw [htab, hi, upd_self]) rfl
      by_cases hj : ptx v = 0
      · have hv : v = 0 := page_ext hi hj
        rw [hv]
        decide
      · rw [hent, upd_of_ne hj] at hne
        exact absurd rfl hne
    · rw [entry_of_none (by rw [htab, upd_of_ne hi])] at hne
      exact absurd rfl hne
  · intro hv
    have hv0 : v = 0 := Nat.lt_one_iff.mp hv
    rw [hv0]
    exact ⟨by decide, Option.some_ne_none _⟩

/-- A process of one page grows by another. -/
theorem sbrk_exact_sparse : SbrkExact (kmem smallConfig) (sparseTags 0) 1 PGSIZE 4096 (sparse 0) :=
  (sbrk_exact_iff (sharp_sparse (by decide)) rfl covers_sparse (by decide) (by decide)).mpr
    ⟨fun h => absurd h (by decide), fun _ _ => .inr rfl⟩

/-- A process of one page shrinks by a page: `sbrk` fails, and the page is gone. -/
theorem sbrk_to_zero : Sharp (lawful smallConfig) (sparseTags 0) (sparse 0) ∧
    sparseTags 0 1 = .dir ∧ Covers (sparse 0) 1 PGSIZE ∧
    ¬ SbrkExact (kmem smallConfig) (sparseTags 0) 1 PGSIZE (-4096) (sparse 0) := by
  have hS : Sharp (lawful smallConfig) (sparseTags 0) (sparse 0) := sharp_sparse (by decide)
  refine ⟨hS, rfl, covers_sparse, ?_⟩
  intro hex
  have := (sbrkExact_shrink (m := 4096) hS rfl covers_sparse (by decide) (by decide)).mp hex
  exact absurd this (by decide)

end Sbrk

end Xv6.Vm
