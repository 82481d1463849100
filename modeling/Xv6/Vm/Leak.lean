import Xv6.Vm.Alloc
import Xv6.Vm.Copy

/-!
# Vm — failed allocations

Where a function fails because `kalloc` does, what it took from the free
list should be free again. It is not where the request for a page table
is refused: `setupkvm` then forgets the directory, `copyuvm` the page that
it was about to map, and `allocuvm` likewise.
-/

namespace Xv6.Vm

open Lib

variable {cfg : Config} {ρ : Page → Tag} {h h' : Heap Kmem} {d : Page}

/-- The same pages are free. -/
def SameFree (h h' : Heap Kmem) : Prop := ∀ x, x ∈ h'.kmem.freelist ↔ x ∈ h.kmem.freelist

theorem sameFree_iff {ρ' : Page → Tag} (hS : Sharp (lawful cfg) ρ h)
    (hS' : Sharp (lawful cfg) ρ' h') (hkept : ∀ x, ρ x ≠ .free → ρ' x ≠ .free) :
    SameFree h h' ↔ ∀ x, ρ x = .free → ρ' x = .free := by
  have hmem : ∀ x, x ∈ h.kmem.freelist ↔ ρ x = .free := hS.mem_free
  have hmem' : ∀ x, x ∈ h'.kmem.freelist ↔ ρ' x = .free := hS'.mem_free
  constructor
  · intro hsame x hx
    exact (hmem' x).mp ((hsame x).mpr ((hmem x).mpr hx))
  · intro hall x
    rw [hmem, hmem']
    constructor
    · intro hx
      by_contra hne
      exact hkept x hne hx
    · exact hall x

/-! ## `setupkvm` and `copyuvm` -/

/-- Where `setupkvm` fails, the same pages are free. -/
def SetupKeeps (cfg : Config) (h : Heap Kmem) : Prop :=
  ∀ h', setupkvm (kmem cfg) cfg.kmap h = .ok (none, h') → SameFree h h'

theorem setupKeeps_iff (hks : KmapOk cfg.kmap) (hS : Sharp (lawful cfg) ρ h) :
    SetupKeeps cfg h ↔ (ask (kmem cfg) (setupUses cfg.kmap) h.kmem).1 ≠ some .table := by
  have hspec := setupkvm_made (exact_kmem cfg) hS hks
  obtain ⟨r, h', hrun, _, hcases⟩ := hspec.exists_ok
  unfold SetupKeeps
  rw [hrun]
  rcases hcases with ⟨hask, _, hS', _⟩ | ⟨d', ρ', hM, _, ⟨hask, rfl⟩ | ⟨hask, rfl, _⟩⟩
  · refine iff_of_true ?_ (by simp [hask])
    rintro _ ⟨⟩
    exact (sameFree_iff hS hS' fun _ hx => hx).mpr fun _ hx => hx
  · refine iff_of_false ?_ (by simp [hask])
    intro hall
    -- the directory is not free any more
    have hsame := (sameFree_iff hS hM.sharp fun x hx => by rwa [hM.kept x hx]).mp
      (hall h' rfl) d' hM.free
    rw [hM.dir] at hsame
    cases hsame
  · refine iff_of_true ?_ (by simp [hask])
    rintro _ ⟨⟩

/-- How many pages of `d` are present before the first that is not. -/
def present (h : Heap Kmem) (d : Page) (sz : Nat) : Nat :=
  leading (fun v => (entry h d v).isSome) (pgup sz) 0

/-- Where `copyuvm` fails, the same pages are free. -/
def CopyKeeps (cfg : Config) (d : Page) (sz : Nat) (h : Heap Kmem) : Prop :=
  ∀ h', copyuvm (kmem cfg) cfg.kmap d sz h = .ok (none, h') → SameFree h h'

/-- `copyuvm`, for all that may be present of the parent. -/
theorem copyuvm_present {sz : Nat} (hks : KmapOk cfg.kmap) (hS : Sharp (lawful cfg) ρ h)
    (hd : ρ d = .dir) (hsz : sz ≤ KERNBASE) :
    Ensures (copyuvm (kmem cfg) cfg.kmap d sz) h
      (fun _ => (ask (kmem cfg) (forkUses cfg.kmap (present h d sz)) h.kmem).1 = none) fun r h' =>
      (r = none → ∃ ρ', Gone (lawful cfg) ρ h ρ' h' ∧
        ((ask (kmem cfg) (forkUses cfg.kmap (present h d sz)) h.kmem).1 ≠ some .table ↔
          ∀ x, ρ x = .free → ρ' x = .free)) ∧
      (r ≠ none → (ask (kmem cfg) (forkUses cfg.kmap (present h d sz)) h.kmem).1 = none) := by
  refine (copyuvm_copied (exact_kmem cfg) hS hd hks hsz (leading_le _ _ _) ?_ ?_).imp
    (fun _ he => he.2) ?_
  · intro v hv
    have hp := of_lt_leading (p := fun v => (entry h d v).isSome) (Nat.zero_le v)
      (by rw [Nat.zero_add]; exact hv)
    exact Option.isSome_iff_ne_none.mp hp
  · intro hlt
    have hp := at_leading (p := fun v => (entry h d v).isSome) hlt
    rw [Nat.zero_add] at hp
    simpa using hp
  · rintro r h' ⟨hnone, hsome⟩
    refine ⟨hnone, ?_⟩
    intro hr
    obtain ⟨d', rfl⟩ := Option.ne_none_iff_exists'.mp hr
    obtain ⟨_, _, _, _, hask, _⟩ := hsome d' rfl
    exact hask

theorem copyKeeps_iff {sz : Nat} (hks : KmapOk cfg.kmap) (hS : Sharp (lawful cfg) ρ h)
    (hd : ρ d = .dir) (hsz : sz ≤ KERNBASE) : CopyKeeps cfg d sz h ↔
      (ask (kmem cfg) (forkUses cfg.kmap (present h d sz)) h.kmem).1 ≠ some .table := by
  have hspec := copyuvm_present hks hS hd hsz
  unfold CopyKeeps
  cases hrun : copyuvm (kmem cfg) cfg.kmap d sz h with
  | error e =>
      have hask := hspec.of_error hrun
      refine iff_of_true ?_ (by simp [hask])
      rintro _ ⟨⟩
  | ok r =>
      obtain ⟨r, h'⟩ := r
      obtain ⟨hnone, hsome⟩ := hspec.of_ok hrun
      cases r with
      | some d' =>
          refine iff_of_true ?_ (by simp [hsome (Option.some_ne_none _)])
          rintro _ ⟨⟩
      | none =>
          obtain ⟨ρ', hgone, hiff⟩ := hnone rfl
          have hsame := sameFree_iff hS hgone.sharp fun x hx => by rwa [hgone.kept x hx]
          rw [hiff, ← hsame]
          constructor
          · intro hall
            exact hall h' rfl
          · rintro hsame _ ⟨⟩
            exact hsame

/-! ## `allocuvm` -/

/-- Where `allocuvm` fails, what it took is free again, or a page table of `d`. -/
def AllocKeeps (cfg : Config) (d : Page) (oldsz newsz : Nat) (h : Heap Kmem) : Prop :=
  ∀ h', allocuvm (kmem cfg) d oldsz newsz h = .ok (0, h') →
    ∀ x ∈ h.kmem.freelist, x ∈ h'.kmem.freelist ∨ ∃ i, table h' d i = some x

/-- The answers of `kalloc` to `allocuvm`, up to a page that is mapped already. -/
def answersTo (cfg : Config) (d : Page) (oldsz newsz : Nat) (h : Heap Kmem) : Served Kmem :=
  serve (kmem cfg) (min (pgup newsz - pgup oldsz)
    (leading (fun v => (entry h d v).isNone) (pgup newsz - pgup oldsz) (pgup oldsz) + 1))
    (pgup oldsz) (tables h d) h.kmem

section Alloc

variable {oldsz newsz : Nat} {ρ₁ ρ' : Page → Tag} {h₁ : Heap Kmem}

/-- **`allocuvm`**, for all that may be mapped of the range. -/
theorem allocuvm_answers (hS : Sharp (lawful cfg) ρ h) (hd : ρ d = .dir) (hle : oldsz ≤ newsz)
    (hnew : newsz < KERNBASE) :
    Ensures (allocuvm (kmem cfg) d oldsz newsz) h
      (fun _ => (answersTo cfg d oldsz newsz h).short = false) fun r h' =>
      ∃ ρ₁ h₁, Grown (lawful cfg) d (pgup oldsz) (answersTo cfg d oldsz newsz h) ρ h ρ₁ h₁ ∧
        ((answersTo cfg d oldsz newsz h).short = false → r = newsz ∧ h' = h₁) ∧
        ((answersTo cfg d oldsz newsz h).short = true → r = 0 ∧ ∃ ρ',
          Frees (lawful cfg) d
            (Visits (answersTo cfg d oldsz newsz h).tab (pgup oldsz) (pgup newsz)) ρ₁ h₁ ρ' h') := by
  have hsum : pgup oldsz + (pgup newsz - pgup oldsz) = pgup newsz :=
    Nat.add_sub_cancel' (pgup_mono hle)
  unfold allocuvm
  rw [if_neg (by omega), if_neg (by omega)]
  refine (allocLoop_grown (exact_kmem cfg) hS hd hnew.le (by rw [hsum]; exact pgup_le hnew.le)
    (leading_le (fun v => (entry h d v).isNone) _ (pgup oldsz)) ?_ ?_).imp (fun _ he => he.2) ?_
  · intro w h1 h2
    have hp := of_lt_leading (p := fun v => (entry h d v).isNone) h1 h2
    simpa using hp
  · intro hlt
    have hp := at_leading (p := fun v => (entry h d v).isNone) hlt
    simpa [Option.isSome_iff_ne_none] using hp
  · rintro r h' ⟨ρ₁, h₁, hG, hok, hshort⟩
    refine ⟨ρ₁, h₁, hG, fun hs => (hok hs).2, ?_⟩
    intro hs
    obtain ⟨hr, r', hrun⟩ := hshort hs
    have hlt : oldsz < newsz := by
      by_contra hge
      have heq : oldsz = newsz := by omega
      rw [answersTo, heq, Nat.sub_self, Nat.zero_min] at hs
      cases hs
    have hd1 : ρ₁ d = .dir := (hG.kept d (by simp [hd])).trans hd
    obtain ⟨_, ρ', hF⟩ := (deallocuvm_frees (exact_kmem cfg) hnew.le hlt hG.sharp hd1).of_ok hrun
    rw [hG.tables] at hF
    exact ⟨hr, ρ', hF⟩

/-- A page that is mapped at `w` and not freed there is not freed. -/
theorem Frees.keeps_user {x : Page} {w : Nat} {D : Nat → Prop} {e : Pte}
    (hF : Frees (lawful cfg) d D ρ h ρ' h') (hS : Sharp (lawful cfg) ρ h) (hd : ρ d = .dir)
    (hD : ∀ v, D v → v < KERNPAGE) (hw : w < KERNPAGE) (he : entry h d w = some e)
    (hx : e.page = x) (hnot : ¬ D w) : ρ' x = ρ x := by
  apply hF.kept x
  intro v e' hv he' hpage
  have htag := tag_of_entry hS.toTagged hd hw he
  have htag' := tag_of_entry hS.toTagged hd (hD v hv) he'
  rw [hpage, ← hx, htag] at htag'
  injection htag' with _ hi hj
  exact hnot (page_ext hi hj ▸ hv)

theorem allocKeeps_iff (hS : Sharp (lawful cfg) ρ h) (hd : ρ d = .dir) :
    AllocKeeps cfg d oldsz newsz h ↔ (oldsz ≤ newsz → newsz < KERNBASE →
      (answersTo cfg d oldsz newsz h).short = true →
        (answersTo cfg d oldsz newsz h).lost = [] ∧
        ∀ v, (answersTo cfg d oldsz newsz h).Maps (pgup oldsz) v →
          ¬ Skips (answersTo cfg d oldsz newsz h).tab (pgup oldsz) v) := by
  by_cases hnew : newsz < KERNBASE
  · by_cases hle : oldsz ≤ newsz
    · simp only [hnew, hle, true_implies]
      have hspec := allocuvm_answers hS hd hle hnew
      have hlow : ∀ v, Visits (answersTo cfg d oldsz newsz h).tab (pgup oldsz) (pgup newsz) v →
          v < KERNPAGE := fun v hv => Nat.lt_of_lt_of_le hv.2.1 (pgup_le hnew.le)
      have hrange : ∀ v, (answersTo cfg d oldsz newsz h).Maps (pgup oldsz) v →
          pgup oldsz ≤ v ∧ v < pgup newsz := by
        intro v hmaps
        have hcount : (answersTo cfg d oldsz newsz h).count ≤ _ := serve_within.count_le
        have hmin := Nat.min_le_left (pgup newsz - pgup oldsz)
          (leading (fun v => (entry h d v).isNone) (pgup newsz - pgup oldsz) (pgup oldsz) + 1)
        have hpg := pgup_mono hle
        obtain ⟨h1, h2, _⟩ := hmaps
        omega
      unfold AllocKeeps
      cases hrun : allocuvm (kmem cfg) d oldsz newsz h with
      | error e =>
          have hs := hspec.of_error hrun
          refine iff_of_true ?_ (by simp [hs])
          rintro _ ⟨⟩
      | ok r =>
          obtain ⟨r, h'⟩ := r
          obtain ⟨ρ₁, h₁, hG, hfull, hshort⟩ := hspec.of_ok hrun
          have hd1 : ρ₁ d = .dir := (hG.kept d (by simp [hd])).trans hd
          have hmem : ∀ x, x ∈ h.kmem.freelist ↔ ρ x = .free := hS.mem_free
          constructor
          · intro hall hs
            obtain ⟨rfl, ρ', hF⟩ := hshort hs
            have hmem' : ∀ x, x ∈ h'.kmem.freelist ↔ ρ' x = .free := hF.sharp.mem_free
            have hd' : ρ' d = .dir := by
              rw [hF.kept d ?_, hd1]
              intro v e hv he
              have htag := tag_of_entry hG.sharp.toTagged hd1 (hlow v hv) he
              exact ne_of_tag (ρ := ρ₁) (by simp [htag, hd1])
            -- a page with another tag is neither free nor a page table
            have hnot : ∀ x, ρ x = .free → ρ' x ≠ .free → (∀ i, ρ' x ≠ .table d i) → False := by
              intro x hx hfree htab
              rcases hall h' rfl x ((hmem x).mpr hx) with h | ⟨i, h⟩
              · exact hfree ((hmem' x).mp h)
              · exact htab i (tag_of_table hF.sharp.toTagged hd' h).1
            constructor
            · by_contra hl
              obtain ⟨x, hx, hx1⟩ := hG.lost hl
              have hx' : ρ' x = .held := by
                rw [hF.kept x ?_, hx1]
                intro v e hv he
                have htag := tag_of_entry hG.sharp.toTagged hd1 (hlow v hv) he
                exact ne_of_tag (ρ := ρ₁) (by simp [htag, hx1])
              exact hnot x hx (by simp [hx']) (by simp [hx'])
            · intro v hmaps hskip
              obtain ⟨m, he, hm, _⟩ := hG.mapped v hmaps
              have hv : v < KERNPAGE := Nat.lt_of_lt_of_le (hrange v hmaps).2 (pgup_le hnew.le)
              have htag := tag_of_entry hG.sharp.toTagged hd1 hv he
              have hm' : ρ' m = .user d (pdx v) (ptx v) := by
                rw [hF.keeps_user hG.sharp hd1 hlow hv he rfl fun hvis => hvis.2.2 hskip, htag]
              exact hnot m hm (by simp [hm']) (by simp [hm'])
          · rintro hcond _ ⟨⟩ x hx
            rw [hmem] at hx
            cases hs : (answersTo cfg d oldsz newsz h).short with
            | false =>
                -- 0 is `newsz` itself, and nothing was taken
                obtain ⟨hr, _⟩ := hfull hs
                have hzero : pgup newsz - pgup oldsz = 0 := by
                  rw [← hr]
                  exact Nat.zero_sub _
                have hok : allocuvm (kmem cfg) d oldsz newsz h = .ok (newsz, h) := by
                  unfold allocuvm
                  rw [if_neg (by omega), if_neg (by omega), hzero]
                  rfl
                rw [hok] at hrun
                cases hrun
                exact .inl ((hmem x).mpr hx)
            | true =>
                obtain ⟨hl, hskip⟩ := hcond hs
                obtain ⟨_, ρ', hF⟩ := hshort hs
                have hmem' : ∀ x, x ∈ h'.kmem.freelist ↔ ρ' x = .free := hF.sharp.mem_free
                have hkept : (∀ v e, Visits (answersTo cfg d oldsz newsz h).tab (pgup oldsz)
                    (pgup newsz) v → entry h₁ d v = some e → ρ₁ x ≠ .user d (pdx v) (ptx v)) →
                    ρ' x = ρ₁ x := by
                  intro hne
                  apply hF.kept x
                  rintro v e hv he rfl
                  exact hne v e hv he (tag_of_entry hG.sharp.toTagged hd1 (hlow v hv) he)
                rcases hG.taken x hx with h | ⟨i, h⟩ | ⟨w, hw, h⟩ | ⟨_, h⟩
                · left
                  rw [hmem', hkept (by simp [h]), h]
                · right
                  have hx' : ρ' x = .table d i := by rw [hkept (by simp [h]), h]
                  obtain ⟨⟨_, pde, hc, hi⟩, _⟩ := hF.sharp.tab x d i hx'
                  exact ⟨i, by rw [table_of_dir hc, hi]⟩
                · left
                  obtain ⟨_, v, e, hv, hi, hj, he, rfl⟩ := hG.sharp.mapped x d _ _ h
                  obtain rfl := page_ext hi hj
                  rw [hmem']
                  exact hF.freed v e ⟨(hrange v hw).1, (hrange v hw).2, hskip v hw⟩ he
                · exact absurd hl h
    · -- nothing is done
      refine iff_of_true ?_ fun h => absurd h hle
      intro h' hrun
      have hok : allocuvm (kmem cfg) d oldsz newsz h = .ok (oldsz, h) := by
        unfold allocuvm
        rw [if_neg (by omega), if_pos (by omega)]
        rfl
      rw [hok] at hrun
      injection hrun with hrun
      injection hrun with h0
      omega
  · refine iff_of_true ?_ fun _ h => absurd h hnew
    intro h' hrun
    have hok : allocuvm (kmem cfg) d oldsz newsz h = .ok (0, h) := by
      unfold allocuvm
      rw [if_pos (by omega)]
      rfl
    rw [hok] at hrun
    cases hrun
    intro x hx
    exact .inl hx

end Alloc

/-! ## `fork` -/

/-- The slot that `allocproc` finds. -/
def unusedSlot (s : State) : Option Nat :=
  findFrom (fun q => decide ((s.proc q).state = .unused)) NPROC 0

/-- `fork` by `p`, with no other process in between: the slot of the child, or
`none` for -1. There is no result where the kernel panics. -/
def fork (cfg : Config) (s : State) (p : Nat) : Option (Option Nat × State) :=
  match unusedSlot s with
  | none => some (none, s)
  | some np => do
      let s ← act cfg s (.forkAlloc p np)
      if (s.proc np).state = .unused then return (none, s)
      let s ← act cfg s (.forkCopy p)
      if s.halted.isSome then none
      else if (s.proc np).state = .unused then return (none, s)
      else return (some np, s)

/-- A `fork` that failed has left everything as it was. -/
structure Unforked (d : Page) (s s' : State) : Prop where
  free : SameFree s.heap s'.heap
  used : ∀ q, (s.proc q).state ≠ .unused → s'.proc q = s.proc q
  unused : ∀ q, (s.proc q).state = .unused → (s'.proc q).state = .unused
  parent : table s'.heap d = table s.heap d ∧ entry s'.heap d = entry s.heap d
  bytes : ∀ v e, v < KERNPAGE → entry s.heap d v = some e →
    s'.heap.content e.page = s.heap.content e.page

def ForkKeeps (cfg : Config) (s : State) (p : Nat) (d : Page) : Prop :=
  ∀ s', fork cfg s p = some (none, s') → Unforked d s s'

/-- The requests of `fork`: a kernel stack, and what `copyuvm` asks for. -/
def forkRequests (cfg : Config) (s : State) (d : Page) (sz : Nat) : List Use :=
  .page :: forkUses cfg.kmap (present s.heap d sz)

section Fork

variable {s : State} {p np : Nat} {x : Page}

/-- The copy of `fork`, after the kernel stack `x` was taken. -/
theorem forkMem_spec {sz : Nat} (hks : KmapOk cfg.kmap) (hS : Sharp (lawful cfg) ρ h)
    (hd : ρ d = .dir) (hx : ρ x = .held) (hvalid : (kmem cfg).valid x = true)
    (hsz : sz ≤ KERNBASE) :
    Ensures (forkMem cfg d sz x) h
      (fun _ => (ask (kmem cfg) (forkUses cfg.kmap (present h d sz)) h.kmem).1 = none) fun r h' =>
      (r = none → ∃ ρ', Sharp (lawful cfg) ρ' h' ∧ ρ' x = .free ∧
        (∀ y, y ≠ x → ρ y ≠ .free → ρ' y = ρ y ∧ h'.content y = h.content y) ∧
        ((ask (kmem cfg) (forkUses cfg.kmap (present h d sz)) h.kmem).1 ≠ some .table ↔
          ∀ y, ρ y = .free → ρ' y = .free)) ∧
      (r ≠ none → (ask (kmem cfg) (forkUses cfg.kmap (present h d sz)) h.kmem).1 = none) := by
  rw [forkMem, ensures_bind]
  refine (copyuvm_present hks hS hd hsz).imp (fun _ he => he) ?_
  rintro r h1 ⟨hnone, hsome⟩
  cases r with
  | some d' => exact ⟨fun hr => (by cases hr), fun _ => hsome (Option.some_ne_none _)⟩
  | none =>
      obtain ⟨ρ1, hgone, hiff⟩ := hnone rfl
      have hx1 : ρ1 x = .held := by rw [hgone.kept x (by simp [hx]), hx]
      simp only [ensures_bind, ensures_kfree hvalid, ensures_pure]
      refine ⟨fun _ => ⟨upd ρ1 x .free, hgone.sharp.freed (exact_kmem cfg) hx1 hvalid,
        upd_self .., ?_, ?_⟩, fun hr => absurd rfl hr⟩
      · intro y hyx hy
        rw [upd_of_ne hyx, freed_of_ne hyx]
        exact ⟨hgone.kept y hy, hgone.content y hy⟩
      · rw [hiff]
        constructor
        · intro hall y hy
          have hyx : y ≠ x := ne_of_tag (ρ := ρ) (by simp [hx, hy])
          rw [upd_of_ne hyx]
          exact hall y hy
        · intro hall y hy
          have hyx : y ≠ x := ne_of_tag (ρ := ρ) (by simp [hx, hy])
          have := hall y hy
          rwa [upd_of_ne hyx] at this

/-- The state in which `fork` copies the parent's memory. -/
def stacked (s : State) (p np : Nat) (x : Page) (k : Kmem) : State :=
  (({ s with heap := { s.heap with kmem := k } } : State).setProc np
    { s.proc np with state := .embryo, kstack := some x }).setTask p (.fork np)

/-- The state after a `fork` that found no memory. -/
def unstacked (s : State) (np : Nat) (h : Heap Kmem) : State :=
  ({ s with heap := h } : State).setProc np
    { s.proc np with state := .unused, kstack := none, pgdir := none, task := .none }

variable {k : Kmem}

theorem ready_iff {q : Proc} : q.ready = true ↔ q.state = .alive ∧ q.task = .none := by
  unfold Proc.ready
  cases q.state <;> cases q.task <;> simp

theorem forkAlloc_none (hready : (s.proc p).ready = true) (hnp : (s.proc np).state = .unused)
    (hk : (kmem cfg).kalloc .page s.heap.kmem = (none, k)) :
    act cfg s (.forkAlloc p np) = some { s with heap := { s.heap with kmem := k } } := by
  simp only [act, hready, hnp, and_self, if_true, allocproc, State.run, kalloc, hk]

theorem forkAlloc_some (hready : (s.proc p).ready = true) (hnp : (s.proc np).state = .unused)
    (hk : (kmem cfg).kalloc .page s.heap.kmem = (some x, k)) :
    act cfg s (.forkAlloc p np) = some (stacked s p np x k) := by
  simp only [act, hready, hnp, and_self, if_true, allocproc, State.run, kalloc, hk]
  rfl

theorem stacked_proc (hne : p ≠ np) :
    (stacked s p np x k).proc np = { s.proc np with state := .embryo, kstack := some x } ∧
      (stacked s p np x k).proc p = { s.proc p with task := .fork np } := by
  simp [stacked, State.setTask, State.setProc, upd_of_ne hne, upd_of_ne hne.symm]

/-- The copy, from the state after `allocproc`. -/
theorem forkCopy_act (hne : p ≠ np) (hd : (s.proc p).pgdir = some d) :
    act cfg (stacked s p np x k) (.forkCopy p) =
      some (forkCopy cfg (stacked s p np x k) p np d x) := by
  obtain ⟨hnp, hp⟩ := stacked_proc (s := s) (x := x) (k := k) hne
  simp only [act, hp, hd, hnp, Option.map_some]

/-- Where there is no memory for the child, its slot is unused again. -/
theorem forkCopy_none (hne : p ≠ np) (htask : (s.proc p).task = .none)
    (hm : forkMem cfg d (s.proc p).sz x { s.heap with kmem := k } = .ok (none, h)) :
    forkCopy cfg (stacked s p np x k) p np d x = unstacked s np h := by
  obtain ⟨hnp, hp⟩ := stacked_proc (s := s) (x := x) (k := k) hne
  have hheap : (stacked s p np x k).heap = { s.heap with kmem := k } := rfl
  unfold forkCopy State.run
  rw [hp, hheap, hm]
  simp only [State.setTask, State.setProc, hnp, unstacked]
  congr 1
  funext q
  by_cases hq : q = p
  · -- the parent goes on as it was
    rw [hq, upd_self, upd_of_ne hne, upd_of_ne hne, hp]
    cases hsp : s.proc p
    rw [hsp] at htask
    cases htask
    rfl
  · rw [upd_of_ne hq]
    by_cases hqn : q = np
    · rw [hqn, upd_self, upd_self]
    · simp only [stacked, State.setTask, State.setProc, upd_of_ne hq, upd_of_ne hqn]

/-- Where the memory is copied, the child is alive. -/
theorem forkCopy_some {d' : Page} (hne : p ≠ np)
    (hm : forkMem cfg d (s.proc p).sz x { s.heap with kmem := k } = .ok (some d', h)) :
    ((forkCopy cfg (stacked s p np x k) p np d x).proc np).state = .alive := by
  obtain ⟨_, hp⟩ := stacked_proc (s := s) (x := x) (k := k) hne
  have hheap : (stacked s p np x k).heap = { s.heap with kmem := k } := rfl
  unfold forkCopy State.run
  rw [hp, hheap, hm]
  simp only [State.setTask, State.setProc, upd_of_ne hne.symm, upd_self]

/-- Where it panics, the kernel halts. -/
theorem forkCopy_error {e : Stop × Heap Kmem} (hne : p ≠ np)
    (hm : forkMem cfg d (s.proc p).sz x { s.heap with kmem := k } = .error e) :
    (forkCopy cfg (stacked s p np x k) p np d x).halted.isSome = true := by
  obtain ⟨_, hp⟩ := stacked_proc (s := s) (x := x) (k := k) hne
  have hheap : (stacked s p np x k).heap = { s.heap with kmem := k } := rfl
  unfold forkCopy State.run
  rw [hp, hheap, hm]
  rfl

/-- **`fork`** that finds a slot and a kernel stack. -/
theorem fork_stacked (hslot : unusedSlot s = some np) (hready : (s.proc p).ready = true)
    (hnp : (s.proc np).state = .unused) (hne : p ≠ np) (hd : (s.proc p).pgdir = some d)
    (hk : (kmem cfg).kalloc .page s.heap.kmem = (some x, k)) :
    fork cfg s p = if (forkCopy cfg (stacked s p np x k) p np d x).halted.isSome then none
      else if ((forkCopy cfg (stacked s p np x k) p np d x).proc np).state = .unused then
        some (none, forkCopy cfg (stacked s p np x k) p np d x)
      else some (some np, forkCopy cfg (stacked s p np x k) p np d x) := by
  have hembryo : ((stacked s p np x k).proc np).state ≠ .unused := by
    rw [(stacked_proc hne).1]
    simp
  simp only [fork, hslot, forkAlloc_some hready hnp hk, Option.bind_eq_bind, Option.bind_some,
    hembryo, if_false, forkCopy_act hne hd, Option.pure_def]

/-- Another `kmem` changes nothing that is mapped. -/
theorem present_kmem {sz : Nat} : present { h with kmem := k } d sz = present h d sz := by
  have hread : entry { h with kmem := k } d = entry h d := (read_content rfl d).2
  unfold present
  rw [hread]

/-- The process table after a `fork` that found no memory. -/
theorem Unforked.of_free {ρ' : Page → Tag} (hS : Sharp (lawful cfg) ρ s.heap) (hd : ρ d = .dir)
    (hnp : (s.proc np).state = .unused) (hfree : SameFree s.heap h)
    (hkept : ∀ y, ρ y ≠ .free → ρ' y = ρ y ∧ h.content y = s.heap.content y) :
    Unforked d s (unstacked s np h) := by
  refine ⟨hfree, ?_, ?_, ?_, ?_⟩
  · intro q hq
    have hqn : q ≠ np := by
      rintro rfl
      exact hq hnp
    simp only [unstacked, State.setProc, upd_of_ne hqn]
  · intro q hq
    by_cases hqn : q = np
    · simp only [unstacked, State.setProc, hqn, upd_self]
    · simpa only [unstacked, State.setProc, upd_of_ne hqn] using hq
  · apply read_frame hS.toTagged hd
    · exact (hkept d (by simp [hd])).2
    · intro t i ht
      exact (hkept t (by simp [ht])).2
  · intro v e hv he
    have htag := tag_of_entry hS.toTagged hd hv he
    exact (hkept e.page (by simp [htag])).2

theorem forkKeeps_iff (hks : KmapOk cfg.kmap) (hS : Sharp (lawful cfg) ρ s.heap)
    (hhalt : s.halted = none) (hready : (s.proc p).ready = true)
    (hpgdir : (s.proc p).pgdir = some d) (hd : ρ d = .dir) (hsz : (s.proc p).sz ≤ KERNBASE) :
    ForkKeeps cfg s p d ↔ (unusedSlot s ≠ none →
      (ask (kmem cfg) (forkRequests cfg s d (s.proc p).sz) s.heap.kmem).1 ≠ some .table) := by
  obtain ⟨halive, htask⟩ := ready_iff.mp hready
  unfold ForkKeeps
  cases hslot : unusedSlot s with
  | none =>
      refine iff_of_true ?_ fun h => absurd rfl h
      intro s' hrun
      simp only [fork, hslot] at hrun
      cases hrun
      exact ⟨fun _ => Iff.rfl, fun _ _ => rfl, fun _ h => h, ⟨rfl, rfl⟩, fun _ _ _ _ => rfl⟩
  | some np =>
      have hnp : (s.proc np).state = .unused := by
        simpa using (findFrom_eq_some hslot).2.2
      have hne : p ≠ np := by
        rintro rfl
        rw [halive] at hnp
        cases hnp
      have hslot' : ∀ P : Prop, (some np ≠ none → P) ↔ P := fun P =>
        ⟨fun h => h (Option.some_ne_none np), fun h _ => h⟩
      rw [hslot']
      rcases hk : (kmem cfg).kalloc .page s.heap.kmem with ⟨_ | x, k⟩
      · -- no kernel stack
        have hrun : fork cfg s p = some (none, { s with heap := { s.heap with kmem := k } }) := by
          simp only [fork, hslot, forkAlloc_none hready hnp hk, Option.bind_eq_bind,
            Option.bind_some, hnp, if_true, Option.pure_def]
        refine iff_of_true ?_ (by simp [forkRequests, ask, hk])
        intro s' hs'
        cases hrun.symm.trans hs'
        have hread : table { s.heap with kmem := k } d = table s.heap d ∧
            entry { s.heap with kmem := k } d = entry s.heap d := read_content rfl d
        have hfree := (exact_kmem cfg).kalloc_none .page s.heap.kmem k hS.ok hk
        exact ⟨fun y => Set.ext_iff.mp hfree y, fun _ _ => rfl, fun _ h => h, hread,
          fun _ _ _ _ => rfl⟩
      · have hreqs : ask (kmem cfg) (forkRequests cfg s d (s.proc p).sz) s.heap.kmem =
            ask (kmem cfg) (forkUses cfg.kmap (present s.heap d (s.proc p).sz)) k := by
          simp only [forkRequests, ask, hk]
        rw [hreqs]
        obtain ⟨hx, hvalid, hS1⟩ := hS.take (exact_kmem cfg) hk
        have hdx : d ≠ x := ne_of_tag (ρ := ρ) (by simp [hd, hx])
        have hspec := forkMem_spec hks hS1 (by rw [upd_of_ne hdx, hd]) (upd_self ..) hvalid hsz
        rw [present_kmem] at hspec
        have hrun := fork_stacked hslot hready hnp hne hpgdir hk
        cases hm : forkMem cfg d (s.proc p).sz x { s.heap with kmem := k } with
        | error e =>
            have hask := hspec.of_error hm
            rw [if_pos (forkCopy_error hne hm)] at hrun
            refine iff_of_true ?_ (by simp [hask])
            intro s' hs'
            rw [hrun] at hs'
            cases hs'
        | ok r =>
            obtain ⟨r, h'⟩ := r
            obtain ⟨hnone, hsome⟩ := hspec.of_ok hm
            cases r with
            | some d' =>
                refine iff_of_true ?_ (by simp [hsome (Option.some_ne_none _)])
                intro s' hs'
                have halive' := forkCopy_some hne hm
                rw [hrun, halive'] at hs'
                split at hs'
                · cases hs'
                · cases hs'
            | none =>
                obtain ⟨ρ', hS', hx', hkept, hiff⟩ := hnone rfl
                have hkept' : ∀ y, ρ y ≠ .free →
                    ρ' y = ρ y ∧ h'.content y = s.heap.content y := by
                  intro y hy
                  have hyx : y ≠ x := fun hyx => hy (hyx ▸ hx)
                  have hy1 : upd ρ x .held y = ρ y := upd_of_ne hyx
                  obtain ⟨h1, h2⟩ := hkept y hyx (by rwa [hy1])
                  exact ⟨h1.trans hy1, h2⟩
                have hsame : SameFree s.heap h' ↔
                    ∀ y, upd ρ x .held y = .free → ρ' y = .free := by
                  rw [sameFree_iff hS hS' fun y hy => by rwa [(hkept' y hy).1]]
                  constructor
                  · intro hall y hy
                    obtain ⟨hyx, hy⟩ := of_upd_eq hy (by simp)
                    exact hall y hy
                  · intro hall y hy
                    by_cases hyx : y = x
                    · rw [hyx, hx']
                    · exact hall y (by rw [upd_of_ne hyx, hy])
                rw [hiff, ← hsame]
                have hdone : (unstacked s np h').halted.isSome = false := by
                  show s.halted.isSome = false
                  rw [hhalt]
                  rfl
                have hunused : ((unstacked s np h').proc np).state = .unused := by
                  simp only [unstacked, State.setProc, upd_self]
                rw [forkCopy_none hne htask hm, if_neg (by simp [hdone]), if_pos hunused] at hrun
                rw [hrun]
                constructor
                · intro hall
                  exact (hall _ rfl).free
                · rintro hfree _ ⟨⟩
                  exact .of_free hS hd hnp hfree hkept'

/-- **Failed allocations leak nothing** exactly where the first request that is
refused is not for a page table. For `allocuvm`, which goes on after that, no
page may be lost before a request for a page is refused, and `deallocuvm` may
pass over none. -/
theorem failed_allocations_iff (sz oldsz newsz : Nat) (hks : KmapOk cfg.kmap)
    (hS : Sharp (lawful cfg) ρ s.heap) (hhalt : s.halted = none)
    (hready : (s.proc p).ready = true) (hpgdir : (s.proc p).pgdir = some d) (hd : ρ d = .dir)
    (hpsz : (s.proc p).sz ≤ KERNBASE) (hsz : sz ≤ KERNBASE) :
    (SetupKeeps cfg s.heap ↔
      (ask (kmem cfg) (setupUses cfg.kmap) s.heap.kmem).1 ≠ some .table) ∧
    (CopyKeeps cfg d sz s.heap ↔
      (ask (kmem cfg) (forkUses cfg.kmap (present s.heap d sz)) s.heap.kmem).1 ≠ some .table) ∧
    (AllocKeeps cfg d oldsz newsz s.heap ↔ (oldsz ≤ newsz → newsz < KERNBASE →
      (answersTo cfg d oldsz newsz s.heap).short = true →
        (answersTo cfg d oldsz newsz s.heap).lost = [] ∧
        ∀ v, (answersTo cfg d oldsz newsz s.heap).Maps (pgup oldsz) v →
          ¬ Skips (answersTo cfg d oldsz newsz s.heap).tab (pgup oldsz) v)) ∧
    (ForkKeeps cfg s p d ↔ (unusedSlot s ≠ none →
      (ask (kmem cfg) (forkRequests cfg s d (s.proc p).sz) s.heap.kmem).1 ≠ some .table)) :=
  ⟨setupKeeps_iff hks hS, copyKeeps_iff hks hS hd hsz, allocKeeps_iff hS hd,
    forkKeeps_iff hks hS hhalt hready hpgdir hd hpsz⟩

end Fork

/-- One process, with the memory of `sparse 0` and the refusals `fails`. -/
def lone (fails : List Bool) : State where
  heap := { sparse 0 with kmem := ⟨List.range' 4 28, fails⟩ }
  low := true
  high := true
  kpgdir := none
  cpuStack _ := none
  proc := upd (fun _ => ⟨.unused, none, none, 0, .none⟩) 0 ⟨.alive, none, some 1, PGSIZE, .none⟩
  pipe _ := none
  halted := none

theorem sharp_lone (fails : List Bool) :
    Sharp (lawful smallConfig) (sparseTags 0) (lone fails).heap :=
  (sharp_sparse (by decide)).setKmem List.nodup_range' rfl

/-- There is memory for everything, or there is none for the directory. -/
theorem failed_allocations_lone :
    SetupKeeps smallConfig (lone []).heap ∧ CopyKeeps smallConfig 1 PGSIZE (lone []).heap ∧
      AllocKeeps smallConfig 1 PGSIZE (2 * PGSIZE) (lone []).heap ∧
      ForkKeeps smallConfig (lone [false, true]) 0 1 := by
  have hsz : PGSIZE ≤ KERNBASE := by decide
  have h : ∀ fails, _ := fun fails => failed_allocations_iff (s := lone fails) (p := 0) (d := 1)
    PGSIZE PGSIZE (2 * PGSIZE) kmapOk_smallConfig (sharp_lone fails) rfl rfl rfl rfl hsz hsz
  refine ⟨(h []).1.mpr (by decide +kernel), (h []).2.1.mpr (by decide +kernel),
    (h []).2.2.1.mpr ?_, (h [false, true]).2.2.2.mpr fun _ => by decide +kernel⟩
  intro _ _ hs
  have hfull : (answersTo smallConfig 1 PGSIZE (2 * PGSIZE) (lone []).heap).short = false := by
    decide +kernel
  rw [hfull] at hs
  cases hs

/-- Where there is a directory and no page table for it, `setupkvm` loses the
directory; so `fork` fails, and there is less free memory than before. -/
theorem failed_setup_leaks :
    KmapOk smallConfig.kmap ∧ Sharp (lawful smallConfig) (sparseTags 0) (lone [false, true]).heap ∧
      ¬ SetupKeeps smallConfig (lone [false, true]).heap ∧
      Sharp (lawful smallConfig) (sparseTags 0) (lone [false, false, true]).heap ∧
      ¬ ForkKeeps smallConfig (lone [false, false, true]) 0 1 := by
  refine ⟨kmapOk_smallConfig, sharp_lone _, ?_, sharp_lone _, ?_⟩
  · rw [setupKeeps_iff kmapOk_smallConfig (sharp_lone _)]
    decide +kernel
  · rw [forkKeeps_iff kmapOk_smallConfig (sharp_lone _) rfl rfl rfl rfl (by decide)]
    decide +kernel

end Xv6.Vm
