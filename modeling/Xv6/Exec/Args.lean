import Xv6.Exec.Load

/-!
# Exec — the stack and the arguments

The last two pages of the image are a guard page, which the user cannot
access, and the stack page. The arguments are copied to the stack page
from its end downwards. `copyout` goes through the pages of the copy; one
that is not the user's ends it with -1. It does not look whether a page
has a page table: without one it reads the caller's word at address 0 as
the entry.
-/

namespace Xv6.Exec

open Lib Vm

variable {κ : Type} {A : Allocator κ} {L : Lawful A} {d : Page} {h : Heap κ} {c : Current}
  {g : Image κ}

/-- The page below the stack. -/
def Image.guard (g : Image κ) : Nat := (g.sz - 2 * PGSIZE) / PGSIZE

/-- The pages that the user can access. -/
def Image.Usable (g : Image κ) (v : Nat) : Prop := g.Maps v ∧ v ≠ g.guard

instance (v : Nat) : Decidable (g.Usable v) := inferInstanceAs (Decidable (_ ∧ _))

/-- The kernel reaches the pages of the allocator through its own part. -/
def Direct (A : Allocator κ) (c : Current) : Prop :=
  ∀ x, A.valid x = true → p2v x ≠ 0 ∧ c.storable x = true

/-- The image is complete, with its guard page. -/
structure Stacked (L : Lawful A) (d : Page) (g : Image κ) (h : Heap κ) : Prop where
  sharp : ∃ ρ, Sharp L ρ h ∧ ρ d = .dir
  user : ∀ v, g.Usable v → ∃ e, entry h d v = some e ∧ e.user = true ∧ A.valid e.page = true
  other : ∀ v e, ¬ g.Usable v → entry h d v = some e → e.user = false
  tables : tables h d = g.tab

/-! ## `copyout` -/

/-- What `copyout` comes to at a page: the kernel faults, there is no page of
the user, or one that can be written. -/
inductive Place
  | fault
  | null
  | page
  deriving DecidableEq

/-- What `copyout` makes of the result of `uva2ka`. -/
def Place.of (c : Current) : Option Page → Place
  | none => .null
  | some x => if c.storable x then .page else .fault

def place (c : Current) (g : Image κ) (v : Nat) : Place :=
  if g.tab (pdx v) then if g.Usable v then .page else .null
  else if c.user 0 then .of c (userPage c.word)
  else .fault

/-- **`uva2ka`** finds the pages of the user; without a page table it looks at
the word at address 0. -/
theorem uva2ka_spec (hS : Stacked L d g h) (hdir : Direct A c) (v : Nat) :
    Ensures (uva2ka A c d v) h (fun _ => place c g v = .fault) fun r h' =>
      h' = h ∧ place c g v = .of c r := by
  obtain ⟨ρ, hρ, hd⟩ := hS.sharp
  have htab : g.tab (pdx v) = (table h d (pdx v)).isSome := by
    rw [← hS.tables]
    rfl
  simp only [uva2ka, ensures_bind, walk_find hρ.toTagged hd, place, htab]
  cases ht : table h d (pdx v) with
  | none =>
      cases c.user 0 with
      | true => exact ⟨rfl, rfl⟩
      | false => exact rfl
  | some t =>
      obtain ⟨_, pte, hc⟩ := tag_of_table hρ.toTagged hd ht
      have he : entry h d v = pte (ptx v) := entry_of_tab ht hc
      simp only [Option.map_some, ensures_bind, ensures_tabAt hc, ensures_pure, ← he,
        Option.isSome_some, if_true, true_and]
      -- the entry tells whether the page is the user's
      by_cases hv : g.Usable v
      · obtain ⟨e, he', hu, hvalid⟩ := hS.user v hv
        obtain ⟨hp, hst⟩ := hdir e.page hvalid
        simp [he', userPage, hu, hp, Place.of, hst, hv]
      · rw [if_neg hv]
        cases he' : entry h d v with
        | none => rfl
        | some e =>
            have hu := hS.other v e hv he'
            simp [userPage, hu, Place.of]

/-- The copy of `len` bytes to `va` has a `j`-th page. -/
def HasPage (va len j : Nat) : Prop := 0 < len ∧ j * PGSIZE < va % PGSIZE + len

/-- All pages of the copy can be written. -/
def Copied (p : Nat → Place) (va len : Nat) : Prop :=
  ∀ j, HasPage va len j → p (pageAt va j) = .page

/-- The kernel faults at a page of the copy, after those before it. -/
def CopyFaults (p : Nat → Place) (va len : Nat) : Prop :=
  ∃ j, HasPage va len j ∧ (∀ j', j' < j → p (pageAt va j') = .page) ∧ p (pageAt va j) = .fault

section Pages

variable {p : Nat → Place} {va len : Nat}

theorem hasPage_succ {j : Nat} : HasPage va len (j + 1) ↔
    HasPage ((va / PGSIZE * PGSIZE + PGSIZE) % 2 ^ 32) (len - min (PGSIZE - va % PGSIZE) len) j := by
  unfold HasPage PGSIZE
  omega

theorem pageAt_succ {j : Nat} :
    pageAt va (j + 1) = pageAt ((va / PGSIZE * PGSIZE + PGSIZE) % 2 ^ 32) j := by
  unfold pageAt PGSIZE
  omega

/-- The first page can be written, and the rest decides. -/
theorem copied_next (h0 : p (pageAt va 0) = .page) : Copied p va len ↔
    Copied p ((va / PGSIZE * PGSIZE + PGSIZE) % 2 ^ 32) (len - min (PGSIZE - va % PGSIZE) len) := by
  constructor
  · intro hall j hj
    rw [← pageAt_succ]
    exact hall (j + 1) (hasPage_succ.mpr hj)
  · intro hall j hj
    cases j with
    | zero => exact h0
    | succ j =>
        rw [pageAt_succ]
        exact hall j (hasPage_succ.mp hj)

theorem copyFaults_next (h0 : p (pageAt va 0) = .page) : CopyFaults p va len ↔
    CopyFaults p ((va / PGSIZE * PGSIZE + PGSIZE) % 2 ^ 32)
      (len - min (PGSIZE - va % PGSIZE) len) := by
  constructor
  · rintro ⟨j, hj, hprev, hf⟩
    cases j with
    | zero =>
        rw [h0] at hf
        cases hf
    | succ j =>
        rw [pageAt_succ] at hf
        refine ⟨j, hasPage_succ.mp hj, fun j' hj' => ?_, hf⟩
        rw [← pageAt_succ]
        exact hprev (j' + 1) (by omega)
  · rintro ⟨j, hj, hprev, hf⟩
    rw [← pageAt_succ] at hf
    refine ⟨j + 1, hasPage_succ.mpr hj, fun j' hj' => ?_, hf⟩
    cases j' with
    | zero => exact h0
    | succ j' =>
        rw [pageAt_succ]
        exact hprev j' (by omega)

theorem hasPage_zero (hlen : 0 < len) : HasPage va len 0 := ⟨hlen, by omega⟩

end Pages

/-- **The loop of `copyout`.** -/
theorem copyLoopOut_spec {fuel va len : Nat} (hS : Stacked L d g h) (hdir : Direct A c)
    (hva : va < 2 ^ 32) (hfuel : len ≤ fuel) :
    Ensures (copyLoopOut A c d fuel va len) h (fun _ => CopyFaults (place c g) va len) fun r h' =>
      h' = h ∧ ¬ CopyFaults (place c g) va len ∧ (r = true ↔ Copied (place c g) va len) := by
  induction fuel generalizing va len with
  | zero =>
      have hno : ∀ j, ¬ HasPage va len j := fun j hj => by
        have := hj.1
        omega
      exact ⟨rfl, fun ⟨j, hj, _⟩ => hno j hj, iff_of_true rfl fun j hj => absurd hj (hno j)⟩
  | succ fuel ih =>
      rw [copyLoopOut]
      by_cases hlen : 0 < len
      · have hpage : va / PGSIZE = pageAt va 0 := by
          unfold pageAt PGSIZE
          omega
        have hfirst : HasPage va len 0 := hasPage_zero hlen
        rw [if_pos hlen, ensures_bind, hpage]
        refine (uva2ka_spec hS hdir (pageAt va 0)).imp
          (fun _ he => ⟨0, hfirst, by simp, he⟩) fun r h1 hr => ?_
        obtain ⟨rfl, hr⟩ := hr
        cases r with
        | none =>
            -- there is no page of the user, and `copyout` returns -1
            have hr : place c g (pageAt va 0) = .null := hr
            refine ⟨rfl, ?_, iff_of_false Bool.false_ne_true fun hall => ?_⟩
            · rintro ⟨j, _, hprev, hf⟩
              cases j with
              | zero =>
                  rw [hr] at hf
                  cases hf
              | succ j => cases hr.symm.trans (hprev 0 (by omega))
            · cases hr.symm.trans (hall 0 hfirst)
        | some x =>
            cases hst : c.storable x with
            | false =>
                have hr : place c g (pageAt va 0) = .fault := by simpa [Place.of, hst] using hr
                simp only [hst, if_true, ensures_bind]
                exact ⟨0, hfirst, by simp, hr⟩
            | true =>
                have hr : place c g (pageAt va 0) = .page := by simpa [Place.of, hst] using hr
                simp only [hst, Bool.true_eq_false, if_false]
                rw [copied_next hr, copyFaults_next hr, ← hpage]
                refine ih ?_ ?_
                · exact Nat.mod_lt _ (by decide)
                · unfold PGSIZE at *
                  omega
      · have hno : ∀ j, ¬ HasPage va len j := fun j hj => hlen hj.1
        rw [if_neg hlen]
        exact ⟨rfl, fun ⟨j, hj, _⟩ => hno j hj, iff_of_true rfl fun j hj => absurd hj (hno j)⟩

/-! ## The arguments -/

/-- Where `exec` puts the vector of the arguments. -/
def ustack (sp n : Nat) : Nat := (sp + 2 ^ 32 - n) % 2 ^ 32

/-- No copy that `exec` gets to makes the kernel fault: those of the arguments
from the `argc`-th on, and that of their vector. -/
def ArgsOk (p : Nat → Place) : List Nat → Nat → Nat → Prop
  | [], argc, sp => ¬ CopyFaults p (ustack sp ((3 + argc + 1) * 4)) ((3 + argc + 1) * 4)
  | len :: argv, argc, sp => argc < MAXARG →
      ¬ CopyFaults p (push sp (len + 1)) (len + 1) ∧
        (Copied p (push sp (len + 1)) (len + 1) → ArgsOk p argv (argc + 1) (push sp (len + 1)))

/-- The arguments and then their vector. -/
theorem pushArgs_spec {argv : List Nat} {argc sp : Nat} (hS : Stacked L d g h) (hdir : Direct A c) :
    Ensures (pushArgs A c d argv argc sp) h (fun _ => ¬ ArgsOk (place c g) argv argc sp) fun r h' =>
      h' = h ∧ (r = none → ArgsOk (place c g) argv argc sp) ∧ ∀ sp', r = some sp' →
        (ArgsOk (place c g) argv argc sp ↔ ArgsOk (place c g) [] (argc + argv.length) sp') := by
  induction argv generalizing argc sp with
  | nil =>
      refine ⟨rfl, by simp, ?_⟩
      rintro sp' ⟨⟩
      exact Iff.rfl
  | cons len argv ih =>
      unfold pushArgs ArgsOk
      by_cases hmax : MAXARG ≤ argc
      · rw [if_pos hmax]
        exact ⟨rfl, fun _ hlt => absurd hmax (Nat.not_le.mpr hlt), by simp⟩
      have hlt : argc < MAXARG := Nat.lt_of_not_le hmax
      have hva : push sp (len + 1) < 2 ^ 32 := by
        unfold push
        omega
      rw [if_neg hmax, ensures_bind]
      simp only [hlt, true_implies]
      generalize push sp (len + 1) = va at hva ⊢
      refine (copyLoopOut_spec hS hdir hva (Nat.le_refl _)).imp (fun _ he hok => hok.1 he)
        fun r h1 hr => ?_
      obtain ⟨rfl, hno, hr⟩ := hr
      cases r with
      | false =>
          have hnot : ¬ Copied (place c g) va (len + 1) := by simp [← hr]
          exact ⟨rfl, fun _ => ⟨hno, fun hc => absurd hc hnot⟩, by simp⟩
      | true =>
          have hall : Copied (place c g) va (len + 1) := hr.mp rfl
          simp only [if_true, hno, hall, not_false_eq_true, true_and, true_implies]
          refine ih.next fun r h2 hr => ?_
          rw [List.length_cons, show argc + (argv.length + 1) = argc + 1 + argv.length by omega]
          exact hr

/-! ## The stack -/

theorem pdx_not_lt {v : Nat} (hv : ¬ v < KERNPAGE) : ¬ pdx v < pdx KERNPAGE :=
  Nat.not_lt.mpr (Nat.div_le_div_right (Nat.le_of_not_lt hv))

/-- **`clearpteu`** of the guard page. -/
theorem clearpteu_spec {ks : List Kmap} (hS : Shape L ks d g h) :
    Ensures (clearpteu A d g.guard) h (fun _ => g.tab (pdx g.guard) = false) fun _ h' =>
      g.tab (pdx g.guard) = true ∧ Stacked L d g h' := by
  obtain ⟨ρ, hρ, hd⟩ := hS.sharp
  have htab : g.tab (pdx g.guard) = (table h d (pdx g.guard)).isSome := by
    rw [← hS.tables]
    rfl
  simp only [clearpteu, ensures_bind, walk_find hρ.toTagged hd, htab]
  cases ht : table h d (pdx g.guard) with
  | none => exact rfl
  | some t =>
      obtain ⟨_, pte, hc⟩ := tag_of_table hρ.toTagged hd ht
      simp only [Option.map_some, ensures_bind, ensures_tabAt hc, ensures_setContent]
      obtain ⟨hent, htabs⟩ := entry_setPte (v := g.guard)
        (o := (pte (ptx g.guard)).map fun e => { e with user := false }) hρ.toTagged hd ht hc
      have hρ' := hρ.setPte (o := (pte (ptx g.guard)).map fun e => { e with user := false }) hd ht hc
        (fun _ => by rw [Option.map_map]; rfl) pdx_not_lt
      refine ⟨rfl, ⟨ρ, hρ', hd⟩, ?_, ?_, ?_⟩
      · rintro v ⟨hv, hne⟩
        obtain ⟨e, he, hu⟩ := hS.user v hv
        exact ⟨e, by rw [hent, upd_of_ne hne, he], hu, hS.valid hv he⟩
      · intro v e hv he
        rw [hent] at he
        by_cases hvv : v = g.guard
        · rw [hvv, upd_self] at he
          obtain ⟨e', _, rfl⟩ := Option.map_eq_some_iff.mp he
          rfl
        · rw [upd_of_ne hvv, hS.other v fun hm => hv ⟨hm, hvv⟩] at he
          exact kernelPte_user he
      · rw [← hS.tables]
        funext i
        simp only [Vm.tables, htabs]

/-- The image with two more pages, from the next page boundary. -/
def Image.stack (A : Allocator κ) (g : Image κ) : Option (Image κ) :=
  Image.grow A { g with sz := pgup g.sz * PGSIZE } (pgup g.sz * PGSIZE + 2 * PGSIZE)

/-- If there is memory for a stack, then a page table for its guard page, and no
copy faults. -/
def StackOk (A : Allocator κ) (c : Current) (argv : List Nat) (g : Image κ) : Prop :=
  ∀ g', g.stack A = some g' → g'.tab (pdx g'.guard) = true ∧ ArgsOk (place c g') argv 0 g'.sz

/-- **The stack and the arguments.** -/
theorem finish_spec {argv : List Nat} (hE : Exact L) (hks : KmapOk c.kmap) (hdir : Direct A c)
    (hS : Shape L c.kmap d g h) :
    Ensures (finish A c argv d g.sz) h (fun _ => ¬ StackOk A c argv g) fun _ h' =>
      StackOk A c argv g ∧ ∃ ρ, Sharp L ρ h' ∧ ρ d = .dir := by
  unfold finish userStack StackOk Image.stack
  simp only [ensures_bind]
  generalize pgup g.sz * PGSIZE + 2 * PGSIZE = newsz
  refine (hS.roundUp.grow hE hks newsz).imp (fun _ => False.elim) fun r h1 hr => ?_
  cases hg : Image.grow A { g with sz := pgup g.sz * PGSIZE } newsz with
  | none =>
      rw [hg] at hr
      obtain ⟨hr, htag⟩ := hr
      simp only [hr, if_true, ensures_pure]
      exact ⟨by simp, htag⟩
  | some g' =>
      rw [hg] at hr
      obtain ⟨rfl, h0, hS1⟩ := hr
      simp only [h0, if_false, ensures_bind, Option.some_inj, forall_eq']
      refine (clearpteu_spec hS1).imp (fun e he hok => Bool.false_ne_true (he.symm.trans hok.1))
        fun _ h2 hr => ?_
      obtain ⟨htab, hS2⟩ := hr
      simp only [htab, true_and, ensures_pure, h0, if_false, ensures_bind]
      refine (pushArgs_spec hS2 hdir).next fun r h3 hr => ?_
      obtain ⟨rfl, hnone, hsome⟩ := hr
      cases r with
      | none => exact ⟨hnone rfl, hS2.sharp⟩
      | some sp =>
          rw [hsome sp rfl, Nat.zero_add]
          have hva : ustack sp ((3 + argv.length + 1) * 4) < 2 ^ 32 := Nat.mod_lt _ (by decide)
          refine (copyLoopOut_spec hS2 hdir hva (Nat.le_refl _)).imp (fun _ he hok => hok he)
            fun r h4 hr => ?_
          obtain ⟨rfl, hno, _⟩ := hr
          exact ⟨hno, hS2.sharp⟩

end Xv6.Exec
