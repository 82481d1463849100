import Xv6.Exec.Model
import Xv6.Vm.Alloc
import Xv6.Vm.Kernel

/-!
# Exec — the image under construction

`exec` makes a directory with `setupkvm` and calls `allocuvm` for each
segment and for the stack. What the directory then maps is told by the
answers of `kalloc`: an `Image` follows them, and has the pages below its
size that are not mapped because no page table could be made for them.
-/

namespace Xv6.Exec

open Lib Vm

variable {κ : Type} {A : Allocator κ} {L : Lawful A} {ks : List Kmap} {d : Page} {h h' : Heap κ}

/-! ## What is mapped -/

structure Image (κ : Type) where
  sz : Nat
  /-- The pages for which no page table could be made. -/
  lost : List Nat
  /-- Which page tables the directory has, and the allocator. -/
  tab : Nat → Bool
  kmem : κ

/-- The pages that `allocuvm` mapped. -/
def Image.Maps (g : Image κ) (v : Nat) : Prop := v < pgup g.sz ∧ v ∉ g.lost

instance (g : Image κ) (v : Nat) : Decidable (g.Maps v) := inferInstanceAs (Decidable (_ ∧ _))

/-- The new directory, if the requests of `setupkvm` are served. -/
def Image.new (A : Allocator κ) (ks : List Kmap) (k : κ) : Option (Image κ) :=
  match ask A (setupUses ks) k with
  | (none, k) => some ⟨0, [], kernelTabs ks fun _ => false, k⟩
  | (some _, _) => none

/-- The image after `allocuvm`; `none` where that returns 0. -/
def Image.grow (A : Allocator κ) (g : Image κ) (newsz : Nat) : Option (Image κ) :=
  if KERNBASE ≤ newsz then none
  else if newsz < g.sz then some g
  else
    let s := serve A (pgup newsz - pgup g.sz) (pgup g.sz) g.tab g.kmem
    if s.short = true ∨ newsz = 0 then none else some ⟨newsz, s.lost ++ g.lost, s.tab, s.kmem⟩

/-- The directory `d` is as the image says. -/
structure Shape (L : Lawful A) (ks : List Kmap) (d : Page) (g : Image κ) (h : Heap κ) : Prop where
  sharp : ∃ ρ, Sharp L ρ h ∧ ρ d = .dir
  le : g.sz ≤ KERNBASE
  lost : ∀ v ∈ g.lost, v < pgup g.sz
  user : ∀ v, g.Maps v → ∃ e, entry h d v = some e ∧ e.user = true
  other : ∀ v, ¬ g.Maps v → entry h d v = kernelPte ks v
  tables : tables h d = g.tab
  kmem : h.kmem = g.kmem

theorem kernelPte_user {v : Nat} {e : Pte} (he : kernelPte ks v = some e) : e.user = false := by
  obtain ⟨k, _, hk⟩ := List.exists_of_findSome?_eq_some he
  unfold Kmap.pte at hk
  split at hk
  · cases hk
    rfl
  · cases hk

namespace Shape

variable {g : Image κ}

theorem low (hS : Shape L ks d g h) {v : Nat} (hv : g.Maps v) : v < KERNPAGE :=
  Nat.lt_of_lt_of_le hv.1 (pgup_le hS.le)

/-- The pages of the image are the allocator's. -/
theorem valid (hS : Shape L ks d g h) {v : Nat} {e : Pte} (hv : g.Maps v)
    (he : entry h d v = some e) : A.valid e.page = true := by
  obtain ⟨ρ, hρ, hd⟩ := hS.sharp
  have htag := tag_of_entry hρ.toTagged hd (hS.low hv) he
  exact hρ.range e.page (by simp [htag])

/-- A heap with the same pages and allocator. -/
theorem congr (hS : Shape L ks d g h) (hc : h'.content = h.content) (hk : h'.kmem = h.kmem) :
    Shape L ks d g h' := by
  obtain ⟨ρ, hρ, hd⟩ := hS.sharp
  obtain ⟨htab, hent⟩ := read_content hc d
  have hent' : ∀ d, entry h' d = entry h d := fun d => (read_content hc d).2
  refine ⟨⟨ρ, ⟨⟨hk ▸ hρ.ok, hk ▸ hρ.free, hρ.range, hc ▸ hρ.dir, hc ▸ hρ.tab⟩, hk ▸ hρ.isFree, ?_,
    hρ.index⟩, hd⟩, hS.le, hS.lost, ?_, ?_, ?_, hk.trans hS.kmem⟩
  · intro x d i j hx
    rw [hent']
    exact hρ.mapped x d i j hx
  · rw [hent]
    exact hS.user
  · rw [hent]
    exact hS.other
  · rw [← hS.tables]
    funext i
    simp only [Vm.tables, htab]

/-- The size may be rounded up. -/
theorem roundUp (hS : Shape L ks d g h) : Shape L ks d { g with sz := pgup g.sz * PGSIZE } h := by
  have hup : pgup (pgup g.sz * PGSIZE) = pgup g.sz := by
    unfold pgup PGSIZE
    omega
  have hmaps : ∀ v, Image.Maps { g with sz := pgup g.sz * PGSIZE } v ↔ g.Maps v := by
    intro v
    show v < pgup (pgup g.sz * PGSIZE) ∧ v ∉ g.lost ↔ _
    rw [hup]
    rfl
  refine ⟨hS.sharp, Nat.mul_le_mul_right PGSIZE (pgup_le hS.le), fun v hv => ?_,
    fun v hv => hS.user v ((hmaps v).mp hv), fun v hv => hS.other v (hv ∘ (hmaps v).mpr),
    hS.tables, hS.kmem⟩
  show v < pgup (pgup g.sz * PGSIZE)
  rw [hup]
  exact hS.lost v hv

/-- **`setupkvm`** makes an image without user pages, or none. -/
theorem new {ρ : Page → Tag} (hE : Exact L) (hks : KmapOk ks) (hρ : Sharp L ρ h) :
    Ensures (setupkvm A ks) h (fun _ => False) fun r h' =>
      match Image.new A ks h.kmem with
      | none => r = none
      | some g => ∃ d, r = some d ∧ g.sz = 0 ∧ Shape L ks d g h' := by
  refine (setupkvm_made hE hρ hks).next fun r h' hr => ?_
  obtain ⟨hkmem, hr⟩ := hr
  rw [Image.new]
  rcases hask : ask A (setupUses ks) h.kmem with ⟨_ | u, k⟩
  · rw [hask] at hkmem hr
    rcases hr with ⟨hu, _⟩ | ⟨d, ρ', hM, _, ⟨hu, _⟩ | ⟨_, rfl, htab, hent⟩⟩
    · cases hu
    · cases hu
    · have hnone : pgup 0 = 0 := rfl
      exact ⟨d, rfl, rfl, ⟨ρ', hM.sharp, hM.dir⟩, Nat.zero_le _, by simp,
        fun v hv => absurd (hnone ▸ hv.1) (Nat.not_lt_zero v), fun v _ => by rw [hent],
        htab, hkmem⟩
  · rw [hask] at hr
    rcases hr with ⟨_, hr, _⟩ | ⟨d, ρ', _, _, ⟨_, hr⟩ | ⟨hu, _⟩⟩
    · exact hr
    · exact hr
    · cases hu

/-- The pages after all of a call of `allocuvm`. -/
theorem grown {ρ ρ' : Page → Tag} {newsz : Nat} (hS : Shape L ks d g h) (hd : ρ d = .dir)
    (hle : g.sz ≤ newsz) (hnew : newsz < KERNBASE) (hs : (answers A d g.sz newsz h).short = false)
    (hG : Grown L d (pgup g.sz) (answers A d g.sz newsz h) ρ h ρ' h') :
    Shape L ks d ⟨newsz, (answers A d g.sz newsz h).lost ++ g.lost,
      (answers A d g.sz newsz h).tab, (answers A d g.sz newsz h).kmem⟩ h' := by
  have hpg := pgup_mono hle
  have hcount : (answers A d g.sz newsz h).count = pgup newsz - pgup g.sz := serve_within.full hs
  have hlost : ∀ v ∈ (answers A d g.sz newsz h).lost, pgup g.sz ≤ v ∧ v < pgup newsz := fun _ =>
    answers_lost hle
  generalize answers A d g.sz newsz h = s at hG hcount hlost ⊢
  -- the pages of the old image, and those of the call
  have hmaps : ∀ v, Image.Maps ⟨newsz, s.lost ++ g.lost, s.tab, s.kmem⟩ v ↔
      g.Maps v ∨ s.Maps (pgup g.sz) v := by
    intro v
    have hold := hS.lost v
    have hnewl := hlost v
    simp only [Image.Maps, Served.Maps, List.mem_append, hcount]
    by_cases h1 : v ∈ s.lost
    · have := hnewl h1
      simp only [h1, true_or, not_true_eq_false, and_false, false_iff, or_false]
      rintro ⟨h2, _⟩
      omega
    · by_cases h2 : v ∈ g.lost
      · have := hold h2
        simp only [h1, h2, or_true, not_true_eq_false, and_false, false_or, false_iff]
        rintro ⟨h3, _⟩
        omega
      · simp only [h1, h2, or_self, not_false_eq_true, and_true]
        omega
  refine ⟨⟨ρ', hG.sharp, (hG.kept d (by simp [hd])).trans hd⟩, hnew.le, ?_, ?_, ?_, hG.tables,
    hG.kmem⟩
  · intro v hv
    rcases List.mem_append.mp hv with hv | hv
    · exact (hlost v hv).2
    · exact Nat.lt_of_lt_of_le (hS.lost v hv) hpg
  · intro v hv
    by_cases hmap : s.Maps (pgup g.sz) v
    · obtain ⟨m, he, _⟩ := hG.mapped v hmap
      exact ⟨_, he, rfl⟩
    · rw [hG.same v hmap]
      exact hS.user v (((hmaps v).mp hv).resolve_right hmap)
  · intro v hv
    rw [hmaps, not_or] at hv
    rw [hG.same v hv.2]
    exact hS.other v hv.1

/-- **`allocuvm`** for the image. -/
theorem grow (hE : Exact L) (hks : KmapOk ks) (hS : Shape L ks d g h) (newsz : Nat) :
    Ensures (allocuvm A d g.sz newsz) h (fun _ => False) fun r h' =>
      match g.grow A newsz with
      | none => r = 0 ∧ ∃ ρ, Sharp L ρ h' ∧ ρ d = .dir
      | some g' => r = g'.sz ∧ g'.sz ≠ 0 ∧ Shape L ks d g' h' := by
  obtain ⟨ρ, hρ, hd⟩ := hS.sharp
  unfold Image.grow
  by_cases hbig : KERNBASE ≤ newsz
  · rw [allocuvm, if_pos hbig, if_pos hbig]
    exact ⟨rfl, ρ, hρ, hd⟩
  by_cases hlt : newsz < g.sz
  · rw [allocuvm, if_neg hbig, if_pos hlt, if_neg hbig, if_pos hlt]
    exact ⟨rfl, by omega, hS⟩
  rw [if_neg hbig, if_neg hlt]
  have hle : g.sz ≤ newsz := Nat.le_of_not_lt hlt
  have hnew : newsz < KERNBASE := Nat.lt_of_not_le hbig
  have hfree : ∀ v, pgup g.sz ≤ v → v < pgup newsz → entry h d v = none := by
    intro v hlo hhi
    rw [hS.other v fun hv => absurd hv.1 (Nat.not_lt.mpr hlo)]
    exact hks.kernelPte_low (Nat.lt_of_lt_of_le hhi (pgup_le hnew.le))
  have hans : serve A (pgup newsz - pgup g.sz) (pgup g.sz) g.tab g.kmem =
      answers A d g.sz newsz h := by
    rw [answers, hS.tables, hS.kmem]
  rw [hans]
  refine (allocuvm_grown hE hρ hd hle hnew hfree).next fun r h' hr => ?_
  obtain ⟨ρ₁, h₁, hG, hfull, hshort⟩ := hr
  have hd1 : ρ₁ d = .dir := (hG.kept d (by simp [hd])).trans hd
  by_cases hs : (answers A d g.sz newsz h).short = true
  · obtain ⟨hr, _, ρ', hF⟩ := hshort hs
    rw [if_pos (.inl hs)]
    refine ⟨hr, ρ', hF.sharp, (hF.kept d fun v e hv he => ?_).trans hd1⟩
    have hv : v < KERNPAGE := Nat.lt_of_lt_of_le hv.2.1 (pgup_le hnew.le)
    have htag := tag_of_entry hG.sharp.toTagged hd1 hv he
    exact ne_of_tag (ρ := ρ₁) (by simp [htag, hd1])
  · have hs' : (answers A d g.sz newsz h).short = false := by simpa using hs
    obtain ⟨hr, hh⟩ := hfull hs'
    rw [hr, hh]
    by_cases h0 : newsz = 0
    · rw [if_pos (.inr h0)]
      exact ⟨h0, ρ₁, hG.sharp, hd1⟩
    · rw [if_neg (by simp [hs', h0])]
      exact ⟨rfl, h0, hS.grown hd hle hnew hs' hG⟩

end Shape

/-! ## The log -/

/-- A program that does not load leaves the log as it is. -/
def KeepsLog {κ α : Type} (m : KernM κ α) : Prop :=
  ∀ h, Ensures m h (fun e => e.2.log = h.log) fun _ h' => h'.log = h.log

section Log

variable {κ α β : Type} {A : Allocator κ}

theorem KeepsLog.pure (a : α) : KeepsLog (pure a : KernM κ α) := fun _ => rfl

theorem KeepsLog.bind {m : KernM κ α} {f : α → KernM κ β} (hm : KeepsLog m)
    (hf : ∀ a, KeepsLog (f a)) : KeepsLog (m >>= f) := by
  intro h
  rw [ensures_bind]
  refine (hm h).next fun a h' hh' => ?_
  exact (hf a h').imp (fun e he => he.trans hh') fun _ _ hr => hr.trans hh'

theorem keepsLog_kfree (x : Page) : KeepsLog (kfree A x) := by
  intro h
  unfold kfree
  split <;> rfl

theorem keepsLog_kalloc (u : Use) : KeepsLog (kalloc A u) := fun _ => rfl

theorem keepsLog_setContent (x : Page) (c : Content) : KeepsLog (κ := κ) (setContent x c) :=
  fun _ => rfl

theorem keepsLog_dirAt (d : Page) : KeepsLog (κ := κ) (dirAt d) := by
  intro h
  simp only [dirAt, ensures_bind, ensures_get]
  split <;> rfl

theorem keepsLog_tabAt (t : Page) : KeepsLog (κ := κ) (tabAt t) := by
  intro h
  simp only [tabAt, ensures_bind, ensures_get]
  split <;> rfl

theorem keepsLog_walkpgdir (d : Page) (v : Nat) (alloc : Bool) :
    KeepsLog (walkpgdir A d v alloc) := by
  refine (keepsLog_dirAt d).bind fun pde => ?_
  cases pde (pdx v) with
  | some t => exact .pure _
  | none =>
      cases alloc with
      | false => exact .pure _
      | true =>
          refine (keepsLog_kalloc .table).bind fun r => ?_
          cases r with
          | none => exact .pure _
          | some t =>
              exact (keepsLog_setContent _ _).bind fun _ =>
                (keepsLog_setContent _ _).bind fun _ => .pure _

theorem keepsLog_deallocLoop (d : Page) (top fuel v : Nat) :
    KeepsLog (deallocLoop A d top fuel v) := by
  induction fuel generalizing v with
  | zero => exact .pure _
  | succ fuel ih =>
      unfold deallocLoop
      by_cases hv : v < top
      · rw [if_pos hv]
        refine (keepsLog_walkpgdir _ _ _).bind fun r => ?_
        rcases r with _ | ⟨t, j⟩
        · exact ih _
        · refine (keepsLog_tabAt t).bind fun pte => ?_
          cases pte j with
          | none => exact ih _
          | some e =>
              by_cases h0 : e.page = 0
              · simp only [h0, if_true]
                exact fun _ => rfl
              · simp only [h0, if_false]
                exact (keepsLog_kfree _).bind fun _ => (keepsLog_tabAt t).bind fun _ =>
                  (keepsLog_setContent _ _).bind fun _ => ih _
      · rw [if_neg hv]
        exact .pure _

theorem keepsLog_deallocuvm (d : Page) (oldsz newsz : Nat) :
    KeepsLog (deallocuvm A d oldsz newsz) := by
  unfold deallocuvm
  by_cases hsz : oldsz ≤ newsz
  · rw [if_pos hsz]
    exact .pure _
  · rw [if_neg hsz]
    exact (keepsLog_deallocLoop _ _ _ _).bind fun _ => .pure _

theorem keepsLog_freeTables (d : Page) (n i : Nat) : KeepsLog (freeTables A d n i) := by
  induction n generalizing i with
  | zero => exact .pure _
  | succ n ih =>
      refine (keepsLog_dirAt d).bind fun pde => ?_
      cases pde i with
      | none => exact ih _
      | some t => exact (keepsLog_kfree t).bind fun _ => ih _

theorem keepsLog_freevm (d : Page) : KeepsLog (freevm A d) :=
  (keepsLog_deallocuvm _ _ _).bind fun _ => (keepsLog_freeTables _ _ _).bind fun _ =>
    keepsLog_kfree _

theorem keepsLog_panic (msg : String) : KeepsLog (κ := κ) (α := α) (panic msg) := fun _ => rfl

theorem keepsLog_mappages (d : Page) (w u : Bool) (n v : Nat) (pa : Page) :
    KeepsLog (mappages A d w u n v pa) := by
  induction n generalizing v pa with
  | zero => exact .pure _
  | succ n ih =>
      refine (keepsLog_walkpgdir _ _ _).bind fun r => ?_
      rcases r with _ | ⟨t, j⟩
      · exact .pure _
      · refine (keepsLog_tabAt t).bind fun pte => ?_
        by_cases hj : (pte j).isSome = true
        · rw [if_pos hj]
          exact keepsLog_panic _
        · rw [if_neg hj]
          exact (keepsLog_setContent _ _).bind fun _ => ih _ _

theorem keepsLog_setupkvm (ks : List Kmap) : KeepsLog (setupkvm A ks) := by
  have hloop : ∀ d ks, KeepsLog (mapKernel A d ks) := by
    intro d ks
    induction ks with
    | nil => exact .pure _
    | cons k ks ih =>
        refine (keepsLog_mappages _ _ _ _ _ _).bind fun b => ?_
        cases b with
        | true => exact ih
        | false => exact .pure _
  refine (keepsLog_kalloc .dir).bind fun r => ?_
  cases r with
  | none => exact .pure _
  | some d =>
      refine (keepsLog_setContent _ _).bind fun _ => (hloop d ks).bind fun b => ?_
      cases b with
      | true => exact .pure _
      | false => exact .pure _

theorem keepsLog_allocuvm (d : Page) (oldsz newsz : Nat) : KeepsLog (allocuvm A d oldsz newsz) := by
  have hloop : ∀ n v, KeepsLog (allocLoop A d oldsz newsz n v) := by
    intro n
    induction n with
    | zero => exact fun _ => .pure _
    | succ n ih =>
        intro v
        refine (keepsLog_kalloc .page).bind fun r => ?_
        cases r with
        | none => exact (keepsLog_deallocuvm _ _ _).bind fun _ => .pure _
        | some m =>
            exact (keepsLog_setContent _ _).bind fun _ =>
              (keepsLog_mappages _ _ _ _ _ _).bind fun _ => ih _
  unfold allocuvm
  split
  · exact .pure _
  split
  · exact .pure _
  · exact hloop _ _

theorem keepsLog_clearpteu (d : Page) (v : Nat) : KeepsLog (clearpteu A d v) := by
  refine (keepsLog_walkpgdir _ _ _).bind fun r => ?_
  rcases r with _ | ⟨t, j⟩
  · exact keepsLog_panic _
  · exact (keepsLog_tabAt t).bind fun _ => keepsLog_setContent _ _

theorem keepsLog_uva2ka (c : Current) (d : Page) (v : Nat) : KeepsLog (uva2ka A c d v) := by
  refine (keepsLog_walkpgdir _ _ _).bind fun r => ?_
  rcases r with _ | ⟨t, j⟩
  · dsimp only
    split
    · exact .pure _
    · exact fun _ => rfl
  · exact (keepsLog_tabAt t).bind fun _ => .pure _

theorem keepsLog_copyout (c : Current) (d : Page) (va len : Nat) :
    KeepsLog (copyout A c d va len) := by
  have hloop : ∀ fuel va len, KeepsLog (copyLoopOut A c d fuel va len) := by
    intro fuel
    induction fuel with
    | zero => exact fun _ _ => .pure _
    | succ fuel ih =>
        intro va len
        unfold copyLoopOut
        split
        · refine (keepsLog_uva2ka _ _ _).bind fun r => ?_
          cases r with
          | none => exact .pure _
          | some x =>
              cases hst : c.storable x with
              | false => simp only [hst, if_true]; exact fun _ => rfl
              | true => simp only [hst, Bool.true_eq_false, if_false]; exact ih _ _
        · exact .pure _
  exact hloop len va len

end Log

end Xv6.Exec
