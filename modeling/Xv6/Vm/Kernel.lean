import Xv6.Vm.Map
import Xv6.Vm.Free

/-!
# Vm — `setupkvm`

A function of `vm.c` asks `kalloc` for one page after the other, and which
pages it asks for depends on the page tables that there are. `ask` finds
the first request that is refused. The pages that were handed out before
it belong to the directory, or they are lost.
-/

namespace Xv6.Vm

open Lib

variable {κ : Type} {A : Allocator κ} {L : Lawful A} {ρ ρ' ρ₁ : Page → Tag} {h h' h₁ : Heap κ}
  {d : Page} {v n : Nat} {tab : Nat → Bool}

/-! ## Requests -/

/-- The first request that is refused, and the allocator then. -/
def ask (A : Allocator κ) : List Use → κ → Option Use × κ
  | [], k => (none, k)
  | u :: us, k =>
      match A.kalloc u k with
      | (none, k) => (some u, k)
      | (some _, k) => ask A us k

theorem ask_append {us vs : List Use} {k : κ} : ask A (us ++ vs) k =
    if (ask A us k).1 = none then ask A vs (ask A us k).2 else ask A us k := by
  induction us generalizing k with
  | nil => rfl
  | cons u us ih =>
      rcases hk : A.kalloc u k with ⟨_ | x, k'⟩
      · simp [ask, hk]
      · simp only [List.cons_append, ask, hk]
        exact ih

theorem ask_mem {us : List Use} {k : κ} {u : Use} (h : (ask A us k).1 = some u) : u ∈ us := by
  induction us generalizing k with
  | nil => cases h
  | cons u' us ih =>
      rcases hk : A.kalloc u' k with ⟨_ | x, k'⟩
      · simp only [ask, hk, Option.some_inj] at h
        rw [h]
        exact List.mem_cons_self
      · simp only [ask, hk] at h
        exact List.mem_cons_of_mem _ (ih h)

/-- The request of `walkpgdir`, if there is no page table. -/
def tableUse (tab : Nat → Bool) (v : Nat) : List Use := if tab (pdx v) then [] else [.table]

/-- The requests of `mappages`. -/
def mapUses : Nat → Nat → (Nat → Bool) → List Use
  | 0, _, _ => []
  | n + 1, v, tab => tableUse tab v ++ mapUses n (v + 1) (upd tab (pdx v) true)

/-- The page tables after `mappages`. -/
def mapTabs : Nat → Nat → (Nat → Bool) → Nat → Bool
  | 0, _, tab => tab
  | n + 1, v, tab => mapTabs n (v + 1) (upd tab (pdx v) true)

/-- The requests of the loop of `setupkvm`, and the page tables after it. -/
def kernelUses : List Kmap → (Nat → Bool) → List Use
  | [], _ => []
  | k :: ks, tab => mapUses k.n k.virt tab ++ kernelUses ks (mapTabs k.n k.virt tab)

def kernelTabs : List Kmap → (Nat → Bool) → Nat → Bool
  | [], tab => tab
  | k :: ks, tab => kernelTabs ks (mapTabs k.n k.virt tab)

/-- The requests of `setupkvm`. -/
def setupUses (ks : List Kmap) : List Use := .dir :: kernelUses ks fun _ => false

theorem eq_table_of_mem_mapUses {u : Use} (hu : u ∈ mapUses n v tab) : u = .table := by
  induction n generalizing v tab with
  | zero => cases hu
  | succ n ih =>
      rcases List.mem_append.mp hu with hu | hu
      · unfold tableUse at hu
        split at hu
        · cases hu
        · exact List.mem_singleton.mp hu
      · exact ih hu

theorem eq_table_of_mem_kernelUses {ks : List Kmap} {u : Use} (hu : u ∈ kernelUses ks tab) :
    u = .table := by
  induction ks generalizing tab with
  | nil => cases hu
  | cons k ks ih =>
      rcases List.mem_append.mp hu with hu | hu
      · exact eq_table_of_mem_mapUses hu
      · exact ih hu

/-! ## A directory that grows -/

/-- From `h` to `h'` pages are taken from the free list for `d`, or lost. -/
structure Extends (L : Lawful A) (d : Page) (ρ : Page → Tag) (h : Heap κ) (ρ' : Page → Tag)
    (h' : Heap κ) : Prop where
  sharp : Sharp L ρ' h'
  kept : ∀ x, ρ x ≠ .free → ρ' x = ρ x
  content : ∀ x, ρ x ≠ .free → x ≠ d → (∀ i, ρ x ≠ .table d i) → h'.content x = h.content x
  taken : ∀ x, ρ x = .free → ρ' x = .free ∨ Owns ρ' d x ∨ ρ' x = .held

/-- A page is lost: it is not free any more, and nothing refers to it. -/
def Leaks (ρ ρ' : Page → Tag) : Prop := ∃ x, ρ x = .free ∧ ρ' x = .held

theorem Extends.refl (hS : Sharp L ρ h) : Extends L d ρ h ρ h where
  sharp := hS
  kept _ _ := rfl
  content _ _ _ _ := rfl
  taken _ hx := .inl hx

theorem not_leaks_refl (ρ : Page → Tag) : ¬ Leaks ρ ρ := by
  rintro ⟨x, h1, h2⟩
  rw [h1] at h2
  cases h2

theorem Extends.dir (hX : Extends L d ρ h ρ' h') {d' : Page} (hd : ρ d' = .dir) : ρ' d' = .dir :=
  (hX.kept d' (by simp [hd])).trans hd

/-- What is free later was free before. -/
theorem Extends.free (hX : Extends L d ρ h ρ' h') {x : Page} (hx : ρ' x = .free) : ρ x = .free := by
  by_contra hne
  rw [hX.kept x hne] at hx
  exact hne hx

theorem owns_congr {x : Page} (hx : ρ' x = ρ x) : Owns ρ' d x ↔ Owns ρ d x := by
  unfold Owns
  rw [hx]

theorem Owns.ne_free {x : Page} (hd : ρ d = .dir) (hx : Owns ρ d x) : ρ x ≠ .free := by
  rcases hx with rfl | ⟨i, hx⟩ | ⟨i, j, hx⟩
  · simp [hd]
  · simp [hx]
  · simp [hx]

theorem Extends.trans (hX : Extends L d ρ h ρ₁ h₁) (hX' : Extends L d ρ₁ h₁ ρ' h')
    (hd : ρ d = .dir) : Extends L d ρ h ρ' h' where
  sharp := hX'.sharp
  kept x hx := by
    have hx1 := hX.kept x hx
    rw [hX'.kept x (by rwa [hx1]), hx1]
  content x hx hxd hxt := by
    have hx1 := hX.kept x hx
    rw [hX'.content x (by rwa [hx1]) hxd (by rwa [hx1]), hX.content x hx hxd hxt]
  taken x hx := by
    rcases hX.taken x hx with hx1 | hx1 | hx1
    · exact hX'.taken x hx1
    · right; left
      rwa [owns_congr (hX'.kept x (hx1.ne_free (hX.dir hd)))]
    · right; right
      rw [hX'.kept x (by simp [hx1]), hx1]

/-- A page is lost where it is lost in one of the parts. -/
theorem Extends.leaks_trans (hX : Extends L d ρ h ρ₁ h₁) (hX' : Extends L d ρ₁ h₁ ρ' h') :
    Leaks ρ ρ' ↔ Leaks ρ ρ₁ ∨ Leaks ρ₁ ρ' := by
  constructor
  · rintro ⟨x, hx, hx'⟩
    by_cases hx1 : ρ₁ x = .free
    · exact .inr ⟨x, hx1, hx'⟩
    · rw [hX'.kept x hx1] at hx'
      exact .inl ⟨x, hx, hx'⟩
  · rintro (⟨x, hx, hx1⟩ | ⟨x, hx1, hx'⟩)
    · exact ⟨x, hx, by rw [hX'.kept x (by simp [hx1]), hx1]⟩
    · exact ⟨x, hX.free hx1, hx'⟩

/-- Another directory is as before. -/
theorem Extends.others {d' : Page} (hX : Extends L d ρ h ρ' h') (hS : Sharp L ρ h)
    (hd : ρ d = .dir) (hd' : ρ d' = .dir) (hne : d' ≠ d) :
    table h' d' = table h d' ∧ entry h' d' = entry h d' := by
  apply read_frame hS.toTagged hd'
  · exact hX.content d' (by simp [hd']) hne (by simp [hd'])
  · intro t i ht
    apply hX.content t (by simp [ht])
    · exact ne_of_tag (ρ := ρ) (by simp [hd, ht])
    · intro i' ht'
      rw [ht] at ht'
      cases ht'
      exact hne rfl

/-! ## The kernel's part -/

/-- What `mappages` has done for the kernel, with the requests `us`: the entries
are `ent` if it succeeds. -/
structure KernelMapped (L : Lawful A) (d : Page) (ent : Nat → Option Pte) (us : List Use)
    (tab : Nat → Bool) (ρ : Page → Tag) (h : Heap κ) (b : Bool) (ρ' : Page → Tag) (h' : Heap κ) :
    Prop where
  extend : Extends L d ρ h ρ' h'
  tight : ¬ Leaks ρ ρ'
  entries : b = true → entry h' d = ent
  result : (ask A us h.kmem).1 = none ↔ b = true
  kmem : h'.kmem = (ask A us h.kmem).2
  tables : b = true → tables h' d = tab

theorem KernelMapped.trans {ent ent' : Nat → Option Pte} {us us' : List Use} {tab' : Nat → Bool}
    {b : Bool} (hK : KernelMapped L d ent us tab ρ h true ρ₁ h₁) (hd : ρ d = .dir)
    (hK' : KernelMapped L d ent' us' tab' ρ₁ h₁ b ρ' h') :
    KernelMapped L d ent' (us ++ us') tab' ρ h b ρ' h' where
  extend := hK.extend.trans hK'.extend hd
  tight := by
    rw [hK.extend.leaks_trans hK'.extend]
    rintro (h | h)
    · exact hK.tight h
    · exact hK'.tight h
  entries := hK'.entries
  result := by
    rw [ask_append, if_pos (hK.result.mpr rfl), ← hK.kmem, hK'.result]
  kmem := by
    rw [ask_append, if_pos (hK.result.mpr rfl), ← hK.kmem, hK'.kmem]
  tables := hK'.tables

/-- The requests after the first one that is refused do not matter. -/
theorem KernelMapped.stop {ent ent' : Nat → Option Pte} {us us' : List Use} {tab' : Nat → Bool}
    (hK : KernelMapped L d ent us tab ρ h false ρ' h') :
    KernelMapped L d ent' (us ++ us') tab' ρ h false ρ' h' := by
  have hne : (ask A us h.kmem).1 ≠ none := fun hn => by
    have := hK.result.mp hn
    cases this
  refine ⟨hK.extend, hK.tight, by simp, ?_, ?_, by simp⟩
  · rw [ask_append, if_neg hne]
    exact hK.result
  · rw [ask_append, if_neg hne]
    exact hK.kmem

/-- **`walkpgdir`** finds a page table or makes one, unless its request is refused. -/
theorem walk_tabled (hE : Exact L) (hS : Sharp L ρ h) (hd : ρ d = .dir)
    (hv : pdx v < NPDENTRIES) :
    Ensures (walkpgdir A d v true) h (fun _ => False) fun r h' =>
      (∃ t ρ', r = some (t, ptx v) ∧ Tabled L d v t ρ h ρ' h' ∧
        ask A (tableUse (tables h d) v) h.kmem = (none, h'.kmem)) ∨
      (r = none ∧ ask A (tableUse (tables h d) v) h.kmem = (some .table, h'.kmem) ∧
        h'.content = h.content ∧ Sharp L ρ h') := by
  cases ht : table h d (pdx v) with
  | some t =>
      rw [ensures_walk_present hS hd ht]
      exact .inl ⟨t, ρ, rfl, .refl hS ht, by simp [tableUse, tables, ht, ask]⟩
  | none =>
      have huse : tableUse (tables h d) v = [.table] := by simp [tableUse, tables, ht]
      rcases hk : A.kalloc .table h.kmem with ⟨_ | t, k⟩
      · rw [ensures_walk_fail hS hd ht hk]
        exact .inr ⟨rfl, by simp [huse, ask, hk], rfl, hS.fail hE hk⟩
      · obtain ⟨pde, hc, _⟩ := hS.dir d hd
        have hi : pde (pdx v) = none := by rw [← table_of_dir hc, ht]
        obtain ⟨ρ', hT⟩ := Tabled.of_kalloc hE hS hd hc hi hv hk
        rw [ensures_walk_new hc hi hk]
        exact .inl ⟨t, ρ', rfl, hT, by simp [huse, ask, hk, Heap.addTable]⟩

/-- One page of the kernel's part, once there is a page table for it. -/
theorem KernelMapped.of_tabled {t : Page} {pte : Nat → Option Pte} {e : Pte} (hd : ρ d = .dir)
    (hv : KERNPAGE ≤ v) (hT : Tabled L d v t ρ h ρ' h') (hc : h'.content t = .tab pte)
    (hask : ask A (tableUse (Vm.tables h d) v) h.kmem = (none, h'.kmem)) :
    KernelMapped L d (upd (entry h d) v (some e)) (tableUse (Vm.tables h d) v)
      (upd (Vm.tables h d) (pdx v) true) ρ h true ρ' (h'.setEntry t pte (ptx v) e) := by
  have hd' : ρ' d = .dir := (hT.kept d (by simp [hd])).trans hd
  have ht : table h' d (pdx v) = some t := by rw [hT.table, upd_self]
  have htag := (tag_of_table hT.sharp.toTagged hd' ht).1
  have hhigh : ¬ pdx v < pdx KERNPAGE := Nat.not_lt.mpr (Nat.div_le_div_right hv)
  obtain ⟨hent, htab⟩ := entry_setPte (o := some e) hT.sharp.toTagged hd' ht hc
  refine ⟨⟨?_, hT.kept, ?_, ?_⟩, ?_, ?_, ?_, ?_, ?_⟩
  · exact hT.sharp.setPte hd' ht hc (fun hlt => absurd hlt (Nat.not_lt.mpr hv)) fun _ => hhigh
  · intro x hx hxd hxt
    have hxt' : x ≠ t := by
      rintro rfl
      rw [hT.kept x hx] at htag
      exact hxt _ htag
    simp only [Heap.setEntry, upd_of_ne hxt', hT.content x hx hxd]
  · intro x hx
    rcases hT.taken x hx with hx' | hx'
    · exact .inl hx'
    · exact .inr (.inl (.inr (.inl ⟨_, hx'⟩)))
  · rintro ⟨x, hx, hx'⟩
    rcases hT.taken x hx with h | h <;> rw [hx'] at h <;> cases h
  · intro _
    rw [Heap.setEntry, hent, hT.entry]
  · rw [hask]
    simp
  · rw [hask]
    rfl
  · intro _
    funext i
    show (table (h'.setEntry t pte (ptx v) e) d i).isSome = _
    rw [Heap.setEntry, htab, hT.table]
    by_cases hi : i = pdx v
    · rw [hi, upd_self, upd_self]
      rfl
    · rw [upd_of_ne hi, upd_of_ne hi]
      rfl

theorem KernelMapped.nothing (hS : Sharp L ρ h) :
    KernelMapped L d (entry h d) [] (Vm.tables h d) ρ h true ρ h where
  extend := .refl hS
  tight := not_leaks_refl ρ
  entries _ := rfl
  result := iff_of_true rfl rfl
  kmem := rfl
  tables _ := rfl

/-- The entries after `mappages`: those of the mapping `k`, and the others. -/
def Kmap.over (k : Kmap) (ent : Nat → Option Pte) (x : Nat) : Option Pte := (k.pte x).or (ent x)

theorem Kmap.pte_of_not {k : Kmap} {x : Nat} (hx : ¬ (k.virt ≤ x ∧ x < k.virt + k.n)) :
    k.pte x = none := if_neg hx

theorem Kmap.over_succ {virt phys n : Nat} {w : Bool} {ent : Nat → Option Pte} :
    Kmap.over ⟨virt, phys, n + 1, w⟩ ent =
      Kmap.over ⟨virt + 1, phys + 1, n, w⟩ (upd ent virt (some ⟨phys, w, false⟩)) := by
  funext x
  unfold Kmap.over Kmap.pte
  dsimp only
  by_cases hx : x = virt
  · rw [if_pos (by omega), if_neg (by omega), hx, upd_self, Nat.sub_self]
    rfl
  · rw [upd_of_ne hx]
    by_cases hin : virt + 1 ≤ x ∧ x < virt + 1 + n
    · rw [if_pos (by omega), if_pos hin, show phys + 1 + (x - (virt + 1)) = phys + (x - virt) by omega]
    · rw [if_neg (by omega), if_neg hin]

/-- **`mappages` for the kernel**: it fails where a request for a page table is
refused. -/
theorem mappages_mapped {w : Bool} {pa : Page} (hE : Exact L) (hS : Sharp L ρ h)
    (hd : ρ d = .dir) (hv : KERNPAGE ≤ v) (htop : v + n ≤ NPDENTRIES * NPTENTRIES)
    (hnone : ∀ x, v ≤ x → x < v + n → entry h d x = none) :
    Ensures (mappages A d w false n v pa) h (fun _ => False) fun b h' => ∃ ρ',
      KernelMapped L d (Kmap.over ⟨v, pa, n, w⟩ (entry h d)) (mapUses n v (tables h d))
        (mapTabs n v (tables h d)) ρ h b ρ' h' := by
  induction n generalizing v pa ρ h with
  | zero =>
      have hover : Kmap.over ⟨v, pa, 0, w⟩ (entry h d) = entry h d := by
        funext x
        rw [Kmap.over, Kmap.pte_of_not (by dsimp only; omega)]
        rfl
      rw [hover]
      exact ⟨ρ, .nothing hS⟩
  | succ n ih =>
      have hpdx : pdx v < NPDENTRIES := by
        unfold pdx
        exact Nat.div_lt_of_lt_mul (by rw [Nat.mul_comm]; omega)
      simp only [mappages, ensures_bind]
      refine (walk_tabled hE hS hd hpdx).imp (fun _ => False.elim) ?_
      rintro r h1 (⟨t, ρ1, rfl, hT, hask⟩ | ⟨rfl, hask, hc, hS1⟩)
      · have hd1 : ρ1 d = .dir := (hT.kept d (by simp [hd])).trans hd
        have ht : table h1 d (pdx v) = some t := by rw [hT.table, upd_self]
        obtain ⟨_, pte, hc⟩ := tag_of_table hT.sharp.toTagged hd1 ht
        have hpte : pte (ptx v) = none := by
          rw [← entry_of_tab ht hc, hT.entry]
          exact hnone v (Nat.le_refl v) (by omega)
        have hK := KernelMapped.of_tabled (e := ⟨pa, w, false⟩) hd hv hT hc hask
        simp only [ensures_bind, ensures_tabAt hc, hpte, Option.isSome_none, Bool.false_eq_true,
          if_false, ensures_setContent]
        have hnone2 : ∀ x, v + 1 ≤ x → x < v + 1 + n →
            entry (h1.setEntry t pte (ptx v) ⟨pa, w, false⟩) d x = none := by
          intro x h1 h2
          rw [hK.entries rfl, upd_of_ne (by omega)]
          exact hnone x (by omega) (by omega)
        refine (ih hK.extend.sharp (hK.extend.dir hd) (by omega) (by omega) hnone2).next ?_
        rintro b h' ⟨ρ', hK'⟩
        rw [hK.tables rfl, hK.entries rfl, ← Kmap.over_succ] at hK'
        exact ⟨ρ', hK.trans hd hK'⟩
      · -- the request for the page table is refused
        refine ⟨ρ, ⟨⟨hS1, fun _ _ => rfl, fun _ _ _ _ => by rw [hc], fun _ hx => .inl hx⟩,
          not_leaks_refl ρ, by simp, ?_, ?_, by simp⟩⟩
        · rw [mapUses, ask_append, hask]
          simp
        · rw [mapUses, ask_append, hask]
          simp

/-- The mappings of the kernel lie above the user's, one after the other. -/
structure KmapOk (ks : List Kmap) : Prop where
  high : ∀ k ∈ ks, KERNPAGE ≤ k.virt
  fits : ∀ k ∈ ks, k.virt + k.n ≤ NPDENTRIES * NPTENTRIES
  apart : ks.Pairwise fun k k' => k.virt + k.n ≤ k'.virt

/-- So do those of `kmap[]`. -/
theorem kmapOk_kmap {data : Nat} (hlow : 256 ≤ data) (hhigh : data ≤ PHYSTOP) :
    KmapOk (kmap data) where
  high := by
    simp only [kmap, List.forall_mem_cons, List.not_mem_nil, false_implies, implies_true, and_true]
    exact ⟨Nat.le_refl _, Nat.le_add_right _ _, Nat.le_add_right _ _, by decide⟩
  fits := by
    simp only [kmap, List.forall_mem_cons, List.not_mem_nil, false_implies, implies_true, and_true]
    unfold KERNPAGE KERNBASE PGSIZE NPDENTRIES NPTENTRIES PHYSTOP at *
    omega
  apart := by
    simp only [kmap, List.pairwise_cons, List.forall_mem_cons, List.not_mem_nil, false_implies,
      implies_true, and_true, List.Pairwise.nil]
    unfold KERNPAGE KERNBASE PGSIZE PHYSTOP at *
    omega

theorem kernelPte_cons (k : Kmap) (ks : List Kmap) (x : Nat) :
    kernelPte (k :: ks) x = (k.pte x).or (kernelPte ks x) := by
  rw [kernelPte, List.findSome?_cons]
  cases k.pte x with
  | none => rfl
  | some e => rfl

theorem kernelPte_eq_none {ks : List Kmap} {x : Nat}
    (hx : ∀ k ∈ ks, ¬ (k.virt ≤ x ∧ x < k.virt + k.n)) : kernelPte ks x = none :=
  List.findSome?_eq_none_iff.mpr fun k hk => Kmap.pte_of_not (hx k hk)

theorem KmapOk.kernelPte_low {ks : List Kmap} (hks : KmapOk ks) (hv : v < KERNPAGE) :
    kernelPte ks v = none :=
  kernelPte_eq_none fun k hk hin => by
    have := hks.high k hk
    omega

/-- The loop of `setupkvm`. -/
theorem mapKernel_mapped {ks : List Kmap} (hE : Exact L) (hS : Sharp L ρ h) (hd : ρ d = .dir)
    (hks : KmapOk ks) (hnone : ∀ k ∈ ks, ∀ x, k.virt ≤ x → x < k.virt + k.n → entry h d x = none) :
    Ensures (mapKernel A d ks) h (fun _ => False) fun b h' => ∃ ρ',
      KernelMapped L d (fun x => (kernelPte ks x).or (entry h d x))
        (kernelUses ks (tables h d)) (kernelTabs ks (tables h d)) ρ h b ρ' h' := by
  induction ks generalizing ρ h with
  | nil => exact ⟨ρ, .nothing hS⟩
  | cons k ks ih =>
      obtain ⟨hhigh, hhighs⟩ := List.forall_mem_cons.mp hks.high
      obtain ⟨hfit, hfits⟩ := List.forall_mem_cons.mp hks.fits
      obtain ⟨hapart, haparts⟩ := List.pairwise_cons.mp hks.apart
      obtain ⟨hnone1, hnones⟩ := List.forall_mem_cons.mp hnone
      simp only [mapKernel, ensures_bind]
      refine (mappages_mapped hE hS hd hhigh hfit hnone1).next ?_
      rintro b h1 ⟨ρ1, hK⟩
      cases b with
      | false =>
          simp only [Bool.false_eq_true, if_false, ensures_pure]
          exact ⟨ρ1, hK.stop⟩
      | true =>
          simp only [if_true]
          have hnone2 : ∀ k' ∈ ks, ∀ x, k'.virt ≤ x → x < k'.virt + k'.n → entry h1 d x = none := by
            intro k' hk' x h1 h2
            have := hapart k' hk'
            rw [hK.entries rfl, Kmap.over, Kmap.pte_of_not (by dsimp only; omega)]
            exact hnones k' hk' x h1 h2
          refine (ih hK.extend.sharp (hK.extend.dir hd) ⟨hhighs, hfits, haparts⟩ hnone2).next ?_
          rintro b h' ⟨ρ', hK'⟩
          rw [hK.tables rfl, hK.entries rfl] at hK'
          have hent : (fun x => (kernelPte ks x).or (k.over (entry h d) x)) =
              fun x => (kernelPte (k :: ks) x).or (entry h d x) := by
            funext x
            rw [Kmap.over, kernelPte_cons]
            by_cases hx : k.virt ≤ x ∧ x < k.virt + k.n
            · -- the mappings do not overlap
              rw [kernelPte_eq_none fun k' hk' hin => by have := hapart k' hk'; omega]
              simp
            · rw [Kmap.pte_of_not hx]
              rfl
          rw [← hent]
          exact ⟨ρ', hK.trans hd hK'⟩

/-! ## A new directory -/

/-- From `h` to `h'` the directory `d` is made of free pages. -/
structure Made (L : Lawful A) (d : Page) (ρ : Page → Tag) (h : Heap κ) (ρ' : Page → Tag)
    (h' : Heap κ) : Prop where
  sharp : Sharp L ρ' h'
  free : ρ d = .free
  dir : ρ' d = .dir
  kept : ∀ x, ρ x ≠ .free → ρ' x = ρ x
  content : ∀ x, ρ x ≠ .free → h'.content x = h.content x
  taken : ∀ x, ρ x = .free → ρ' x = .free ∨ Owns ρ' d x ∨ ρ' x = .held

/-- A page that is held becomes an empty directory. -/
theorem Sharp.newDir {x : Page} (hS : Sharp L ρ h) (hx : ρ x = .held) (hr : A.valid x = true)
    (hc : h.content x = .dir fun _ => none) : Sharp L (upd ρ x .dir) h where
  toTagged := hS.toTagged.retag (hS.toTagged.loose_of_held hx) (by simp [hx]) .dir (fun _ => hr)
    (fun _ => hc) (by simp)
  isFree y hy := hS.isFree y (of_upd_eq hy (by simp)).2
  mapped y d' i j hy := by
    obtain ⟨hd', hmap⟩ := hS.mapped y d' i j (of_upd_eq hy (by simp)).2
    have hdx : d' ≠ x := ne_of_tag (ρ := ρ) (by simp [hd', hx])
    exact ⟨by rw [upd_of_ne hdx, hd'], hmap⟩
  index t d' i ht := hS.index t d' i (of_upd_eq ht (by simp)).2

/-- What a free page was used for is nobody's. -/
theorem Sharp.not_owns {x : Page} (hS : Sharp L ρ h) (hd : ρ d = .free) (hx : ρ x ≠ .free) :
    ¬ Owns ρ d x := by
  rintro (rfl | ⟨i, h⟩ | ⟨i, j, h⟩)
  · exact hx hd
  · have := (hS.tab x d i h).1.1
    rw [hd] at this
    cases this
  · have := (hS.mapped x d i j h).1
    rw [hd] at this
    cases this

/-- The directory that was just made, and what it then gets. -/
theorem Made.of_extends {k : κ} (hS : Sharp L ρ h) (hfree : ρ d = .free)
    (hX : Extends L d (upd ρ d .dir)
      { h with content := upd h.content d (.dir fun _ => none), kmem := k } ρ' h') :
    Made L d ρ h ρ' h' where
  sharp := hX.sharp
  free := hfree
  dir := hX.dir (upd_self ..)
  kept x hx := by
    have hxd : x ≠ d := fun hxd => hx (hxd ▸ hfree)
    have hx1 : upd ρ d .dir x = ρ x := upd_of_ne hxd
    rw [hX.kept x (by rwa [hx1]), hx1]
  content x hx := by
    have hxd : x ≠ d := fun hxd => hx (hxd ▸ hfree)
    have hx1 : upd ρ d .dir x = ρ x := upd_of_ne hxd
    have hnot := hS.not_owns hfree hx
    rw [hX.content x (by rwa [hx1]) hxd fun i hi => hnot (.inr (.inl ⟨i, hx1 ▸ hi⟩))]
    exact upd_of_ne hxd
  taken x hx := by
    by_cases hxd : x = d
    · exact .inr (.inl (.inl hxd))
    · exact hX.taken x (by rw [upd_of_ne hxd, hx])

theorem Made.extend (hM : Made L d ρ h ρ₁ h₁) (hS : Sharp L ρ h)
    (hX : Extends L d ρ₁ h₁ ρ' h') : Made L d ρ h ρ' h' where
  sharp := hX.sharp
  free := hM.free
  dir := hX.dir hM.dir
  kept x hx := by
    have hx1 := hM.kept x hx
    rw [hX.kept x (by rwa [hx1]), hx1]
  content x hx := by
    have hx1 := hM.kept x hx
    have hnot := hS.not_owns hM.free hx
    rw [hX.content x (by rwa [hx1]) (fun h => hnot (.inl h))
      (fun i hi => hnot (.inr (.inl ⟨i, hx1 ▸ hi⟩))), hM.content x hx]
  taken x hx := by
    rcases hM.taken x hx with hx1 | hx1 | hx1
    · exact hX.taken x hx1
    · right; left
      rwa [owns_congr (hX.kept x (hx1.ne_free hM.dir))]
    · right; right
      rw [hX.kept x (by simp [hx1]), hx1]

/-- The other directories are as before. -/
theorem Made.others {d' : Page} (hM : Made L d ρ h ρ' h') (hS : Sharp L ρ h) (hd' : ρ d' = .dir) :
    table h' d' = table h d' ∧ entry h' d' = entry h d' := by
  apply read_frame hS.toTagged hd'
  · exact hM.content d' (by simp [hd'])
  · intro t i ht
    exact hM.content t (by simp [ht])

/-- **`setupkvm`**, by the answers of `kalloc`. -/
theorem setupkvm_made {ks : List Kmap} (hE : Exact L) (hS : Sharp L ρ h) (hks : KmapOk ks) :
    Ensures (setupkvm A ks) h (fun _ => False) fun r h' =>
      h'.kmem = (ask A (setupUses ks) h.kmem).2 ∧
      (((ask A (setupUses ks) h.kmem).1 = some .dir ∧ r = none ∧ Sharp L ρ h' ∧
          h'.content = h.content) ∨
        ∃ d ρ', Made L d ρ h ρ' h' ∧ ¬ Leaks ρ ρ' ∧
          ((ask A (setupUses ks) h.kmem).1 = some .table ∧ r = none ∨
            (ask A (setupUses ks) h.kmem).1 = none ∧ r = some d ∧
              tables h' d = kernelTabs ks (fun _ => false) ∧ entry h' d = kernelPte ks)) := by
  rw [setupkvm, ensures_bind]
  rcases hk : A.kalloc .dir h.kmem with ⟨_ | d, k⟩
  · have hask : ask A (setupUses ks) h.kmem = (some .dir, k) := by
      simp only [setupUses, ask, hk]
    rw [Ensures, kalloc, hk, hask]
    exact ⟨rfl, .inl ⟨rfl, rfl, hS.fail hE hk, rfl⟩⟩
  · have hask : ask A (setupUses ks) h.kmem = ask A (kernelUses ks fun _ => false) k := by
      simp only [setupUses, ask, hk]
    rw [Ensures, kalloc, hk, hask]
    simp only [ensures_bind, ensures_setContent]
    obtain ⟨hfree, hvalid, hS1⟩ := hS.take hE hk
    have hS2 := (hS1.setHeld (upd_self ..) (.dir fun _ => none)).newDir (upd_self ..) hvalid
      (upd_self ..)
    rw [upd_upd] at hS2
    have htable : ∀ i, table { h with content := upd h.content d (.dir fun _ => none), kmem := k }
        d i = none := by
      intro i
      rw [table_of_dir (upd_self ..)]
    have hnone : ∀ v, entry { h with content := upd h.content d (.dir fun _ => none), kmem := k }
        d v = none := fun v => entry_of_none (htable _)
    have htabs : tables { h with content := upd h.content d (.dir fun _ => none), kmem := k } d
        = fun _ => false := by
      funext i
      simp [tables, htable i]
    refine (mapKernel_mapped hE hS2 (upd_self ..) hks fun _ _ x _ _ => hnone x).next ?_
    rintro b h' ⟨ρ', hK⟩
    rw [htabs] at hK
    have hmade := Made.of_extends hS hfree hK.extend
    have htight : ¬ Leaks ρ ρ' := by
      rintro ⟨x, hx, hx'⟩
      by_cases hxd : x = d
      · rw [hxd, hmade.dir] at hx'
        cases hx'
      · exact hK.tight ⟨x, by rw [upd_of_ne hxd, hx], hx'⟩
    cases b with
    | false =>
        simp only [Bool.false_eq_true, if_false, ensures_pure]
        refine ⟨hK.kmem, .inr ⟨d, ρ', hmade, htight, .inl ⟨?_, trivial⟩⟩⟩
        -- all requests but the first are for page tables
        cases hu : (ask A (kernelUses ks fun _ => false) k).1 with
        | none =>
            have := hK.result.mp hu
            cases this
        | some u => rw [eq_table_of_mem_kernelUses (ask_mem hu)]
    | true =>
        simp only [if_true, ensures_pure]
        refine ⟨hK.kmem, .inr ⟨d, ρ', hmade, htight,
          .inr ⟨hK.result.mpr rfl, rfl, hK.tables rfl, ?_⟩⟩⟩
        rw [hK.entries rfl]
        funext v
        rw [hnone v, Option.or_none]

end Xv6.Vm
