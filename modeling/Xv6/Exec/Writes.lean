import Xv6.Exec.Segments

/-!
# Exec — which pages `loaduvm` writes

With the layout of `memlayout.h`, from every state of memory and for every
answer of `kalloc`: each page that `loaduvm` writes belongs to the image
exactly if no segment that `exec` gets to strays. A segment can stray in
two ways: its `vaddr + memsz` wraps around, so that it lies in the kernel's
part; or a page of it was lost, because `kalloc` had no page for its page
table, and the table was made for a later page.
-/

namespace Xv6.Exec

open Lib Vm

section Layout

variable {initcode : List UInt8} {data first : Nat}

theorem memlayout_kmap (hdata : 256 < data) (hfirst : data ≤ first) (hsplit : first ≤ 1024) :
    KmapOk (kmap data) := by
  refine kmapOk_kmap (Nat.le_of_lt hdata) ?_
  unfold PHYSTOP
  omega

/-- The pages of the allocator lie in the kernel's third mapping. -/
theorem memlayout_direct (hdata : 256 < data) (hfirst : data ≤ first) (hsplit : first ≤ 1024)
    (user : Nat → Bool) (word : Option Pte) :
    Direct (kmem (memlayout initcode data first hdata hfirst hsplit)) ⟨kmap data, user, word⟩ := by
  intro (x : Nat) hx
  obtain ⟨hlow, hhigh⟩ : first ≤ x ∧ x < 0xE000 := by
    obtain ⟨h1, h2⟩ := (Bool.and_eq_true ..).mp hx
    exact ⟨of_decide_eq_true h1, of_decide_eq_true h2⟩
  have hk : KERNPAGE = 524288 := by decide
  have hp : p2v x = KERNPAGE + x := by
    rw [p2v, hk]
    omega
  refine ⟨by omega, ?_⟩
  rw [Current.storable, hp, if_neg (by omega)]
  simp only [kmap, kernelPte_cons]
  rw [Kmap.pte_of_not (by dsimp only; omega), Kmap.pte_of_not (by dsimp only; omega), Kmap.pte,
    if_pos (by dsimp only [PHYSTOP]; omega)]
  rfl

theorem writes_own_iff {ρ : Page → Tag} {h : Heap Kmem} (hdata : 256 < data)
    (hfirst : data ≤ first) (hsplit : first ≤ 1024)
    (hρ : Sharp (lawful (memlayout initcode data first hdata hfirst hsplit)) ρ h)
    {user : Nat → Bool} {word : Option Pte} {ip : Reads} {stack : List UInt8} {argv : List Nat} :
    (∀ w ∈ writes (kmem (memlayout initcode data first hdata hfirst hsplit))
        ⟨kmap data, user, word⟩ ip stack argv h, Own w) ↔
      (∀ w ∈ h.log, Own w) ∧ Starts (kmem (memlayout initcode data first hdata hfirst hsplit))
        ⟨kmap data, user, word⟩ ip stack h.kmem
        (Contained (kmem (memlayout initcode data first hdata hfirst hsplit))
          ⟨kmap data, user, word⟩ ip) := by
  have hspec := exec_spec ip stack argv (exact_kmem _) (memlayout_kmap hdata hfirst hsplit)
    (memlayout_direct hdata hfirst hsplit user word) hρ
  unfold writes
  cases hr : exec (kmem (memlayout initcode data first hdata hfirst hsplit))
      ⟨kmap data, user, word⟩ ip stack argv h with
  | ok r => exact (hspec.of_ok hr).1
  | error e => exact (hspec.of_error hr).1

/-- **The writes of `loaduvm`**: `exec` writes only to pages of the image exactly
if no segment that it gets to strays. -/
theorem exec_writes_image_iff {ρ : Page → Tag} {h : Heap Kmem} (hdata : 256 < data)
    (hfirst : data ≤ first) (hsplit : first ≤ 1024)
    (hρ : Sharp (lawful (memlayout initcode data first hdata hfirst hsplit)) ρ h)
    (hlog : h.log = []) (user : Nat → Bool) (word : Option Pte) (ip : Reads) (stack : List UInt8)
    (argv : List Nat) :
    (∀ w ∈ writes (kmem (memlayout initcode data first hdata hfirst hsplit))
        ⟨kmap data, user, word⟩ ip stack argv h, Own w) ↔
      ∀ elf g, checkHeader ip stack = some elf →
        Image.new (kmem (memlayout initcode data first hdata hfirst hsplit)) (kmap data) h.kmem =
          some g →
        Contained (kmem (memlayout initcode data first hdata hfirst hsplit))
          ⟨kmap data, user, word⟩ ip elf elf.phnum 0 g := by
  rw [writes_own_iff hdata hfirst hsplit hρ]
  exact and_iff_right (by simp [hlog])

end Layout

/-! ## Enough memory -/

section Plenty

variable (cfg : Config) {n v : Nat} {tab : Nat → Bool} {k : Kmem}

/-- The free list has `m` pages, and `kalloc` refuses none. -/
def Plenty (k : Kmem) (m : Nat) : Prop := k.fails = [] ∧ m ≤ k.freelist.length

theorem Plenty.kalloc {m : Nat} (hk : Plenty k (m + 1)) (u : Use) :
    ∃ x k', (kmem cfg).kalloc u k = (some x, k') ∧ Plenty k' m := by
  obtain ⟨xs, fs⟩ := k
  obtain ⟨rfl : fs = [], hlen⟩ := hk
  cases xs with
  | nil => simp at hlen
  | cons x xs => exact ⟨x, ⟨xs, []⟩, rfl, rfl, Nat.le_of_succ_le_succ hlen⟩

theorem Plenty.ask {us : List Use} {m : Nat} (hk : Plenty k (m + us.length)) :
    ∃ k', Vm.ask (kmem cfg) us k = (none, k') ∧ Plenty k' m := by
  induction us generalizing k with
  | nil => exact ⟨k, rfl, hk⟩
  | cons u us ih =>
      obtain ⟨x, k', hx, hk'⟩ := hk.kalloc cfg u
      simp only [Vm.ask, hx]
      exact ih hk'

/-- Every page is mapped, and has a page table. -/
theorem Plenty.serve {m : Nat} (v : Nat) (tab : Nat → Bool) (hk : Plenty k (m + 2 * n)) :
    (Vm.serve (kmem cfg) n v tab k).short = false ∧ (Vm.serve (kmem cfg) n v tab k).lost = [] ∧
      Plenty (Vm.serve (kmem cfg) n v tab k).kmem m ∧
      ∀ w, v ≤ w → w < v + n → (Vm.serve (kmem cfg) n v tab k).tab (pdx w) = true := by
  induction n generalizing v tab k with
  | zero => exact ⟨rfl, rfl, hk, fun w h1 h2 => by omega⟩
  | succ n ih =>
      obtain ⟨x, k₁, hx, hk₁⟩ := (show Plenty k (m + 2 * n + 1 + 1) from hk).kalloc cfg .page
      -- the first page has a table from here on, and the others by induction
      have hrest : ∀ (s : Served Kmem), s.tab (pdx v) = true →
          (∀ w, v + 1 ≤ w → w < v + 1 + n → s.tab (pdx w) = true) →
          ∀ w, v ≤ w → w < v + (n + 1) → s.one.tab (pdx w) = true := by
        intro s hv hs w h1 h2
        rcases Nat.eq_or_lt_of_le h1 with rfl | hlt
        · exact hv
        · exact hs w hlt (by omega)
      cases ht : tab (pdx v) with
      | true =>
          obtain ⟨hs, hl, hk', htab⟩ := ih (v + 1) tab ⟨hk₁.1, by have := hk₁.2; omega⟩
          rw [serve_present hx ht]
          exact ⟨hs, hl, hk', hrest _ (serve_within.tab ht) htab⟩
      | false =>
          obtain ⟨t, k₂, ht', hk₂⟩ := hk₁.kalloc cfg .table
          obtain ⟨hs, hl, hk', htab⟩ := ih (v + 1) (upd tab (pdx v) true) hk₂
          rw [serve_new hx ht ht']
          exact ⟨hs, hl, hk', hrest _ (serve_within.tab (upd_self ..)) htab⟩

/-- The image grows without losing a page. -/
theorem Plenty.grow {g : Image Kmem} {newsz m : Nat}
    (hk : Plenty g.kmem (m + 2 * (pgup newsz - pgup g.sz))) (hlost : g.lost = [])
    (hle : g.sz ≤ newsz) (h0 : 0 < newsz) (hlt : newsz < KERNBASE) :
    ∃ g', g.grow (kmem cfg) newsz = some g' ∧ g'.sz = newsz ∧ g'.lost = [] ∧ Plenty g'.kmem m ∧
      (∀ i, g.tab i = true → g'.tab i = true) ∧
      ∀ w, pgup g.sz ≤ w → w < pgup newsz → g'.tab (pdx w) = true := by
  obtain ⟨hs, hl, hk', htab⟩ := hk.serve cfg (pgup g.sz) g.tab
  generalize hserve : Vm.serve (kmem cfg) (pgup newsz - pgup g.sz) (pgup g.sz) g.tab g.kmem = s at *
  refine ⟨⟨newsz, s.lost ++ g.lost, s.tab, s.kmem⟩, ?_, rfl, ?_, hk', fun i hi => ?_,
    fun w h1 h2 => htab w h1 (by omega)⟩
  · rw [Image.grow, if_neg (by omega), if_neg (by omega)]
    rw [hserve, if_neg (by simp [hs]; omega)]
  · show s.lost ++ g.lost = []
    rw [hl, hlost]
    rfl
  · rw [← hserve]
    exact serve_within.tab hi

/-- The page tables that `mappages` asks for. -/
theorem mapUses_length (n v : Nat) (tab : Nat → Bool) :
    (mapUses n v tab).length + (if tab (pdx v) then 1 else 0) ≤ pdx (v + n) - pdx v + 1 := by
  induction n generalizing v tab with
  | zero =>
      rw [mapUses, List.length_nil]
      split <;> omega
  | succ n ih =>
      have hrest := ih (v + 1) (upd tab (pdx v) true)
      have hfirst : (tableUse tab v).length + (if tab (pdx v) then 1 else 0) = 1 := by
        unfold tableUse
        split <;> rfl
      rw [mapUses, List.length_append, show v + (n + 1) = v + 1 + n by omega]
      by_cases hpdx : pdx (v + 1) = pdx v
      · rw [hpdx, upd_self, if_pos rfl] at hrest
        omega
      · have hle : pdx (v + 1) = pdx v + 1 ∧ pdx (v + 1) ≤ pdx (v + 1 + n) := by
          unfold pdx NPTENTRIES at *
          omega
        omega

theorem kernelUses_length (ks : List Kmap) (tab : Nat → Bool) : (kernelUses ks tab).length ≤
    (ks.map fun k => pdx (k.virt + k.n) - pdx k.virt + 1).sum := by
  induction ks generalizing tab with
  | nil => exact Nat.zero_le _
  | cons k ks ih =>
      rw [kernelUses, List.length_append, List.map_cons, List.sum_cons]
      exact Nat.add_le_add (Nat.le_of_add_right_le (mapUses_length k.n k.virt tab)) (ih _)

/-- The page tables that there are stay. -/
theorem mapTabs_of_tab {i : Nat} (hi : tab i = true) : mapTabs n v tab i = true := by
  induction n generalizing v tab with
  | zero => exact hi
  | succ n ih =>
      refine ih ?_
      by_cases hiv : i = pdx v
      · rw [hiv, upd_self]
      · rw [upd_of_ne hiv, hi]

theorem kernelTabs_of_tab {ks : List Kmap} {i : Nat} (hi : tab i = true) :
    kernelTabs ks tab i = true := by
  induction ks generalizing tab with
  | nil => exact hi
  | cons k ks ih => exact ih (mapTabs_of_tab hi)

theorem mapTabs_head (hn : 0 < n) : mapTabs n v tab (pdx v) = true := by
  obtain ⟨n, rfl⟩ := Nat.exists_eq_add_of_lt hn
  rw [Nat.zero_add, mapTabs]
  exact mapTabs_of_tab (upd_self ..)

/-- The kernel's first page has a table. -/
theorem kernelTabs_kmap (data : Page) (tab : Nat → Bool) :
    kernelTabs (kmap data) tab (pdx KERNPAGE) = true := by
  rw [kmap, kernelTabs]
  exact kernelTabs_of_tab (mapTabs_head (by decide))

end Plenty

/-- A machine whose kernel ends at page 258, with 100 free pages. -/
def machine : Config := memlayout [] 257 258 (by decide) (by decide) (by decide)

def idle : Heap Kmem := ⟨fun _ => filled 0, ⟨List.range' 1024 100, []⟩, []⟩

def idleTags (x : Page) : Tag := if 1024 ≤ x ∧ x < 1124 then .free else .held

theorem sharp_idle : Sharp (lawful machine) idleTags idle := by
  have hcases : ∀ x, idleTags x = .free ∧ 1024 ≤ x ∧ x < 1124 ∨ idleTags x = .held := by
    intro x
    unfold idleTags
    split
    · exact .inl ⟨rfl, ‹_›⟩
    · exact .inr rfl
  have hmem : ∀ x, x ∈ idle.kmem.freelist ↔ 1024 ≤ x ∧ x < 1124 := by
    intro x
    show x ∈ List.range' 1024 100 ↔ _
    rw [List.mem_range'_1]
  have hfree : ∀ x τ, idleTags x = τ → τ ≠ .held → τ = .free ∧ 1024 ≤ x ∧ x < 1124 := by
    rintro x τ rfl hτ
    exact (hcases x).resolve_right hτ
  refine ⟨⟨List.nodup_range', fun x hx => if_pos ((hmem x).mp hx), fun x hx => ?_, fun d hd => ?_,
    fun t d i ht => ?_⟩, fun x hx => (hmem x).mpr (hfree x _ hx (by simp)).2, fun x d i j hx => ?_,
    fun t d i ht => ?_⟩
  · obtain ⟨-, hlow, hhigh⟩ := hfree x _ rfl hx
    exact (Bool.and_eq_true ..).mpr ⟨decide_eq_true (Nat.le_trans (by decide) hlow),
      decide_eq_true (Nat.lt_of_lt_of_le hhigh (by decide))⟩
  · cases (hfree d _ hd (by simp)).1
  · cases (hfree t _ ht (by simp)).1
  · cases (hfree x _ hx (by simp)).1
  · cases (hfree t _ ht (by simp)).1

/-- A new directory with up to two pages. -/
theorem machine_grow (newsz : Nat) (h0 : 0 < newsz) (hle : newsz ≤ 8192) :
    ∃ g g', Image.new (kmem machine) (kmap 257) idle.kmem = some g ∧
      g.grow (kmem machine) newsz = some g' ∧ g'.sz = newsz ∧ g'.lost = [] ∧ Plenty g'.kmem 27 ∧
      g'.tab (pdx KERNPAGE) = true ∧ ∀ w, w < pgup newsz → g'.tab (pdx w) = true := by
  have hsum : ((kmap 257).map fun k => pdx (k.virt + k.n) - pdx k.virt + 1).sum = 68 := by decide
  have hlen := kernelUses_length (kmap 257) fun _ => false
  have hplenty : Plenty idle.kmem (31 + (setupUses (kmap 257)).length) := by
    refine ⟨rfl, ?_⟩
    show _ ≤ (List.range' 1024 100).length
    rw [List.length_range', setupUses, List.length_cons]
    omega
  obtain ⟨k, hk, hk'⟩ := hplenty.ask machine
  have hnew : Image.new (kmem machine) (kmap 257) idle.kmem =
      some ⟨0, [], kernelTabs (kmap 257) fun _ => false, k⟩ := by rw [Image.new, hk]
  have hfirst := kernelTabs_kmap 257 fun _ => false
  generalize kernelTabs (kmap 257) (fun _ => false) = tab at hnew hfirst
  have hpages : pgup newsz ≤ 2 := by
    unfold pgup PGSIZE
    omega
  have hnone : pgup 0 = 0 := rfl
  have hplenty' : Plenty k (27 + 2 * (pgup newsz - pgup 0)) :=
    ⟨hk'.1, Nat.le_trans (by omega) hk'.2⟩
  obtain ⟨g', hg', hsz, hlost, hk'', hkeep, htab⟩ := Plenty.grow machine
    (g := ⟨0, [], tab, k⟩) hplenty' rfl (Nat.zero_le _) h0 (by unfold KERNBASE; omega)
  exact ⟨_, g', hnew, hg', hsz, hlost, hk'', hkeep _ hfirst,
    fun w hw => htab w (by show pgup 0 ≤ w; omega) hw⟩

/-! ## Two files -/

/-- A segment of 4 bytes at 0 is loaded into the image. -/
theorem exec_writes_image_plain :
    checkHeader (readi (elfFile 0 4 4096 [1, 2, 3, 4])) [] = some ⟨ELF_MAGIC, 52, 1⟩ ∧
      (∃ g g', Image.new (kmem machine) (kmap 257) idle.kmem = some g ∧
        g.grow (kmem machine) 4096 = some g') ∧
      ∀ w ∈ writes (kmem machine) ⟨kmap 257, fun _ => false, none⟩
        (readi (elfFile 0 4 4096 [1, 2, 3, 4])) [] [] idle, Own w := by
  have hcheck : checkHeader (readi (elfFile 0 4 4096 [1, 2, 3, 4])) [] = some ⟨ELF_MAGIC, 52, 1⟩ := by
    decide +kernel
  have hph : progHeader (readi (elfFile 0 4 4096 [1, 2, 3, 4])) ⟨ELF_MAGIC, 52, 1⟩ 0 =
      some ⟨1, 84, 0, 4, 4096⟩ := by decide +kernel
  obtain ⟨g₀, g', hg₀, hg', hsz, hlost, _⟩ := machine_grow 4096 (by decide) (by decide)
  refine ⟨hcheck, ⟨g₀, g', hg₀, hg'⟩, (exec_writes_image_iff (by decide) (by decide) (by decide)
    sharp_idle rfl _ _ _ [] []).mpr fun elf g helf hg => ?_⟩
  cases hcheck.symm.trans helf
  cases hg₀.symm.trans hg
  refine (each_load hph rfl (by decide) hg').mpr ⟨?_, fun _ _ => trivial⟩
  rintro - ⟨j, ⟨hj, _⟩, _, _, _, hno⟩
  -- there is only one page, the first
  have hj : j * 4096 < 4 := hj
  obtain rfl : j = 0 := by omega
  refine hno ⟨?_, ?_⟩
  · rw [hsz]
    decide
  · rw [hlost]
    exact List.not_mem_nil

/-- A segment at `KERNBASE` with a size that wraps around is loaded over the
first page of physical memory. -/
theorem exec_writes_kernel :
    ¬ ∀ w ∈ writes (kmem machine) ⟨kmap 257, fun _ => false, none⟩
      (readi (elfFile 0x80000000 4 0x80001000 [1, 2, 3, 4])) [] [] idle, Own w := by
  have hcheck : checkHeader (readi (elfFile 0x80000000 4 0x80001000 [1, 2, 3, 4])) [] =
      some ⟨ELF_MAGIC, 52, 1⟩ := by
    decide +kernel
  have hph : progHeader (readi (elfFile 0x80000000 4 0x80001000 [1, 2, 3, 4]))
      ⟨ELF_MAGIC, 52, 1⟩ 0 = some ⟨1, 84, 0x80000000, 4, 0x80001000⟩ := by decide +kernel
  obtain ⟨g, g', hg, hg', hsz, _, _, htab, _⟩ := machine_grow 4096 (by decide) (by decide)
  -- the load strays at its first page
  have hstray : ¬ Contained (kmem machine) ⟨kmap 257, fun _ => false, none⟩
      (readi (elfFile 0x80000000 4 0x80001000 [1, 2, 3, 4])) ⟨ELF_MAGIC, 52, 1⟩ 1 0 g := by
    intro hc
    refine ((each_load hph rfl (by decide) hg').mp hc).1 (by decide)
      ⟨0, ⟨by decide, by simp⟩, htab, by decide +kernel, .inr (by decide +kernel), ?_⟩
    rintro ⟨hlt, _⟩
    rw [hsz] at hlt
    exact absurd hlt (by decide)
  exact fun hall => hstray (((writes_own_iff (by decide) (by decide) (by decide) sharp_idle).mp
    hall).2 _ _ hcheck hg)

end Xv6.Exec
