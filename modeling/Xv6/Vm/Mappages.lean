import Xv6.Lib.Exec
import Mathlib.Data.Nat.Bitwise
import Mathlib.Data.Finset.Card

/-!
# Vm — `mappages`, to the bit

`Vm.Model` has page numbers and typed pages. Here are the words of memory:
addresses and entries are 32 bits wide, the macros of `mmu.h` are what
they are there, and the loop of `mappages` ends when `a` equals `last`.

The memory is read by the address of a page and the index of a word in it.
`PageDir` says what makes a page a page directory: its page tables are
apart from each other, from the directory, and from the pages that
`kalloc` has to give.
-/

namespace Xv6.Vm.Words

open Lib

abbrev Word := BitVec 32

def PGSIZE : Word := 4096
def KERNBASE : Word := 0x80000000
def NPDENTRIES : Nat := 1024
def PTE_P : Word := 0x001
def PTE_W : Word := 0x002
def PTE_U : Word := 0x004

def PDX (va : Word) : Word := (va >>> 22) &&& 0x3FF
def PTX (va : Word) : Word := (va >>> 12) &&& 0x3FF
def PGROUNDDOWN (a : Word) : Word := a &&& ~~~(PGSIZE - 1)
def PTE_ADDR (pte : Word) : Word := pte &&& ~~~0xFFF
def PTE_FLAGS (pte : Word) : Word := pte &&& 0xFFF

def v2p (a : Word) : Word := a - KERNBASE
def p2v (a : Word) : Word := a + KERNBASE

structure Kern where
  mem : Word → Word → Word      -- by page and index
  freelist : List Word          -- `kmem.freelist`

def Kern.store (s : Kern) (p j w : Word) : Kern :=
  { s with mem := upd s.mem p (upd (s.mem p) j w) }

/-- `memset(p, 0, PGSIZE)` -/
def Kern.clear (s : Kern) (p : Word) : Kern := { s with mem := upd s.mem p fun _ => 0 }

def kalloc (s : Kern) : Option (Word × Kern) :=
  match s.freelist with
  | [] => none
  | p :: rest => some (p, { s with freelist := rest })

/-- The page table and the index in it of the entry for `va`. -/
def walkpgdir (s : Kern) (pgdir va : Word) (alloc : Bool) : Option (Word × Word) × Kern :=
  let pde := s.mem pgdir (PDX va)
  if pde &&& PTE_P ≠ 0 then (some (p2v (PTE_ADDR pde), PTX va), s)
  else if alloc = false then (none, s)
  else
    match kalloc s with
    | none => (none, s)
    | some (pgtab, s) =>
        let s := s.clear pgtab
        let s := s.store pgdir (PDX va) (v2p pgtab ||| PTE_P ||| PTE_W ||| PTE_U)
        (some (pgtab, PTX va), s)

inductive Outcome
  | ret (r : Int)
  | panic (msg : String)
deriving DecidableEq

/-- The loop of `mappages`; `none` if it goes on for longer than the fuel. -/
def mapLoop (pgdir last perm : Word) : Nat → Kern → Word → Word → Option (Outcome × Kern)
  | 0, _, _, _ => none
  | fuel + 1, s, a, pa =>
      match walkpgdir s pgdir a true with
      | (none, s) => some (.ret (-1), s)
      | (some (p, j), s) =>
          if s.mem p j &&& PTE_P ≠ 0 then some (.panic "remap", s)
          else
            let s := s.store p j (pa ||| perm ||| PTE_P)
            if a = last then some (.ret 0, s)
            else mapLoop pgdir last perm fuel s (a + PGSIZE) (pa + PGSIZE)

/-- There are no more pages than this. -/
def NPAGES : Nat := NPDENTRIES * 1024

def mappages (s : Kern) (pgdir va size pa perm : Word) : Option (Outcome × Kern) :=
  mapLoop pgdir (PGROUNDDOWN (va + size - 1)) perm NPAGES s (PGROUNDDOWN va) pa

/-! ## The macros -/

/-- The number of the page that an address is in. -/
def pageOf (a : Word) : Nat := a.toNat / 4096

theorem toNat_PDX (a : Word) : (PDX a).toNat = pageOf a / 1024 := by
  have hmask : (0x3FF : Word).toNat = 2 ^ 10 - 1 := rfl
  have hlt := a.isLt
  rw [PDX, BitVec.toNat_and, BitVec.toNat_ushiftRight, Nat.shiftRight_eq_div_pow, hmask,
    Nat.and_two_pow_sub_one_eq_mod, pageOf]
  omega

theorem toNat_PTX (a : Word) : (PTX a).toNat = pageOf a % 1024 := by
  have hmask : (0x3FF : Word).toNat = 2 ^ 10 - 1 := rfl
  rw [PTX, BitVec.toNat_and, BitVec.toNat_ushiftRight, Nat.shiftRight_eq_div_pow, hmask,
    Nat.and_two_pow_sub_one_eq_mod, pageOf]

/-- The two indices tell the page. -/
theorem pageOf_eq_iff {a b : Word} : pageOf a = pageOf b ↔ PDX a = PDX b ∧ PTX a = PTX b := by
  rw [← BitVec.toNat_inj, ← BitVec.toNat_inj, toNat_PDX, toNat_PDX, toNat_PTX, toNat_PTX]
  omega

theorem getLsbD_mask (i : Nat) : (0xFFF : Word).getLsbD i = decide (i < 12) := by
  have hmask : (0xFFF : Word) = BitVec.ofNat 32 (2 ^ 12 - 1) := rfl
  rw [hmask, BitVec.getLsbD_ofNat, Nat.testBit_two_pow_sub_one]
  by_cases hi : i < 12
  · have hlt : i < 32 := by omega
    simp [hi, hlt]
  · simp [hi]

theorem PTE_ADDR_eq_shift (a : Word) : PTE_ADDR a = (a >>> 12) <<< 12 := by
  refine BitVec.eq_of_getLsbD_eq fun i hi => ?_
  rw [PTE_ADDR, BitVec.getLsbD_and, BitVec.getLsbD_not, getLsbD_mask, BitVec.getLsbD_shiftLeft,
    BitVec.getLsbD_ushiftRight]
  by_cases hlow : i < 12
  · simp [hlow]
  · have hadd : 12 + (i - 12) = i := by omega
    simp [hlow, hi, hadd]

theorem toNat_PTE_ADDR (a : Word) : (PTE_ADDR a).toNat = pageOf a * 4096 := by
  have hlt := a.isLt
  rw [PTE_ADDR_eq_shift, BitVec.toNat_shiftLeft, BitVec.toNat_ushiftRight,
    Nat.shiftRight_eq_div_pow, Nat.shiftLeft_eq, pageOf]
  omega

theorem toNat_PGROUNDDOWN (a : Word) : (PGROUNDDOWN a).toNat = pageOf a * 4096 := toNat_PTE_ADDR a

theorem PTE_ADDR_eq_zero {a : Word} : PTE_ADDR a = 0 ↔ a.toNat < 4096 := by
  rw [← BitVec.toNat_inj, toNat_PTE_ADDR, pageOf]
  show a.toNat / 4096 * 4096 = 0 ↔ _
  omega

/-- An address of a page, with flags: both can be read off again. -/
theorem entry_split {pa perm : Word} (hpa : PTE_FLAGS pa = 0) (hperm : PTE_ADDR perm = 0) :
    PTE_ADDR (pa ||| perm) = pa ∧ PTE_FLAGS (pa ||| perm) = perm := by
  have hbits : ∀ i, i < 32 → (pa.getLsbD i && decide (i < 12)) = false ∧
      (perm.getLsbD i && !decide (i < 12)) = false := by
    intro i hi
    have hp := congrArg (fun w : Word => w.getLsbD i) hpa
    have hf := congrArg (fun w : Word => w.getLsbD i) hperm
    simp only [PTE_FLAGS, PTE_ADDR, BitVec.getLsbD_and, BitVec.getLsbD_not, getLsbD_mask, hi,
      decide_true, Bool.true_and] at hp hf
    exact ⟨hp.trans BitVec.getLsbD_zero, hf.trans BitVec.getLsbD_zero⟩
  constructor
  · refine BitVec.eq_of_getLsbD_eq fun i hi => ?_
    obtain ⟨hp, hf⟩ := hbits i hi
    rw [PTE_ADDR, BitVec.getLsbD_and, BitVec.getLsbD_or, BitVec.getLsbD_not, getLsbD_mask]
    by_cases hlow : i < 12 <;> simp_all
  · refine BitVec.eq_of_getLsbD_eq fun i hi => ?_
    obtain ⟨hp, hf⟩ := hbits i hi
    rw [PTE_FLAGS, BitVec.getLsbD_and, BitVec.getLsbD_or, getLsbD_mask]
    by_cases hlow : i < 12 <;> simp_all

theorem toNat_PTE_FLAGS (a : Word) : (PTE_FLAGS a).toNat = a.toNat % 4096 := by
  have hmask : (0xFFF : Word).toNat = 2 ^ 12 - 1 := rfl
  rw [PTE_FLAGS, BitVec.toNat_and, hmask, Nat.and_two_pow_sub_one_eq_mod]

theorem PTE_FLAGS_eq_zero {a : Word} : PTE_FLAGS a = 0 ↔ a.toNat % 4096 = 0 := by
  rw [← BitVec.toNat_inj, toNat_PTE_FLAGS]
  rfl

theorem present_iff (e : Word) : e &&& PTE_P ≠ 0 ↔ e.getLsbD 0 = true := by
  have hone : ∀ i, PTE_P.getLsbD i = decide (i = 0) := by
    intro i
    have hP : PTE_P = BitVec.ofNat 32 1 := rfl
    rw [hP, BitVec.getLsbD_ofNat]
    cases i with
    | zero => rfl
    | succ i => simp [Nat.testBit_succ]
  constructor
  · intro hne
    by_contra hbit
    refine hne (BitVec.eq_of_getLsbD_eq fun i _ => ?_)
    rw [BitVec.getLsbD_and, hone]
    by_cases hi : i = 0
    · subst hi
      rw [Bool.eq_false_iff.mpr hbit, Bool.false_and]
      exact BitVec.getLsbD_zero.symm
    · rw [decide_eq_false hi, Bool.and_false]
      exact BitVec.getLsbD_zero.symm
  · intro hbit heq
    have hzero := congrArg (fun w : Word => w.getLsbD 0) heq
    rw [BitVec.getLsbD_and, hone, hbit] at hzero
    exact Bool.noConfusion (hzero.trans BitVec.getLsbD_zero)

/-- The entry for a new page table leads to it. -/
theorem p2v_new {p : Word} (hp : PTE_FLAGS p = 0) :
    p2v (PTE_ADDR (v2p p ||| PTE_P ||| PTE_W ||| PTE_U)) = p := by
  have hphys : PTE_FLAGS (v2p p) = 0 := by
    have hlt := p.isLt
    rw [PTE_FLAGS_eq_zero] at hp ⊢
    rw [v2p, BitVec.toNat_sub]
    show (2 ^ 32 - 0x80000000 + p.toNat) % 2 ^ 32 % 4096 = 0
    omega
  have hflags : PTE_ADDR (PTE_P ||| (PTE_W ||| PTE_U)) = 0 := by decide
  rw [BitVec.or_assoc, BitVec.or_assoc, (entry_split hphys hflags).1, p2v, v2p,
    BitVec.sub_add_cancel]

/-! ## Page directories -/

section Dir

variable {s t u : Kern} {pgdir va : Word}

/-- The directory's entry for an address. -/
def Kern.pde (s : Kern) (pgdir va : Word) : Word := s.mem pgdir (PDX va)

/-- The directory has a page table for an address. -/
def Kern.Has (s : Kern) (pgdir va : Word) : Prop := s.pde pgdir va &&& PTE_P ≠ 0

/-- Where the page table is. -/
def Kern.pgtab (s : Kern) (pgdir va : Word) : Word := p2v (PTE_ADDR (s.pde pgdir va))

/-- **The translation** of an address by the two-level walk: the page table
entry, if it is present. -/
def translate (s : Kern) (pgdir va : Word) : Option Word :=
  if s.mem pgdir (PDX va) &&& PTE_P = 0 then none
  else
    let pte := s.mem (p2v (PTE_ADDR (s.mem pgdir (PDX va)))) (PTX va)
    if pte &&& PTE_P = 0 then none else some pte

/-- **A page directory**, with the pages that are free. -/
structure PageDir (s : Kern) (pgdir : Word) : Prop where
  aligned : PTE_FLAGS pgdir = 0
  /-- No two slots share a page table. -/
  apart : ∀ a b, s.Has pgdir a → s.Has pgdir b → s.pgtab pgdir a = s.pgtab pgdir b → PDX a = PDX b
  ne_dir : ∀ a, s.Has pgdir a → s.pgtab pgdir a ≠ pgdir
  free_nodup : s.freelist.Nodup
  free_aligned : ∀ p ∈ s.freelist, PTE_FLAGS p = 0
  dir_not_free : pgdir ∉ s.freelist
  tab_not_free : ∀ a, s.Has pgdir a → s.pgtab pgdir a ∉ s.freelist

theorem translate_eq (s : Kern) (pgdir va : Word) : translate s pgdir va =
    if s.pde pgdir va &&& PTE_P = 0 then none
    else if s.mem (s.pgtab pgdir va) (PTX va) &&& PTE_P = 0 then none
    else some (s.mem (s.pgtab pgdir va) (PTX va)) := rfl

/-- Addresses of one slot share the entry. -/
theorem Kern.pde_congr {a b : Word} (h : PDX a = PDX b) : s.pde pgdir a = s.pde pgdir b := by
  rw [Kern.pde, Kern.pde, h]

theorem Kern.pgtab_congr {a b : Word} (h : s.pde pgdir a = t.pde pgdir b) :
    s.pgtab pgdir a = t.pgtab pgdir b := by
  rw [Kern.pgtab, Kern.pgtab, h]

/-- **What a call takes**: the free pages `taken` are now the tables of
slots that lacked one; no other slot and no other page has changed. -/
structure Grows (pgdir : Word) (s t : Kern) (taken : List Word) : Prop where
  free : s.freelist = taken ++ t.freelist
  kept : ∀ a, s.Has pgdir a → t.pde pgdir a = s.pde pgdir a
  new : ∀ p, p ∈ taken ↔ ∃ a, ¬s.Has pgdir a ∧ t.Has pgdir a ∧ t.pgtab pgdir a = p
  frame : ∀ p, p ≠ pgdir → p ∉ taken → (∀ a, s.Has pgdir a → s.pgtab pgdir a ≠ p) →
    t.mem p = s.mem p

theorem Grows.has {taken : List Word} (h : Grows pgdir s t taken) {a : Word}
    (ha : s.Has pgdir a) : t.Has pgdir a := by
  rw [Kern.Has, h.kept a ha]
  exact ha

theorem Grows.pgtab_eq {taken : List Word} (h : Grows pgdir s t taken) {a : Word}
    (ha : s.Has pgdir a) : t.pgtab pgdir a = s.pgtab pgdir a := Kern.pgtab_congr (h.kept a ha)

theorem Grows.trans {m n : List Word} (h : Grows pgdir s t m) (h' : Grows pgdir t u n) :
    Grows pgdir s u (m ++ n) where
  free := by rw [h.free, h'.free, List.append_assoc]
  kept a ha := (h'.kept a (h.has ha)).trans (h.kept a ha)
  new p := by
    rw [List.mem_append, h.new, h'.new]
    constructor
    · rintro (⟨a, hs, ht, rfl⟩ | ⟨a, ht, hu, rfl⟩)
      · exact ⟨a, hs, h'.has ht, h'.pgtab_eq ht⟩
      · exact ⟨a, fun hs => ht (h.has hs), hu, rfl⟩
    · rintro ⟨a, hs, hu, rfl⟩
      by_cases ht : t.Has pgdir a
      · exact Or.inl ⟨a, hs, ht, (h'.pgtab_eq ht).symm⟩
      · exact Or.inr ⟨a, ht, hu, rfl⟩
  frame p hp hmem hs := by
    obtain ⟨hm, hn⟩ := not_or.mp (mt List.mem_append.mpr hmem)
    have ht : ∀ a, t.Has pgdir a → t.pgtab pgdir a ≠ p := by
      intro a ha heq
      by_cases hsa : s.Has pgdir a
      · exact hs a hsa ((h.pgtab_eq hsa).symm.trans heq)
      · exact hm ((h.new p).mpr ⟨a, hsa, ha, heq⟩)
    exact (h'.frame p hp hn ht).trans (h.frame p hp hm hs)

theorem Grows.refl (s : Kern) : Grows pgdir s s [] where
  free := rfl
  kept _ _ := rfl
  new p := by
    refine ⟨fun h => absurd h List.not_mem_nil, ?_⟩
    rintro ⟨a, hs, ht, _⟩
    exact absurd ht hs
  frame _ _ _ _ := rfl

/-! ## A new page table -/

/-- The state after `walkpgdir` gave the slot of `va` the page table `p`. -/
def Kern.addTable (s : Kern) (pgdir va p : Word) (rest : List Word) : Kern :=
  (({ s with freelist := rest } : Kern).clear p).store pgdir (PDX va)
    (v2p p ||| PTE_P ||| PTE_W ||| PTE_U)

section AddTable

variable {p : Word} {rest : List Word}

theorem addTable_pde (hne : pgdir ≠ p) (a : Word) : (s.addTable pgdir va p rest).pde pgdir a =
    if PDX a = PDX va then v2p p ||| PTE_P ||| PTE_W ||| PTE_U else s.pde pgdir a := by
  show upd _ pgdir (upd (upd s.mem p (fun _ => 0) pgdir) (PDX va) _) pgdir (PDX a) = _
  rw [upd_self, upd_of_ne hne, upd]
  rfl

theorem addTable_mem {q : Word} (hdir : q ≠ pgdir) :
    (s.addTable pgdir va p rest).mem q = if q = p then fun _ => 0 else s.mem q := by
  show upd (upd s.mem p fun _ => 0) pgdir _ q = _
  rw [upd_of_ne hdir, upd]

/-- The new entry leads to the new table. -/
theorem addTable_pgtab (hne : pgdir ≠ p) (hp : PTE_FLAGS p = 0) {a : Word} (ha : PDX a = PDX va) :
    (s.addTable pgdir va p rest).pgtab pgdir a = p := by
  rw [Kern.pgtab, addTable_pde hne, if_pos ha]
  exact p2v_new hp

theorem addTable_has (hne : pgdir ≠ p) (a : Word) :
    (s.addTable pgdir va p rest).Has pgdir a ↔ PDX a = PDX va ∨ s.Has pgdir a := by
  rw [Kern.Has, addTable_pde hne]
  by_cases ha : PDX a = PDX va
  · rw [if_pos ha]
    refine ⟨fun _ => Or.inl ha, fun _ => (present_iff _).mpr ?_⟩
    rw [BitVec.getLsbD_or, BitVec.getLsbD_or, BitVec.getLsbD_or]
    simp [PTE_P]
  · rw [if_neg ha]
    exact ⟨Or.inr, fun h => h.resolve_left ha⟩

/-- The slots that had a table have it still. -/
theorem addTable_pgtab_of_has (hne : pgdir ≠ p) (hva : ¬s.Has pgdir va) {a : Word}
    (ha : s.Has pgdir a) : PDX a ≠ PDX va ∧
      (s.addTable pgdir va p rest).pgtab pgdir a = s.pgtab pgdir a := by
  have hslot : PDX a ≠ PDX va := fun heq => hva (by rwa [Kern.Has, ← Kern.pde_congr heq])
  refine ⟨hslot, Kern.pgtab_congr ?_⟩
  rw [addTable_pde hne, if_neg hslot]

/-- **A slot gets a table**: nothing is translated otherwise. -/
theorem PageDir.addTable (h : PageDir s pgdir) (hfree : s.freelist = p :: rest)
    (hva : ¬s.Has pgdir va) :
    PageDir (s.addTable pgdir va p rest) pgdir ∧
      (∀ a, translate (s.addTable pgdir va p rest) pgdir a = translate s pgdir a) ∧
      Grows pgdir s (s.addTable pgdir va p rest) [p] := by
  have hpfree : p ∈ s.freelist := by
    rw [hfree]
    exact List.mem_cons_self
  have hne : pgdir ≠ p := fun heq => h.dir_not_free (heq ▸ hpfree)
  have hp := h.free_aligned p hpfree
  have hrest : ∀ q ∈ rest, q ∈ s.freelist := by
    intro q hq
    rw [hfree]
    exact List.mem_cons_of_mem _ hq
  have hnodup := h.free_nodup
  rw [hfree] at hnodup
  obtain ⟨hprest, hnodup⟩ := List.nodup_cons.mp hnodup
  have hold : ∀ {a : Word}, s.Has pgdir a → PDX a ≠ PDX va ∧
      (s.addTable pgdir va p rest).pgtab pgdir a = s.pgtab pgdir a :=
    fun ha => addTable_pgtab_of_has hne hva ha
  have hnew : ∀ {a : Word}, PDX a = PDX va → (s.addTable pgdir va p rest).pgtab pgdir a = p :=
    fun ha => addTable_pgtab hne hp ha
  have hold_ne : ∀ {a : Word}, s.Has pgdir a → s.pgtab pgdir a ≠ p :=
    fun ha heq => h.tab_not_free _ ha (heq ▸ hpfree)
  have hhas : ∀ a, (s.addTable pgdir va p rest).Has pgdir a ↔ PDX a = PDX va ∨ s.Has pgdir a :=
    addTable_has hne
  refine ⟨?_, ?_, ?_⟩
  · refine ⟨h.aligned, ?_, ?_, hnodup, fun q hq => h.free_aligned q (hrest q hq),
      fun hmem => h.dir_not_free (hrest _ hmem), ?_⟩
    · -- the new table is none of the old ones
      intro a b ha hb heq
      rcases (hhas a).mp ha with hav | has <;> rcases (hhas b).mp hb with hbv | hbs
      · exact hav.trans hbv.symm
      · rw [hnew hav, (hold hbs).2] at heq
        exact absurd heq.symm (hold_ne hbs)
      · rw [hnew hbv, (hold has).2] at heq
        exact absurd heq (hold_ne has)
      · rw [(hold has).2, (hold hbs).2] at heq
        exact h.apart a b has hbs heq
    · intro a ha
      rcases (hhas a).mp ha with hav | has
      · rw [hnew hav]
        exact hne.symm
      · rw [(hold has).2]
        exact h.ne_dir a has
    · intro a ha hmem
      rcases (hhas a).mp ha with hav | has
      · rw [hnew hav] at hmem
        exact hprest hmem
      · rw [(hold has).2] at hmem
        exact h.tab_not_free a has (hrest _ hmem)
  · intro a
    rw [translate_eq, translate_eq]
    by_cases hav : PDX a = PDX va
    · -- the slot had no table; now it has an empty one
      have hs : s.pde pgdir a &&& PTE_P = 0 := by
        rw [Kern.pde_congr hav]
        exact not_not.mp hva
      have hempty : (0 : Word) &&& PTE_P = 0 := by decide
      rw [hnew hav, addTable_mem hne.symm, if_pos rfl, if_pos hempty, ite_self, if_pos hs]
    · rw [addTable_pde hne, if_neg hav]
      by_cases has : s.Has pgdir a
      · rw [(hold has).2, addTable_mem (h.ne_dir a has), if_neg (hold_ne has)]
      · rw [if_pos (not_not.mp has), if_pos (not_not.mp has)]
  · refine ⟨hfree, ?_, ?_, ?_⟩
    · intro a ha
      rw [addTable_pde hne, if_neg (hold ha).1]
    · intro q
      rw [List.mem_singleton]
      constructor
      · rintro rfl
        exact ⟨va, hva, (hhas va).mpr (Or.inl rfl), hnew rfl⟩
      · rintro ⟨a, hs, ht, rfl⟩
        exact hnew (((hhas a).mp ht).resolve_right hs)
    · intro q hq hmem _
      rw [addTable_mem hq, if_neg (mt List.mem_singleton.mpr hmem)]

end AddTable

/-- **`walkpgdir`** with `alloc`: the slot has a table, and nothing is
translated otherwise. -/
theorem PageDir.walk (h : PageDir s pgdir) (hfree : s.Has pgdir va ∨ s.freelist ≠ []) :
    ∃ t taken, walkpgdir s pgdir va true = (some (t.pgtab pgdir va, PTX va), t) ∧
      PageDir t pgdir ∧ t.Has pgdir va ∧ (∀ a, translate t pgdir a = translate s pgdir a) ∧
      Grows pgdir s t taken ∧ (∀ a, PDX a ≠ PDX va → t.pde pgdir a = s.pde pgdir a) ∧
      (s.Has pgdir va → taken = []) ∧ taken.length ≤ 1 := by
  by_cases hva : s.Has pgdir va
  · refine ⟨s, [], ?_, h, hva, fun _ => rfl, Grows.refl s, fun _ _ => rfl, fun _ => rfl,
      Nat.zero_le _⟩
    exact if_pos hva
  · obtain ⟨p, rest, hcons⟩ := List.exists_cons_of_ne_nil (hfree.resolve_left hva)
    obtain ⟨hdir, hsame, hgrows⟩ := h.addTable hcons hva
    have hpfree : p ∈ s.freelist := by
      rw [hcons]
      exact List.mem_cons_self
    have hne : pgdir ≠ p := fun heq => h.dir_not_free (heq ▸ hpfree)
    refine ⟨s.addTable pgdir va p rest, [p], ?_, hdir, (addTable_has hne va).mpr (Or.inl rfl), hsame,
      hgrows, ?_, fun hhas => absurd hhas hva, Nat.le_refl _⟩
    · rw [addTable_pgtab hne (h.free_aligned p hpfree) rfl, walkpgdir, kalloc, hcons]
      exact (if_neg hva).trans (if_neg (by decide))
    · intro a ha
      rw [addTable_pde hne, if_neg ha]

/-! ## A new entry -/

theorem store_mem_self (s : Kern) (p j w i : Word) :
    (s.store p j w).mem p i = if i = j then w else s.mem p i := by
  show upd s.mem p (upd (s.mem p) j w) p i = _
  rw [upd_self, upd]

theorem store_mem_of_ne {p q : Word} (j w : Word) (h : q ≠ p) : (s.store p j w).mem q = s.mem q := by
  show upd s.mem p (upd (s.mem p) j w) q = s.mem q
  rw [upd_of_ne h]

/-- **An entry is stored**: its page is translated by it, and no other page
otherwise. -/
theorem PageDir.store (h : PageDir s pgdir) (hva : s.Has pgdir va) {e : Word}
    (he : e &&& PTE_P ≠ 0) :
    PageDir (s.store (s.pgtab pgdir va) (PTX va) e) pgdir ∧
      (∀ a, translate (s.store (s.pgtab pgdir va) (PTX va) e) pgdir a =
        if pageOf a = pageOf va then some e else translate s pgdir a) ∧
      Grows pgdir s (s.store (s.pgtab pgdir va) (PTX va) e) [] ∧
      ∀ a, (s.store (s.pgtab pgdir va) (PTX va) e).pde pgdir a = s.pde pgdir a := by
  have hne := h.ne_dir va hva
  have hpde : ∀ a, (s.store (s.pgtab pgdir va) (PTX va) e).pde pgdir a = s.pde pgdir a := by
    intro a
    rw [Kern.pde, store_mem_of_ne _ _ hne.symm]
    rfl
  have hhas : ∀ a, (s.store (s.pgtab pgdir va) (PTX va) e).Has pgdir a ↔ s.Has pgdir a := by
    intro a
    rw [Kern.Has, hpde]
    rfl
  have htab : ∀ a, (s.store (s.pgtab pgdir va) (PTX va) e).pgtab pgdir a = s.pgtab pgdir a :=
    fun a => Kern.pgtab_congr (hpde a)
  refine ⟨?_, ?_, ?_, hpde⟩
  · refine ⟨h.aligned, ?_, ?_, h.free_nodup, h.free_aligned, h.dir_not_free, ?_⟩
    · intro a b ha hb heq
      rw [htab, htab] at heq
      exact h.apart a b ((hhas a).mp ha) ((hhas b).mp hb) heq
    · intro a ha
      rw [htab]
      exact h.ne_dir a ((hhas a).mp ha)
    · intro a ha
      rw [htab]
      exact h.tab_not_free a ((hhas a).mp ha)
  · intro a
    rw [translate_eq, hpde, htab]
    by_cases ha : s.Has pgdir a
    · rw [if_neg ha]
      have hmem : (s.store (s.pgtab pgdir va) (PTX va) e).mem (s.pgtab pgdir a) (PTX a) =
          if pageOf a = pageOf va then e else s.mem (s.pgtab pgdir a) (PTX a) := by
        by_cases hslot : PDX a = PDX va
        · -- the same table: the index decides
          have heq : s.pgtab pgdir a = s.pgtab pgdir va := Kern.pgtab_congr (Kern.pde_congr hslot)
          rw [heq, store_mem_self]
          refine if_congr ?_ rfl rfl
          rw [pageOf_eq_iff]
          exact ⟨fun hptx => ⟨hslot, hptx⟩, And.right⟩
        · have hother : s.pgtab pgdir a ≠ s.pgtab pgdir va :=
            fun heq => hslot (h.apart a va ha hva heq)
          have hpage : ¬pageOf a = pageOf va := fun heq => hslot (pageOf_eq_iff.mp heq).1
          rw [store_mem_of_ne _ _ hother, if_neg hpage]
      rw [hmem]
      by_cases hpage : pageOf a = pageOf va
      · rw [if_pos hpage, if_pos hpage, if_neg he]
      · rw [if_neg hpage, if_neg hpage, translate_eq, if_neg ha]
    · have hpage : ¬pageOf a = pageOf va := by
        intro heq
        refine ha ?_
        rw [Kern.Has, Kern.pde_congr (pageOf_eq_iff.mp heq).1]
        exact hva
      rw [if_neg hpage, translate_eq, if_pos (not_not.mp ha), if_pos (not_not.mp ha)]
  · refine ⟨rfl, fun a _ => hpde a, ?_, ?_⟩
    · intro p
      refine ⟨fun hmem => absurd hmem List.not_mem_nil, ?_⟩
      rintro ⟨a, hs, ht, _⟩
      exact absurd ((hhas a).mp ht) hs
    · intro p _ _ hother
      exact store_mem_of_ne _ _ (hother va hva).symm

end Dir

/-! ## The loop -/

/-- The slots of the pages from `lo` to `hi` that have no page table. -/
def lacking (s : Kern) (pgdir : Word) (lo hi : Nat) : Finset Nat :=
  (Finset.range NPDENTRIES).filter fun i =>
    lo / 1024 ≤ i ∧ i ≤ hi / 1024 ∧ s.mem pgdir (BitVec.ofNat 32 i) &&& PTE_P = 0

/-- The entry for a page at `pa`. -/
def entry (pa perm : Word) : Word := pa ||| perm ||| PTE_P

/-- **The pages from `lo` to `hi` are mapped** to `pa` and on. -/
structure Maps (pgdir : Word) (lo hi : Nat) (pa perm : Word) (s t : Kern) : Prop where
  dir : PageDir t pgdir
  inside : ∀ a, lo ≤ pageOf a → pageOf a ≤ hi →
    translate t pgdir a = some (entry (pa + BitVec.ofNat 32 ((pageOf a - lo) * 4096)) perm)
  outside : ∀ a, ¬(lo ≤ pageOf a ∧ pageOf a ≤ hi) → translate t pgdir a = translate s pgdir a
  /-- Only slots of these pages are written. -/
  slots : ∀ a, ¬(lo / 1024 ≤ pageOf a / 1024 ∧ pageOf a / 1024 ≤ hi / 1024) →
    t.pde pgdir a = s.pde pgdir a

theorem pageOf_div_lt (a : Word) : pageOf a / 1024 < NPDENTRIES := by
  have hlt := a.isLt
  rw [pageOf, NPDENTRIES]
  omega

theorem PDX_eq_ofNat (a : Word) : PDX a = BitVec.ofNat 32 (pageOf a / 1024) := by
  have hlt := pageOf_div_lt a
  rw [NPDENTRIES] at hlt
  rw [← BitVec.toNat_inj, toNat_PDX, BitVec.toNat_ofNat, Nat.mod_eq_of_lt (by omega)]

theorem entry_present (pa perm : Word) : entry pa perm &&& PTE_P ≠ 0 := by
  refine (present_iff _).mpr ?_
  rw [entry, BitVec.getLsbD_or, BitVec.getLsbD_or]
  simp [PTE_P]

section Loop

variable {s t u : Kern} {pgdir : Word}

theorem mem_lacking {a : Word} {lo hi : Nat} (hlo : lo ≤ pageOf a) (hhi : pageOf a ≤ hi)
    (ha : ¬s.Has pgdir a) : pageOf a / 1024 ∈ lacking s pgdir lo hi := by
  refine Finset.mem_filter.mpr ⟨Finset.mem_range.mpr (pageOf_div_lt a), ?_, ?_, ?_⟩
  · exact Nat.div_le_div_right hlo
  · exact Nat.div_le_div_right hhi
  · rw [← PDX_eq_ofNat]
    exact not_not.mp ha

/-- One page: what is left to do lacks no slot that it did not lack before,
and not the slot of this page. -/
theorem lacking_step {a : Word} (hi : Nat)
    (hpde : ∀ b, PDX b ≠ PDX a → u.pde pgdir b = s.pde pgdir b) (hhas : u.Has pgdir a) :
    lacking u pgdir (pageOf a + 1) hi ⊆ (lacking s pgdir (pageOf a) hi).erase (pageOf a / 1024) := by
  intro i hi'
  obtain ⟨hrange, hlo, hhi, hzero⟩ := Finset.mem_filter.mp hi'
  have hlt := Finset.mem_range.mp hrange
  -- an address of the slot
  obtain ⟨b, hb⟩ : ∃ b : Word, pageOf b / 1024 = i := by
    refine ⟨BitVec.ofNat 32 (i * 2 ^ 22), ?_⟩
    rw [NPDENTRIES] at hlt
    rw [pageOf, BitVec.toNat_ofNat]
    omega
  have hslot : BitVec.ofNat 32 i = PDX b := by rw [PDX_eq_ofNat, hb]
  have hne : PDX b ≠ PDX a := by
    intro heq
    refine hhas ?_
    rw [Kern.pde, ← heq, ← hslot]
    exact hzero
  have hpage : i ≠ pageOf a / 1024 := by
    intro heq
    refine hne ?_
    rw [PDX_eq_ofNat, PDX_eq_ofNat, hb, heq]
  refine Finset.mem_erase.mpr ⟨hpage, Finset.mem_filter.mpr ⟨hrange, ?_, hhi, ?_⟩⟩
  · exact Nat.le_trans (Nat.div_le_div_right (Nat.le_succ _)) hlo
  · rw [hslot] at hzero ⊢
    have hsame := hpde b hne
    rw [Kern.pde, Kern.pde] at hsame
    rwa [← hsame]

/-- **One round of the loop.** -/
theorem PageDir.round (h : PageDir s pgdir) {a : Word} (last pa perm : Word) {hi : Nat}
    (hhi : pageOf a ≤ hi) (hnone : translate s pgdir a = none)
    (hcard : (lacking s pgdir (pageOf a) hi).card ≤ s.freelist.length) :
    ∃ t taken, (∀ fuel, mapLoop pgdir last perm (fuel + 1) s a pa =
        if a = last then some (.ret 0, t)
        else mapLoop pgdir last perm fuel t (a + PGSIZE) (pa + PGSIZE)) ∧
      PageDir t pgdir ∧
      (∀ b, translate t pgdir b =
        if pageOf b = pageOf a then some (entry pa perm) else translate s pgdir b) ∧
      Grows pgdir s t taken ∧ (∀ b, PDX b ≠ PDX a → t.pde pgdir b = s.pde pgdir b) ∧
      (lacking t pgdir (pageOf a + 1) hi).card ≤ t.freelist.length := by
  have hmem : ¬s.Has pgdir a → pageOf a / 1024 ∈ lacking s pgdir (pageOf a) hi :=
    mem_lacking (Nat.le_refl _) hhi
  have hfree : s.Has pgdir a ∨ s.freelist ≠ [] := by
    by_cases ha : s.Has pgdir a
    · exact Or.inl ha
    · right
      intro hnil
      rw [hnil, List.length_nil, Nat.le_zero, Finset.card_eq_zero] at hcard
      have hslot := hmem ha
      rw [hcard] at hslot
      exact absurd hslot (Finset.notMem_empty _)
  obtain ⟨t, taken, hwalk, hdir, hhas, hsame, hgrows, hpde, hzero, hone⟩ := h.walk hfree
  obtain ⟨hdir', htrans, hgrows', hpde'⟩ := hdir.store hhas (entry_present pa perm)
  refine ⟨_, taken, ?_, hdir', ?_, ?_, ?_, ?_⟩
  · intro fuel
    have habsent : t.mem (t.pgtab pgdir a) (PTX a) &&& PTE_P = 0 := by
      have ht := hsame a
      rw [hnone, translate_eq, if_neg hhas] at ht
      by_contra hne
      rw [if_neg hne] at ht
      cases ht
    rw [mapLoop, hwalk]
    dsimp only
    rw [if_neg (not_not.mpr habsent)]
    rfl
  · intro b
    rw [htrans, hsame]
  · have hboth := hgrows.trans hgrows'
    rwa [List.append_nil] at hboth
  · intro b hb
    rw [hpde', hpde b hb]
  · -- a page is taken from the free list only for a slot that was lacking
    have hsub := lacking_step (s := s) (u := t.store (t.pgtab pgdir a) (PTX a) (entry pa perm)) hi
      (fun b hb => (hpde' b).trans (hpde b hb)) (hgrows'.has hhas)
    have hle := Finset.card_le_card hsub
    have hlen := congrArg List.length hgrows.free
    rw [List.length_append] at hlen
    show _ ≤ t.freelist.length
    by_cases ha : s.Has pgdir a
    · rw [hzero ha, List.length_nil] at hlen
      have herase := Finset.card_erase_le (s := lacking s pgdir (pageOf a) hi) (a := pageOf a / 1024)
      omega
    · rw [Finset.card_erase_of_mem (hmem ha)] at hle
      omega

/-- **The loop of `mappages`**, with `n` pages to go after this one. -/
theorem mapLoop_maps {last a : Word} (pa perm : Word) {n fuel : Nat} (hfuel : n < fuel)
    (h : PageDir s pgdir)
    (ha : a.toNat = pageOf a * 4096) (hlast : last.toNat = (pageOf a + n) * 4096)
    (hnone : ∀ b, pageOf a ≤ pageOf b → pageOf b ≤ pageOf a + n → translate s pgdir b = none)
    (hcard : (lacking s pgdir (pageOf a) (pageOf a + n)).card ≤ s.freelist.length) :
    ∃ t taken, mapLoop pgdir last perm fuel s a pa = some (.ret 0, t) ∧
      Maps pgdir (pageOf a) (pageOf a + n) pa perm s t ∧ Grows pgdir s t taken := by
  induction n generalizing fuel s a pa with
  | zero =>
      obtain ⟨fuel, rfl⟩ : ∃ k, fuel = k + 1 := ⟨fuel - 1, by omega⟩
      obtain ⟨t, taken, hround, hdir, htrans, hgrows, hpde, _⟩ :=
        h.round last pa perm (Nat.le_refl _) (hnone a (Nat.le_refl _) (Nat.le_refl _)) hcard
      have heq : a = last := by
        rw [← BitVec.toNat_inj, ha, hlast, Nat.add_zero]
      refine ⟨t, taken, by rw [hround, if_pos heq], ⟨hdir, ?_, ?_, ?_⟩, hgrows⟩
      · intro b hlo hhi
        have hb : pageOf b = pageOf a := Nat.le_antisymm hhi hlo
        rw [htrans, if_pos hb, hb, Nat.sub_self, Nat.zero_mul, BitVec.add_zero]
      · intro b hb
        rw [htrans, if_neg fun heq => hb ⟨heq.ge, heq.le⟩]
      · intro b hb
        refine hpde b fun heq => hb ?_
        rw [← BitVec.toNat_inj, toNat_PDX, toNat_PDX] at heq
        exact ⟨heq.ge, heq.le⟩
  | succ n ih =>
      obtain ⟨fuel, rfl⟩ : ∃ k, fuel = k + 1 := ⟨fuel - 1, by omega⟩
      obtain ⟨t, taken, hround, hdir, htrans, hgrows, hpde, hcard'⟩ :=
        h.round last pa perm (Nat.le_add_right _ _)
          (hnone a (Nat.le_refl _) (Nat.le_add_right _ _)) hcard
      have hlt := last.isLt
      have hne : a ≠ last := by
        intro heq
        rw [← heq] at hlast
        omega
      -- the next page is not beyond the end of the addresses
      have hnext : (a + PGSIZE).toNat = (pageOf a + 1) * 4096 := by
        rw [BitVec.toNat_add]
        show (a.toNat + 4096) % 2 ^ 32 = _
        omega
      have hpage : pageOf (a + PGSIZE) = pageOf a + 1 := by
        rw [pageOf, hnext]
        exact Nat.mul_div_cancel _ (by decide)
      have hnone' : ∀ b, pageOf (a + PGSIZE) ≤ pageOf b → pageOf b ≤ pageOf (a + PGSIZE) + n →
          translate t pgdir b = none := by
        intro b hlo hhi
        rw [hpage] at hlo hhi
        rw [htrans, if_neg (by omega)]
        exact hnone b (by omega) (by omega)
      have hsum : pageOf a + 1 + n = pageOf a + (n + 1) := by omega
      have hfuel' : n < fuel := Nat.lt_of_succ_lt_succ hfuel
      obtain ⟨u, taken', hloop, hmaps, hgrows'⟩ := ih (pa + PGSIZE) hfuel' hdir
        (by rw [hnext, hpage]) (by rw [hlast, hpage, hsum]) hnone' (by rw [hpage, hsum]; exact hcard')
      rw [hpage, hsum] at hmaps
      refine ⟨u, taken ++ taken', by rw [hround, if_neg hne, hloop], ⟨hmaps.dir, ?_, ?_, ?_⟩,
        hgrows.trans hgrows'⟩
      · intro b hlo hhi
        by_cases hb : pageOf b = pageOf a
        · rw [hmaps.outside b (by omega), htrans, if_pos hb, hb, Nat.sub_self, Nat.zero_mul,
            BitVec.add_zero]
        · have hadd : pa + PGSIZE + BitVec.ofNat 32 ((pageOf b - (pageOf a + 1)) * 4096) =
              pa + BitVec.ofNat 32 ((pageOf b - pageOf a) * 4096) := by
            have hsub : (pageOf b - pageOf a) * 4096 =
                4096 + (pageOf b - (pageOf a + 1)) * 4096 := by omega
            rw [hsub, BitVec.ofNat_add, BitVec.add_assoc]
            rfl
          rw [hmaps.inside b (by omega) hhi, hadd]
      · intro b hb
        rw [hmaps.outside b (by omega), htrans, if_neg (by omega)]
      · intro b hb
        have hslot : PDX b ≠ PDX a := by
          intro heq
          rw [← BitVec.toNat_inj, toNat_PDX, toNat_PDX] at heq
          omega
        rw [hmaps.slots b (by omega), hpde b hslot]

end Loop

/-! ## `mappages` -/

/-- The last page of a range of bytes. -/
def lastPage (va size : Word) : Nat := (va.toNat + size.toNat - 1) / 4096

/-- **`mappages`** of a range that does not wrap around, none of whose pages is
present, with enough free pages for the slots that lack a table: it
returns 0, and the pages of the range, and no others, are now mapped, one
after the other, to `pa` and on. An entry can be read as the address of
its page and the flags `perm`, where these are flags. -/
theorem mappages_maps {s : Kern} {pgdir : Word} (va size pa perm : Word) (h : PageDir s pgdir)
    (hsize : 0 < size.toNat) (hwrap : va.toNat + size.toNat ≤ 2 ^ 32) (hpa : PTE_FLAGS pa = 0)
    (hnone : ∀ a, pageOf va ≤ pageOf a → pageOf a ≤ lastPage va size → translate s pgdir a = none)
    (hkalloc : (lacking s pgdir (pageOf va) (lastPage va size)).card ≤ s.freelist.length) :
    ∃ t taken, mappages s pgdir va size pa perm = some (.ret 0, t) ∧
      Maps pgdir (pageOf va) (lastPage va size) pa perm s t ∧ Grows pgdir s t taken ∧
      (PTE_ADDR perm = 0 → ∀ i,
        PTE_ADDR (entry (pa + BitVec.ofNat 32 (i * 4096)) perm) = pa + BitVec.ofNat 32 (i * 4096) ∧
        PTE_FLAGS (entry (pa + BitVec.ofNat 32 (i * 4096)) perm) = perm ||| PTE_P) := by
  have hpage : pageOf (PGROUNDDOWN va) = pageOf va := by
    rw [pageOf, toNat_PGROUNDDOWN]
    exact Nat.mul_div_cancel _ (by decide)
  have hend : (va + size - 1).toNat = va.toNat + size.toNat - 1 := by
    have hlt := va.isLt
    rw [BitVec.toNat_sub, BitVec.toNat_add]
    show (2 ^ 32 - 1 + (va.toNat + size.toNat) % 2 ^ 32) % 2 ^ 32 = _
    omega
  have hlast : pageOf (va + size - 1) = lastPage va size := by rw [pageOf, hend, lastPage]
  obtain ⟨n, hn⟩ : ∃ n, lastPage va size = pageOf va + n := by
    refine Nat.exists_eq_add_of_le ?_
    rw [pageOf, lastPage]
    omega
  have hfuel : n < NPAGES := by
    have hle : lastPage va size < 1048576 := by
      rw [lastPage]
      omega
    show n < 1048576
    omega
  rw [hn] at hnone hkalloc ⊢
  have hfirst : (PGROUNDDOWN va).toNat = pageOf (PGROUNDDOWN va) * 4096 := by
    rw [toNat_PGROUNDDOWN, hpage]
  have hstop : (PGROUNDDOWN (va + size - 1)).toNat = (pageOf (PGROUNDDOWN va) + n) * 4096 := by
    rw [toNat_PGROUNDDOWN, hlast, hn, hpage]
  obtain ⟨t, taken, hloop, hmaps, hgrows⟩ := mapLoop_maps pa perm hfuel h hfirst hstop
    (by rw [hpage]; exact hnone) (by rw [hpage]; exact hkalloc)
  rw [hpage] at hmaps
  refine ⟨t, taken, hloop, hmaps, hgrows, ?_⟩
  intro hperm i
  have hpage : PTE_FLAGS (pa + BitVec.ofNat 32 (i * 4096)) = 0 := by
    rw [PTE_FLAGS_eq_zero] at hpa ⊢
    rw [BitVec.toNat_add, BitVec.toNat_ofNat]
    omega
  have hflags : PTE_ADDR (perm ||| PTE_P) = 0 := by
    rw [PTE_ADDR_eq_zero] at hperm ⊢
    rw [BitVec.toNat_or]
    exact Nat.or_lt_two_pow (n := 12) hperm (by decide)
  rw [entry, BitVec.or_assoc]
  exact entry_split hpage hflags

/-- An empty directory, with eight free pages. -/
def bare : Kern where
  mem := fun _ _ => 0
  freelist := [0x80400000, 0x80401000, 0x80402000, 0x80403000, 0x80404000, 0x80405000, 0x80406000,
    0x80407000]

theorem bare_absent (pgdir a : Word) : bare.pde pgdir a &&& PTE_P = 0 := by
  have hzero : (0 : Word) &&& PTE_P = 0 := by decide
  exact hzero

theorem bare_not_has (pgdir a : Word) : ¬bare.Has pgdir a := not_not.mpr (bare_absent pgdir a)

theorem bare_aligned : bare.freelist.Forall fun p => PTE_FLAGS p = 0 := by
  refine ⟨?_, ?_, ?_, ?_, ?_, ?_, ?_, ?_⟩ <;> decide

theorem pageDir_bare : PageDir bare 0x80001000 where
  aligned := by decide
  apart a _ ha := absurd ha (bare_not_has _ a)
  ne_dir a ha := absurd ha (bare_not_has _ a)
  free_nodup := by decide +kernel
  free_aligned := List.forall_iff_forall_mem.mp bare_aligned
  dir_not_free := by decide +kernel
  tab_not_free a ha := absurd ha (bare_not_has _ a)

/-- The devices, to the end of the addresses. -/
theorem mappages_maps_devices :
    ∃ t taken, mappages bare 0x80001000 0xFE000000 0x02000000 0xFE000000 PTE_W = some (.ret 0, t) ∧
      Maps 0x80001000 0xFE000 0xFFFFF 0xFE000000 PTE_W bare t ∧ Grows 0x80001000 bare t taken := by
  have hlack : (lacking bare 0x80001000 (pageOf 0xFE000000) (lastPage 0xFE000000 0x02000000)).card ≤
      bare.freelist.length := by decide +kernel
  obtain ⟨t, taken, hret, hmaps, hgrows, _⟩ := mappages_maps 0xFE000000 0x02000000 0xFE000000 PTE_W
    pageDir_bare (by decide) (by decide) (by decide) (fun a _ _ => if_pos (bare_absent _ a)) hlack
  exact ⟨t, taken, hret, hmaps, hgrows⟩

end Xv6.Vm.Words
