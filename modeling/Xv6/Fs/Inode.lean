import Xv6.Fs.Inv
import Mathlib.Algebra.Order.BigOperators.Group.Finset
import Mathlib.Data.Multiset.Count

/-!
# Fs — references to inodes and their locks

What `iget`, `idup`, `ilock`, `iunlock` and `iput` do while no inode is
freed. They change the inode cache and nothing else (`Kept`).

`refOf` counts the references to an inode number over the whole cache, so
that nobody has to know in which entry an inode is. A call that started
in `s₀` and holds the references `held` and the locks `L` is in a state
`t` with `Holding s₀ L held t`; each of the five calls moves from one
such state to the next.
-/

namespace Xv6.Fs

open Lib

/-! ## Reference counts -/

/-- The references that entry `ip` holds to inode `i`. -/
def refIn (i : Nat) (ip : Inode) : Nat := if ip.inum = i then ip.ref else 0

/-- The references to inode `i`. -/
def St.refOf (s : St) (i : Nat) : Nat := ∑ k, refIn i (s.icache k)

/-- Entry `k` is in use for inode `i`. -/
def Points (s : St) (k : Fin NINODE) (i : Nat) : Prop := s.Used k ∧ (s.icache k).inum = i

section RefOf

variable {s : St} {k : Fin NINODE} {v : Inode} {i : Nat}

theorem refOf_setInode (s : St) (k : Fin NINODE) (v : Inode) (i : Nat) :
    refIn i (s.icache k) + (s.setInode k v).refOf i = refIn i v + s.refOf i := by
  have hrest : ∑ j ∈ Finset.univ.erase k, refIn i (upd s.icache k v j) =
      ∑ j ∈ Finset.univ.erase k, refIn i (s.icache j) :=
    Finset.sum_congr rfl fun j hj => by rw [upd_of_ne (Finset.ne_of_mem_erase hj)]
  show refIn i (s.icache k) + ∑ j, refIn i (upd s.icache k v j) = _
  rw [← Finset.add_sum_erase _ _ (Finset.mem_univ k), hrest, upd_self, St.refOf,
    ← Finset.add_sum_erase _ (fun j => refIn i (s.icache j)) (Finset.mem_univ k)]
  exact Nat.add_left_comm ..

/-- Entry `k` gets one more reference, to inode `i`. -/
theorem refOf_take (hv : v.inum = i) (href : v.ref = refIn i (s.icache k) + 1)
    (hother : ∀ j, j ≠ i → refIn j (s.icache k) = 0) (j : Nat) :
    (s.setInode k v).refOf j = s.refOf j + if j = i then 1 else 0 := by
  have h := refOf_setInode s k v j
  by_cases hj : j = i
  · subst hj
    have hr : refIn j v = v.ref := if_pos hv
    rw [if_pos rfl]
    omega
  · have hz : refIn j v = 0 := if_neg fun he => hj (he.symm.trans hv)
    rw [hother j hj, hz] at h
    rw [if_neg hj]
    omega

/-- An entry gives up one reference. -/
theorem refOf_drop (hv : v.inum = (s.icache k).inum) (href : v.ref + 1 = (s.icache k).ref)
    (j : Nat) :
    s.refOf j = (s.setInode k v).refOf j + if j = (s.icache k).inum then 1 else 0 := by
  have h := refOf_setInode s k v j
  rw [refIn, refIn, hv] at h
  by_cases hj : j = (s.icache k).inum
  · rw [if_pos hj]
    rw [if_pos hj.symm, if_pos hj.symm] at h
    omega
  · rw [if_neg hj]
    rw [if_neg (Ne.symm hj), if_neg (Ne.symm hj)] at h
    omega

/-- Neither the number nor the count of an entry has changed. -/
theorem refOf_same (hv : v.inum = (s.icache k).inum) (href : v.ref = (s.icache k).ref) (j : Nat) :
    (s.setInode k v).refOf j = s.refOf j := by
  have h := refOf_setInode s k v j
  rw [refIn, refIn, hv, href] at h
  omega

theorem refOf_pos_iff : 0 < s.refOf i ↔ ∃ k, Points s k i := by
  rw [St.refOf, Finset.sum_pos_iff]
  constructor
  · rintro ⟨k, -, hk⟩
    rw [refIn] at hk
    split at hk
    · exact ⟨k, hk, ‹_›⟩
    · omega
  · rintro ⟨k, hk, he⟩
    refine ⟨k, Finset.mem_univ k, ?_⟩
    rw [refIn, if_pos he]
    exact hk

/-- With one entry to an inode, its `ref` is the count. -/
theorem Consistent.refOf_eq (h : Consistent s) (hk : Points s k i) :
    s.refOf i = (s.icache k).ref := by
  have hsum : s.refOf i = refIn i (s.icache k) := by
    refine Finset.sum_eq_single k (fun j _ hjk => ?_) (fun hk => absurd (Finset.mem_univ k) hk)
    rw [refIn]
    split
    · rename_i he
      by_contra h0
      exact hjk (h.uniq j k (Nat.pos_of_ne_zero h0) hk.1 (he.trans hk.2.symm))
    · rfl
  rw [hsum, refIn, if_pos hk.2]

end RefOf

/-! ## The state between calls -/

/-- Nothing but the inode cache has changed. -/
def Kept (s t : St) : Prop := t = { s with icache := t.icache }

section Kept

variable {s t u : St}

theorem Kept.trans (h₁ : Kept s t) (h₂ : Kept t u) : Kept s u := by
  rw [Kept, h₂, h₁]

theorem Kept.setInode (s : St) (k : Fin NINODE) (v : Inode) : Kept s (s.setInode k v) := rfl

theorem Kept.sb (h : Kept s t) : t.sb = s.sb := by rw [h]

theorem Kept.disk (h : Kept s t) : t.disk = s.disk := by rw [h]

theorem Kept.node (h : Kept s t) : t.node = s.node := by rw [St.node, St.node, h.sb, h.disk]

theorem Kept.obj (h : Kept s t) : t.obj = s.obj := by
  funext i
  rw [St.obj, St.obj, h.sb, h.disk, h.node]

end Kept

/-- A consistent state with the inodes of `L` locked. -/
structure Inv (s : St) (L : Set Nat) : Prop where
  cons : Consistent s
  busy : ∀ k, s.Used k → ((s.icache k).busy = true ↔ (s.icache k).inum ∈ L)
  valid : ∀ k, s.Used k → (s.icache k).busy = true → (s.icache k).valid = true
  locked : ∀ i ∈ L, 0 < s.refOf i

theorem Inv.valid_of_mem {s : St} {L : Set Nat} (h : Inv s L) {k : Fin NINODE} {i : Nat}
    (hk : Points s k i) (hi : i ∈ L) : (s.icache k).valid = true :=
  h.valid k hk.1 ((h.busy k hk.1).mpr (hk.2.symm ▸ hi))

section Entries

variable {s : St} {L : Set Nat} {k : Fin NINODE} {v : Inode}

theorem setInode_self (s : St) (k : Fin NINODE) (v : Inode) : (s.setInode k v).icache k = v :=
  upd_self s.icache k v

theorem setInode_of_ne {j : Fin NINODE} (h : j ≠ k) :
    (s.setInode k v).icache j = s.icache j := upd_of_ne h

/-- **One entry changes.** -/
theorem Consistent.setInode (h : Consistent s)
    (huniq : 0 < v.ref → ∀ j, j ≠ k → s.Used j → (s.icache j).inum ≠ v.inum)
    (hlt : 0 < v.ref → v.inum < s.sb.ninodes)
    (hvalid : 0 < v.ref → v.valid = true → v.din = s.node v.inum ∧ v.din.type ≠ 0) :
    Consistent (s.setInode k v) := by
  refine ⟨h.geo, h.super, h.blocks, h.holes, fun i j hi hj he => ?_, fun j hj => ?_,
    fun j hj hv => ?_⟩
  · by_cases hik : i = k <;> by_cases hjk : j = k
    · rw [hik, hjk]
    · subst hik
      rw [St.Used, setInode_self] at hi
      rw [St.Used, setInode_of_ne hjk] at hj
      rw [setInode_self, setInode_of_ne hjk] at he
      exact absurd he.symm (huniq hi j hjk hj)
    · subst hjk
      rw [St.Used, setInode_self] at hj
      rw [St.Used, setInode_of_ne hik] at hi
      rw [setInode_self, setInode_of_ne hik] at he
      exact absurd he (huniq hj i hik hi)
    · rw [St.Used, setInode_of_ne hik] at hi
      rw [St.Used, setInode_of_ne hjk] at hj
      rw [setInode_of_ne hik, setInode_of_ne hjk] at he
      exact h.uniq i j hi hj he
  · by_cases hjk : j = k
    · subst hjk
      rw [St.Used, setInode_self] at hj
      rw [setInode_self]
      exact hlt hj
    · rw [St.Used, setInode_of_ne hjk] at hj
      rw [setInode_of_ne hjk]
      exact h.inum_lt j hj
  · by_cases hjk : j = k
    · subst hjk
      rw [St.Used, setInode_self] at hj
      rw [setInode_self] at hv ⊢
      exact hvalid hj hv
    · rw [St.Used, setInode_of_ne hjk] at hj
      rw [setInode_of_ne hjk] at hv ⊢
      exact h.valid j hj hv

/-- The same entry, with another count, lock or copy of the inode. -/
theorem Consistent.setSame (h : Consistent s) (hk : s.Used k) (hv : v.inum = (s.icache k).inum)
    (hvalid : v.valid = true → v.din = s.node v.inum ∧ v.din.type ≠ 0) :
    Consistent (s.setInode k v) :=
  h.setInode (fun _ j hjk hj he => hjk (h.uniq j k hj hk (he.trans hv)))
    (fun _ => hv ▸ h.inum_lt k hk) fun _ => hvalid

theorem Inv.setInode (h : Inv s L) {L' : Set Nat} (hc : Consistent (s.setInode k v))
    (hL : ∀ j, j ≠ k → s.Used j → ((s.icache j).inum ∈ L' ↔ (s.icache j).inum ∈ L))
    (hbusy : 0 < v.ref → (v.busy = true ↔ v.inum ∈ L')) (hv : v.busy = true → v.valid = true)
    (hpos : ∀ i ∈ L', 0 < (s.setInode k v).refOf i) : Inv (s.setInode k v) L' := by
  refine ⟨hc, fun j hj => ?_, fun j hj hb => ?_, hpos⟩
  · by_cases hjk : j = k
    · subst hjk
      rw [St.Used, setInode_self] at hj
      rw [setInode_self]
      exact hbusy hj
    · rw [St.Used, setInode_of_ne hjk] at hj
      rw [setInode_of_ne hjk, hL j hjk hj]
      exact h.busy j hj
  · by_cases hjk : j = k
    · subst hjk
      rw [setInode_self] at hb ⊢
      exact hv hb
    · rw [St.Used, setInode_of_ne hjk] at hj
      rw [setInode_of_ne hjk] at hb ⊢
      exact h.valid j hj hb

end Entries

/-! ## What a call holds -/

/-- From `s` to `t` nothing has changed but the inode cache, and an inode
still in use is where it was. -/
structure Moved (s t : St) : Prop where
  kept : Kept s t
  stays : ∀ k i, Points s k i → 0 < t.refOf i → Points t k i

theorem Moved.setInode {s : St} {k : Fin NINODE} {v : Inode} (h : Consistent s)
    (hv : s.Used k → v.inum = (s.icache k).inum) : Moved s (s.setInode k v) := by
  refine ⟨.setInode s k v, fun j i hj hpos => ?_⟩
  by_cases hjk : j = k
  · subst hjk
    obtain ⟨l, hl⟩ := refOf_pos_iff.mp hpos
    by_cases hlj : l = j
    · exact hlj ▸ hl
    · -- then the inode had two entries
      rw [Points, St.Used, setInode_of_ne hlj] at hl
      exact absurd (h.uniq l j hl.1 hj.1 (hl.2.trans hj.2.symm)) hlj
  · rw [Points, St.Used, setInode_of_ne hjk]
    exact hj

theorem Moved.trans {s t u : St} (h₁ : Moved s t) (h₂ : Moved t u)
    (hle : ∀ i, u.refOf i ≤ t.refOf i) : Moved s u :=
  ⟨h₁.kept.trans h₂.kept, fun k i hk hpos =>
    h₂.stays k i (h₁.stays k i hk (Nat.lt_of_lt_of_le hpos (hle i))) hpos⟩

/-- **A call under way**: since `s₀` it has taken the references `held`
and the locks `L`, and all that was referenced in `s₀` is where it was. -/
structure Holding (s₀ : St) (L : Set Nat) (held : Multiset Nat) (t : St) : Prop where
  inv : Inv t L
  refs : ∀ i, t.refOf i = s₀.refOf i + held.count i
  pins : ∀ k i, Points s₀ k i → Points t k i

section Holding

variable {s₀ s t : St} {L L' : Set Nat} {held held' : Multiset Nat} {i : Nat} {k : Fin NINODE}

theorem Inv.holding (h : Inv s L) : Holding s L 0 s :=
  ⟨h, fun i => by rw [Multiset.count_zero, Nat.add_zero], fun _ _ hk => hk⟩

theorem Holding.step (h : Holding s₀ L held s) (hm : Moved s t) (hinv : Inv t L')
    (hrefs : ∀ i, t.refOf i = s₀.refOf i + held'.count i) : Holding s₀ L' held' t := by
  refine ⟨hinv, hrefs, fun k i hk => hm.stays k i (h.pins k i hk) ?_⟩
  have hpos : 0 < s₀.refOf i := refOf_pos_iff.mpr ⟨k, hk⟩
  have := hrefs i
  omega

/-- What the call holds is in use. -/
theorem Holding.pos (h : Holding s₀ L held t) (hi : i ∈ held) : 0 < t.refOf i := by
  have := h.refs i
  have := Multiset.count_pos.mpr hi
  omega

/-- What the call still holds is where it was. -/
theorem Holding.stays (h : Holding s₀ L held t) (hm : Moved s t) (hk : Points s k i)
    (hi : i ∈ held) : Points t k i := hm.stays k i hk (h.pos hi)

/-- The entries of the inode cache that are not in use. -/
def St.freeEntries (s : St) : Nat := (Finset.univ.filter fun k => (s.icache k).ref = 0).card

/-- **A full cache**: what the call holds has taken the entries that were
free. -/
theorem Holding.freeEntries_le (h : Holding s₀ L held t) (hfull : ∀ k, (t.icache k).ref ≠ 0) :
    s₀.freeEntries ≤ held.card := by
  have hused : ∀ k, t.Used k := fun k => Nat.pos_of_ne_zero (hfull k)
  have hmaps : ∀ k ∈ Finset.univ.filter (fun k => (s₀.icache k).ref = 0),
      (t.icache k).inum ∈ held.toFinset := by
    intro k hk
    rw [Multiset.mem_toFinset, ← Multiset.count_pos]
    by_contra h0
    -- then it was referenced before, and in another entry
    have hpos : 0 < t.refOf (t.icache k).inum := refOf_pos_iff.mpr ⟨k, hused k, rfl⟩
    rw [h.refs] at hpos
    obtain ⟨l, hl⟩ := refOf_pos_iff.mp (show 0 < s₀.refOf (t.icache k).inum by omega)
    have hlt := h.pins l _ hl
    have hlk : l = k := h.inv.cons.uniq l k hlt.1 (hused k) hlt.2
    have hzero := (Finset.mem_filter.mp hk).2
    rw [← hlk] at hzero
    exact absurd hl.1 (by rw [St.Used, hzero]; exact Nat.lt_irrefl 0)
  have hinj : Set.InjOn (fun k => (t.icache k).inum)
      (Finset.univ.filter fun k => (s₀.icache k).ref = 0 : Finset (Fin NINODE)) :=
    fun k _ l _ he => h.inv.cons.uniq k l (hused k) (hused l) he
  exact (Finset.card_le_card_of_injOn _ hmaps hinj).trans (Multiset.toFinset_card_le held)

end Holding

/-! ## The calls -/

section Calls

variable {s₀ s : St} {E : Stop → Prop} {L : Set Nat} {held : Multiset Nat} {k : Fin NINODE}
  {i : Nat}

def noInodes : Stop := .panic "iget: no inodes"

def noType : Stop := .panic "ilock: no type"

theorem iget_cases (inum : Nat)
    (hE : (∀ k, (s.icache k).ref ≠ 0) → s.refOf inum = 0 → E noInodes) :
    Ensures (iget inum) s E fun k t =>
      (Points s k inum ∧ t = s.setInode k { s.icache k with ref := (s.icache k).ref + 1 }) ∨
      (s.refOf inum = 0 ∧ (s.icache k).ref = 0 ∧
        t = s.setInode k ⟨inum, 1, false, false, (s.icache k).din⟩) := by
  simp only [iget, ensures_bind, ensures_get]
  cases hfind : (List.finRange NINODE).find? fun k =>
      0 < (s.icache k).ref ∧ (s.icache k).inum = inum with
  | some k =>
      have hk := List.find?_some hfind
      simp only [decide_eq_true_iff] at hk
      simp only [modInode, ensures_bind, ensures_modify, ensures_pure]
      exact Or.inl ⟨hk, trivial⟩
  | none =>
      have hno : s.refOf inum = 0 := by
        by_contra h0
        obtain ⟨j, hj⟩ := refOf_pos_iff.mp (Nat.pos_of_ne_zero h0)
        have := List.find?_eq_none.mp hfind j (List.mem_finRange j)
        simp only [decide_eq_true_iff] at this
        exact this hj
      cases hfree : (List.finRange NINODE).find? fun k => (s.icache k).ref = 0 with
      | some k =>
          have hk := List.find?_some hfree
          simp only [decide_eq_true_iff] at hk
          simp only [modInode, ensures_bind, ensures_modify, ensures_pure]
          exact Or.inr ⟨hno, hk, trivial⟩
      | none =>
          refine hE (fun j hj => ?_) hno
          have := List.find?_eq_none.mp hfree j (List.mem_finRange j)
          simp only [decide_eq_true_iff] at this
          exact this hj

/-- Another reference to an inode in use. -/
theorem Holding.again (h : Holding s₀ L held s) (hk : Points s k i) :
    Moved s (s.setInode k { s.icache k with ref := (s.icache k).ref + 1 }) ∧
      Holding s₀ L (i ::ₘ held) (s.setInode k { s.icache k with ref := (s.icache k).ref + 1 }) := by
  set v : Inode := { s.icache k with ref := (s.icache k).ref + 1 } with hv
  have hinv := h.inv
  have hc : Consistent (s.setInode k v) := hinv.cons.setSame hk.1 rfl (hinv.cons.valid k hk.1)
  have hrefs : ∀ j, (s.setInode k v).refOf j = s.refOf j + if j = i then 1 else 0 :=
    refOf_take hk.2 (by rw [refIn, if_pos hk.2])
      fun j hj => if_neg fun he => hj (he.symm.trans hk.2)
  have hm : Moved s (s.setInode k v) := .setInode hinv.cons fun _ => rfl
  refine ⟨hm, h.step hm (hinv.setInode hc (fun _ _ _ => Iff.rfl) (fun _ => hinv.busy k hk.1)
    (hinv.valid k hk.1) fun j hj => ?_) fun j => ?_⟩
  · have := hinv.locked j hj
    rw [hrefs]
    omega
  · rw [hrefs, h.refs, Multiset.count_cons]
    omega

/-- **`iget`** takes a reference. -/
theorem iget_spec (h : Holding s₀ L held s) (hlt : i < s.sb.ninodes)
    (hE : (∀ k, (s.icache k).ref ≠ 0) → s.refOf i = 0 → E noInodes) :
    Ensures (iget i) s E fun k t =>
      Moved s t ∧ Holding s₀ L (i ::ₘ held) t ∧ Points t k i := by
  refine (iget_cases i hE).next ?_
  rintro k t (⟨hk, rfl⟩ | ⟨hno, h0, rfl⟩)
  · obtain ⟨hm, hh⟩ := h.again hk
    exact ⟨hm, hh, hh.stays hm hk (Multiset.mem_cons_self i held)⟩
  · set v : Inode := ⟨i, 1, false, false, (s.icache k).din⟩ with hv
    have hinv := h.inv
    have hfree : ¬s.Used k := by
      rw [St.Used]
      omega
    have hother : ∀ j, j ≠ k → s.Used j → (s.icache j).inum ≠ i := by
      intro j _ hj he
      have := refOf_pos_iff.mpr ⟨j, hj, he⟩
      omega
    have hc : Consistent (s.setInode k v) :=
      hinv.cons.setInode (fun _ => hother) (fun _ => hlt) fun _ hval => absurd hval (by simp [hv])
    have hz : ∀ j, refIn j (s.icache k) = 0 := fun j => by
      rw [refIn, h0, ite_self]
    have hrefs : ∀ j, (s.setInode k v).refOf j = s.refOf j + if j = i then 1 else 0 :=
      refOf_take rfl (by rw [hz]) fun j _ => hz j
    have hiL : i ∉ L := fun hi => by
      have := hinv.locked i hi
      omega
    have hm : Moved s (s.setInode k v) := .setInode hinv.cons fun hk => absurd hk hfree
    have hh : Holding s₀ L (i ::ₘ held) (s.setInode k v) := by
      refine h.step hm (hinv.setInode hc (fun _ _ _ => Iff.rfl) (fun _ => ⟨fun hb => ?_,
        fun hi => absurd hi hiL⟩) (fun hb => ?_) fun j hj => ?_) fun j => ?_
      · exact absurd hb (by simp [hv])
      · exact absurd hb (by simp [hv])
      · have := hinv.locked j hj
        rw [hrefs]
        omega
      · rw [hrefs, h.refs, Multiset.count_cons]
        omega
    refine ⟨hm, hh, ?_, ?_⟩
    · rw [St.Used, setInode_self]
      exact Nat.one_pos
    · rw [setInode_self]

/-- **`idup`** takes another reference to an inode in use. -/
theorem idup_spec (h : Holding s₀ L held s) (hk : Points s k i) :
    Ensures (idup k) s E fun j t =>
      j = k ∧ Moved s t ∧ Holding s₀ L (i ::ₘ held) t ∧ Points t k i := by
  simp only [idup, modInode, ensures_bind, ensures_modify, ensures_pure]
  obtain ⟨hm, hh⟩ := h.again hk
  exact ⟨trivial, hm, hh, hh.stays hm hk (Multiset.mem_cons_self i held)⟩

/-- The entry of inode `i` gets or loses its lock. -/
theorem Holding.setLock (h : Holding s₀ L held s) (hk : Points s k i) {v : Inode}
    {L' : Set Nat} (hinum : v.inum = i) (href : v.ref = (s.icache k).ref)
    (hbusy : v.busy = true ↔ i ∈ L') (hother : ∀ j, j ≠ i → (j ∈ L' ↔ j ∈ L))
    (hval : v.busy = true → v.valid = true)
    (hvalid : v.valid = true → v.din = s.node i ∧ v.din.type ≠ 0) :
    Moved s (s.setInode k v) ∧ Holding s₀ L' held (s.setInode k v) ∧
      Points (s.setInode k v) k i := by
  have hinv := h.inv
  have hv : v.inum = (s.icache k).inum := hinum.trans hk.2.symm
  have hc : Consistent (s.setInode k v) := hinv.cons.setSame hk.1 hv (hinum ▸ hvalid)
  have hrefs : ∀ j, (s.setInode k v).refOf j = s.refOf j := refOf_same hv href
  have hm : Moved s (s.setInode k v) := .setInode hinv.cons fun _ => hv
  refine ⟨hm, h.step hm (hinv.setInode hc (fun j hjk hj => ?_) (fun _ => hinum ▸ hbusy) hval
    fun j hj => ?_) fun j => ?_, ?_⟩
  · exact hother _ fun he => hjk (hinv.cons.uniq j k hj hk.1 (he.trans hk.2.symm))
  · rw [hrefs]
    by_cases hji : j = i
    · exact refOf_pos_iff.mpr ⟨k, hji ▸ hk⟩
    · exact hinv.locked j ((hother j hji).mp hj)
  · rw [hrefs, h.refs]
  · rw [Points, St.Used, setInode_self, href]
    exact ⟨hk.1, hinum⟩

/-- **`ilock`** locks an inode that is not locked. -/
theorem ilock_spec (h : Holding s₀ L held s) (hk : Points s k i) (hi : i ∉ L)
    (hE : (s.node i).type = 0 → E noType) :
    Ensures (ilock k) s E fun _ t =>
      Moved s t ∧ Holding s₀ (insert i L) held t ∧ Points t k i := by
  have hinv := h.inv
  have hbusy : (s.icache k).busy = false := by
    rw [← Bool.not_eq_true, hinv.busy k hk.1, hk.2]
    exact hi
  have hone : ¬(s.icache k).ref < 1 := Nat.not_lt.mpr hk.1
  have hlt : i < s.sb.ninodes := hk.2 ▸ hinv.cons.inum_lt k hk.1
  have hother : ∀ j, j ≠ i → (j ∈ insert i L ↔ j ∈ L) := fun j hj => Set.mem_insert_iff.trans
    (or_iff_right hj)
  have hself : true = true ↔ i ∈ insert i L := iff_of_true rfl (Set.mem_insert i L)
  simp only [ilock, ensures_bind, ensures_get]
  rw [if_neg hone, if_neg (by rw [hbusy]; decide)]
  by_cases hv : (s.icache k).valid = true
  · rw [if_pos hv]
    simp only [modInode, ensures_modify]
    exact h.setLock hk hk.2 rfl hself hother (fun _ => hv) fun _ => hk.2 ▸ hinv.cons.valid k hk.1 hv
  · rw [if_neg hv]
    have hd : dinodeAt s.sb s.disk (s.icache k).inum = s.node i := by
      rw [hk.2, St.node, nodes, if_pos hlt]
    simp only [modInode, ensures_bind, ensures_modify, hd]
    by_cases h0 : (s.node i).type = 0
    · rw [if_pos h0]
      exact hE h0
    · rw [if_neg h0]
      exact h.setLock hk hk.2 rfl hself hother (fun _ => rfl) fun _ => ⟨rfl, h0⟩

/-- **`iunlock`** gives up a lock. -/
theorem iunlock_spec (h : Holding s₀ L held s) (hk : Points s k i) (hi : i ∈ L) :
    Ensures (iunlock k) s E fun _ t =>
      Moved s t ∧ Holding s₀ (L \ {i}) held t ∧ Points t k i := by
  have hinv := h.inv
  have hbusy : (s.icache k).busy = true := (hinv.busy k hk.1).mpr (hk.2.symm ▸ hi)
  have hok : ¬((s.icache k).busy = false ∨ (s.icache k).ref < 1) := by
    rw [hbusy, not_or]
    exact ⟨by decide, Nat.not_lt.mpr hk.1⟩
  simp only [iunlock, ensures_bind, ensures_get]
  rw [if_neg hok]
  simp only [modInode, ensures_modify]
  refine h.setLock hk hk.2 rfl (iff_of_false Bool.false_ne_true fun hx => hx.2 rfl)
    (fun j hj => ⟨fun hx => hx.1, fun hx => ⟨hx, hj⟩⟩) (fun hb => absurd hb Bool.false_ne_true)
    fun _ => hk.2 ▸ hinv.cons.valid k hk.1 (hinv.valid_of_mem hk hi)

/-- **`iput`** of an inode that others reference or that has a link gives
up a reference and no more. -/
theorem iput_spec (h : Holding s₀ L (i ::ₘ held) s) (hk : Points s k i)
    (hlock : i ∈ L → 0 < s₀.refOf i + held.count i)
    (hlink : s₀.refOf i + held.count i = 0 → (s.node i).nlink ≠ 0) :
    Ensures (iput k) s E fun _ t => Moved s t ∧ Holding s₀ L held t := by
  have hinv := h.inv
  have hcount : (s.icache k).ref = s₀.refOf i + held.count i + 1 := by
    rw [← hinv.cons.refOf_eq hk, h.refs, Multiset.count_cons_self, Nat.add_assoc]
  have hno : ¬((s.icache k).ref = 1 ∧ (s.icache k).valid = true ∧ (s.icache k).din.nlink = 0) := by
    rintro ⟨hone, hval, h0⟩
    rw [(hinv.cons.valid k hk.1 hval).1, hk.2] at h0
    exact hlink (by omega) h0
  simp only [iput, ifree, ensures_bind, ensures_get]
  rw [if_neg hno]
  simp only [modInode, ensures_pure, ensures_modify]
  set v : Inode := { s.icache k with ref := (s.icache k).ref - 1 } with hv
  have hc : Consistent (s.setInode k v) := hinv.cons.setSame hk.1 rfl (hinv.cons.valid k hk.1)
  have hrefs : ∀ j, s.refOf j = (s.setInode k v).refOf j + if j = i then 1 else 0 := by
    rw [← hk.2]
    exact refOf_drop rfl (by rw [hv]; exact Nat.sub_add_cancel hk.1)
  have hheld : ∀ j, (s.setInode k v).refOf j = s₀.refOf j + held.count j := by
    intro j
    have h1 := hrefs j
    rw [h.refs, Multiset.count_cons] at h1
    omega
  have hm : Moved s (s.setInode k v) := .setInode hinv.cons fun _ => rfl
  refine ⟨hm, h.step hm (hinv.setInode hc (fun _ _ _ => Iff.rfl) (fun _ => hinv.busy k hk.1)
    (hinv.valid k hk.1) fun j hj => ?_) hheld⟩
  rw [hheld]
  by_cases hji : j = i
  · subst hji
    exact hlock hj
  · have h1 := hinv.locked j hj
    rw [h.refs, Multiset.count_cons_of_ne hji] at h1
    exact h1

/-- **`iunlockput`**. -/
theorem iunlockput_spec (h : Holding s₀ L (i ::ₘ held) s) (hk : Points s k i) (hi : i ∈ L)
    (hlink : s₀.refOf i + held.count i = 0 → (s.node i).nlink ≠ 0) :
    Ensures (iunlockput k) s E fun _ t => Moved s t ∧ Holding s₀ (L \ {i}) held t := by
  simp only [iunlockput, ensures_bind]
  refine (iunlock_spec h hk hi).next ?_
  rintro _ t ⟨hm, ht, hkt⟩
  have hnode : t.node = s.node := hm.kept.node
  refine (iput_spec ht hkt (fun hx => absurd rfl hx.2) (hnode ▸ hlink)).next ?_
  rintro _ u ⟨hm', hu⟩
  refine ⟨hm.trans hm' fun j => ?_, hu⟩
  rw [hu.refs, ht.refs]
  exact Nat.add_le_add_left (Multiset.count_le_count_cons j i held) _

end Calls

end Xv6.Fs
