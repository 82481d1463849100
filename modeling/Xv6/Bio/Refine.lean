import Xv6.Bio.Cache

/-!
# Bio — the cache is an array of blocks

The array a client sees is the initial disk with every store applied, in
the order the stores were made (`contents`). The invariant has two
parts. `Owned` is about `B_BUSY`: a buffer that some process has got
from `bget` is busy, and only one process has it. `Coherent` is about
the data: a valid buffer agrees with the array, and the disk agrees with
the array at every block that no DIRTY or just changed buffer caches.
Recycling takes a buffer that is neither busy nor dirty, so nothing the
disk does not have is lost.
-/

namespace Xv6.Bio

open Lib

variable {P : Type} [DecidableEq P]

/-- The array of blocks: the initial disk with all stores so far. -/
def St.contents (disk0 : Disk) (s : St P) : Disk := applyWrites disk0 s.stores

/-- The buffers process `p` got from `bget` and has not released. -/
def St.owned (s : St P) (p : P) : List (Fin NBUF) :=
  match s.pc p with
  | .fill k _ _ => k :: s.held p
  | _ => s.held p

omit [DecidableEq P] in
theorem St.held_subset_owned (s : St P) {p : P} {k : Fin NBUF} (h : k ∈ s.held p) :
    k ∈ s.owned p := by
  unfold St.owned
  split
  · exact List.mem_cons_of_mem _ h
  · exact h

omit [DecidableEq P] in
theorem St.owned_of_fill {s : St P} {p : P} {k : Fin NBUF} {dev b : Nat}
    (h : s.pc p = .fill k dev b) : s.owned p = k :: s.held p := by
  rw [St.owned, h]

omit [DecidableEq P] in
@[simp] theorem setBuf_buf_self (s : St P) (k : Fin NBUF) (b : Buf) :
    (s.setBuf k b).buf k = b := Function.update_self ..

omit [DecidableEq P] in
theorem setBuf_buf_of_ne {s : St P} {k l : Fin NBUF} {b : Buf} (h : l ≠ k) :
    (s.setBuf k b).buf l = s.buf l := Function.update_of_ne h ..

omit [DecidableEq P] in
@[simp] theorem setBuf_contents (disk0 : Disk) (s : St P) (k : Fin NBUF) (b : Buf) :
    (s.setBuf k b).contents disk0 = s.contents disk0 := rfl

/-! ## Busy buffers have one owner -/

structure Owned (s : St P) : Prop where
  listed : ∀ k, k ∈ s.order
  busy : ∀ p, ∀ k ∈ s.owned p, (s.buf k).busy = true
  nodup : ∀ p, (s.owned p).Nodup
  single : ∀ p q k, k ∈ s.owned p → k ∈ s.owned q → p = q

omit [DecidableEq P] in
theorem Owned.init (disk : Disk) : Owned (St.init P disk) where
  listed k := by simp [St.init]
  busy p k hk := by simp [St.init, St.owned] at hk
  nodup p := by simp [St.init, St.owned]
  single p q k hk := by simp [St.init, St.owned] at hk

omit [DecidableEq P] in
/-- A step that moves no buffer between processes and releases none. -/
theorem Owned.of_owned_eq {s s' : St P} (h : Owned s) (hord : s'.order = s.order)
    (hown : ∀ p, s'.owned p = s.owned p)
    (hbusy : ∀ k, (s.buf k).busy = true → (s'.buf k).busy = true) : Owned s' where
  listed k := by rw [hord]; exact h.listed k
  busy p k hk := hbusy k (h.busy p k (by rwa [← hown]))
  nodup p := by rw [hown]; exact h.nodup p
  single p q k hp hq := h.single p q k (by rwa [← hown]) (by rwa [← hown])

omit [DecidableEq P] in
/-- `bget` hands a buffer that was not busy to process `p`. -/
theorem Owned.grant {s s' : St P} {p : P} {k : Fin NBUF} (h : Owned s)
    (hord : s'.order = s.order) (hfree : (s.buf k).busy = false)
    (hp : s'.owned p = k :: s.owned p) (hq : ∀ q, q ≠ p → s'.owned q = s.owned q)
    (hk : (s'.buf k).busy = true) (hl : ∀ l, l ≠ k → s'.buf l = s.buf l) : Owned s' := by
  have hnot : ∀ q, k ∉ s.owned q := by
    intro q hmem
    rw [h.busy q k hmem] at hfree
    cases hfree
  have hmem : ∀ q l, l ∈ s'.owned q → (q = p ∧ l = k) ∨ (l ≠ k ∧ l ∈ s.owned q) := by
    intro q l hlq
    by_cases hqp : q = p
    · rw [hqp, hp] at hlq
      rcases List.mem_cons.mp hlq with rfl | hlq
      · exact Or.inl ⟨hqp, rfl⟩
      · exact Or.inr ⟨fun he => hnot p (he ▸ hlq), hqp ▸ hlq⟩
    · rw [hq q hqp] at hlq
      exact Or.inr ⟨fun he => hnot q (he ▸ hlq), hlq⟩
  refine ⟨fun l => hord ▸ h.listed l, ?_, ?_, ?_⟩
  · intro q l hlq
    rcases hmem q l hlq with ⟨_, rfl⟩ | ⟨hlk, hlq⟩
    · exact hk
    · rw [hl l hlk]; exact h.busy q l hlq
  · intro q
    by_cases hqp : q = p
    · rw [hqp, hp]; exact List.nodup_cons.mpr ⟨hnot p, h.nodup p⟩
    · rw [hq q hqp]; exact h.nodup q
  · intro q r l hlq hlr
    rcases hmem q l hlq with ⟨rfl, rfl⟩ | ⟨hlk, hlq⟩ <;>
      rcases hmem r l hlr with ⟨rfl, he⟩ | ⟨hlk', hlr⟩
    · rfl
    · exact absurd rfl hlk'
    · exact absurd he hlk
    · exact h.single q r l hlq hlr

theorem setPc_owned_of_ne (s : St P) {p q : P} (c : Pc) (h : q ≠ p) :
    (s.setPc p c).owned q = s.owned q := by
  simp [St.owned, St.setPc, Function.update_of_ne h]

/-- Moving between two places outside `fill` changes no ownership. -/
theorem setPc_owned {s : St P} {p : P} {c : Pc} (h : s.owned p = s.held p)
    (hc : (s.setPc p c).owned p = s.held p) (q : P) : (s.setPc p c).owned q = s.owned q := by
  by_cases hq : q = p
  · rw [hq, hc, h]
  · exact setPc_owned_of_ne s c hq

theorem Owned.setBusy {s : St P} {p : P} {k : Fin NBUF} {b : Buf} {dev blockno : Nat}
    (h : Owned s) (hpc : s.owned p = s.held p) (hfree : (s.buf k).busy = false)
    (hb : b.busy = true) : Owned ((s.setBuf k b).setPc p (.fill k dev blockno)) := by
  refine h.grant (p := p) (k := k) rfl hfree ?_ ?_ ?_ ?_
  · rw [St.owned_of_fill (Function.update_self ..), hpc]; rfl
  · intro q hq; exact setPc_owned_of_ne (s.setBuf k b) _ hq
  · simp [St.setPc, St.setBuf, hb]
  · intro l hl; simp [St.setPc, St.setBuf, hl]

theorem Owned.bget {s : St P} {p : P} {dev blockno : Nat} (h : Owned s)
    (hpc : s.pc p = .scan dev blockno) : Owned (bget s p dev blockno) := by
  have hown : s.owned p = s.held p := by rw [St.owned, hpc]
  unfold Bio.bget
  split
  · rename_i k _
    split
    · rename_i hfree
      exact h.setBusy hown hfree rfl
    · exact h.of_owned_eq rfl (setPc_owned hown (by simp [St.owned, St.setPc])) fun _ hb => hb
  · split
    · rename_i k hk
      have hfree : (s.buf k).busy = false := by
        have := List.find?_some hk
        simp only [decide_eq_true_eq] at this
        exact this.1
      exact h.setBusy hown hfree rfl
    · exact h.of_owned_eq rfl (fun _ => rfl) fun _ hb => hb

omit [DecidableEq P] in
/-- `iderw` touches the data and two flags of one buffer, and the disk. -/
theorem iderw_frame (disksize : Nat) (s : St P) (k : Fin NBUF) :
    (iderw disksize s k).order = s.order ∧ (iderw disksize s k).pc = s.pc ∧
      (iderw disksize s k).held = s.held ∧ (iderw disksize s k).stores = s.stores ∧
      (iderw disksize s k).unsaved = s.unsaved ∧
      ∀ l, ((iderw disksize s k).buf l).busy = (s.buf l).busy := by
  unfold iderw St.panic St.setBuf
  dsimp only
  split_ifs <;> refine ⟨rfl, rfl, rfl, rfl, rfl, fun l => ?_⟩ <;>
    by_cases hl : l = k <;> simp [hl]

omit [DecidableEq P] in
theorem iderw_owned (disksize : Nat) (s : St P) (k : Fin NBUF) (p : P) :
    (iderw disksize s k).owned p = s.owned p := by
  obtain ⟨_, hpc, hheld, _⟩ := iderw_frame disksize s k
  rw [St.owned, St.owned, hpc, hheld]

omit [DecidableEq P] in
theorem Owned.iderw {disksize : Nat} {s : St P} {k : Fin NBUF} (h : Owned s) :
    Owned (iderw disksize s k) := by
  obtain ⟨hord, _, _, _, _, hbusy⟩ := iderw_frame disksize s k
  exact h.of_owned_eq hord (iderw_owned disksize s k) fun l hl => by rw [hbusy l, hl]

omit [DecidableEq P] in
theorem Owned.setBuf {s : St P} {k : Fin NBUF} {b : Buf} (h : Owned s)
    (hb : b.busy = (s.buf k).busy) : Owned (s.setBuf k b) := by
  refine h.of_owned_eq rfl (fun _ => rfl) fun l hl => ?_
  by_cases hlk : l = k
  · subst hlk; simpa [St.setBuf, hb] using hl
  · simpa [St.setBuf, hlk] using hl

theorem Owned.fill {disksize : Nat} {s : St P} {p : P} {k : Fin NBUF} {dev blockno : Nat}
    (h : Owned s) (hpc : s.pc p = .fill k dev blockno) : Owned (fill disksize s p k) := by
  have hread : ∀ t : St P, Owned t → t.pc p = .fill k dev blockno →
      Owned (if t.panicked.isSome then t else t.hold p k) := by
    intro t ht htpc
    split
    · exact ht
    · refine ht.of_owned_eq rfl (fun q => ?_) fun _ hb => hb
      by_cases hq : q = p
      · subst hq
        rw [St.owned_of_fill htpc]
        simp [St.owned, St.hold]
      · simp [St.owned, St.hold, hq]
  unfold Bio.fill
  dsimp only
  by_cases hv : (s.buf k).valid = false
  · rw [if_pos hv]
    exact hread _ h.iderw (by rw [(iderw_frame disksize s k).2.1, hpc])
  · rw [if_neg hv]
    exact hread s h hpc

theorem wakeup_eq_fill {c : Pc} {k l : Fin NBUF} {dev b : Nat} :
    c.wakeup k = .fill l dev b ↔ c = .fill l dev b := by
  cases c <;> simp only [Pc.wakeup]
  split <;> simp

omit [DecidableEq P] in
/-- Waking a process changes no ownership. -/
theorem wakeup_owned {s t : St P} {k : Fin NBUF} {q : P} (hpc : t.pc q = (s.pc q).wakeup k)
    (hheld : t.held q = s.held q) : t.owned q = s.owned q := by
  rw [St.owned, St.owned, hpc, hheld]
  cases s.pc q with
  | sleeping l dev b =>
      simp only [Pc.wakeup]
      by_cases hl : l = k <;> simp [hl]
  | _ => rfl

theorem Owned.brelse {s : St P} {p : P} {k : Fin NBUF} (h : Owned s) (hk : s.Uses p k) :
    Owned (brelse s p k) := by
  have hown : s.owned p = s.held p := by rw [St.owned, hk.1]
  unfold Bio.brelse
  split
  · exact h.of_owned_eq rfl (fun _ => rfl) fun _ hb => hb
  · have hp : (s.release p k).owned p = (s.owned p).erase k := by
      rw [hown]
      simp only [St.owned, St.release, hk.1, Pc.wakeup, Function.update_self]
    have hq : ∀ q, q ≠ p → (s.release p k).owned q = s.owned q := fun q hq =>
      wakeup_owned (k := k) rfl (by simp [St.release, hq])
    -- only `p` had the buffer, and had it once, so nobody has it now
    have hmem : ∀ q l, l ∈ (s.release p k).owned q → l ≠ k ∧ l ∈ s.owned q := by
      intro q l hl
      by_cases hqp : q = p
      · rw [hqp, hp, (h.nodup p).mem_erase_iff] at hl
        exact hqp ▸ hl
      · rw [hq q hqp] at hl
        exact ⟨fun he => hqp (h.single q p k (he ▸ hl) (s.held_subset_owned hk.2)), hl⟩
    refine ⟨fun l => ?_, fun q l hl => ?_, fun q => ?_, fun q r l hlq hlr => ?_⟩
    · by_cases hl : l = k
      · simp [St.release, hl]
      · simp [St.release, hl, h.listed l]
    · obtain ⟨hlk, hl⟩ := hmem q l hl
      simpa [St.release, St.setBuf, hlk] using h.busy q l hl
    · by_cases hqp : q = p
      · rw [hqp, hp]; exact (h.nodup p).erase k
      · rw [hq q hqp]; exact h.nodup q
    · exact h.single q r l (hmem q l hlq).2 (hmem r l hlr).2

theorem Owned.step {disksize : Nat} {s s' : St P} {a : Act P} (h : Owned s)
    (hs : step disksize s a = some s') : Owned s' := by
  obtain ⟨_, ⟨p, dev, b, hpc, rfl⟩ | ⟨p, dev, b, hpc, rfl⟩ | ⟨p, k, dev, b, hpc, rfl⟩ |
    ⟨p, k, data, hk, rfl⟩ | ⟨p, k, hk, rfl⟩ | ⟨p, k, hk, rfl⟩ | ⟨p, k, hk, -, rfl⟩⟩ :=
    step_cases hs
  · have hown : s.owned p = s.held p := by rw [St.owned, hpc]
    exact h.of_owned_eq rfl (setPc_owned hown (by simp [St.owned, St.setPc])) fun _ hb => hb
  · exact h.bget hpc
  · exact h.fill hpc
  · have h' := h.setBuf (k := k) (b := { s.buf k with data := data }) rfl
    exact h'.of_owned_eq rfl (fun _ => rfl) fun _ hb => hb
  · have h' := h.setBuf (k := k) (b := { s.buf k with dirty := true }) rfl
    exact h'.of_owned_eq rfl (fun _ => rfl) fun _ hb => hb
  · have h' : Owned (bwrite disksize s k) := by
      unfold bwrite
      split
      · exact h.of_owned_eq rfl (fun _ => rfl) fun _ hb => hb
      · exact Owned.iderw (h.setBuf (k := k) (b := { s.buf k with dirty := true }) rfl)
    exact h'.of_owned_eq rfl (fun _ => rfl) fun _ hb => hb
  · exact h.brelse hk

/-! ## Valid buffers agree with the array -/

structure Coherent (disksize : Nat) (disk0 : Disk) (s : St P) : Prop where
  unique : ∀ k l, (s.buf k).dev ≠ NODEV → (s.buf k).dev = (s.buf l).dev →
    (s.buf k).blockno = (s.buf l).blockno → k = l
  dirty_valid : ∀ k, (s.buf k).dirty = true → (s.buf k).valid = true
  in_range : ∀ k, (s.buf k).valid = true → (s.buf k).dev = DISK ∧ (s.buf k).blockno < disksize
  held_valid : ∀ p, ∀ k ∈ s.held p, (s.buf k).valid = true
  filling : ∀ p k dev b, s.pc p = .fill k dev b → (s.buf k).dev = dev ∧ (s.buf k).blockno = b
  unsaved_busy : ∀ k, s.unsaved k = true → (s.buf k).busy = true
  data : ∀ k, (s.buf k).valid = true → (s.buf k).data = s.contents disk0 (s.buf k).blockno
  /-- The disk is behind the array only where a pinned or just changed
  buffer has the block. -/
  disk : ∀ b, s.disk b = s.contents disk0 b ∨ ∃ k, (s.buf k).valid = true ∧
    (s.buf k).blockno = b ∧ ((s.buf k).dirty = true ∨ s.unsaved k = true)

variable {disksize : Nat} {disk0 : Disk}

omit [DecidableEq P] in
theorem Coherent.init : Coherent disksize disk0 (St.init P disk0) where
  unique k l hk := absurd rfl hk
  dirty_valid k h := by cases h
  in_range k h := by cases h
  held_valid p k h := by cases h
  filling p k dev b h := by cases h
  unsaved_busy k h := by cases h
  data k h := by cases h
  disk b := Or.inl rfl

omit [DecidableEq P] in
/-- Two valid buffers cache different blocks. -/
theorem Coherent.eq_of_blockno {s : St P} (h : Coherent disksize disk0 s) {k l : Fin NBUF}
    (hk : (s.buf k).valid = true) (hl : (s.buf l).valid = true)
    (hb : (s.buf k).blockno = (s.buf l).blockno) : k = l := by
  have hkd := (h.in_range k hk).1
  refine h.unique k l ?_ (hkd.trans (h.in_range l hl).1.symm) hb
  rw [hkd]; decide

omit [DecidableEq P] in
/-- A step that moves processes about and sets or clears `B_BUSY`. -/
theorem Coherent.frame {s s' : St P} (h : Coherent disksize disk0 s)
    (hbuf : ∀ k, s'.buf k = { s.buf k with busy := (s'.buf k).busy })
    (hdisk : s'.disk = s.disk) (hstores : s'.stores = s.stores) (huns : s'.unsaved = s.unsaved)
    (hheld : ∀ p, ∀ k ∈ s'.held p, (s.buf k).valid = true)
    (hfill : ∀ p k dev b, s'.pc p = .fill k dev b →
      (s.buf k).dev = dev ∧ (s.buf k).blockno = b)
    (hbusy : ∀ k, s.unsaved k = true → (s'.buf k).busy = true) :
    Coherent disksize disk0 s' where
  unique k l := by rw [hbuf k, hbuf l]; exact h.unique k l
  dirty_valid k := by rw [hbuf k]; exact h.dirty_valid k
  in_range k := by rw [hbuf k]; exact h.in_range k
  held_valid p k hk := by rw [hbuf k]; exact hheld p k hk
  filling p k dev b hk := by rw [hbuf k]; exact hfill p k dev b hk
  unsaved_busy k hk := hbusy k (by rwa [← huns])
  data k := by rw [hbuf k, St.contents, hstores]; exact h.data k
  disk b := by
    rw [hdisk, St.contents, hstores]
    refine (h.disk b).imp id fun ⟨k, hv, hb, hd⟩ => ⟨k, ?_⟩
    rw [hbuf k, huns]
    exact ⟨hv, hb, hd⟩

omit [DecidableEq P] in
theorem Coherent.panic {s : St P} (h : Coherent disksize disk0 s) (msg : String) :
    Coherent disksize disk0 (s.panic msg) :=
  h.frame (fun _ => rfl) rfl rfl rfl h.held_valid h.filling h.unsaved_busy

/-- Entering or leaving a place other than `fill`. -/
theorem Coherent.setPc {s : St P} (h : Coherent disksize disk0 s) {p : P} {c : Pc}
    (hc : ∀ k dev b, c = .fill k dev b → (s.buf k).dev = dev ∧ (s.buf k).blockno = b) :
    Coherent disksize disk0 (s.setPc p c) := by
  refine h.frame (fun _ => rfl) rfl rfl rfl h.held_valid (fun q k dev b hq => ?_) h.unsaved_busy
  by_cases hqp : q = p
  · subst hqp
    exact hc k dev b (by simpa [St.setPc] using hq)
  · exact h.filling q k dev b (by simpa [St.setPc, hqp] using hq)

omit [DecidableEq P] in
/-- Setting `B_BUSY`. -/
theorem Coherent.setBusy {s : St P} (h : Coherent disksize disk0 s) (k : Fin NBUF) :
    Coherent disksize disk0 (s.setBuf k { s.buf k with busy := true }) := by
  refine h.frame (fun l => ?_) rfl rfl rfl h.held_valid h.filling fun l hl => ?_ <;>
    by_cases hlk : l = k
  · subst hlk; simp [St.setBuf]
  · simp [St.setBuf, hlk]
  · simp [St.setBuf, hlk]
  · simpa [St.setBuf, hlk] using h.unsaved_busy l hl

omit [DecidableEq P] in
/-- **Recycling loses nothing**: the buffer was not busy, so nobody uses
it and it has no unsaved change, and not dirty, so the disk has its
block. -/
theorem Coherent.recycle {s : St P} (h : Coherent disksize disk0 s) (ho : Owned s)
    {k : Fin NBUF} {dev blockno : Nat} (hfree : (s.buf k).busy = false)
    (hclean : (s.buf k).dirty = false)
    (hmiss : ∀ l, ¬((s.buf l).dev = dev ∧ (s.buf l).blockno = blockno)) :
    Coherent disksize disk0
      (s.setBuf k ⟨true, false, false, dev, blockno, (s.buf k).data⟩) := by
  have hnobody : ∀ p, k ∉ s.owned p := fun p hp => by
    rw [ho.busy p k hp] at hfree; cases hfree
  have hsaved : s.unsaved k = false := by
    by_contra hu
    rw [h.unsaved_busy k (by simpa using hu)] at hfree
    cases hfree
  refine ⟨fun l m => ?_, fun l => ?_, fun l => ?_, fun p l hl => ?_, fun p l d b hl => ?_,
    fun l hl => ?_, fun l => ?_, fun b => ?_⟩
  · by_cases hl : l = k <;> by_cases hm : m = k
    · exact fun _ _ _ => hl.trans hm.symm
    · rw [hl, setBuf_buf_self, setBuf_buf_of_ne hm]
      exact fun _ hd hb => absurd ⟨hd.symm, hb.symm⟩ (hmiss m)
    · rw [hm, setBuf_buf_self, setBuf_buf_of_ne hl]
      exact fun _ hd hb => absurd ⟨hd, hb⟩ (hmiss l)
    · rw [setBuf_buf_of_ne hl, setBuf_buf_of_ne hm]; exact h.unique l m
  · by_cases hl : l = k
    · rw [hl, setBuf_buf_self]; intro hd; cases hd
    · rw [setBuf_buf_of_ne hl]; exact h.dirty_valid l
  · by_cases hl : l = k
    · rw [hl, setBuf_buf_self]; intro hd; cases hd
    · rw [setBuf_buf_of_ne hl]; exact h.in_range l
  · have hlk : l ≠ k := fun he => hnobody p (he ▸ s.held_subset_owned hl)
    rw [setBuf_buf_of_ne hlk]; exact h.held_valid p l hl
  · have hpc : s.pc p = .fill l d b := hl
    have hlk : l ≠ k := fun he => hnobody p (by rw [St.owned_of_fill hpc, he]; simp)
    rw [setBuf_buf_of_ne hlk]; exact h.filling p l d b hl
  · by_cases hlk : l = k
    · rw [hlk, setBuf_buf_self]
    · rw [setBuf_buf_of_ne hlk]; exact h.unsaved_busy l hl
  · by_cases hl : l = k
    · rw [hl, setBuf_buf_self]; intro hd; cases hd
    · rw [setBuf_buf_of_ne hl]; exact h.data l
  · refine (h.disk b).imp id fun ⟨l, hv, hb, hd⟩ => ⟨l, ?_⟩
    have hlk : l ≠ k := by
      intro he
      rw [he, hclean, hsaved] at hd
      simp at hd
    rw [setBuf_buf_of_ne hlk]
    exact ⟨hv, hb, hd⟩

theorem Coherent.bget {s : St P} (h : Coherent disksize disk0 s) (ho : Owned s) (p : P)
    (dev blockno : Nat) : Coherent disksize disk0 (bget s p dev blockno) := by
  unfold Bio.bget
  split
  · rename_i k hk
    have hhit : (s.buf k).dev = dev ∧ (s.buf k).blockno = blockno := by
      simpa using List.find?_some hk
    split
    · refine (h.setBusy k).setPc fun l d b he => ?_
      cases he
      simpa [St.setBuf] using hhit
    · exact h.setPc fun l d b he => by cases he
  · rename_i hnone
    have hmiss : ∀ l, ¬((s.buf l).dev = dev ∧ (s.buf l).blockno = blockno) := by
      intro l
      simpa using List.find?_eq_none.mp hnone l (ho.listed l)
    split
    · rename_i k hk
      have hrec : (s.buf k).busy = false ∧ (s.buf k).dirty = false := by
        simpa using List.find?_some hk
      refine (h.recycle ho hrec.1 hrec.2 hmiss).setPc fun l d b he => ?_
      cases he
      simp [St.setBuf]
    · exact h.panic _

omit [DecidableEq P] in
/-- **One buffer changes**: the step leaves the buffer valid and current,
and either the disk has its block or the buffer is marked. -/
theorem Coherent.touch {s s' : St P} (h : Coherent disksize disk0 s) {k : Fin NBUF}
    (hpc : s'.pc = s.pc) (hheld : s'.held = s.held)
    (hne : ∀ l, l ≠ k → s'.buf l = s.buf l ∧ s'.unsaved l = s.unsaved l)
    (hdev : (s'.buf k).dev = (s.buf k).dev) (hblock : (s'.buf k).blockno = (s.buf k).blockno)
    (hvalid : (s'.buf k).valid = true) (hdisk : (s.buf k).dev = DISK)
    (hrange : (s.buf k).blockno < disksize)
    (hbusy : s'.unsaved k = true → (s'.buf k).busy = true)
    (helse : ∀ b, b ≠ (s.buf k).blockno →
      s'.disk b = s.disk b ∧ s'.contents disk0 b = s.contents disk0 b)
    (hdata : (s'.buf k).data = s'.contents disk0 (s.buf k).blockno)
    (hcur : s'.disk (s.buf k).blockno = s'.contents disk0 (s.buf k).blockno ∨
      (s'.buf k).dirty = true ∨ s'.unsaved k = true) : Coherent disksize disk0 s' := by
  have hid : ∀ l, (s'.buf l).dev = (s.buf l).dev ∧ (s'.buf l).blockno = (s.buf l).blockno := by
    intro l
    by_cases hl : l = k
    · subst hl; exact ⟨hdev, hblock⟩
    · rw [(hne l hl).1]; exact ⟨rfl, rfl⟩
  -- another valid buffer has another block
  have hother : ∀ l, l ≠ k → (s.buf l).valid = true → (s.buf l).blockno ≠ (s.buf k).blockno := by
    intro l hl hv hb
    have hld := (h.in_range l hv).1
    exact hl (h.unique l k (by rw [hld]; decide) (hld.trans hdisk.symm) hb)
  refine ⟨fun l m => ?_, fun l => ?_, fun l => ?_, fun p l hl => ?_, fun p l d b hl => ?_,
    fun l => ?_, fun l => ?_, fun b => ?_⟩
  · rw [(hid l).1, (hid m).1, (hid l).2, (hid m).2]
    exact h.unique l m
  · by_cases hl : l = k
    · subst hl; exact fun _ => hvalid
    · rw [(hne l hl).1]; exact h.dirty_valid l
  · rw [(hid l).1, (hid l).2]
    by_cases hl : l = k
    · subst hl; exact fun _ => ⟨hdisk, hrange⟩
    · rw [(hne l hl).1]; exact h.in_range l
  · rw [hheld] at hl
    by_cases hlk : l = k
    · subst hlk; exact hvalid
    · rw [(hne l hlk).1]; exact h.held_valid p l hl
  · rw [hpc] at hl
    rw [(hid l).1, (hid l).2]
    exact h.filling p l d b hl
  · by_cases hl : l = k
    · subst hl; exact hbusy
    · rw [(hne l hl).1, (hne l hl).2]; exact h.unsaved_busy l
  · by_cases hl : l = k
    · subst hl; rw [hblock]; exact fun _ => hdata
    · rw [(hne l hl).1]
      intro hv
      rw [(helse _ (hother l hl hv)).2]
      exact h.data l hv
  · by_cases hb : b = (s.buf k).blockno
    · subst hb
      exact hcur.imp id fun hmark => ⟨k, hvalid, hblock, hmark⟩
    · rw [(helse b hb).1, (helse b hb).2]
      refine (h.disk b).imp id fun ⟨l, hv, hlb, hmark⟩ => ⟨l, ?_⟩
      have hl : l ≠ k := by
        intro he
        rw [he] at hlb
        exact hb hlb.symm
      rw [(hne l hl).1, (hne l hl).2]
      exact ⟨hv, hlb, hmark⟩

omit [DecidableEq P] in
/-- A buffer `bread` fills from the disk: no other buffer has the block,
so the disk has its current contents. -/
theorem Coherent.load {s : St P} (h : Coherent disksize disk0 s) {k : Fin NBUF}
    (hinv : (s.buf k).valid = false) (hdev : (s.buf k).dev = DISK)
    (hrange : (s.buf k).blockno < disksize) :
    Coherent disksize disk0
      (s.setBuf k { s.buf k with data := s.disk (s.buf k).blockno, valid := true }) := by
  have hcur : s.disk (s.buf k).blockno = s.contents disk0 (s.buf k).blockno := by
    rcases h.disk (s.buf k).blockno with hd | ⟨l, hv, hb, _⟩
    · exact hd
    · have hl := (h.in_range l hv).1
      have hlk : l = k := h.unique l k (by rw [hl]; decide) (hl.trans hdev.symm) hb
      rw [hlk, hinv] at hv
      cases hv
  refine h.touch (k := k) rfl rfl (fun l hl => ⟨setBuf_buf_of_ne hl, rfl⟩) (by simp) (by simp)
    (by simp) hdev hrange (fun hu => ?_) (fun b _ => ⟨rfl, rfl⟩) ?_ (Or.inl hcur)
  · simpa using h.unsaved_busy k hu
  · simpa using hcur

omit [DecidableEq P] in
theorem Coherent.iderw {s : St P} (h : Coherent disksize disk0 s) {k : Fin NBUF}
    (hinv : (s.buf k).valid = false) : Coherent disksize disk0 (iderw disksize s k) := by
  have hclean : (s.buf k).dirty = false := by
    by_contra hd
    rw [h.dirty_valid k (by simpa using hd)] at hinv
    cases hinv
  unfold Bio.iderw
  dsimp only
  split_ifs with h1 h2 h3 h4 h5
  · exact h.panic _
  · exact h.panic _
  · exact h.panic _
  · exact h.panic _
  · rw [hclean] at h5; cases h5
  · exact h.load hinv (not_not.mp h3) (by omega)

/-- `bread` returns: the buffer becomes one that `p` holds. -/
theorem Coherent.hold {s : St P} (h : Coherent disksize disk0 s) {p : P} {k : Fin NBUF}
    (hv : (s.buf k).valid = true) : Coherent disksize disk0 (s.hold p k) := by
  refine h.frame (fun _ => rfl) rfl rfl rfl (fun q l hl => ?_) (fun q l d b hq => ?_)
    h.unsaved_busy <;> by_cases hqp : q = p
  · subst hqp
    simp only [St.hold, Function.update_self] at hl
    rcases List.mem_cons.mp hl with rfl | hl
    · exact hv
    · exact h.held_valid q l hl
  · exact h.held_valid q l (by simpa [St.hold, hqp] using hl)
  · subst hqp; simp [St.hold] at hq
  · exact h.filling q l d b (by simpa [St.hold, hqp] using hq)

omit [DecidableEq P] in
/-- `iderw` of a busy invalid buffer either panics, for a block the disk
does not have, or leaves it valid. -/
theorem iderw_valid {s : St P} {k : Fin NBUF} (hbusy : (s.buf k).busy = true)
    (hinv : (s.buf k).valid = false) (hp : s.panicked = none) :
    ((iderw disksize s k).panicked = none ↔
      (s.buf k).dev = DISK ∧ (s.buf k).blockno < disksize) ∧
    ((iderw disksize s k).panicked = none → ((iderw disksize s k).buf k).valid = true) := by
  unfold Bio.iderw
  dsimp only
  rw [if_neg (by simp [hbusy]), if_neg (by simp [hinv])]
  split_ifs with h1 h2 h3
  · simp [St.panic, h1]
  · simp [St.panic]; omega
  · simp [St.setBuf, hp, not_not.mp h1]; omega
  · simp [St.setBuf, hp, not_not.mp h1]; omega

theorem Coherent.fill {s : St P} (h : Coherent disksize disk0 s) (ho : Owned s)
    (hp : s.panicked = none) {p : P} {k : Fin NBUF} {dev b : Nat}
    (hpc : s.pc p = .fill k dev b) : Coherent disksize disk0 (fill disksize s p k) := by
  have hbusy : (s.buf k).busy = true := ho.busy p k (by rw [St.owned_of_fill hpc]; simp)
  unfold Bio.fill
  dsimp only
  by_cases hv : (s.buf k).valid = false
  · rw [if_pos hv]
    split
    · exact h.iderw hv
    · rename_i hnone
      exact (h.iderw hv).hold ((iderw_valid hbusy hv hp).2 (by simpa using hnone))
  · rw [if_neg hv, if_neg (by simp [hp])]
    exact h.hold (by simpa using hv)

omit [DecidableEq P] in
/-- The array is updated where the store goes. -/
theorem store_contents (disk0 : Disk) (s : St P) (k : Fin NBUF) (data : Block) :
    (store s k data).contents disk0 =
      Function.update (s.contents disk0) (s.buf k).blockno data := by
  simp [St.contents, store]

omit [DecidableEq P] in
theorem Coherent.store {s : St P} (h : Coherent disksize disk0 s) (ho : Owned s) {p : P}
    {k : Fin NBUF} (hk : s.Uses p k) (data : Block) :
    Coherent disksize disk0 (store s k data) := by
  have hv := h.held_valid p k hk.2
  refine h.touch (k := k) rfl rfl (fun l hl => ⟨setBuf_buf_of_ne hl, ?_⟩) ?_ ?_ ?_
    (h.in_range k hv).1 (h.in_range k hv).2 (fun _ => ?_) (fun b hb => ⟨rfl, ?_⟩) ?_ ?_
  · exact Function.update_of_ne hl ..
  · simp [Bio.store, St.setBuf]
  · simp [Bio.store, St.setBuf]
  · simpa [Bio.store, St.setBuf] using hv
  · simpa [Bio.store, St.setBuf] using ho.busy p k (s.held_subset_owned hk.2)
  · rw [store_contents]; exact Function.update_of_ne hb ..
  · rw [store_contents]; simp [Bio.store, St.setBuf]
  · exact Or.inr (Or.inr (by simp [Bio.store]))

omit [DecidableEq P] in
theorem Coherent.logWrite {s : St P} (h : Coherent disksize disk0 s) {p : P}
    {k : Fin NBUF} (hk : s.Uses p k) : Coherent disksize disk0 ((logWrite s k).save k) := by
  have hv := h.held_valid p k hk.2
  refine h.touch (k := k) rfl rfl (fun l hl => ⟨setBuf_buf_of_ne hl, ?_⟩) ?_ ?_ ?_
    (h.in_range k hv).1 (h.in_range k hv).2 (fun hu => ?_) (fun b hb => ⟨rfl, rfl⟩) ?_ ?_
  · exact Function.update_of_ne hl ..
  · simp [St.save, Bio.logWrite, St.setBuf]
  · simp [St.save, Bio.logWrite, St.setBuf]
  · simpa [St.save, Bio.logWrite, St.setBuf] using hv
  · simp [St.save] at hu
  · simpa [St.save, Bio.logWrite, St.setBuf, St.contents] using h.data k hv
  · exact Or.inr (Or.inl (by simp [St.save, Bio.logWrite, St.setBuf]))

omit [DecidableEq P] in
/-- `bwrite` of a held buffer reaches the disk. -/
theorem bwrite_eq {s : St P} {k : Fin NBUF} (hbusy : (s.buf k).busy = true)
    (hdev : (s.buf k).dev = DISK) (hrange : (s.buf k).blockno < disksize) :
    bwrite disksize s k =
      { s.setBuf k { s.buf k with dirty := false, valid := true } with
        disk := Function.update s.disk (s.buf k).blockno (s.buf k).data } := by
  have hlt : ¬disksize ≤ (s.buf k).blockno := by omega
  simp [bwrite, Bio.iderw, St.setBuf, hbusy, hdev, hlt]

omit [DecidableEq P] in
theorem Coherent.bwrite {s : St P} (h : Coherent disksize disk0 s) (ho : Owned s) {p : P}
    {k : Fin NBUF} (hk : s.Uses p k) : Coherent disksize disk0 ((bwrite disksize s k).save k) := by
  have hv := h.held_valid p k hk.2
  have hbusy := ho.busy p k (s.held_subset_owned hk.2)
  obtain ⟨hdev, hrange⟩ := h.in_range k hv
  rw [bwrite_eq hbusy hdev hrange, St.save]
  refine h.touch (k := k) rfl rfl (fun l hl => ⟨setBuf_buf_of_ne hl, ?_⟩) ?_ ?_ ?_
    hdev hrange (fun hu => ?_) (fun b hb => ⟨?_, rfl⟩) ?_ (Or.inl ?_)
  · exact Function.update_of_ne hl ..
  · simp [St.setBuf]
  · simp [St.setBuf]
  · simp [St.setBuf]
  · simp at hu
  · exact Function.update_of_ne hb ..
  · simpa [St.setBuf, St.contents] using h.data k hv
  · simpa [St.contents, St.setBuf] using h.data k hv

theorem Coherent.brelse {s : St P} (h : Coherent disksize disk0 s) {p : P} {k : Fin NBUF}
    (hsaved : s.unsaved k = false) : Coherent disksize disk0 (brelse s p k) := by
  unfold Bio.brelse
  split
  · exact h.panic _
  · refine h.frame (fun l => ?_) rfl rfl rfl (fun q l hl => ?_) (fun q l d b hq => ?_)
      fun l hl => ?_
    · by_cases hlk : l = k
      · subst hlk; simp [St.release, St.setBuf]
      · simp [St.release, St.setBuf, hlk]
    · by_cases hqp : q = p
      · subst hqp
        exact h.held_valid q l (List.mem_of_mem_erase (by simpa [St.release] using hl))
      · exact h.held_valid q l (by simpa [St.release, hqp] using hl)
    · exact h.filling q l d b (wakeup_eq_fill.mp hq)
    · have hlk : l ≠ k := by
        intro he
        rw [he, hsaved] at hl
        cases hl
      simpa [St.release, St.setBuf, hlk] using h.unsaved_busy l hl

/-! ## The refinement -/

theorem Coherent.step {s s' : St P} {a : Act P} (h : Coherent disksize disk0 s) (ho : Owned s)
    (hs : step disksize s a = some s') : Coherent disksize disk0 s' := by
  obtain ⟨hp, ⟨p, dev, b, hpc, rfl⟩ | ⟨p, dev, b, hpc, rfl⟩ | ⟨p, k, dev, b, hpc, rfl⟩ |
    ⟨p, k, data, hk, rfl⟩ | ⟨p, k, hk, rfl⟩ | ⟨p, k, hk, rfl⟩ | ⟨p, k, hk, hsaved, rfl⟩⟩ :=
    step_cases hs
  · exact h.setPc fun k d b he => by cases he
  · exact h.bget ho p dev b
  · exact h.fill ho hp hpc
  · exact h.store ho hk data
  · exact h.logWrite hk
  · exact h.bwrite ho hk
  · exact h.brelse hsaved

theorem owned_coherent_of_reaches {s : St P}
    (hr : Reaches (step disksize) (St.init P disk0) s) : Owned s ∧ Coherent disksize disk0 s :=
  hr.invariant (I := fun s => Owned s ∧ Coherent disksize disk0 s)
    (fun _ _ _ h hs => ⟨h.1.step hs, h.2.step h.1 hs⟩) ⟨Owned.init disk0, Coherent.init⟩

/-- What the end of `bread` does: it fails only for a block that is not
on the disk, and otherwise returns the buffer with the block's current
contents. -/
theorem fill_spec {s : St P} (ho : Owned s) (hc : Coherent disksize disk0 s)
    (hp : s.panicked = none) {p : P} {k : Fin NBUF} {dev b : Nat}
    (hpc : s.pc p = .fill k dev b) :
    let s' := fill disksize s p k
    (s'.panicked = none ↔ dev = DISK ∧ b < disksize) ∧
    (s'.panicked = none → s'.pc p = .ready ∧ k ∈ s'.held p ∧
      (s'.buf k).dev = dev ∧ (s'.buf k).blockno = b ∧ s'.contents disk0 = s.contents disk0 ∧
      (s'.buf k).data = s.contents disk0 b) := by
  intro s'
  have hbusy : (s.buf k).busy = true := ho.busy p k (by rw [St.owned_of_fill hpc]; simp)
  obtain ⟨hdev, hblock⟩ := hc.filling p k dev b hpc
  have hc' : Coherent disksize disk0 s' := hc.fill ho hp hpc
  -- `t` is the state after `iderw`, where it is called
  obtain ⟨t, hs', hok, hval, hkeep, hst⟩ : ∃ t : St P,
      s' = (if t.panicked.isSome then t else t.hold p k) ∧
      (t.panicked = none ↔ dev = DISK ∧ b < disksize) ∧
      (t.panicked = none → (t.buf k).valid = true) ∧
      (t.pc = s.pc ∧ (t.buf k).dev = dev ∧ (t.buf k).blockno = b) ∧
      t.contents disk0 = s.contents disk0 := by
    by_cases hv : (s.buf k).valid = false
    · obtain ⟨_, hpc', _, hst, _⟩ := iderw_frame disksize s k
      obtain ⟨hiff, hval⟩ := iderw_valid hbusy hv hp
      refine ⟨Bio.iderw disksize s k, by simp only [s', Bio.fill, hv, if_pos], ?_, hval, ⟨hpc', ?_⟩,
        by rw [St.contents, St.contents, hst]⟩
      · rw [hiff, hdev, hblock]
      · have := (hc.iderw hv).filling p k dev b (by rw [hpc', hpc])
        exact this
    · have hv' : (s.buf k).valid = true := by simpa using hv
      refine ⟨s, by simp only [s', Bio.fill, if_neg hv], ?_, fun _ => hv', ⟨rfl, hdev, hblock⟩, rfl⟩
      have := hc.in_range k hv'
      rw [hdev, hblock] at this
      simp [hp, this]
  have hsame : s'.panicked = t.panicked := by
    rw [hs']; split <;> rfl
  refine ⟨by rw [hsame, hok], fun hnone => ?_⟩
  have hs'' : s' = t.hold p k := by
    rw [hs', if_neg (by rw [← hsame, hnone]; simp)]
  have hval' := hc'.data k (by rw [hs'']; exact hval (by rw [← hsame, hnone]))
  rw [hs''] at hval' ⊢
  have hcont : (t.hold p k).contents disk0 = s.contents disk0 := hst
  rw [hcont] at hval'
  refine ⟨by simp [St.hold], by simp [St.hold], hkeep.2.1, hkeep.2.2, hcont, ?_⟩
  rw [hval']
  exact congrArg (s.contents disk0) hkeep.2.2

/-- **The buffer cache refines an array of blocks.** In every state any
interleaving reaches: a block of a real device is in one buffer only; a
buffer is held by one process only; a held buffer has the current
contents of its block; and `bread` fails only for a block that is not on
the disk and otherwise returns a buffer with what was stored last for
the block it was asked for. -/
theorem cache_refines_array (disksize : Nat) (disk0 : Disk) (s : St P)
    (hr : Reaches (step disksize) (St.init P disk0) s) :
    (∀ k l, (s.buf k).dev ≠ NODEV → (s.buf k).dev = (s.buf l).dev →
      (s.buf k).blockno = (s.buf l).blockno → k = l) ∧
    (∀ p q k, k ∈ s.owned p → k ∈ s.owned q → p = q) ∧
    (∀ p, ∀ k ∈ s.held p, (s.buf k).data = applyWrites disk0 s.stores (s.buf k).blockno) ∧
    (∀ p k dev b s', s.pc p = .fill k dev b → step disksize s (.fill p) = some s' →
      (s'.panicked = none ↔ dev = DISK ∧ b < disksize) ∧
      (s'.panicked = none → s'.pc p = .ready ∧ k ∈ s'.held p ∧
        (s'.buf k).dev = dev ∧ (s'.buf k).blockno = b ∧
        (s'.buf k).data = applyWrites disk0 s.stores b)) := by
  obtain ⟨ho, hc⟩ := owned_coherent_of_reaches hr
  refine ⟨hc.unique, ho.single, fun p k hk => hc.data k (hc.held_valid p k hk), ?_⟩
  intro p k dev b s' hpc hs
  have hp : s.panicked = none := (step_cases hs).1
  have hs' : s' = Bio.fill disksize s p k := by
    simpa [step, hp, hpc] using hs.symm
  obtain ⟨hiff, hres⟩ := fill_spec ho hc hp hpc
  rw [hs']
  refine ⟨hiff, fun hnone => ?_⟩
  obtain ⟨h1, h2, h3, h4, _, h6⟩ := hres hnone
  exact ⟨h1, h2, h3, h4, h6⟩

/-- `bcache.buf[0]`, the tail of the list after `binit`. -/
def buf0 : Fin NBUF := ⟨0, by decide⟩

/-- One process stores into block 3, logs it and releases it; another
then reads the block. -/
def logThenRead : List (Act Bool) :=
  [.bread false DISK 3, .scan false, .fill false, .store false buf0 7,
    .logWrite false buf0, .brelse false buf0, .bread true DISK 3, .scan true]

theorem cache_refines_array_after_log :
    ∃ s s' : St Bool,
      execAll (step FSSIZE) (St.init Bool fun _ => Bytes.zero BSIZE) logThenRead = some s ∧
      step FSSIZE s (.fill true) = some s' ∧ buf0 ∈ s'.held true ∧
      (s'.buf buf0).data = 7 := by
  obtain ⟨s, hs⟩ : ∃ s, execAll (step FSSIZE) (St.init Bool fun _ => Bytes.zero BSIZE)
      logThenRead = some s := ⟨_, rfl⟩
  have hpc : s.pc true = .fill buf0 DISK 3 := by cases hs; rfl
  have hst : s.stores = [(3, 7)] := by cases hs; rfl
  obtain ⟨s', hs'⟩ : ∃ s', step FSSIZE s (.fill true) = some s' := by
    cases hs; exact ⟨_, rfl⟩
  obtain ⟨_, _, _, hread⟩ := cache_refines_array FSSIZE _ s (reaches_of_execAll hs)
  obtain ⟨hok, hres⟩ := hread true buf0 DISK 3 s' hpc hs'
  obtain ⟨_, hheld, _, _, hdata⟩ := hres (hok.mpr (by decide))
  refine ⟨s, s', hs, hs', hheld, ?_⟩
  rw [hdata, hst]
  simp

end Xv6.Bio
