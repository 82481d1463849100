import Xv6.Bio.Refine
import Mathlib.Algebra.Order.BigOperators.Group.Finset

/-!
# Bio — when `bget` runs out of buffers

`bget` recycles a buffer that is neither busy nor dirty and panics if
there is none. Busy buffers are in the hands of processes, dirty ones
hold blocks that were passed to `log_write` and that `commit` has not yet
written to their place. Both together have to stay below `NBUF`, where one
that is both counts once (`bget_finds_buffer`); but `NBUF` readers that stand
between `bread` and `brelse` are enough to use up all buffers, without any
transaction.
-/

namespace Xv6.Bio

open Lib

variable {P : Type} [DecidableEq P]

/-! ## Busy buffers have an owner -/

/-- Somebody has each busy buffer. -/
def HeldBy (s : St P) : Prop := ∀ k, (s.buf k).busy = true → ∃ p, k ∈ s.owned p

omit [DecidableEq P] in
theorem HeldBy.of_owned {s s' : St P} (h : HeldBy s) (hown : ∀ p, s'.owned p = s.owned p)
    (hbusy : ∀ k, (s'.buf k).busy = true → (s.buf k).busy = true) : HeldBy s' := fun k hk => by
  obtain ⟨p, hp⟩ := h k (hbusy k hk)
  exact ⟨p, by rw [hown]; exact hp⟩

/-- `bget` gives buffer `k` to process `p`. -/
theorem HeldBy.grant {s : St P} (h : HeldBy s) {p : P} {k : Fin NBUF} {b : Buf} {dev blockno : Nat}
    (hpc : s.owned p = s.held p) :
    HeldBy ((s.setBuf k b).setPc p (.fill k dev blockno)) := by
  have hp : ((s.setBuf k b).setPc p (.fill k dev blockno)).owned p = k :: s.owned p := by
    rw [St.owned_of_fill (Function.update_self ..), hpc]
    rfl
  intro l hl
  by_cases hlk : l = k
  · exact ⟨p, by rw [hp, hlk]; exact List.mem_cons_self⟩
  · have hl' : (s.buf l).busy = true := by simpa [St.setPc, St.setBuf, hlk] using hl
    obtain ⟨q, hq⟩ := h l hl'
    refine ⟨q, ?_⟩
    by_cases hqp : q = p
    · rw [hqp] at hq
      rw [hqp, hp]
      exact List.mem_cons_of_mem _ hq
    · rw [setPc_owned_of_ne (s.setBuf k b) _ hqp]
      exact hq

theorem HeldBy.bget {s : St P} (h : HeldBy s) {p : P} {dev blockno : Nat}
    (hpc : s.pc p = .scan dev blockno) : HeldBy (bget s p dev blockno) := by
  have hown : s.owned p = s.held p := by rw [St.owned, hpc]
  unfold Bio.bget
  split
  · split
    · exact h.grant hown
    · exact h.of_owned (setPc_owned hown (by simp [St.owned, St.setPc])) fun _ hb => hb
  · split
    · exact h.grant hown
    · exact h.of_owned (fun _ => rfl) fun _ hb => hb

theorem HeldBy.fill {disksize : Nat} {s : St P} (h : HeldBy s) {p : P} {k : Fin NBUF}
    {dev blockno : Nat} (hpc : s.pc p = .fill k dev blockno) : HeldBy (fill disksize s p k) := by
  have hread : ∀ t : St P, HeldBy t → t.pc p = .fill k dev blockno →
      HeldBy (if t.panicked.isSome then t else t.hold p k) := by
    intro t ht htpc
    split
    · exact ht
    · refine ht.of_owned (fun q => ?_) fun _ hb => hb
      by_cases hq : q = p
      · subst hq
        rw [St.owned_of_fill htpc]
        simp [St.owned, St.hold]
      · simp [St.owned, St.hold, hq]
  unfold Bio.fill
  dsimp only
  by_cases hv : (s.buf k).valid = false
  · rw [if_pos hv]
    obtain ⟨-, hpc', -, -, -, hbusy⟩ := iderw_frame disksize s k
    exact hread _ (h.of_owned (iderw_owned disksize s k) fun l hl => (hbusy l).symm.trans hl)
      (by rw [hpc', hpc])
  · rw [if_neg hv]
    exact hread s h hpc

omit [DecidableEq P] in
theorem HeldBy.setBuf {s : St P} (h : HeldBy s) {k : Fin NBUF} {b : Buf}
    (hb : b.busy = (s.buf k).busy) : HeldBy (s.setBuf k b) := by
  refine h.of_owned (fun _ => rfl) fun l hl => ?_
  by_cases hlk : l = k
  · rw [hlk, setBuf_buf_self, hb] at hl
    rw [hlk, hl]
  · rwa [setBuf_buf_of_ne hlk] at hl

theorem HeldBy.brelse {s : St P} (h : HeldBy s) (ho : Owned s) {p : P} {k : Fin NBUF}
    (hk : s.Uses p k) : HeldBy (brelse s p k) := by
  have hown : s.owned p = s.held p := by rw [St.owned, hk.1]
  unfold Bio.brelse
  split
  · exact h.of_owned (fun _ => rfl) fun _ hb => hb
  · intro l hl
    have hlk : l ≠ k := fun he => by
      rw [he] at hl
      simp [St.release, St.setBuf] at hl
    obtain ⟨q, hq⟩ := h l (by simpa [St.release, St.setBuf, hlk] using hl)
    refine ⟨q, ?_⟩
    by_cases hqp : q = p
    · have hp : (s.release p k).owned p = (s.owned p).erase k := by
        rw [hown]
        simp only [St.owned, St.release, hk.1, Pc.wakeup, Function.update_self]
      rw [hqp] at hq
      rw [hqp, hp, (ho.nodup p).mem_erase_iff]
      exact ⟨hlk, hq⟩
    · rw [wakeup_owned (s := s) (k := k) rfl (by simp [St.release, hqp])]
      exact hq

theorem HeldBy.step {disksize : Nat} {s s' : St P} {a : Act P} (h : HeldBy s) (ho : Owned s)
    (hs : step disksize s a = some s') : HeldBy s' := by
  obtain ⟨_, ⟨p, dev, b, hpc, rfl⟩ | ⟨p, dev, b, hpc, rfl⟩ | ⟨p, k, dev, b, hpc, rfl⟩ |
    ⟨p, k, data, hk, rfl⟩ | ⟨p, k, hk, rfl⟩ | ⟨p, k, hk, rfl⟩ | ⟨p, k, hk, -, rfl⟩⟩ :=
    step_cases hs
  · have hown : s.owned p = s.held p := by rw [St.owned, hpc]
    exact h.of_owned (setPc_owned hown (by simp [St.owned, St.setPc])) fun _ hb => hb
  · exact h.bget hpc
  · exact h.fill hpc
  · have h' := h.setBuf (k := k) (b := { s.buf k with data := data }) rfl
    exact h'.of_owned (fun _ => rfl) fun _ hb => hb
  · have h' := h.setBuf (k := k) (b := { s.buf k with dirty := true }) rfl
    exact h'.of_owned (fun _ => rfl) fun _ hb => hb
  · have h' : HeldBy (bwrite disksize s k) := by
      unfold bwrite
      split
      · exact h.of_owned (fun _ => rfl) fun _ hb => hb
      · have h' := h.setBuf (k := k) (b := { s.buf k with dirty := true }) rfl
        exact h'.of_owned (fun p => iderw_owned disksize _ k p)
          fun l hl => ((iderw_frame disksize _ k).2.2.2.2.2 l).symm.trans hl
    exact h'.of_owned (fun _ => rfl) fun _ hb => hb
  · exact h.brelse ho hk

/-! ## Dirty buffers hold logged blocks -/

/-- The cache, and the blocks that were passed to `log_write` and not yet
written to their place. -/
structure Tracked (P : Type) where
  st : St P
  logged : Finset Nat

/-- `log_write` adds a block, `bwrite` strikes it out. -/
def Tracked.track (t : Tracked P) : Act P → Finset Nat
  | .logWrite _ k => insert (t.st.buf k).blockno t.logged
  | .bwrite _ k => t.logged.erase (t.st.buf k).blockno
  | _ => t.logged

def Tracked.step (disksize : Nat) (t : Tracked P) (a : Act P) : Option (Tracked P) :=
  (Bio.step disksize t.st a).map fun s => ⟨s, t.track a⟩

def Tracked.init (P : Type) (disk : Disk) : Tracked P := ⟨St.init P disk, ∅⟩

/-- A dirty buffer caches a logged block. -/
def Pinned (t : Tracked P) : Prop :=
  ∀ k, (t.st.buf k).dirty = true → (t.st.buf k).blockno ∈ t.logged

/-- A buffer that is dirty after a step was dirty before, with the same
block. -/
def DirtyKept (s s' : St P) : Prop :=
  ∀ l, (s'.buf l).dirty = true → (s'.buf l).blockno = (s.buf l).blockno ∧ (s.buf l).dirty = true

omit [DecidableEq P] in
theorem DirtyKept.of_buf {s s' : St P} (h : s'.buf = s.buf) : DirtyKept s s' := fun l hl => by
  rw [h] at hl ⊢
  exact ⟨rfl, hl⟩

omit [DecidableEq P] in
/-- One buffer changes, and does not become dirty. -/
theorem DirtyKept.setBuf {s s' : St P} {k : Fin NBUF} {b : Buf} (h : s'.buf = (s.setBuf k b).buf)
    (hb : b.dirty = true → b.blockno = (s.buf k).blockno ∧ (s.buf k).dirty = true) :
    DirtyKept s s' := fun l hl => by
  rw [h] at hl ⊢
  by_cases hlk : l = k
  · subst hlk
    rw [setBuf_buf_self] at hl ⊢
    exact hb hl
  · rw [setBuf_buf_of_ne hlk] at hl ⊢
    exact ⟨rfl, hl⟩

theorem dirtyKept_bget (s : St P) (p : P) (dev blockno : Nat) :
    DirtyKept s (bget s p dev blockno) := by
  unfold bget
  split
  · split
    · exact .setBuf rfl fun hd => ⟨rfl, hd⟩
    · exact .of_buf rfl
  · split
    · exact .setBuf rfl fun hd => by cases hd
    · exact .of_buf rfl

omit [DecidableEq P] in
theorem dirtyKept_iderw (disksize : Nat) (s : St P) (k : Fin NBUF) :
    DirtyKept s (iderw disksize s k) := by
  unfold iderw
  dsimp only
  split_ifs with h1 h2 h3 h4 h5
  · exact .of_buf rfl
  · exact .of_buf rfl
  · exact .of_buf rfl
  · exact .of_buf rfl
  · exact .setBuf rfl fun hd => by cases hd
  · exact .setBuf rfl fun hd => ⟨rfl, hd⟩

theorem dirtyKept_fill (disksize : Nat) (s : St P) (p : P) (k : Fin NBUF) :
    DirtyKept s (fill disksize s p k) := by
  have hread : ∀ t : St P, (if t.panicked.isSome then t else t.hold p k).buf = t.buf := by
    intro t
    split <;> rfl
  unfold fill
  dsimp only
  by_cases hv : (s.buf k).valid = false
  · rw [if_pos hv]
    intro l hl
    rw [hread] at hl ⊢
    exact dirtyKept_iderw disksize s k l hl
  · rw [if_neg hv]
    exact .of_buf (hread s)

theorem dirtyKept_brelse (s : St P) (p : P) (k : Fin NBUF) : DirtyKept s (brelse s p k) := by
  unfold brelse
  split
  · exact .of_buf rfl
  · exact .setBuf rfl fun hd => ⟨rfl, hd⟩

/-- Only `log_write` makes a buffer dirty, and `bwrite` cleans the one it
writes. -/
theorem dirty_step {disksize : Nat} {disk0 : Disk} {s s' : St P} {a : Act P} (ho : Owned s)
    (hc : Coherent disksize disk0 s) (hs : step disksize s a = some s') :
    match a with
    | .logWrite _ k => s' = (logWrite s k).save k
    | .bwrite p k => s.Uses p k ∧ (s'.buf k).dirty = false ∧ DirtyKept s s'
    | _ => DirtyKept s s' := by
  unfold step at hs
  split at hs
  · cases hs
  cases a with
  | bread p dev b =>
      dsimp only at hs ⊢
      split at hs
      · cases hs
        exact .of_buf rfl
      · cases hs
  | scan p =>
      dsimp only at hs ⊢
      split at hs
      · cases hs
        exact dirtyKept_bget s p _ _
      · cases hs
  | fill p =>
      dsimp only at hs ⊢
      split at hs
      · cases hs
        exact dirtyKept_fill disksize s p _
      · cases hs
  | store p k data | copy p k src =>
      obtain ⟨_, he⟩ := Option.ite_none_right_eq_some.mp hs
      cases he
      exact .setBuf rfl fun hd => ⟨rfl, hd⟩
  | logWrite p k =>
      obtain ⟨_, he⟩ := Option.ite_none_right_eq_some.mp hs
      exact (Option.some.inj he).symm
  | bwrite p k =>
      obtain ⟨hk, he⟩ := Option.ite_none_right_eq_some.mp hs
      cases he
      obtain ⟨hdev, hrange⟩ := hc.in_range k (hc.held_valid p k hk.2)
      refine ⟨hk, ?_⟩
      rw [bwrite_eq (ho.busy p k (s.held_subset_owned hk.2)) hdev hrange, St.save]
      exact ⟨by simp, .setBuf rfl fun hd => by cases hd⟩
  | brelse p k =>
      obtain ⟨_, he⟩ := Option.ite_none_right_eq_some.mp hs
      cases he
      exact dirtyKept_brelse s p k

theorem Pinned.step {disksize : Nat} {disk0 : Disk} {t t' : Tracked P} {a : Act P} (h : Pinned t)
    (ho : Owned t.st) (hc : Coherent disksize disk0 t.st) (hs : t.step disksize a = some t') :
    Pinned t' := by
  obtain ⟨s', hs', rfl⟩ := Option.map_eq_some_iff.mp hs
  have hstep := dirty_step ho hc hs'
  intro l hl
  cases a with
  | logWrite p k =>
      change s' = (logWrite t.st k).save k at hstep
      subst hstep
      show _ ∈ insert _ _
      by_cases hlk : l = k
      · subst hlk
        simp [St.save, Bio.logWrite]
      · simp only [St.save, Bio.logWrite, setBuf_buf_of_ne hlk] at hl ⊢
        exact Finset.mem_insert_of_mem (h l hl)
  | bwrite p k =>
      obtain ⟨hk, hclean, hkept⟩ := hstep
      obtain ⟨hb, hd⟩ := hkept l hl
      show _ ∈ t.logged.erase _
      -- the buffer that is written has another block
      have hlk : l ≠ k := fun he => by
        rw [he] at hl
        cases hclean.symm.trans hl
      rw [hb]
      exact Finset.mem_erase.mpr ⟨fun he =>
        hlk (hc.eq_of_blockno (hc.dirty_valid l hd) (hc.held_valid p k hk.2) he), h l hd⟩
  | _ =>
      obtain ⟨hb, hd⟩ := hstep l hl
      show _ ∈ t.logged
      rw [hb]
      exact h l hd

/-! ## Enough buffers -/

omit [DecidableEq P] in
/-- Distinct dirty buffers cache distinct logged blocks. -/
theorem card_dirty_le {disksize : Nat} {disk0 : Disk} {t : Tracked P} (h : Pinned t)
    (hc : Coherent disksize disk0 t.st) :
    (Finset.univ.filter fun k => (t.st.buf k).dirty = true).card ≤ t.logged.card := by
  refine Finset.card_le_card_of_injOn (fun k => (t.st.buf k).blockno) (fun k hk => ?_)
    fun k hk l hl he => ?_
  · exact h k (by simpa using hk)
  · exact hc.eq_of_blockno (hc.dirty_valid k (by simpa using hk))
      (hc.dirty_valid l (by simpa using hl)) he

/-- How many buffers the processes have that are not dirty. -/
def St.inUse [Fintype P] (s : St P) : Nat :=
  ∑ p, ((s.owned p).filter fun k => !(s.buf k).dirty).length

omit [DecidableEq P] in
theorem card_clean_le [Fintype P] {s : St P} (h : HeldBy s) :
    (Finset.univ.filter fun k => (s.buf k).busy = true ∧ (s.buf k).dirty = false).card ≤
      s.inUse := by
  classical
  have hsub : (Finset.univ.filter fun k => (s.buf k).busy = true ∧ (s.buf k).dirty = false) ⊆
      Finset.univ.biUnion fun p => ((s.owned p).filter fun k => !(s.buf k).dirty).toFinset := by
    intro k hk
    obtain ⟨hb, hd⟩ := (Finset.mem_filter.mp hk).2
    obtain ⟨p, hp⟩ := h k hb
    exact Finset.mem_biUnion.mpr
      ⟨p, Finset.mem_univ p, List.mem_toFinset.mpr (List.mem_filter.mpr ⟨hp, by simp [hd]⟩)⟩
  calc (Finset.univ.filter fun k => (s.buf k).busy = true ∧ (s.buf k).dirty = false).card
      ≤ _ := Finset.card_le_card hsub
    _ ≤ ∑ p, ((s.owned p).filter fun k => !(s.buf k).dirty).toFinset.card :=
        Finset.card_biUnion_le
    _ ≤ s.inUse := Finset.sum_le_sum fun p _ => List.toFinset_card_le _

/-- The message of the panic. -/
def NOBUFFERS : String := "bget: no buffers"

/-- **When `bget` panics**: the block is not cached, and every buffer is
busy or dirty. -/
theorem bget_panics_iff {s : St P} (ho : Owned s) (hp : s.panicked = none) {p : P}
    {dev blockno : Nat} :
    (bget s p dev blockno).panicked = some NOBUFFERS ↔
      (∀ k, ¬ ((s.buf k).dev = dev ∧ (s.buf k).blockno = blockno)) ∧
        ∀ k, (s.buf k).busy = true ∨ (s.buf k).dirty = true := by
  unfold bget
  split
  · rename_i k hk
    have hhit : (s.buf k).dev = dev ∧ (s.buf k).blockno = blockno := by
      simpa using List.find?_some hk
    have hnone : (if (s.buf k).busy = false then
        (s.setBuf k { s.buf k with busy := true }).setPc p (.fill k dev blockno)
        else s.setPc p (.sleeping k dev blockno)).panicked = none := by
      split <;> exact hp
    rw [hnone]
    constructor
    · intro h
      cases h
    · exact fun h => absurd hhit (h.1 k)
  · rename_i hmiss
    have hmiss' : ∀ k, ¬ ((s.buf k).dev = dev ∧ (s.buf k).blockno = blockno) := fun k => by
      simpa using List.find?_eq_none.mp hmiss k (ho.listed k)
    split
    · rename_i k hk
      have hfree : (s.buf k).busy = false ∧ (s.buf k).dirty = false := by
        simpa using List.find?_some hk
      constructor
      · intro h
        have h' : s.panicked = some NOBUFFERS := h
        rw [hp] at h'
        cases h'
      · intro h
        rcases h.2 k with hb | hd
        · rw [hfree.1] at hb
          cases hb
        · rw [hfree.2] at hd
          cases hd
    · rename_i hnone
      refine ⟨fun _ => ⟨hmiss', fun k => ?_⟩, fun _ => rfl⟩
      have := List.find?_eq_none.mp hnone k (List.mem_reverse.mpr (ho.listed k))
      simp only [decide_eq_true_eq, not_and, Bool.not_eq_false] at this
      by_cases hb : (s.buf k).busy = true
      · exact Or.inl hb
      · exact Or.inr (this (by simpa using hb))

omit [DecidableEq P] in
/-- Buffers that are all busy or dirty hold a logged block, or are in use. -/
theorem NBUF_le [Fintype P] {disksize : Nat} {disk0 : Disk} {t : Tracked P} (hh : HeldBy t.st)
    (hpin : Pinned t) (hc : Coherent disksize disk0 t.st)
    (hall : ∀ k, (t.st.buf k).busy = true ∨ (t.st.buf k).dirty = true) :
    NBUF ≤ t.logged.card + t.st.inUse := by
  have hcover : (Finset.univ : Finset (Fin NBUF)) ⊆
      (Finset.univ.filter fun k => (t.st.buf k).dirty = true) ∪
        Finset.univ.filter fun k => (t.st.buf k).busy = true ∧ (t.st.buf k).dirty = false := by
    intro k _
    cases hd : (t.st.buf k).dirty with
    | true => exact Finset.mem_union_left _ (by simpa using hd)
    | false =>
        have hb : (t.st.buf k).busy = true := (hall k).resolve_right (by simp [hd])
        exact Finset.mem_union_right _ (by simpa using ⟨hb, hd⟩)
  calc NBUF = (Finset.univ : Finset (Fin NBUF)).card := (Finset.card_fin NBUF).symm
    _ ≤ _ := Finset.card_le_card hcover
    _ ≤ _ := Finset.card_union_le _ _
    _ ≤ t.logged.card + t.st.inUse :=
        Nat.add_le_add (card_dirty_le hpin hc) (card_clean_le hh)

/-- Where `bget` looks for a block that is not cached, the logged blocks
and the clean buffers in use are fewer than `NBUF`. -/
def roomy [Fintype P] (t : Tracked P) : Act P → Bool
  | .scan p =>
      match t.st.pc p with
      | .scan dev blockno =>
          decide ((∃ k, (t.st.buf k).dev = dev ∧ (t.st.buf k).blockno = blockno) ∨
            t.logged.card + t.st.inUse < NBUF)
      | _ => true
  | _ => true

def roomyStep [Fintype P] (disksize : Nat) : Tracked P → Act P → Option (Tracked P) :=
  guarded (fun t a => roomy t a = true) (Tracked.step disksize)

/-- A roomy step does not run out of buffers. -/
theorem roomy_step [Fintype P] {disksize : Nat} {disk0 : Disk} {t t' : Tracked P} {a : Act P}
    (ho : Owned t.st) (hc : Coherent disksize disk0 t.st) (hh : HeldBy t.st) (hpin : Pinned t)
    (hroom : roomy t a = true) (hs : t.step disksize a = some t') :
    t'.st.panicked ≠ some NOBUFFERS := by
  obtain ⟨s', hs', rfl⟩ := Option.map_eq_some_iff.mp hs
  obtain ⟨hp, hcases⟩ := step_cases hs'
  have hcalm : ∀ {s : St P}, s.panicked = none → s.panicked ≠ some NOBUFFERS := fun h he => by
    rw [h] at he
    cases he
  have hother : ∀ {msg : String} {s : St P}, s.panicked = some msg → msg ≠ NOBUFFERS →
      s.panicked ≠ some NOBUFFERS := fun h hne he => hne (Option.some.inj (h.symm.trans he))
  have hiderw : ∀ (s : St P) k, s.panicked = none →
      (iderw disksize s k).panicked ≠ some NOBUFFERS := fun s k h => by
    unfold iderw
    dsimp only
    split_ifs
    · exact hother rfl (by decide)
    · exact hother rfl (by decide)
    · exact hother rfl (by decide)
    · exact hother rfl (by decide)
    · exact hcalm h
    · exact hcalm h
  cases a with
  | scan p =>
      simp only [Bio.step, hp, Option.isSome_none, Bool.false_eq_true, if_false] at hs'
      split at hs'
      · rename_i dev blockno hpc
        cases hs'
        intro hpanic
        obtain ⟨hmiss, hall⟩ := (bget_panics_iff ho hp).mp hpanic
        have hle := NBUF_le hh hpin hc hall
        simp only [roomy, hpc, decide_eq_true_eq] at hroom
        rcases hroom with ⟨k, hk⟩ | hlt
        · exact hmiss k hk
        · omega
      · cases hs'
  | bread p dev blockno =>
      simp only [Bio.step, hp, Option.isSome_none, Bool.false_eq_true, if_false] at hs'
      split at hs'
      · cases hs'
        exact hcalm hp
      · cases hs'
  | fill p =>
      simp only [Bio.step, hp, Option.isSome_none, Bool.false_eq_true, if_false] at hs'
      split at hs'
      · rename_i k _ _ _
        cases hs'
        unfold fill
        dsimp only
        by_cases hv : (t.st.buf k).valid = false
        · rw [if_pos hv]
          split
          · exact hiderw t.st k hp
          · exact hiderw t.st k hp
        · rw [if_neg hv, if_neg (by simp [hp])]
          exact hcalm hp
      · cases hs'
  | store p k data | copy p k src | logWrite p k =>
      simp only [Bio.step, hp, Option.isSome_none, Bool.false_eq_true, if_false] at hs'
      obtain ⟨_, he⟩ := Option.ite_none_right_eq_some.mp hs'
      cases he
      exact hcalm hp
  | bwrite p k =>
      simp only [Bio.step, hp, Option.isSome_none, Bool.false_eq_true, if_false] at hs'
      obtain ⟨_, he⟩ := Option.ite_none_right_eq_some.mp hs'
      cases he
      unfold bwrite
      split
      · exact hother rfl (by decide)
      · exact hiderw _ k hp
  | brelse p k =>
      simp only [Bio.step, hp, Option.isSome_none, Bool.false_eq_true, if_false] at hs'
      obtain ⟨_, he⟩ := Option.ite_none_right_eq_some.mp hs'
      cases he
      unfold brelse
      split
      · exact hother rfl (by decide)
      · exact hcalm hp

/-- What every run keeps. -/
structure Kept (disksize : Nat) (disk0 : Disk) (t : Tracked P) : Prop where
  owned : Owned t.st
  coherent : Coherent disksize disk0 t.st
  held : HeldBy t.st
  pinned : Pinned t

theorem kept_of_reaches {disksize : Nat} {disk0 : Disk} {t : Tracked P}
    (h : Reaches (Tracked.step disksize) (Tracked.init P disk0) t) : Kept disksize disk0 t := by
  refine h.invariant (I := Kept disksize disk0) (fun t a t' hk hs => ?_)
    ⟨Owned.init disk0, Coherent.init, fun k hk => (by cases hk),
      fun k hk => (by cases hk)⟩
  obtain ⟨s', hs', rfl⟩ := Option.map_eq_some_iff.mp hs
  exact ⟨hk.owned.step hs', hk.coherent.step hk.owned hs', hk.held.step hk.owned hs',
    hk.pinned.step hk.owned hk.coherent hs⟩

/-- **`bget` finds a buffer** in every run in which, each time it looks for
a block that is not cached, the logged blocks and the clean buffers in use
are fewer than `NBUF`. In any run it panics exactly if the block is not cached
and every buffer is busy or dirty, and then they are at least `NBUF`. -/
theorem bget_finds_buffer [Fintype P] {disksize : Nat} {disk0 : Disk} {t : Tracked P}
    (h : Reaches (Tracked.step disksize) (Tracked.init P disk0) t) :
    (Reaches (roomyStep disksize) (Tracked.init P disk0) t → t.st.panicked ≠ some NOBUFFERS) ∧
      (t.st.panicked = none → ∀ p dev blockno,
        ((bget t.st p dev blockno).panicked = some NOBUFFERS ↔
          (∀ k, ¬ ((t.st.buf k).dev = dev ∧ (t.st.buf k).blockno = blockno)) ∧
            ∀ k, (t.st.buf k).busy = true ∨ (t.st.buf k).dirty = true) ∧
        ((bget t.st p dev blockno).panicked = some NOBUFFERS →
          NBUF ≤ t.logged.card + t.st.inUse)) := by
  refine ⟨fun hr => ?_, fun hp p dev blockno => ⟨bget_panics_iff (kept_of_reaches h).owned hp,
    fun hpanic => ?_⟩⟩
  · have hinv : Kept disksize disk0 t ∧ t.st.panicked ≠ some NOBUFFERS := by
      refine hr.invariant (I := fun t => Kept disksize disk0 t ∧ t.st.panicked ≠ some NOBUFFERS)
        (fun t a t' hk hs => ?_) ⟨kept_of_reaches Relation.ReflTransGen.refl, fun hc => by cases hc⟩
      obtain ⟨hroom, hstep⟩ := guarded_eq_some.mp hs
      obtain ⟨s', hs', rfl⟩ := Option.map_eq_some_iff.mp hstep
      obtain ⟨ho, hc, hh, hpin⟩ := hk.1
      exact ⟨⟨ho.step hs', hc.step ho hs', hh.step ho hs', hpin.step ho hc hstep⟩,
        roomy_step ho hc hh hpin hroom hstep⟩
    exact hinv.2
  · obtain ⟨ho, hc, hh, hpin⟩ := kept_of_reaches h
    exact NBUF_le hh hpin hc ((bget_panics_iff ho hp).mp hpanic).2

/-- `n` readers, each of a block of its own, up to the return of `bread`;
then one more calls `bread`. -/
def readers (n : Nat) : List (Act (Fin 31)) :=
  (List.finRange 31).take n |>.flatMap fun p => [.bread p DISK (100 + p), .scan p, .fill p]

/-- With a buffer in the hands of each of 30 readers, the 31st finds none.
No process has more than one, and nothing is logged. -/
theorem readers_starve_cache :
    ∃ t : Tracked (Fin 31),
      Reaches (Tracked.step FSSIZE) (Tracked.init (Fin 31) fun _ => Bytes.zero BSIZE) t ∧
      t.logged = ∅ ∧ (∀ p, (t.st.owned p).length ≤ 1) ∧ t.st.panicked = some NOBUFFERS := by
  have hrun : (execAll (Tracked.step FSSIZE) (Tracked.init (Fin 31) fun _ => Bytes.zero BSIZE)
      (readers 30 ++ [.bread 30 DISK 130, .scan 30])).map (fun t =>
      decide (t.logged = ∅ ∧ (∀ p, (t.st.owned p).length ≤ 1) ∧
        t.st.panicked = some NOBUFFERS)) = some true := by decide +kernel
  obtain ⟨t, ht, hd⟩ := Option.map_eq_some_iff.mp hrun
  obtain ⟨h1, h2, h3⟩ := of_decide_eq_true hd
  exact ⟨t, reaches_of_execAll ht, h1, h2, h3⟩

/-- With 29 of them, the 30th reader gets the last buffer. -/
theorem bget_finds_last_buffer :
    ∃ t : Tracked (Fin 31),
      Reaches (roomyStep FSSIZE) (Tracked.init (Fin 31) fun _ => Bytes.zero BSIZE) t ∧
      t.st.inUse = 30 ∧ t.st.panicked ≠ some NOBUFFERS := by
  have hrun : (execAll (roomyStep FSSIZE) (Tracked.init (Fin 31) fun _ => Bytes.zero BSIZE)
      (readers 30)).map (fun t => decide (t.st.inUse = 30)) = some true := by decide +kernel
  obtain ⟨t, ht, hd⟩ := Option.map_eq_some_iff.mp hrun
  have hr : Reaches (roomyStep FSSIZE) (Tracked.init (Fin 31) fun _ => Bytes.zero BSIZE) t :=
    reaches_of_execAll ht
  exact ⟨t, hr, of_decide_eq_true hd, (bget_finds_buffer hr.of_guarded).1 hr⟩

end Xv6.Bio
