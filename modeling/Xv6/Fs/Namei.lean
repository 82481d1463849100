import Xv6.Mkfs.Kernel

/-!
# Fs — `namei` and `nameiparent`

The two entry points of path resolution, from a state in which no inode
is locked. They return what the components of the path lead to, with one
reference to it, and leave no lock behind.
-/

namespace Xv6.Fs

open Lib

/-- No inode is locked. -/
def Unlocked (t : St) : Prop := ∀ k, t.Used k → (t.icache k).busy = false

/-- Where a path starts: at the root, or in the directory of entry `c`. -/
def St.startOf (s : St) (c : Fin NINODE) (path : List UInt8) : Nat :=
  if path.head? = some slash then ROOTINO else (s.icache c).inum

/-- `t` is `s` with one more reference to inode `i`, in entry `k`. -/
def OneMore (s t : St) (k : Fin NINODE) (i : Nat) : Prop :=
  Points t k i ∧ ∀ j, t.refOf j = s.refOf j + if j = i then 1 else 0

section Namex

variable {s : St} {E : Stop → Prop} {p : Fin NPROC} {c : Fin NINODE}

theorem Holding.unlocked {held : Multiset Nat} {t : St} (h : Holding s ∅ held t) : Unlocked t := by
  intro k hk
  rw [← Bool.not_eq_true, h.inv.busy k hk]
  exact Set.notMem_empty _

theorem namex_spec {path : List UInt8} {parent : Bool} (hinv : Inv s ∅) (hw : Navigable s)
    (hcwd : (s.proc p).cwd = some c) (hc : s.Used c) (hE : s.freeEntries < 2 → E noInodes) :
    Ensures (namex p path parent) s E fun r t =>
      Kept s t ∧ Lands s t (s.target parent (s.startOf c path) (components path)) r := by
  have h0 := hinv.holding
  simp only [namex, ensures_bind]
  rw [namexStart, St.startOf]
  by_cases hs : path.head? = some slash
  · rw [if_pos hs, if_pos hs]
    have hlt := (St.live_iff.mpr hw.root.1).1
    refine (iget_spec h0 hlt fun hfull _ => hE ?_).next ?_
    · have := h0.freeEntries_le hfull
      rw [Multiset.card_zero] at this
      omega
    · rintro k t ⟨hm, ht, hk⟩
      exact namexLoop_spec hw hE (Nat.lt_succ_self _) hm.kept ht hk hw.root
  · rw [if_neg hs, if_neg hs]
    simp only [ensures_bind, ensures_get, hcwd]
    have hpos : 0 < s.refOf (s.icache c).inum := refOf_pos_iff.mpr ⟨c, hc, rfl⟩
    refine (idup_spec h0 ⟨hc, rfl⟩).next ?_
    rintro _ t ⟨rfl, hm, ht, hk⟩
    exact namexLoop_spec hw hE (Nat.lt_succ_self _) hm.kept ht hk ⟨hw.used _ hpos, Or.inl hpos⟩

/-- What a resolution came to, in terms of references and locks. -/
theorem Lands.outcome {t : St} {target : Option (Nat × List UInt8)}
    {r : Option (Fin NINODE × List UInt8)} (h : Lands s t target r) :
    Unlocked t ∧
      (∀ i name, target = some (i, name) → ∃ k, r = some (k, name) ∧ OneMore s t k i) ∧
      (target = none → r = none ∧ ∀ j, t.refOf j = s.refOf j) := by
  cases h with
  | lost h =>
      refine ⟨h.unlocked, fun i name he => ?_, fun _ => ⟨rfl, fun j => ?_⟩⟩
      · cases he
      · rw [h.refs, Multiset.count_zero, Nat.add_zero]
  | @found k i name hk h =>
      refine ⟨h.unlocked, fun i' name' he => ?_, fun he => ?_⟩
      · cases he
        refine ⟨k, rfl, hk, fun j => ?_⟩
        rw [h.refs, Multiset.count_singleton]
      · cases he

end Namex

/-- **Path resolution.** `namei` returns the inode its components lead to
and `nameiparent` the directory all but the last lead to, with the last;
each has taken one reference and no lock, or nothing where there is no
such inode. They stop only if the inode cache has no two free entries. -/
theorem namei_resolves (s : St) (p : Fin NPROC) (c : Fin NINODE) (path : List UInt8)
    (hinv : Inv s ∅) (hw : Navigable s) (hcwd : (s.proc p).cwd = some c) (hc : s.Used c) :
    Ensures (namei p path) s (fun e => e = noInodes ∧ s.freeEntries < 2) (fun r t =>
      Kept s t ∧ Unlocked t ∧
      (∀ i, s.resolve (s.startOf c path) (components path) = some i →
        ∃ k, r = some k ∧ OneMore s t k i) ∧
      (s.resolve (s.startOf c path) (components path) = none →
        r = none ∧ ∀ j, t.refOf j = s.refOf j)) ∧
    Ensures (nameiparent p path) s (fun e => e = noInodes ∧ s.freeEntries < 2) (fun r t =>
      Kept s t ∧ Unlocked t ∧
      (∀ i name, s.resolveParent (s.startOf c path) (components path) = some (i, name) →
        ∃ k, r = some (k, name) ∧ OneMore s t k i) ∧
      (s.resolveParent (s.startOf c path) (components path) = none →
        r = none ∧ ∀ j, t.refOf j = s.refOf j)) := by
  have hspec : ∀ parent, Ensures (namex p path parent) s
      (fun e => e = noInodes ∧ s.freeEntries < 2) fun r t =>
        Kept s t ∧ Lands s t (s.target parent (s.startOf c path) (components path)) r :=
    fun parent => namex_spec hinv hw hcwd hc fun hlt => ⟨rfl, hlt⟩
  constructor
  · simp only [namei, ensures_bind, ensures_pure]
    refine (hspec false).next ?_
    rintro r t ⟨hkept, hl⟩
    obtain ⟨hun, hsome, hnone⟩ := hl.outcome
    refine ⟨hkept, hun, fun i hi => ?_, fun h0 => ?_⟩
    · obtain ⟨k, rfl, hk⟩ := hsome i [] (by rw [St.target, hi]; rfl)
      exact ⟨k, rfl, hk⟩
    · obtain ⟨rfl, hrefs⟩ := hnone (by rw [St.target, h0]; rfl)
      exact ⟨rfl, hrefs⟩
  · refine (hspec true).next ?_
    rintro r t ⟨hkept, hl⟩
    obtain ⟨hun, hsome, hnone⟩ := hl.outcome
    exact ⟨hkept, hun, hsome, hnone⟩

section Sample

open Mkfs

theorem namei_resolves_file : ∃ s p c, Inv s ∅ ∧ Navigable s ∧ (s.proc p).cwd = some c ∧
    Ensures (namei p emptyFile.name) s (fun e => e = noInodes ∧ s.freeEntries < 2) fun r t =>
      ∃ k, r = some k ∧ OneMore s t k 2 := by
  obtain ⟨t, _, himg⟩ := exists_image_empty (n := 1) (by decide)
  have hused : ∀ i ∈ [ROOTINO], UsedInode t i := fun i hi => by
    rw [List.mem_singleton.mp hi]
    exact RunsOn.usedInode_root himg
  have hrun := runsOn_running himg (List.nodup_singleton _) hused
  have hinv := inv_running himg (by decide) (by decide) (List.nodup_singleton _) hused
  have hnav := hrun.navigable himg (by decide) (by decide)
  have hc : Points (running t.img [ROOTINO]) rootEntry ROOTINO := running_points rfl
  refine ⟨running t.img [ROOTINO], ⟨0, by decide⟩, rootEntry, hinv, hnav, rfl, ?_⟩
  have h := namei_resolves (running t.img [ROOTINO]) ⟨0, by decide⟩ rootEntry emptyFile.name hinv
    hnav rfl hc.1
  refine h.1.next fun r u hr => hr.2.2.1 2 ?_
  have hstart : (running t.img [ROOTINO]).startOf rootEntry emptyFile.name = ROOTINO := rfl
  have hcomp : components emptyFile.name = [emptyFile.name] := by decide
  rw [hstart, hcomp, resolve_cons, St.enter, if_pos (hrun.root_type himg (by decide)),
    lookup_empty (n := 0) (by decide) (by decide) himg hrun]
  rfl

/-- **A full inode cache**: the path leads to an inode that is not in the
cache, and there is no entry left for it. -/
theorem namei_full_cache : ∃ s p c, Inv s ∅ ∧ Navigable s ∧ (s.proc p).cwd = some c ∧ s.Used c ∧
    s.resolve (s.startOf c emptyFile.name) (components emptyFile.name) = some 2 ∧
    namei p emptyFile.name s = .error noInodes := by
  obtain ⟨t, _, himg⟩ := exists_image_empty (n := 50) (by decide)
  set inums := ROOTINO :: List.range' 3 49 with hinums
  have hnodup : inums.Nodup := by decide
  have hused : ∀ i ∈ inums, UsedInode t i := fun i hi => by
    have hall : ∀ i ∈ inums, 0 < i ∧ i < 52 := by decide
    have hfree : t.freeinode = 52 := himg.freeinode
    exact ⟨(hall i hi).1, by rw [hfree]; exact (hall i hi).2⟩
  have hrun := runsOn_running himg hnodup hused
  have hinv := inv_running himg (by decide) (by decide) hnodup hused
  have hnav := hrun.navigable himg (by decide) (by decide)
  set s := running t.img inums with hs
  have hc : Points s rootEntry ROOTINO := running_points rfl
  have htarget : s.resolve (s.startOf rootEntry emptyFile.name) (components emptyFile.name) =
      some 2 := by
    have hstart : s.startOf rootEntry emptyFile.name = ROOTINO := rfl
    have hcomp : components emptyFile.name = [emptyFile.name] := by decide
    rw [hstart, hcomp, resolve_cons, St.enter, if_pos (hrun.root_type himg (by decide)),
      lookup_empty (n := 49) (by decide) (by decide) himg hrun]
    rfl
  refine ⟨s, ⟨0, by decide⟩, rootEntry, hinv, hnav, rfl, hc.1, htarget, ?_⟩
  have hspec : Ensures (namex ⟨0, by decide⟩ emptyFile.name false) s (fun e => e = noInodes)
      fun r u => Kept s u ∧ Lands s u
        (s.target false (s.startOf rootEntry emptyFile.name) (components emptyFile.name)) r :=
    namex_spec hinv hnav rfl hc.1 fun _ => rfl
  have hnamei : Ensures (namei ⟨0, by decide⟩ emptyFile.name) s (fun e => e = noInodes)
      fun _ _ => False := by
    simp only [namei, ensures_bind, ensures_pure]
    refine hspec.next fun r u hr => ?_
    have hl := hr.2
    rw [St.target, htarget] at hl
    cases hl with
    | @found k i _ hk h =>
        -- every entry is in use for another inode
        obtain ⟨i, hi⟩ : ∃ i, inums[k.val]? = some i :=
          ⟨_, List.getElem?_eq_getElem (show k.val < inums.length from k.isLt)⟩
        have hmem : i ∈ inums := List.mem_of_getElem? hi
        have hki := h.pins k i (running_points hi)
        have h2 : i = 2 := hki.2.symm.trans hk.2
        rw [h2] at hmem
        exact absurd hmem (by decide)
  cases hm : namei ⟨0, by decide⟩ emptyFile.name s with
  | ok r => exact absurd (hnamei.of_ok hm) not_false
  | error e => rw [hnamei.of_error hm]

end Sample

end Xv6.Fs
