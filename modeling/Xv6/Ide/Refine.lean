import Xv6.Ide.Model

/-!
# Ide — the driver does what the disk in memory does

Requests are numbered as they are appended. Those not served yet are the
queue, and the drive has the command of the first; those served left
their buffers, and the disk, as the disk in memory would have after the
same requests in the same order.
-/

namespace Xv6.Ide

open Lib

/-! ## The disk in memory, as functions -/

/-- A request `memIderw` serves. -/
structure Buf.Ok (b : Buf) : Prop where
  busy : b.busy = true
  work : b.clean = false
  dev : b.dev = 1
  blockno : b.blockno < FSSIZE

/-- The buffer it returns, and the disk. -/
def Buf.result (b : Buf) (d : Disk) : Buf :=
  if b.dirty then { b with dirty := false, valid := true }
  else { b with data := d b.blockno, valid := true }

def Buf.store (b : Buf) (d : Disk) : Disk := if b.dirty then upd d b.blockno b.data else d

theorem memIderw_of_ok {b : Buf} (h : b.Ok) (d : Disk) :
    memIderw FSSIZE b d = .ok (b.result d, b.store d) := by
  rw [memIderw, if_neg (by simp [h.busy]), if_neg (by simp [h.work]), if_neg (by simp [h.dev]),
    if_neg (by have := h.blockno; omega), Buf.result, Buf.store]
  split <;> rfl

theorem Buf.ok_of_isOk {b : Buf} {d : Disk} (h : (memIderw FSSIZE b d).isOk = true) : b.Ok := by
  rw [memIderw] at h
  split at h
  · cases h
  · rename_i hbusy
    split at h
    · cases h
    · rename_i hclean
      split at h
      · cases h
      · rename_i hdev
        split at h
        · cases h
        · rename_i hblock
          exact ⟨by simpa using hbusy, by simpa using hclean, by simpa using hdev, by omega⟩

/-- The disk after some requests. -/
def diskAfter (bs : List Buf) (d : Disk) : Disk := bs.foldl (fun d b => b.store d) d

/-- The buffers they return. -/
def results : List Buf → Disk → List Buf
  | [], _ => []
  | b :: bs, d => b.result d :: results bs (b.store d)

theorem memRun_of_ok {bs : List Buf} (h : ∀ b ∈ bs, b.Ok) (d : Disk) :
    memRun FSSIZE bs d = .ok (results bs d, diskAfter bs d) := by
  induction bs generalizing d with
  | nil => rfl
  | cons b bs ih =>
      have hrest := ih (fun c hc => h c (List.mem_cons_of_mem b hc)) (b.store d)
      simp only [memRun, memIderw_of_ok (h b (List.mem_cons_self ..)), bind, Except.bind, hrest]
      rfl

theorem results_getElem? (bs : List Buf) (d : Disk) (i : Nat) :
    (results bs d)[i]? = (bs[i]?).map fun b => b.result (diskAfter (bs.take i) d) := by
  induction bs generalizing d i with
  | nil => simp [results]
  | cons b bs ih =>
      cases i with
      | zero => rfl
      | succ i =>
          rw [results, List.getElem?_cons_succ, List.getElem?_cons_succ, ih]
          rfl

theorem diskAfter_append (bs cs : List Buf) (d : Disk) :
    diskAfter (bs ++ cs) d = diskAfter cs (diskAfter bs d) := List.foldl_append

theorem diskAfter_take_succ {bs : List Buf} {i : Nat} {b : Buf} (h : bs[i]? = some b) (d : Disk) :
    diskAfter (bs.take (i + 1)) d = b.store (diskAfter (bs.take i) d) := by
  rw [List.take_add_one, h, diskAfter_append]
  rfl

/-! ## The invariant -/

variable {P B : Type} [DecidableEq P] [DecidableEq B] {s s' : St P B} {d₀ : Nat → Disk}

/-- The buffers as they were when their requests were appended. -/
def St.bufs (s : St P B) : List Buf := s.reqs.map Prod.snd

/-- How many requests the drive has carried out. -/
def St.over (s : St P B) : Nat :=
  match s.drive with
  | .finished _ _ => s.served + 1
  | _ => s.served

/-- The disk in memory after the first `i` requests. -/
def St.diskAt (s : St P B) (d₀ : Nat → Disk) (i : Nat) : Disk := diskAfter (s.bufs.take i) (d₀ 1)

structure Inv (d₀ : Nat → Disk) (s : St P B) : Prop where
  havedisk1 : s.havedisk1 = true
  calm : s.panicked = none
  ok : ∀ x ∈ s.reqs, x.2.Ok
  served : s.served ≤ s.reqs.length
  queue : s.idequeue = (s.reqs.drop s.served).map Prod.fst
  drive : s.drive.cmd = (s.reqs[s.served]?).map fun x => x.2.cmd
  disk : s.disk 1 = s.diskAt d₀ s.over
  read : ∀ c x, s.drive = .finished c x → c.data = none → x = s.disk c.drive c.sector
  call : ∀ p b i, s.call p = some (b, i) → ∃ v, s.reqs[i]? = some (b, v) ∧
    s.buf b = if i < s.served then v.result (s.diskAt d₀ i) else v
  awake : ∀ p b i, s.call p = some (b, i) → i < s.served → s.asleep p = false
  waiting : ∀ i x, s.served ≤ i → s.reqs[i]? = some x → ∃ p, s.call p = some (x.1, i)
  distinct : ∀ p q b i j, s.call p = some (b, i) → s.call q = some (b, j) → p = q
  returned : ∀ x ∈ s.returned, x.1 < s.served ∧ (results s.bufs (d₀ 1))[x.1]? = some x.2
  fresh : ∀ p b i, s.call p = some (b, i) → i ∉ s.returned.map Prod.fst
  nodup : (s.returned.map Prod.fst).Nodup

omit [DecidableEq P] [DecidableEq B] in
theorem Inv.init (buf : B → Buf) (d₀ : Nat → Disk) : Inv d₀ (St.init buf d₀ : St P B) where
  havedisk1 := rfl
  calm := rfl
  ok := fun x hx => absurd hx List.not_mem_nil
  served := Nat.le_refl _
  queue := rfl
  drive := rfl
  disk := rfl
  read := fun c x hc => (by cases hc)
  call := fun p b i hp => (by cases hp)
  awake := fun p b i hp => (by cases hp)
  waiting := fun i x _ hx => (by simp [St.init] at hx)
  distinct := fun p q b i j hp => (by cases hp)
  returned := fun x hx => absurd hx List.not_mem_nil
  fresh := fun p b i hp => (by cases hp)
  nodup := List.nodup_nil

/-- What `idestart` tells the drive about a request it accepts. -/
theorem Buf.Ok.cmd {b : Buf} (h : b.Ok) :
    b.cmd = ⟨1, b.blockno, if b.dirty then some b.data else none⟩ := by
  have hF : FSSIZE = 1000 := rfl
  have hb := h.blockno
  rw [Buf.cmd, h.dev, Nat.mod_eq_of_lt (show b.blockno < 2 ^ 28 by omega)]

theorem Buf.result_clean (b : Buf) (d : Disk) : (b.result d).clean = true := by
  rw [Buf.result]
  cases b.dirty <;> simp [Buf.clean]

namespace Inv

variable (h : Inv d₀ s)

include h

omit [DecidableEq P] [DecidableEq B] in
theorem over_le : s.over ≤ s.reqs.length := by
  have hle := h.served
  have hdrive := h.drive
  rw [St.over]
  split
  · rename_i c x hd
    rw [hd] at hdrive
    by_contra hlt
    rw [List.getElem?_eq_none (by omega)] at hdrive
    cases hdrive
  · exact hle

omit [DecidableEq P] [DecidableEq B] in
/-- A request that is not served has its buffer as it was. -/
theorem unserved {i : Nat} {x : B × Buf} (hi : s.served ≤ i) (hx : s.reqs[i]? = some x) :
    s.buf x.1 = x.2 := by
  obtain ⟨p, hp⟩ := h.waiting i x hi hx
  obtain ⟨v, hv, hbuf⟩ := h.call p x.1 i hp
  rw [hx] at hv
  rw [hbuf, if_neg (by omega)]
  exact (congrArg Prod.snd (Option.some.inj hv)).symm

omit [DecidableEq P] [DecidableEq B] in
/-- Two requests that are not served have different buffers. -/
theorem unserved_ne {i j : Nat} {x y : B × Buf} (hi : s.served ≤ i) (hj : s.served ≤ j)
    (hx : s.reqs[i]? = some x) (hy : s.reqs[j]? = some y) (hij : i ≠ j) : x.1 ≠ y.1 := by
  intro he
  obtain ⟨p, hp⟩ := h.waiting i x hi hx
  obtain ⟨q, hq⟩ := h.waiting j y hj hy
  rw [← he] at hq
  obtain rfl := h.distinct p q x.1 i j hp hq
  rw [hp] at hq
  exact hij (congrArg Prod.snd (Option.some.inj hq))

omit [DecidableEq P] [DecidableEq B] in
/-- The head of the queue is the next request. -/
theorem head_iff : s.idequeue = [] ↔ s.served = s.reqs.length := by
  have := h.served
  rw [h.queue, List.map_eq_nil_iff, List.drop_eq_nil_iff]
  omega

omit [DecidableEq P] [DecidableEq B] in
theorem cons {b : B} {rest : List B} (hq : s.idequeue = b :: rest) :
    ∃ v, s.reqs[s.served]? = some (b, v) ∧ rest = (s.reqs.drop (s.served + 1)).map Prod.fst := by
  have hqueue := h.queue
  rw [hq] at hqueue
  have hlt : s.served < s.reqs.length := by
    by_contra hn
    rw [List.drop_eq_nil_of_le (by omega)] at hqueue
    cases hqueue
  rw [List.drop_eq_getElem_cons hlt, List.map_cons] at hqueue
  obtain ⟨hb, hrest⟩ := List.cons.inj hqueue
  refine ⟨s.reqs[s.served].2, ?_, hrest⟩
  rw [List.getElem?_eq_getElem hlt, hb]

omit [DecidableEq P] [DecidableEq B] h in
theorem bufs_getElem? {i : Nat} {x : B × Buf} (hx : s.reqs[i]? = some x) :
    s.bufs[i]? = some x.2 := by
  rw [St.bufs, List.getElem?_map, hx]
  rfl

omit [DecidableEq P] [DecidableEq B] in
/-- **The drive carries out a command.** -/
theorem work (hs : s.work = some s') : Inv d₀ s' := by
  rw [St.work] at hs
  have hdrive := h.drive
  have hover := h.disk
  rw [St.over] at hover
  split at hs
  · rename_i c hc
    rw [hc] at hdrive hover
    obtain ⟨x, hx, hxc⟩ := Option.map_eq_some_iff.mp hdrive.symm
    have hok : x.2.Ok := h.ok x (List.mem_of_getElem? hx)
    have hdisk : s.diskAt d₀ (s.served + 1) = x.2.store (s.disk 1) := by
      rw [hover, St.diskAt, diskAfter_take_succ (bufs_getElem? hx)]
      rfl
    rw [hok.cmd] at hxc
    split at hs
    · rename_i v hv
      obtain rfl := Option.some.inj hs
      refine ⟨h.havedisk1, h.calm, h.ok, h.served, h.queue, hdrive, ?_, fun c' y he hn => ?_,
        h.call, h.awake, h.waiting, h.distinct, h.returned, h.fresh, h.nodup⟩
      · change upd s.disk c.drive _ 1 = s.diskAt d₀ (s.served + 1)
        rw [hdisk, Buf.store]
        rw [← hxc] at hv ⊢
        dsimp only at hv ⊢
        split at hv
        · rename_i hdirty
          rw [if_pos hdirty, upd_self, Option.some.inj hv]
        · cases hv
      · cases he
        rw [hv] at hn
        cases hn
    · rename_i hv
      obtain rfl := Option.some.inj hs
      refine ⟨h.havedisk1, h.calm, h.ok, h.served, h.queue, hdrive, ?_, fun c' y he hn => ?_,
        h.call, h.awake, h.waiting, h.distinct, h.returned, h.fresh, h.nodup⟩
      · change s.disk 1 = s.diskAt d₀ (s.served + 1)
        rw [hdisk, Buf.store]
        rw [← hxc] at hv
        dsimp only at hv
        split at hv
        · cases hv
        · rename_i hdirty
          rw [if_neg hdirty]
      · cases he
        rfl
  · cases hs

omit [DecidableEq B] in
/-- **A request is appended.** If the queue was empty the drive has
nothing to do yet. -/
theorem append {p : P} {b : B} (hp : s.call p = none) (hb : ∀ q i, s.call q ≠ some (b, i))
    (hok : (s.buf b).Ok) (drive : Drive)
    (hdrive : drive.cmd = ((s.append p b).reqs[s.served]?).map fun x => x.2.cmd)
    (hsame : drive = s.drive ∨ s.drive = .ready ∧ ∃ c, drive = .working c) :
    Inv d₀ { s.append p b with drive := drive } := by
  have hle := h.served
  have hover := h.over_le
  have hold : ∀ {i : Nat} {x : B × Buf}, s.reqs[i]? = some x →
      (s.reqs ++ [(b, s.buf b)])[i]? = some x := fun {i x} hx => by
    rw [List.getElem?_append_left (List.getElem?_eq_some_iff.mp hx).1]
    exact hx
  have htake : ∀ i, i ≤ s.reqs.length →
      ({ s.append p b with drive := drive } : St P B).diskAt d₀ i = s.diskAt d₀ i := fun i hi => by
    rw [St.diskAt, St.diskAt, St.bufs, St.bufs, St.append, List.map_append,
      List.take_append_of_le_length (by simpa using hi)]
  have hover' : ({ s.append p b with drive := drive } : St P B).over = s.over := by
    rcases hsame with rfl | ⟨hr, c, rfl⟩
    · rfl
    · rw [St.over, St.over, hr]
      rfl
  refine ⟨h.havedisk1, h.calm, fun x hx => ?_, ?_, ?_, hdrive, ?_, fun c x hc => ?_,
    fun q b' i hq => ?_, fun q b' i hq hi => ?_, fun i x hi hx => ?_,
    fun q q' b' i j hq hq' => ?_, fun x hx => ?_, fun q b' i hq => ?_, h.nodup⟩
  · rcases List.mem_append.mp hx with hx | hx
    · exact h.ok x hx
    · rw [List.mem_singleton.mp hx]
      exact hok
  · change s.served ≤ (s.reqs ++ [_]).length
    rw [List.length_append]
    omega
  · change s.idequeue ++ [b] = ((s.reqs ++ [_]).drop s.served).map Prod.fst
    rw [List.drop_append_of_le_length hle, List.map_append, h.queue]
    rfl
  · rw [hover', htake _ hover]
    exact h.disk
  · rcases hsame with rfl | ⟨-, c', rfl⟩
    · exact h.read c x hc
    · cases hc
  · rcases eq_or_ne q p with rfl | hne
    · change Function.update s.call q _ q = _ at hq
      rw [Function.update_self] at hq
      obtain ⟨rfl, rfl⟩ := Prod.mk.inj (Option.some.inj hq)
      refine ⟨s.buf b, by simp [St.append], ?_⟩
      change s.buf b = if s.reqs.length < s.served then _ else _
      rw [if_neg (by omega)]
    · change Function.update s.call p _ q = _ at hq
      rw [Function.update_of_ne hne] at hq
      obtain ⟨v, hv, hbuf⟩ := h.call q b' i hq
      have hi := (List.getElem?_eq_some_iff.mp hv).1
      refine ⟨v, hold hv, ?_⟩
      rw [htake i (Nat.le_of_lt hi)]
      exact hbuf
  · change Function.update s.call p _ q = _ at hq
    change i < s.served at hi
    change Function.update s.asleep p true q = false
    rcases eq_or_ne q p with rfl | hne
    · rw [Function.update_self] at hq
      obtain ⟨-, rfl⟩ := Prod.mk.inj (Option.some.inj hq)
      omega
    · rw [Function.update_of_ne hne] at hq ⊢
      exact h.awake q b' i hq hi
  · change ∃ q, Function.update s.call p _ q = _
    rcases Nat.lt_or_ge i s.reqs.length with hlt | hge
    · change (s.reqs ++ [_])[i]? = _ at hx
      rw [List.getElem?_append_left hlt] at hx
      obtain ⟨q, hq⟩ := h.waiting i x hi hx
      have hne : q ≠ p := by
        rintro rfl
        rw [hp] at hq
        cases hq
      exact ⟨q, by rw [Function.update_of_ne hne]; exact hq⟩
    · change (s.reqs ++ [_])[i]? = _ at hx
      have hlen := (List.getElem?_eq_some_iff.mp hx).1
      rw [List.length_append, List.length_singleton] at hlen
      obtain rfl : i = s.reqs.length := by omega
      rw [List.getElem?_append_right (Nat.le_refl _), Nat.sub_self] at hx
      obtain rfl : (b, s.buf b) = x := Option.some.inj hx
      exact ⟨p, Function.update_self ..⟩
  · change Function.update s.call p _ q = _ at hq
    change Function.update s.call p _ q' = _ at hq'
    by_cases h1 : q = p <;> by_cases h2 : q' = p
    · rw [h1, h2]
    · rw [h1, Function.update_self] at hq
      rw [Function.update_of_ne h2] at hq'
      obtain ⟨rfl, -⟩ := Prod.mk.inj (Option.some.inj hq)
      exact absurd hq' (hb q' j)
    · rw [Function.update_of_ne h1] at hq
      rw [h2, Function.update_self] at hq'
      obtain ⟨rfl, -⟩ := Prod.mk.inj (Option.some.inj hq')
      exact absurd hq (hb q i)
    · rw [Function.update_of_ne h1] at hq
      rw [Function.update_of_ne h2] at hq'
      exact h.distinct q q' b' i j hq hq'
  · obtain ⟨hlt, hres⟩ := h.returned x hx
    refine ⟨hlt, ?_⟩
    rw [results_getElem?] at hres ⊢
    obtain ⟨v, hv, hr⟩ := Option.map_eq_some_iff.mp hres
    have hvlt := (List.getElem?_eq_some_iff.mp hv).1
    have hbufs : ({ s.append p b with drive := drive } : St P B).bufs = s.bufs ++ [s.buf b] := by
      simp [St.bufs, St.append]
    rw [hbufs, List.getElem?_append_left hvlt, hv,
      List.take_append_of_le_length (Nat.le_of_lt hvlt)]
    exact congrArg some hr
  · change Function.update s.call p _ q = _ at hq
    rcases eq_or_ne q p with rfl | hne
    · rw [Function.update_self] at hq
      intro hmem
      obtain ⟨x, hx, hxi⟩ := List.mem_map.mp hmem
      have := (h.returned x hx).1
      obtain ⟨-, rfl⟩ := Prod.mk.inj (Option.some.inj hq)
      omega
    · rw [Function.update_of_ne hne] at hq
      exact h.fresh q b' i hq

theorem iderw {p : P} {b : B} (hp : s.call p = none) (hb : ∀ q i, s.call q ≠ some (b, i))
    (hok : (s.buf b).Ok) (hs : s.iderw p b = some s') : Inv d₀ s' := by
  have hcheck : s.check b = none := by
    rw [St.check, if_neg (by simp [hok.busy]), if_neg (by simp [hok.work]),
      if_neg (by simp [h.havedisk1])]
  rw [St.iderw, hcheck] at hs
  dsimp only at hs
  by_cases hq : s.idequeue = []
  · -- the first request: the drive is ready and gets it
    have hserved := h.head_iff.mp hq
    have hready : s.drive = .ready := by
      have hd := h.drive
      rw [List.getElem?_eq_none (by omega)] at hd
      cases hdr : s.drive with
      | ready => rfl
      | working c =>
          rw [hdr] at hd
          cases hd
      | finished c x =>
          rw [hdr] at hd
          cases hd
    rw [if_pos (by simp [St.append, hq]), St.idestart] at hs
    have hblock : ¬FSSIZE ≤ ((s.append p b).buf b).blockno := Nat.not_le_of_lt hok.blockno
    rw [if_neg hblock] at hs
    have hdr : (s.append p b).drive = .ready := hready
    rw [hdr] at hs
    obtain rfl := Option.some.inj hs
    refine h.append hp hb hok _ ?_ (Or.inr ⟨hready, _, rfl⟩)
    change some (s.buf b).cmd = ((s.reqs ++ [(b, s.buf b)])[s.served]?).map _
    rw [hserved, List.getElem?_append_right (Nat.le_refl _), Nat.sub_self]
    rfl
  · obtain ⟨b', rest, hq⟩ := List.exists_cons_of_ne_nil hq
    obtain ⟨v, hv, -⟩ := h.cons hq
    have hne : b' ≠ b := by
      rintro rfl
      obtain ⟨q, hq'⟩ := h.waiting s.served _ (Nat.le_refl _) hv
      exact hb q _ hq'
    rw [if_neg (by simp [St.append, hq, hne])] at hs
    obtain rfl := Option.some.inj hs
    refine h.append hp hb hok s.drive ?_ (Or.inl rfl)
    change s.drive.cmd = ((s.reqs ++ [_])[s.served]?).map _
    rw [h.drive, List.getElem?_append_left (List.getElem?_eq_some_iff.mp hv).1]

omit [DecidableEq P] in
/-- **The request at the head is over.** -/
theorem finish {b : B} {rest : List B} {c : Cmd} {data : Block} (hq : s.idequeue = b :: rest)
    (hd : s.drive = .finished c data) (drive : Drive)
    (hdrive : drive.cmd = (s.reqs[s.served + 1]?).map fun x => x.2.cmd)
    (hnew : ∀ c x, drive ≠ .finished c x) :
    Inv d₀ { s.finish b rest data with drive := drive } := by
  obtain ⟨v, hv, hrest⟩ := h.cons hq
  have hok : v.Ok := h.ok _ (List.mem_of_getElem? hv)
  have hlt := (List.getElem?_eq_some_iff.mp hv).1
  have hbuf : s.buf b = v := h.unserved (Nat.le_refl _) hv
  have hc : c = v.cmd := by
    have := h.drive
    rw [hd, hv] at this
    exact Option.some.inj this
  have hdisk : s.disk 1 = v.store (s.diskAt d₀ s.served) := by
    have := h.disk
    rw [St.over, hd, St.diskAt, diskAfter_take_succ (bufs_getElem? hv)] at this
    exact this
  -- the buffer is what the disk in memory returns
  have hres : (s.finish b rest data).buf b = v.result (s.diskAt d₀ s.served) := by
    change upd s.buf b _ b = _
    rw [upd_self, hbuf, Buf.result]
    cases hdirty : v.dirty with
    | true => simp
    | false =>
        have hread := h.read c data hd (by rw [hc, hok.cmd, hdirty]; rfl)
        rw [hc, hok.cmd] at hread
        dsimp only at hread
        rw [hdisk, Buf.store, hdirty] at hread
        simp only [Bool.false_eq_true, if_false] at hread ⊢
        rw [hread]
  have hother : ∀ b', b' ≠ b → (s.finish b rest data).buf b' = s.buf b' := fun b' hb' =>
    upd_of_ne hb'
  have hover : ({ s.finish b rest data with drive := drive } : St P B).over = s.served + 1 := by
    rw [St.over]
    split
    · rename_i c' x hcx
      exact absurd hcx (hnew c' x)
    · rfl
  refine ⟨h.havedisk1, h.calm, h.ok, hlt, hrest, hdrive, ?_,
    fun c' x hcx => absurd hcx (hnew c' x), fun q b' i hq' => ?_, fun q b' i hq' hi => ?_,
    fun i x hi hx => ?_, h.distinct,
    fun x hx => ⟨Nat.lt_succ_of_lt (h.returned x hx).1, (h.returned x hx).2⟩, h.fresh, h.nodup⟩
  · rw [hover]
    have := h.disk
    rwa [St.over, hd] at this
  · obtain ⟨w, hw, hbuf'⟩ := h.call q b' i hq'
    refine ⟨w, hw, ?_⟩
    change (s.finish b rest data).buf b' = if i < s.served + 1 then w.result (s.diskAt d₀ i) else w
    rcases Nat.lt_trichotomy i s.served with hi | rfl | hi
    · rw [if_pos (by omega)]
      rw [if_pos hi] at hbuf'
      -- served before, by another process with another buffer
      have hne : b' ≠ b := by
        rintro rfl
        obtain ⟨r, hr⟩ := h.waiting s.served _ (Nat.le_refl _) hv
        obtain rfl := h.distinct q r b' i s.served hq' hr
        obtain ⟨-, rfl⟩ := Prod.mk.inj (Option.some.inj (Eq.trans hq'.symm hr))
        omega
      rw [hother b' hne, hbuf']
    · rw [if_pos (by omega)]
      rw [hv] at hw
      obtain ⟨rfl, rfl⟩ := Prod.mk.inj (Option.some.inj hw)
      exact hres
    · rw [if_neg (by omega)]
      rw [if_neg (by omega)] at hbuf'
      have hne : b' ≠ b := h.unserved_ne (Nat.le_of_lt hi) (Nat.le_refl _) hw hv (by omega)
      rw [hother b' hne, hbuf']
  · -- `wakeup` reaches the process whose request is over
    change (s.asleep q && !decide ((s.call q).map Prod.fst = some b)) = false
    rcases Nat.lt_or_ge i s.served with hlt' | hge
    · rw [h.awake q b' i hq' hlt', Bool.false_and]
    · obtain rfl : i = s.served := Nat.le_antisymm (Nat.le_of_lt_succ hi) hge
      obtain ⟨w, hw, -⟩ := h.call q b' _ hq'
      obtain ⟨rfl, -⟩ := Prod.mk.inj (Option.some.inj (Eq.trans hv.symm hw))
      have hq'' : s.call q = some (b, s.served) := hq'
      simp [hq'']
  · change s.served + 1 ≤ i at hi
    exact h.waiting i x (by omega) hx

omit [DecidableEq P] in
theorem ideintr (hs : s.ideintr = some s') : Inv d₀ s' := by
  rw [St.ideintr] at hs
  split at hs
  · obtain rfl := Option.some.inj hs
    exact h
  · rename_i b rest hq
    split at hs
    · rename_i c data hd
      obtain ⟨v, hv, hrest⟩ := h.cons hq
      dsimp only at hs
      split at hs
      · obtain rfl := Option.some.inj hs
        refine h.finish hq hd .ready ?_ fun c x hcx => (by cases hcx)
        have hlen : (s.reqs.drop (s.served + 1)).length = 0 := by
          rw [List.map_eq_nil_iff.mp hrest.symm]
          rfl
        rw [List.length_drop] at hlen
        rw [List.getElem?_eq_none (by omega)]
        rfl
      · rename_i b' rest' 
        -- the next request is started
        have hlt : s.served + 1 < s.reqs.length := by
          by_contra hn
          rw [List.drop_eq_nil_of_le (by omega)] at hrest
          cases hrest
        rw [List.drop_eq_getElem_cons hlt, List.map_cons] at hrest
        obtain ⟨hb', -⟩ := List.cons.inj hrest
        have hnext : s.reqs[s.served + 1]? = some s.reqs[s.served + 1] :=
          List.getElem?_eq_getElem hlt
        have hbuf := h.unserved (Nat.le_succ _) hnext
        have hne : b' ≠ b := by
          rw [hb']
          exact h.unserved_ne (Nat.le_succ _) (Nat.le_refl _) hnext hv (by omega)
        have hsame : (s.finish b (b' :: rest') data).buf b' = s.reqs[s.served + 1].2 := by
          rw [← hbuf, ← hb']
          exact upd_of_ne hne
        have hok := h.ok _ (List.getElem_mem hlt)
        have hblock : ¬FSSIZE ≤ s.reqs[s.served + 1].2.blockno := Nat.not_le_of_lt hok.blockno
        rw [St.idestart, hsame, if_neg hblock] at hs
        have hdr : (s.finish b (b' :: rest') data).drive = .ready := rfl
        rw [hdr] at hs
        obtain rfl := Option.some.inj hs
        refine h.finish hq hd _ ?_ fun c x hcx => (by cases hcx)
        rw [hnext]
        rfl
    · cases hs

omit [DecidableEq P] [DecidableEq B] in
theorem asleep {asleep : P → Bool}
    (ha : ∀ p b i, s.call p = some (b, i) → i < s.served → asleep p = false) :
    Inv d₀ { s with asleep := asleep } :=
  ⟨h.havedisk1, h.calm, h.ok, h.served, h.queue, h.drive, h.disk, h.read, h.call, ha, h.waiting,
    h.distinct, h.returned, h.fresh, h.nodup⟩

omit [DecidableEq B] in
/-- **`iderw` returns** only with a request that was served. -/
theorem retest {p : P} {b : B} {i : Nat} (hp : s.call p = some (b, i)) :
    Inv d₀ (s.retest p b i) := by
  obtain ⟨v, hv, hbuf⟩ := h.call p b i hp
  rw [St.retest]
  split
  · rename_i hclean
    have hserved : i < s.served := by
      by_contra hn
      rw [if_neg hn] at hbuf
      have := (h.ok _ (List.mem_of_getElem? hv)).work
      rw [← hbuf, hclean] at this
      cases this
    rw [if_pos hserved] at hbuf
    have hcall : ∀ q x, Function.update s.call p none q = some x → q ≠ p ∧ s.call q = some x := by
      intro q x hq
      rcases eq_or_ne q p with rfl | hne
      · rw [Function.update_self] at hq
        cases hq
      · rw [Function.update_of_ne hne] at hq
        exact ⟨hne, hq⟩
    refine ⟨h.havedisk1, h.calm, h.ok, h.served, h.queue, h.drive, h.disk, h.read,
      fun q b' j hq => h.call q b' j (hcall q _ hq).2,
      fun q b' j hq => h.awake q b' j (hcall q _ hq).2, fun j x hj hx => ?_,
      fun q q' b' j j' hq hq' => h.distinct q q' b' j j' (hcall q _ hq).2 (hcall q' _ hq').2,
      fun x hx => ?_, fun q b' j hq hmem => ?_, ?_⟩
    · change s.served ≤ j at hj
      obtain ⟨q, hq⟩ := h.waiting j x hj hx
      have hne : q ≠ p := by
        rintro rfl
        obtain ⟨-, rfl⟩ := Prod.mk.inj (Option.some.inj (Eq.trans hp.symm hq))
        omega
      refine ⟨q, ?_⟩
      change Function.update s.call p none q = _
      rw [Function.update_of_ne hne]
      exact hq
    · rcases List.mem_append.mp hx with hx | hx
      · exact h.returned x hx
      · rw [List.mem_singleton.mp hx]
        refine ⟨hserved, ?_⟩
        change (results s.bufs (d₀ 1))[i]? = _
        rw [results_getElem?, bufs_getElem? hv, hbuf]
        rfl
    · obtain ⟨hne, hq'⟩ := hcall q _ hq
      rw [List.map_append] at hmem
      rcases List.mem_append.mp hmem with hmem | hmem
      · exact h.fresh q b' j hq' hmem
      · obtain rfl : j = i := List.mem_singleton.mp hmem
        obtain ⟨w, hw, -⟩ := h.call q b' j hq'
        obtain ⟨rfl, -⟩ := Prod.mk.inj (Option.some.inj (Eq.trans hv.symm hw))
        exact hne (h.distinct q p b j j hq' hp)
    · rw [List.map_append, List.nodup_append]
      refine ⟨h.nodup, List.nodup_singleton _, fun a ha a' ha' => ?_⟩
      rw [List.mem_singleton.mp ha']
      rintro rfl
      exact h.fresh p b _ hp ha
  · rename_i hclean
    refine h.asleep fun q b' j hq hj => ?_
    rcases eq_or_ne q p with rfl | hne
    · obtain ⟨rfl, rfl⟩ := Prod.mk.inj (Option.some.inj (Eq.trans hp.symm hq))
      rw [if_pos hj] at hbuf
      rw [hbuf] at hclean
      exact absurd (v.result_clean _) hclean
    · rw [Function.update_of_ne hne]
      exact h.awake q b' j hq hj

omit [DecidableEq P] in
theorem edit {b : B} (hb : ∀ q i, s.call q ≠ some (b, i)) (v : Buf) :
    Inv d₀ { s with buf := upd s.buf b v } := by
  refine ⟨h.havedisk1, h.calm, h.ok, h.served, h.queue, h.drive, h.disk, h.read,
    fun q b' i hq => ?_, h.awake, h.waiting, h.distinct, h.returned, h.fresh, h.nodup⟩
  obtain ⟨w, hw, hbuf⟩ := h.call q b' i hq
  refine ⟨w, hw, ?_⟩
  change upd s.buf b v b' = _
  rw [upd_of_ne (by rintro rfl; exact hb q i hq)]
  exact hbuf

variable [Fintype P]

omit [DecidableEq P] [DecidableEq B] [Fintype P] h in
theorem not_inUse {b : B} (hb : ¬s.InUse b) (q : P) (i : Nat) : s.call q ≠ some (b, i) :=
  fun hq => hb ⟨q, by rw [hq]; rfl⟩

/-- **One step.** -/
theorem step {a : Act P B} (ha : Accepted s a) (hs : step s a = some s') : Inv d₀ s' := by
  unfold Ide.step at hs
  rw [if_neg (by simp [h.calm])] at hs
  cases a with
  | iderw p b =>
      dsimp only at hs
      split at hs
      · cases hs
      · rename_i hno
        obtain ⟨hp, hb⟩ := not_or.mp hno
        exact h.iderw (by simpa using hp) (not_inUse hb) (Buf.ok_of_isOk ha) hs
  | work => exact h.work hs
  | ideintr => exact h.ideintr hs
  | go p =>
      dsimp only at hs
      split at hs
      · rename_i b i hp
        split at hs
        · cases hs
        · obtain rfl := Option.some.inj hs
          exact h.retest hp
      · cases hs
  | kill p =>
      obtain rfl := Option.some.inj hs
      refine h.asleep fun q b i hq hi => ?_
      rcases eq_or_ne q p with rfl | hne
      · exact Function.update_self ..
      · rw [Function.update_of_ne hne]
        exact h.awake q b i hq hi
  | edit b v =>
      dsimp only at hs
      split at hs
      · cases hs
      · rename_i hb
        obtain rfl := Option.some.inj hs
        exact h.edit (not_inUse hb) v

omit h in
theorem of_reaches {buf : B → Buf} (hr : Reaches (guarded Accepted Ide.step) (St.init buf d₀) s) :
    Inv d₀ s := by
  refine Reaches.invariant (fun s a s' hi hs => ?_) hr (Inv.init buf d₀)
  obtain ⟨ha, hs⟩ := guarded_eq_some.mp hs
  exact hi.step ha hs

omit [DecidableEq P] [DecidableEq B] [Fintype P] in
/-- The drive has the command of the buffer at the head of the queue. -/
theorem drive_head : s.drive.cmd = s.idequeue.head?.map fun b => (s.buf b).cmd := by
  rw [h.drive, h.queue, List.head?_map, List.head?_drop, Option.map_map]
  cases hx : s.reqs[s.served]? with
  | none => rfl
  | some x =>
      rw [Option.map_some, Option.map_some, Function.comp, h.unserved (Nat.le_refl _) hx]

/-- The interrupt of a command that is over is served. -/
theorem ideintr_isSome {c : Cmd} {x : Block} (hd : s.drive = .finished c x) :
    (Ide.step s .ideintr).isSome := by
  unfold Ide.step
  rw [if_neg (by simp [h.calm])]
  change s.ideintr.isSome
  rw [St.ideintr]
  split
  · rfl
  · rw [hd]
    dsimp only
    split
    · rfl
    · rw [St.idestart]
      split <;> rfl

/-- `iderw` does not wait for the drive with `idelock` held. -/
theorem iderw_isSome {p : P} {b : B} (hp : s.call p = none) (hb : ¬s.InUse b) :
    (Ide.step s (.iderw p b)).isSome := by
  unfold Ide.step
  rw [if_neg (by simp [h.calm])]
  dsimp only
  rw [if_neg (by simp [hp, hb]), St.iderw]
  split
  · rfl
  · dsimp only
    split
    · rename_i hhead
      -- the buffer is at the head only if the queue was empty
      have hq : s.idequeue = [] := by
        by_contra hq
        obtain ⟨b', rest, hq⟩ := List.exists_cons_of_ne_nil hq
        obtain ⟨v, hv, -⟩ := h.cons hq
        obtain ⟨q, hq'⟩ := h.waiting s.served _ (Nat.le_refl _) hv
        rw [St.append, hq] at hhead
        obtain rfl : b' = b := Option.some.inj hhead
        exact not_inUse hb q _ hq'
      have hcmd : s.drive.cmd = none := by rw [h.drive_head, hq]; rfl
      rw [St.idestart]
      split
      · rfl
      · have hdr : (s.append p b).drive = s.drive := rfl
        rw [hdr]
        cases hd : s.drive with
        | working c =>
            rw [hd] at hcmd
            cases hcmd
        | ready => rfl
        | finished c x => rfl
    · rfl

end Inv

section Main

variable [Fintype P]

/-- **The driver refines the disk in memory**, whatever the order of the
calls and the interrupts. -/
theorem ide_refines_memide {buf : B → Buf}
    (hr : Reaches (guarded Accepted step) (St.init buf d₀) s) :
    -- the drive has the request at the head of the queue, and none if it is empty
    s.drive.cmd = s.idequeue.head?.map (fun b => (s.buf b).cmd) ∧
    -- the queue is the requests not served yet, in the order they were appended,
    s.served ≤ s.reqs.length ∧ s.idequeue = (s.reqs.drop s.served).map Prod.fst ∧
    -- each with the buffer as it was and a process that waits for it
    (∀ i b v, s.served ≤ i → s.reqs[i]? = some (b, v) → s.buf b = v ∧ ∃ p, s.call p = some (b, i)) ∧
    -- the disk is as the disk in memory is after the requests carried out
    (∃ rs, memRun FSSIZE (s.bufs.take s.over) (d₀ 1) = .ok (rs, s.disk 1)) ∧
    s.served ≤ s.over ∧
    -- a request is returned once and has what the disk in memory returns for it
    (s.returned.map Prod.fst).Nodup ∧
    (∃ rs d, memRun FSSIZE s.bufs (d₀ 1) = .ok (rs, d) ∧
      (∀ i v, (i, v) ∈ s.returned → i < s.served ∧ rs[i]? = some v) ∧
      -- and so does one that is served and not returned yet, whose process is awake
      ∀ p b i, s.call p = some (b, i) → i < s.served →
        rs[i]? = some (s.buf b) ∧ (s.buf b).clean = true ∧ s.asleep p = false) ∧
    -- nothing panics, and neither a call nor an interrupt is stuck
    s.panicked = none ∧
    (∀ c x, s.drive = .finished c x → (step s .ideintr).isSome) ∧
    ∀ p b, s.call p = none → ¬s.InUse b → (step s (.iderw p b)).isSome := by
  have h := Inv.of_reaches hr
  have hbufs : ∀ b ∈ s.bufs, b.Ok := fun b hb => by
    obtain ⟨x, hx, rfl⟩ := List.mem_map.mp hb
    exact h.ok x hx
  refine ⟨h.drive_head, h.served, h.queue,
    fun i b v hi hv => ⟨h.unserved hi hv, h.waiting i _ hi hv⟩,
    ⟨results (s.bufs.take s.over) (d₀ 1), ?_⟩, ?_, h.nodup,
    ⟨_, _, memRun_of_ok hbufs _, fun i v hv => h.returned (i, v) hv, fun p b i hp hi => ?_⟩, h.calm,
    fun c x hd => h.ideintr_isSome hd, fun p b hp hb => h.iderw_isSome hp hb⟩
  · rw [h.disk]
    exact memRun_of_ok (fun b hb => hbufs b (List.mem_of_mem_take hb)) _
  · rw [St.over]
    split
    · exact Nat.le_succ _
    · exact Nat.le_refl _
  · obtain ⟨v, hv, hbuf⟩ := h.call p b i hp
    rw [if_pos hi] at hbuf
    refine ⟨?_, ?_, h.awake p b i hp hi⟩
    · rw [results_getElem?, Inv.bufs_getElem? hv, hbuf]
      rfl
    · rw [hbuf]
      exact v.result_clean _

end Main

/-! ## A run -/

/-- Two processes, with a buffer each. -/
inductive Who
  | reader
  | writer
  deriving DecidableEq

instance : Fintype Who := ⟨{.reader, .writer}, fun w => by cases w <;> decide⟩

/-- Both buffers are for block 3, one to write it and one to read it. -/
def twoBufs : Who → Buf
  | .reader => ⟨true, false, false, 1, 3, 0⟩
  | .writer => ⟨true, true, true, 1, 3, 7⟩

def writeThenRead : List (Act Who Who) :=
  [.ideintr, .iderw .writer .writer, .iderw .reader .reader, .work, .ideintr, .work, .go .writer,
    .ideintr, .go .reader]

/-- The request that was appended second reads what the first wrote. -/
theorem ide_refines_memide_two : ∃ s : St Who Who,
    execAll (guarded Accepted step) (St.init twoBufs fun _ _ => 0) writeThenRead = some s ∧
    s.returned.map (fun x => (x.1, x.2.data)) = [(0, 7), (1, 7)] ∧ s.panicked = none ∧
    ∃ rs, memRun FSSIZE (s.bufs.take s.over) (fun _ => 0) = .ok (rs, s.disk 1) := by
  have hrun : (execAll (guarded Accepted step) (St.init twoBufs fun _ _ => 0) writeThenRead).map
      (fun s => decide (s.returned.map (fun x => (x.1, x.2.data)) = [(0, 7), (1, 7)])) =
      some true := by decide +kernel
  obtain ⟨s, hs, hd⟩ := Option.map_eq_some_iff.mp hrun
  have hall := ide_refines_memide (reaches_of_execAll hs)
  exact ⟨s, hs, of_decide_eq_true hd, hall.2.2.2.2.2.2.2.2.1, hall.2.2.2.2.1⟩

end Xv6.Ide
