import Xv6.Ide.Model

/-!
# Ide — drive errors and valid buffers

`bio.c` over the driver of `ide.c`, with a drive that may report an error
for any command. `ideintr` leaves the data of a buffer alone when its read
failed, but marks it valid all the same; nothing tells `bread`.

Each buffer that is not free has one user, from `bget` to `brelse`, and
`phase` says where in between that user is. `idelock` and `bcache.lock` are
held from the start of a step to its end. A user that `bget` or `iderw` puts
to sleep tries again later: a step not possible now, or without effect.

`asRead` is bookkeeping that no step reads: the buffer was read, well or not,
and not changed since.
-/

namespace Xv6.Ide.Faults

open Lib

/-! ## The code -/

inductive Drive
  | ready
  | working (c : Cmd)
  | finished (c : Cmd) (data : Block) (err : Bool)    -- the interrupt is raised

/-- Where the user of a buffer stands. -/
inductive Phase
  | free
  | got         -- `bget` returned the buffer to `bread`
  | waiting     -- in `iderw`
  | held        -- `bread` or `bwrite` returned
deriving DecidableEq

structure St where
  buf : Fin NBUF → Buf
  phase : Fin NBUF → Phase
  order : List (Fin NBUF)       -- `bcache.head.next`, …: most recently used first
  idequeue : List (Fin NBUF)
  drive : Drive
  disk : Nat → Disk
  panicked : Option String
  asRead : Fin NBUF → Bool

/-- `(uint)-1`, the device `binit` gives every buffer. -/
def NODEV : Nat := 2 ^ 32 - 1

/-- After `binit` and `ideinit`, over the given drives. -/
def St.init (disk : Nat → Disk) : St where
  buf := fun _ => ⟨false, false, false, NODEV, 0, Bytes.zero BSIZE⟩
  phase := fun _ => .free
  order := (List.finRange NBUF).reverse
  idequeue := []
  drive := .ready
  disk := disk
  panicked := none
  asRead := fun _ => false

inductive Act
  | bget (dev : Fin 2) (blockno : Nat)        -- a round of `bget`, for one of the drives
  | fill (k : Fin NBUF)                       -- the rest of `bread`
  | store (k : Fin NBUF) (data : Block)       -- the user changes the data
  | logWrite (k : Fin NBUF)
  | bwrite (k : Fin NBUF)
  | go (k : Fin NBUF)                         -- the loop of `iderw` ends
  | brelse (k : Fin NBUF)
  | work (err : Bool)                         -- the drive carries out its command
  | ideintr

namespace St

variable (s : St)

def set (k : Fin NBUF) (b : Buf) (ph : Phase) : St :=
  { s with buf := upd s.buf k b, phase := upd s.phase k ph }

def panic (msg : String) : St := { s with panicked := some msg }

/-- `idestart`; `none` where `idewait` does not end. -/
def idestart (k : Fin NBUF) : Option St :=
  if FSSIZE ≤ (s.buf k).blockno then some (s.panic "incorrect blockno")
  else match s.drive with
    | .working _ => none
    | _ => some { s with drive := .working (s.buf k).cmd }

/-- Append a buffer to `idequeue` and wait. -/
def append (k : Fin NBUF) : St :=
  { s with idequeue := s.idequeue ++ [k], phase := upd s.phase k .waiting }

/-- `iderw` up to its loop. -/
def iderw (havedisk1 : Bool) (k : Fin NBUF) : Option St :=
  if (s.buf k).busy = false then some (s.panic "iderw: buf not busy")
  else if (s.buf k).clean then some (s.panic "iderw: nothing to do")
  else if (s.buf k).dev ≠ 0 ∧ havedisk1 = false then some (s.panic "iderw: ide disk 1 not present")
  else if (s.append k).idequeue.head? = some k then (s.append k).idestart k
  else some (s.append k)

/-- A round of `bget`'s loop. Where the buffer found is busy it sleeps. -/
def bget (dev blockno : Nat) : St :=
  match s.order.find? fun k => (s.buf k).dev = dev ∧ (s.buf k).blockno = blockno with
  | some k => if (s.buf k).busy = false then s.set k { s.buf k with busy := true } .got else s
  | none =>
      match s.order.reverse.find? fun k => (s.buf k).busy = false ∧ (s.buf k).dirty = false with
      | some k =>
          { s.set k ⟨true, false, false, dev, blockno, (s.buf k).data⟩ .got with
            asRead := upd s.asRead k false }
      | none => s.panic "bget: no buffers"

/-- `bread` after `bget`. -/
def fill (havedisk1 : Bool) (k : Fin NBUF) : Option St :=
  if (s.buf k).valid = false then s.iderw havedisk1 k else some (s.set k (s.buf k) .held)

/-- The user of a buffer changes its data. -/
def store (k : Fin NBUF) (data : Block) : St :=
  { s.set k { s.buf k with data := data } .held with asRead := upd s.asRead k false }

/-- What `log_write` does to the buffer. -/
def logWrite (k : Fin NBUF) : St := s.set k { s.buf k with dirty := true } .held

def bwrite (havedisk1 : Bool) (k : Fin NBUF) : Option St :=
  if (s.buf k).busy = false then some (s.panic "bwrite")
  else (s.logWrite k).iderw havedisk1 k

def brelse (k : Fin NBUF) : St :=
  if (s.buf k).busy = false then s.panic "brelse"
  else { s.set k { s.buf k with busy := false } .free with order := k :: s.order.erase k }

/-- The drive carries out its command; one that fails transfers nothing. -/
def work (err : Bool) : Option St :=
  match s.drive with
  | .working c =>
      match c.data with
      | some v =>
          some { s with
            drive := .finished c v err
            disk := if err then s.disk
              else upd s.disk c.drive (upd (s.disk c.drive) c.sector v) }
      | none => some { s with drive := .finished c (s.disk c.drive c.sector) err }
  | _ => none

/-- What `ideintr` makes of the buffer: `insl` where it is a read and
`idewait(1)` reports no error. -/
def received (b : Buf) (data : Block) (err : Bool) : Buf :=
  { b with
    data := if b.dirty = false ∧ err = false then data else b.data
    valid := true
    dirty := false }

/-- `ideintr` up to `idestart`. -/
def finish (k : Fin NBUF) (rest : List (Fin NBUF)) (data : Block) (err : Bool) : St :=
  { s with
    buf := upd s.buf k (received (s.buf k) data err)
    idequeue := rest
    drive := .ready
    asRead := upd s.asRead k (s.asRead k || !(s.buf k).dirty) }

/-- `ideintr`. -/
def ideintr : Option St :=
  match s.idequeue with
  | [] => some s
  | k :: rest =>
      match s.drive with
      | .finished _ data err =>
          match rest with
          | [] => some (s.finish k rest data err)
          | next :: _ => (s.finish k rest data err).idestart next
      | _ => none

end St

/-- One step; `none` where it is not possible. -/
def step (havedisk1 : Bool) (s : St) (a : Act) : Option St :=
  if s.panicked.isSome then none
  else match a with
    | .bget dev blockno => some (s.bget dev blockno)
    | .fill k => if s.phase k = .got then s.fill havedisk1 k else none
    | .store k data => if s.phase k = .held then some (s.store k data) else none
    | .logWrite k => if s.phase k = .held then some (s.logWrite k) else none
    | .bwrite k => if s.phase k = .held then s.bwrite havedisk1 k else none
    | .go k =>
        if s.phase k = .waiting ∧ (s.buf k).clean = true then some (s.set k (s.buf k) .held)
        else none
    | .brelse k => if s.phase k = .held then some (s.brelse k) else none
    | .work err => s.work err
    | .ideintr => s.ideintr

/-! ## What holds whatever the drive reports -/

/-- The drive works for the head of the queue. -/
structure Active (s : St) (k : Fin NBUF) : Prop where
  inRange : (s.buf k).blockno < FSSIZE
  drive : s.drive = .working (s.buf k).cmd ∨
    ∃ data err, s.drive = .finished (s.buf k).cmd data err ∧
      ((s.buf k).dirty = false → data = s.disk (s.buf k).dev (s.buf k).blockno)

/-- The buffers and who uses them. -/
structure Bufs (s : St) : Prop where
  listed : ∀ k, k ∈ s.order
  busy : ∀ k, s.phase k ≠ .free → (s.buf k).busy = true
  device : ∀ k, s.phase k ≠ .free ∨ s.asRead k = true → (s.buf k).dev < 2
  single : ∀ k l, (s.buf k).dev < 2 → (s.buf l).dev = (s.buf k).dev →
    (s.buf l).blockno = (s.buf k).blockno → l = k
  valid : ∀ k, s.asRead k = true → (s.buf k).valid = true
  nodup : s.idequeue.Nodup
  queued : ∀ k ∈ s.idequeue, s.phase k = .waiting ∧ (s.buf k).clean = false

structure Inv (s : St) : Prop extends Bufs s where
  active : ∀ k, s.idequeue.head? = some k → Active s k
  idle : s.idequeue = [] → s.drive = .ready

theorem Inv.init (disk : Nat → Disk) : Inv (St.init disk) where
  listed k := by simp [St.init]
  busy k h := absurd rfl h
  device k h := by rcases h with h | h <;> simp [St.init] at h
  single k l h := absurd h (by simp [St.init, NODEV])
  valid k h := by simp [St.init] at h
  nodup := List.nodup_nil
  queued k h := absurd h List.not_mem_nil
  active k h := by simp [St.init] at h
  idle _ := rfl

theorem Bufs.notMem_of_phase {s : St} (h : Bufs s) {k : Fin NBUF} (hk : s.phase k ≠ .waiting) :
    k ∉ s.idequeue := fun hmem => hk (h.queued k hmem).1

/-- **One buffer that is not queued changes.** -/
theorem Bufs.touch {s t : St} {k : Fin NBUF} (h : Bufs s) (hk : k ∉ s.idequeue)
    (hqueue : t.idequeue = s.idequeue) (hlisted : ∀ l, l ∈ t.order)
    (hother : ∀ l, l ≠ k → t.buf l = s.buf l ∧ t.phase l = s.phase l ∧ t.asRead l = s.asRead l)
    (hbusy : t.phase k ≠ .free → (t.buf k).busy = true)
    (hdevice : t.phase k ≠ .free ∨ t.asRead k = true → (t.buf k).dev < 2)
    (hsingle : (t.buf k).dev < 2 → ∀ l, l ≠ k →
      ¬((s.buf l).dev = (t.buf k).dev ∧ (s.buf l).blockno = (t.buf k).blockno))
    (hvalid : t.asRead k = true → (t.buf k).valid = true) : Bufs t where
  listed := hlisted
  busy l hl := by
    rcases eq_or_ne l k with rfl | hne
    · exact hbusy hl
    · obtain ⟨hb, hp, _⟩ := hother l hne
      rw [hb]
      exact h.busy l (hp ▸ hl)
  device l hl := by
    rcases eq_or_ne l k with rfl | hne
    · exact hdevice hl
    · obtain ⟨hb, hp, hr⟩ := hother l hne
      rw [hb]
      exact h.device l (by rwa [← hp, ← hr])
  single l m hl hdev hblockno := by
    rcases eq_or_ne l k with rfl | hlk
    · rcases eq_or_ne m l with rfl | hmk
      · rfl
      · rw [(hother m hmk).1] at hdev hblockno
        exact absurd ⟨hdev, hblockno⟩ (hsingle hl m hmk)
    · rw [(hother l hlk).1] at hl hdev hblockno
      rcases eq_or_ne m k with rfl | hmk
      · exact absurd ⟨hdev.symm, hblockno.symm⟩ (hsingle (hdev ▸ hl) l hlk)
      · rw [(hother m hmk).1] at hdev hblockno
        exact h.single l m hl hdev hblockno
  valid l hl := by
    rcases eq_or_ne l k with rfl | hne
    · exact hvalid hl
    · obtain ⟨hb, _, hr⟩ := hother l hne
      rw [hb]
      exact h.valid l (hr ▸ hl)
  nodup := hqueue ▸ h.nodup
  queued l hl := by
    rw [hqueue] at hl
    obtain ⟨hb, hp, _⟩ := hother l fun he => hk (he ▸ hl)
    rw [hb, hp]
    exact h.queued l hl

/-- The drive goes on with its command where the queue and what is queued
are as before. -/
theorem Inv.frame {s t : St} {k : Fin NBUF} (h : Inv s) (hb : Bufs t) (hk : k ∉ s.idequeue)
    (hqueue : t.idequeue = s.idequeue) (hdrive : t.drive = s.drive) (hdisk : t.disk = s.disk)
    (hother : ∀ l, l ≠ k → t.buf l = s.buf l) : Inv t where
  toBufs := hb
  active l hl := by
    rw [hqueue] at hl
    have hbuf := hother l fun he => hk (he ▸ List.mem_of_head? hl)
    have ha := h.active l hl
    exact ⟨hbuf ▸ ha.inRange, by rw [hbuf, hdrive, hdisk]; exact ha.drive⟩
  idle hnil := by
    rw [hdrive]
    exact h.idle (hqueue ▸ hnil)

/-- The user of a buffer that is not queued sets its flags, its data or its
phase. -/
theorem Inv.use {s : St} {k : Fin NBUF} (h : Inv s) (hk : k ∉ s.idequeue)
    (hphase : s.phase k ≠ .free) {b : Buf} {ph : Phase} (hdev : b.dev = (s.buf k).dev)
    (hblockno : b.blockno = (s.buf k).blockno) (hvalid : b.valid = (s.buf k).valid)
    (hbusy : ph ≠ .free → b.busy = true) : Inv (s.set k b ph) := by
  have hlt := h.device k (.inl hphase)
  have hbuf : (s.set k b ph).buf k = b := upd_self ..
  have hother : ∀ l, l ≠ k → (s.set k b ph).buf l = s.buf l := fun l hne => upd_of_ne hne
  refine h.frame (h.touch hk rfl h.listed (fun l hne => ⟨hother l hne, upd_of_ne hne, rfl⟩)
    (fun hp => ?_) (fun _ => ?_) (fun _ l hne hsame => hne ?_) (fun hr => ?_)) hk rfl rfl rfl hother
  · rw [hbuf]
    exact hbusy (by simpa [St.set] using hp)
  · rw [hbuf, hdev]
    exact hlt
  · rw [hbuf, hdev, hblockno] at hsame
    exact h.single k l hlt hsame.1 hsame.2
  · rw [hbuf, hvalid]
    exact h.valid k hr

theorem asRead_of_upd {f : Fin NBUF → Bool} {k l : Fin NBUF} (h : upd f k false l = true) :
    f l = true := by
  rcases eq_or_ne l k with rfl | hne
  · rw [upd_self] at h
    cases h
  · rwa [upd_of_ne hne] at h

/-- The order of the list changes, and less is known to be as read. -/
theorem Inv.forget {s : St} (h : Inv s) {asRead : Fin NBUF → Bool} {order : List (Fin NBUF)}
    (hread : ∀ l, asRead l = true → s.asRead l = true) (horder : ∀ l, l ∈ order) :
    Inv { s with asRead := asRead, order := order } where
  listed := horder
  busy := h.busy
  device l hl := h.device l (hl.imp_right (hread l))
  single := h.single
  valid l hl := h.valid l (hread l hl)
  nodup := h.nodup
  queued := h.queued
  active l hl := ⟨(h.active l hl).inRange, (h.active l hl).drive⟩
  idle := h.idle

theorem Inv.panic {s : St} (h : Inv s) (msg : String) : Inv (s.panic msg) where
  listed := h.listed
  busy := h.busy
  device := h.device
  single := h.single
  valid := h.valid
  nodup := h.nodup
  queued := h.queued
  active l hl := ⟨(h.active l hl).inRange, (h.active l hl).drive⟩
  idle := h.idle

/-! ### `bget`, `brelse` and the user -/

/-- A buffer that is not busy is not in use. -/
theorem Bufs.free_of_busy {s : St} (h : Bufs s) {k : Fin NBUF} (hk : (s.buf k).busy = false) :
    s.phase k = .free := by
  by_contra hne
  rw [h.busy k hne] at hk
  cases hk

theorem Inv.bget {s : St} (h : Inv s) {dev : Nat} (hdev : dev < 2) (blockno : Nat) :
    Inv (s.bget dev blockno) := by
  rw [St.bget]
  split
  · rename_i k hfind
    have hname : (s.buf k).dev = dev ∧ (s.buf k).blockno = blockno := by
      simpa using List.find?_some hfind
    split_ifs with hbusy
    · have hk : k ∉ s.idequeue := h.notMem_of_phase (by rw [h.free_of_busy hbusy]; decide)
      have hbuf : (s.set k { s.buf k with busy := true } .got).buf k =
        { s.buf k with busy := true } := upd_self ..
      refine h.frame (h.touch hk rfl h.listed
        (fun l hne => ⟨upd_of_ne hne, upd_of_ne hne, rfl⟩) (fun _ => by rw [hbuf])
        (fun _ => ?_) (fun hlt l hne hsame => hne ?_) (fun hr => ?_)) hk rfl rfl rfl
        (fun l hne => upd_of_ne hne)
      · rw [hbuf]
        exact hname.1 ▸ hdev
      · rw [hbuf] at hlt hsame
        exact h.single k l hlt hsame.1 hsame.2
      · rw [hbuf]
        exact h.valid k hr
    · exact h
  · rename_i hnone
    have hfresh : ∀ l, ¬((s.buf l).dev = dev ∧ (s.buf l).blockno = blockno) := by
      intro l hl
      have := List.find?_eq_none.mp hnone l (h.listed l)
      simp [hl] at this
    split
    · rename_i k hfind
      have hfree : (s.buf k).busy = false ∧ (s.buf k).dirty = false := by
        simpa using List.find?_some hfind
      have hk : k ∉ s.idequeue := h.notMem_of_phase (by rw [h.free_of_busy hfree.1]; decide)
      refine h.frame (h.touch hk rfl h.listed
        (fun l hne => ⟨upd_of_ne hne, upd_of_ne hne, upd_of_ne hne⟩) (fun _ => ?_)
        (fun _ => ?_) (fun _ l hne hsame => hfresh l ?_) (fun hr => ?_)) hk rfl rfl rfl
        (fun l hne => upd_of_ne hne)
      · simp [St.set]
      · simpa [St.set] using hdev
      · simpa [St.set] using hsame
      · simp at hr
    · exact h.panic _

theorem Inv.store {s : St} (h : Inv s) {k : Fin NBUF} (hk : s.phase k = .held) (data : Block) :
    Inv (s.store k data) := by
  have hset : Inv (s.set k { s.buf k with data := data } .held) :=
    h.use (h.notMem_of_phase (by rw [hk]; decide)) (by rw [hk]; decide) rfl rfl rfl
      fun _ => h.busy k (by rw [hk]; decide)
  exact hset.forget (fun _ => asRead_of_upd) h.listed

theorem Inv.logWrite {s : St} (h : Inv s) {k : Fin NBUF} (hk : s.phase k = .held) :
    Inv (s.logWrite k) :=
  h.use (h.notMem_of_phase (by rw [hk]; decide)) (by rw [hk]; decide) rfl rfl rfl
    fun _ => h.busy k (by rw [hk]; decide)

theorem Inv.brelse {s : St} (h : Inv s) {k : Fin NBUF} (hk : s.phase k = .held) :
    Inv (s.brelse k) := by
  rw [St.brelse]
  split_ifs
  · exact h.panic _
  · have hset : Inv (s.set k { s.buf k with busy := false } .free) :=
      h.use (h.notMem_of_phase (by rw [hk]; decide)) (by rw [hk]; decide) rfl rfl rfl
        fun hne => absurd rfl hne
    refine hset.forget (fun _ hr => hr) (fun l => ?_)
    rcases eq_or_ne l k with rfl | hne
    · exact List.mem_cons_self
    · exact List.mem_cons_of_mem _ ((List.mem_erase_of_ne hne).mpr (h.listed l))

theorem Inv.go {s : St} (h : Inv s) {k : Fin NBUF} (hk : s.phase k = .waiting)
    (hclean : (s.buf k).clean = true) : Inv (s.set k (s.buf k) .held) := by
  refine h.use (fun hmem => ?_) (by rw [hk]; decide) rfl rfl rfl
    fun _ => h.busy k (by rw [hk]; decide)
  rw [(h.queued k hmem).2] at hclean
  cases hclean

/-! ### The driver -/

theorem Bufs.idestart {s t : St} (h : Bufs s) {k : Fin NBUF} (hk : s.idequeue.head? = some k)
    (hstart : s.idestart k = some t) (hp : t.panicked = none) : Inv t := by
  rw [St.idestart] at hstart
  split_ifs at hstart with hrange
  · cases hstart
    cases hp
  · split at hstart
    · cases hstart
    · cases hstart
      refine ⟨⟨h.listed, h.busy, h.device, h.single, h.valid, h.nodup, h.queued⟩,
        fun l hl => ?_, fun hnil => ?_⟩
      · obtain rfl : k = l := Option.some.inj (hk.symm.trans hl)
        exact ⟨Nat.lt_of_not_le hrange, .inl rfl⟩
      · rw [show s.idequeue = [] from hnil] at hk
        cases hk

theorem Inv.append {s : St} (h : Inv s) {k : Fin NBUF} (hk : s.phase k ≠ .waiting)
    (hphase : s.phase k ≠ .free) (hclean : (s.buf k).clean = false) : Bufs (s.append k) where
  listed := h.listed
  busy l hl := by
    rcases eq_or_ne l k with rfl | hne
    · exact h.busy l hphase
    · exact h.busy l (by simpa [St.append, upd_of_ne hne] using hl)
  device l hl := by
    rcases eq_or_ne l k with rfl | hne
    · exact h.device l (.inl hphase)
    · exact h.device l (by simpa [St.append, upd_of_ne hne] using hl)
  single := h.single
  valid := h.valid
  nodup := by
    rw [St.append, List.nodup_append]
    refine ⟨h.nodup, List.nodup_singleton k, fun l hl m hm => ?_⟩
    rw [List.mem_singleton.mp hm]
    exact fun he => h.notMem_of_phase hk (he ▸ hl)
  queued l hl := by
    rcases List.mem_append.mp hl with hl | hl
    · have hne : l ≠ k := fun he => h.notMem_of_phase hk (he ▸ hl)
      have hphase : (s.append k).phase l = s.phase l := upd_of_ne hne
      rw [hphase]
      exact h.queued l hl
    · obtain rfl := List.mem_singleton.mp hl
      exact ⟨upd_self .., hclean⟩

theorem Inv.iderw {s t : St} (h : Inv s) {havedisk1 : Bool} {k : Fin NBUF}
    (hk : s.phase k ≠ .waiting) (hphase : s.phase k ≠ .free)
    (hrw : s.iderw havedisk1 k = some t) (hp : t.panicked = none) : Inv t := by
  rw [St.iderw] at hrw
  split_ifs at hrw with _ hclean _ hhead
  all_goals try (cases hrw; cases hp)
  · exact (h.append hk hphase (by simpa using hclean)).idestart hhead hrw hp
  · cases hrw
    -- the queue was not empty, and its head is what it was
    obtain ⟨first, rest, hqueue⟩ : ∃ l ls, s.idequeue = l :: ls := by
      refine List.exists_cons_of_ne_nil fun hnil => hhead ?_
      rw [St.append, hnil]
      rfl
    refine ⟨h.append hk hphase (by simpa using hclean), fun l hl => ?_, fun hnil => ?_⟩
    · rw [St.append, hqueue] at hl
      have ha := h.active l (by rw [hqueue]; exact hl)
      exact ⟨ha.inRange, ha.drive⟩
    · exact absurd (List.append_eq_nil_iff.mp hnil).2 (List.cons_ne_nil _ _)

theorem Inv.fill {s t : St} (h : Inv s) {havedisk1 : Bool} {k : Fin NBUF} (hk : s.phase k = .got)
    (hfill : s.fill havedisk1 k = some t) (hp : t.panicked = none) : Inv t := by
  rw [St.fill] at hfill
  split_ifs at hfill
  · exact h.iderw (by rw [hk]; decide) (by rw [hk]; decide) hfill hp
  · cases hfill
    exact h.use (h.notMem_of_phase (by rw [hk]; decide)) (by rw [hk]; decide) rfl rfl rfl
      fun _ => h.busy k (by rw [hk]; decide)

theorem Inv.bwrite {s t : St} (h : Inv s) {havedisk1 : Bool} {k : Fin NBUF}
    (hk : s.phase k = .held) (hwrite : s.bwrite havedisk1 k = some t) (hp : t.panicked = none) :
    Inv t := by
  rw [St.bwrite] at hwrite
  split_ifs at hwrite
  · cases hwrite
    cases hp
  · have hphase : (s.logWrite k).phase k = .held := upd_self ..
    exact (h.logWrite hk).iderw (by rw [hphase]; decide) (by rw [hphase]; decide) hwrite hp

/-- The sector of a command is the block of the buffer. -/
theorem cmd_sector {b : Buf} (h : b.blockno < FSSIZE) : b.cmd.sector = b.blockno :=
  Nat.mod_eq_of_lt (Nat.lt_trans h (by decide))

theorem cmd_drive {b : Buf} (h : b.dev < 2) : b.cmd.drive = b.dev := Nat.mod_eq_of_lt h

/-- What the drive does, for the buffer it works for. -/
theorem Inv.work_cases {s t : St} (h : Inv s) {err : Bool} (hwork : s.work err = some t) :
    ∃ k, s.idequeue.head? = some k ∧ (s.buf k).dev < 2 ∧ (s.buf k).blockno < FSSIZE ∧
      ((∃ data, (s.buf k).dirty = false ∧ data = s.disk (s.buf k).dev (s.buf k).blockno ∧
          t = { s with drive := .finished (s.buf k).cmd data err })
        ∨ ((s.buf k).dirty = true ∧ t = { s with
            drive := .finished (s.buf k).cmd (s.buf k).data err
            disk := if err then s.disk else
              upd s.disk (s.buf k).dev
                (upd (s.disk (s.buf k).dev) (s.buf k).blockno (s.buf k).data) })) := by
  have hne : s.idequeue ≠ [] := by
    intro hnil
    rw [St.work, h.idle hnil] at hwork
    cases hwork
  obtain ⟨k, rest, hqueue⟩ := List.exists_cons_of_ne_nil hne
  have hhead : s.idequeue.head? = some k := by rw [hqueue]; rfl
  have ha := h.active k hhead
  have hwait := h.queued k (by rw [hqueue]; exact List.mem_cons_self)
  have hdev := h.device k (.inl (by rw [hwait.1]; decide))
  refine ⟨k, hhead, hdev, ha.inRange, ?_⟩
  rcases ha.drive with hdrive | ⟨data, err', hdrive, _⟩
  · rw [St.work, hdrive] at hwork
    dsimp only at hwork
    by_cases hdirty : (s.buf k).dirty = true
    · have hdata : (s.buf k).cmd.data = some (s.buf k).data := if_pos hdirty
      rw [hdata] at hwork
      rw [cmd_drive hdev, cmd_sector ha.inRange] at hwork
      exact .inr ⟨hdirty, (Option.some.inj hwork).symm⟩
    · have hdata : (s.buf k).cmd.data = none := if_neg hdirty
      rw [hdata] at hwork
      rw [cmd_drive hdev, cmd_sector ha.inRange] at hwork
      exact .inl ⟨_, by simpa using hdirty, rfl, (Option.some.inj hwork).symm⟩
  · rw [St.work, hdrive] at hwork
    cases hwork

theorem Inv.work {s t : St} (h : Inv s) {err : Bool} (hwork : s.work err = some t) : Inv t := by
  obtain ⟨k, hhead, hdev, hrange, hcases⟩ := h.work_cases hwork
  have hbufs := h.toBufs
  rcases hcases with ⟨data, hdirty, hdata, rfl⟩ | ⟨hdirty, rfl⟩
  · refine ⟨⟨h.listed, h.busy, h.device, h.single, h.valid, h.nodup, h.queued⟩,
      fun l hl => ?_, fun hnil => ?_⟩
    · obtain rfl : k = l := Option.some.inj (hhead.symm.trans hl)
      exact ⟨hrange, .inr ⟨data, err, rfl, fun _ => hdata⟩⟩
    · rw [show s.idequeue = [] from hnil] at hhead
      cases hhead
  · refine ⟨⟨h.listed, h.busy, h.device, h.single, h.valid, h.nodup, h.queued⟩,
      fun l hl => ?_, fun hnil => ?_⟩
    · obtain rfl : k = l := Option.some.inj (hhead.symm.trans hl)
      refine ⟨hrange, .inr ⟨_, err, rfl, fun hclean => ?_⟩⟩
      rw [show (s.buf k).dirty = false from hclean] at hdirty
      cases hdirty
    · rw [show s.idequeue = [] from hnil] at hhead
      cases hhead

theorem finish_buf_self (s : St) (k : Fin NBUF) (rest : List (Fin NBUF)) (data : Block)
    (err : Bool) : (s.finish k rest data err).buf k = St.received (s.buf k) data err := upd_self ..

theorem finish_of_ne {s : St} {k l : Fin NBUF} {rest : List (Fin NBUF)} {data : Block} {err : Bool}
    (h : l ≠ k) : (s.finish k rest data err).buf l = s.buf l ∧
      (s.finish k rest data err).asRead l = s.asRead l := ⟨upd_of_ne h, upd_of_ne h⟩

theorem Inv.finish {s : St} (h : Inv s) {k : Fin NBUF} {rest : List (Fin NBUF)}
    (hqueue : s.idequeue = k :: rest) (data : Block) (err : Bool) :
    Bufs (s.finish k rest data err) := by
  have hwait := h.queued k (by rw [hqueue]; exact List.mem_cons_self)
  have hnodup := List.nodup_cons.mp (hqueue ▸ h.nodup)
  have hname : ∀ l, ((s.finish k rest data err).buf l).dev = (s.buf l).dev ∧
      ((s.finish k rest data err).buf l).blockno = (s.buf l).blockno ∧
      ((s.finish k rest data err).buf l).busy = (s.buf l).busy := by
    intro l
    rcases eq_or_ne l k with rfl | hne
    · rw [finish_buf_self]
      exact ⟨rfl, rfl, rfl⟩
    · rw [(finish_of_ne hne).1]
      exact ⟨rfl, rfl, rfl⟩
  refine ⟨h.listed, fun l hl => ?_, fun l hl => ?_, fun l m hl => ?_, fun l hl => ?_, hnodup.2,
    fun l hl => ?_⟩
  · rw [(hname l).2.2]
    exact h.busy l hl
  · rw [(hname l).1]
    rcases eq_or_ne l k with rfl | hne
    · exact h.device l (.inl (by rw [hwait.1]; decide))
    · rw [(finish_of_ne hne).2] at hl
      exact h.device l hl
  · rw [(hname l).1] at hl ⊢
    rw [(hname m).1, (hname l).2.1, (hname m).2.1]
    exact h.single l m hl
  · rcases eq_or_ne l k with rfl | hne
    · rw [finish_buf_self]
      rfl
    · rw [(finish_of_ne hne).2] at hl
      rw [(finish_of_ne hne).1]
      exact h.valid l hl
  · have hne : l ≠ k := fun he => hnodup.1 (he ▸ hl)
    rw [(finish_of_ne hne).1]
    exact h.queued l (by rw [hqueue]; exact List.mem_cons_of_mem _ hl)

/-- What `ideintr` can be. -/
theorem ideintr_cases {s t : St} (h : s.ideintr = some t) :
    (s.idequeue = [] ∧ t = s) ∨ ∃ k rest c data err, s.idequeue = k :: rest ∧
      s.drive = .finished c data err ∧
      ((rest = [] ∧ t = s.finish k rest data err) ∨
        ∃ next, rest.head? = some next ∧ (s.finish k rest data err).idestart next = some t) := by
  rw [St.ideintr] at h
  split at h
  · rename_i hnil
    exact .inl ⟨hnil, (Option.some.inj h).symm⟩
  · rename_i k rest hqueue
    split at h
    · rename_i c data err hdrive
      refine .inr ⟨k, rest, c, data, err, hqueue, hdrive, ?_⟩
      split at h
      · exact .inl ⟨rfl, (Option.some.inj h).symm⟩
      · exact .inr ⟨_, rfl, h⟩
    · cases h

theorem Inv.ideintr {s t : St} (h : Inv s) (hintr : s.ideintr = some t) (hp : t.panicked = none) :
    Inv t := by
  rcases ideintr_cases hintr with ⟨_, rfl⟩ | ⟨k, rest, c, data, err, hqueue, _, ht⟩
  · exact h
  · rcases ht with ⟨hrest, rfl⟩ | ⟨next, hnext, ht⟩
    · refine ⟨h.finish hqueue data err, fun l hl => ?_, fun _ => rfl⟩
      rw [St.finish, hrest] at hl
      cases hl
    · exact (h.finish hqueue data err).idestart hnext ht hp

/-- **A step keeps the invariant.** -/
theorem Inv.step {havedisk1 : Bool} {s t : St} {a : Act} (h : Inv s)
    (hstep : step havedisk1 s a = some t) (hp : t.panicked = none) : Inv t := by
  unfold Faults.step at hstep
  split_ifs at hstep
  cases a with
  | bget dev blockno =>
      cases hstep
      exact h.bget dev.isLt blockno
  | fill k =>
      obtain ⟨hk, hstep⟩ := Option.ite_none_right_eq_some.mp hstep
      exact h.fill hk hstep hp
  | store k data =>
      obtain ⟨hk, hstep⟩ := Option.ite_none_right_eq_some.mp hstep
      cases hstep
      exact h.store hk data
  | logWrite k =>
      obtain ⟨hk, hstep⟩ := Option.ite_none_right_eq_some.mp hstep
      cases hstep
      exact h.logWrite hk
  | bwrite k =>
      obtain ⟨hk, hstep⟩ := Option.ite_none_right_eq_some.mp hstep
      exact h.bwrite hk hstep hp
  | go k =>
      obtain ⟨hk, hstep⟩ := Option.ite_none_right_eq_some.mp hstep
      cases hstep
      exact h.go hk.1 hk.2
  | brelse k =>
      obtain ⟨hk, hstep⟩ := Option.ite_none_right_eq_some.mp hstep
      cases hstep
      exact h.brelse hk
  | work err => exact h.work hstep
  | ideintr => exact h.ideintr hstep hp

/-! ## Valid buffers -/

/-- **Valid buffers hold disk data**, where they were not changed since they
were read. -/
def Faithful (s : St) : Prop :=
  ∀ k, (s.buf k).valid = true → s.asRead k = true →
    (s.buf k).data = s.disk (s.buf k).dev (s.buf k).blockno

/-- The drive is as it was, and so is every buffer that is as read. -/
structure Same (s t : St) : Prop where
  disk : t.disk = s.disk
  buf : ∀ k, t.asRead k = true → s.asRead k = true ∧ (t.buf k).data = (s.buf k).data ∧
    (t.buf k).dev = (s.buf k).dev ∧ (t.buf k).blockno = (s.buf k).blockno

theorem Same.faithful {s t : St} (h : Same s t) (hinv : Inv s) (hf : Faithful s) : Faithful t := by
  intro k _ hread
  obtain ⟨hr, hdata, hdev, hblockno⟩ := h.buf k hread
  rw [hdata, hdev, hblockno, h.disk]
  exact hf k (hinv.valid k hr) hr

theorem Same.refl (s : St) : Same s s := ⟨rfl, fun _ hr => ⟨hr, rfl, rfl, rfl⟩⟩

theorem Same.trans {s t u : St} (h : Same s t) (h' : Same t u) : Same s u where
  disk := h'.disk.trans h.disk
  buf k hr := by
    obtain ⟨hr', hdata', hdev', hblockno'⟩ := h'.buf k hr
    obtain ⟨hr'', hdata, hdev, hblockno⟩ := h.buf k hr'
    exact ⟨hr'', hdata'.trans hdata, hdev'.trans hdev, hblockno'.trans hblockno⟩

theorem same_panic (s : St) (msg : String) : Same s (s.panic msg) :=
  ⟨rfl, fun _ hr => ⟨hr, rfl, rfl, rfl⟩⟩

/-- Flags and phases do not count. -/
theorem same_set {s : St} {k : Fin NBUF} {b : Buf} {ph : Phase} (hdata : b.data = (s.buf k).data)
    (hdev : b.dev = (s.buf k).dev) (hblockno : b.blockno = (s.buf k).blockno) :
    Same s (s.set k b ph) where
  disk := rfl
  buf l hr := by
    refine ⟨hr, ?_⟩
    rcases eq_or_ne l k with rfl | hne
    · have hbuf : (s.set l b ph).buf l = b := upd_self ..
      rw [hbuf]
      exact ⟨hdata, hdev, hblockno⟩
    · have hbuf : (s.set k b ph).buf l = s.buf l := upd_of_ne hne
      rw [hbuf]
      exact ⟨rfl, rfl, rfl⟩

/-- Nor does a buffer that is no longer as read. -/
theorem same_forget (s : St) (k : Fin NBUF) (b : Buf) (ph : Phase) :
    Same s { s.set k b ph with asRead := upd s.asRead k false } where
  disk := rfl
  buf l hr := by
    have hne : l ≠ k := by
      rintro rfl
      have hfalse : upd s.asRead l false l = true := hr
      rw [upd_self] at hfalse
      cases hfalse
    have hbuf : (s.set k b ph).buf l = s.buf l := upd_of_ne hne
    exact ⟨asRead_of_upd hr, congrArg Buf.data hbuf, congrArg Buf.dev hbuf,
      congrArg Buf.blockno hbuf⟩

theorem same_bget (s : St) (dev blockno : Nat) : Same s (s.bget dev blockno) := by
  rw [St.bget]
  split
  · split_ifs
    · exact same_set rfl rfl rfl
    · exact Same.refl s
  · split
    · exact same_forget s _ _ _
    · exact same_panic s _

theorem same_idestart {s t : St} {k : Fin NBUF} (h : s.idestart k = some t) : Same s t := by
  rw [St.idestart] at h
  split_ifs at h
  · cases h
    exact same_panic s _
  · split at h
    · cases h
    · cases h
      exact ⟨rfl, fun _ hr => ⟨hr, rfl, rfl, rfl⟩⟩

theorem faithful_idestart_iff {s t : St} {k : Fin NBUF} (h : s.idestart k = some t) :
    Faithful t ↔ Faithful s := by
  rw [St.idestart] at h
  split_ifs at h
  · cases h
    exact Iff.rfl
  · split at h
    · cases h
    · cases h
      exact Iff.rfl

theorem same_iderw {s t : St} {havedisk1 : Bool} {k : Fin NBUF}
    (h : s.iderw havedisk1 k = some t) : Same s t := by
  have happend : Same s (s.append k) := ⟨rfl, fun _ hr => ⟨hr, rfl, rfl, rfl⟩⟩
  rw [St.iderw] at h
  split_ifs at h
  · cases h
    exact same_panic s _
  · cases h
    exact same_panic s _
  · cases h
    exact same_panic s _
  · exact happend.trans (same_idestart h)
  · cases h
    exact happend

theorem same_fill {s t : St} {havedisk1 : Bool} {k : Fin NBUF} (h : s.fill havedisk1 k = some t) :
    Same s t := by
  rw [St.fill] at h
  split_ifs at h
  · exact same_iderw h
  · cases h
    exact same_set rfl rfl rfl

theorem same_logWrite (s : St) (k : Fin NBUF) : Same s (s.logWrite k) := same_set rfl rfl rfl

theorem same_bwrite {s t : St} {havedisk1 : Bool} {k : Fin NBUF}
    (h : s.bwrite havedisk1 k = some t) : Same s t := by
  rw [St.bwrite] at h
  split_ifs at h
  · cases h
    exact same_panic s _
  · exact (same_logWrite s k).trans (same_iderw h)

theorem same_brelse (s : St) (k : Fin NBUF) : Same s (s.brelse k) := by
  rw [St.brelse]
  split_ifs
  · exact same_panic s _
  · have hset : Same s (s.set k { s.buf k with busy := false } .free) := same_set rfl rfl rfl
    exact ⟨hset.disk, hset.buf⟩

/-- The drive writes what the buffer holds, and no other buffer is of that
block. -/
theorem Faithful.work {s t : St} (hf : Faithful s) (h : Inv s) {err : Bool}
    (hwork : s.work err = some t) : Faithful t := by
  obtain ⟨k, _, hdev, _, hcases⟩ := h.work_cases hwork
  rcases hcases with ⟨data, _, _, rfl⟩ | ⟨_, rfl⟩
  · exact hf
  · intro l hvalid hread
    have hold := hf l hvalid hread
    cases err with
    | true => exact hold
    | false =>
        show (s.buf l).data = upd s.disk (s.buf k).dev
          (upd (s.disk (s.buf k).dev) (s.buf k).blockno (s.buf k).data) (s.buf l).dev
          (s.buf l).blockno
        rcases eq_or_ne l k with rfl | hne
        · rw [upd_self, upd_self]
        · by_cases hd : (s.buf l).dev = (s.buf k).dev
          · have hb : (s.buf l).blockno ≠ (s.buf k).blockno := fun hb =>
              hne (h.single k l hdev hd hb)
            rw [hd, upd_self, upd_of_ne hb, ← hd]
            exact hold
          · rw [upd_of_ne hd]
            exact hold

/-- A read that failed left what was there: the condition on a step. -/
def Delivered (s : St) : Act → Prop
  | .ideintr => ∀ k c data, s.idequeue.head? = some k → s.drive = .finished c data true →
      (s.buf k).dirty = false → (s.buf k).data = s.disk (s.buf k).dev (s.buf k).blockno
  | _ => True

/-- The end of a request, and the buffer it was for. -/
theorem faithful_finish_iff {s : St} (hf : Faithful s) (h : Inv s) {k : Fin NBUF}
    {rest : List (Fin NBUF)} {c : Cmd} {data : Block} {err : Bool} (hqueue : s.idequeue = k :: rest)
    (hdrive : s.drive = .finished c data err) :
    Faithful (s.finish k rest data err) ↔ Delivered s .ideintr := by
  have hhead : s.idequeue.head? = some k := by rw [hqueue]; rfl
  have hread : (s.finish k rest data err).asRead k = (s.asRead k || !(s.buf k).dirty) := upd_self ..
  constructor
  · intro hf' k' c' data' hk' hdrive' hdirty
    obtain rfl : k = k' := Option.some.inj (hhead.symm.trans hk')
    obtain ⟨_, _, rfl⟩ := Drive.finished.inj (hdrive.symm.trans hdrive')
    have hk := hf' k (by rw [finish_buf_self]; rfl) (by rw [hread, hdirty]; simp)
    rw [finish_buf_self] at hk
    have hdata : (St.received (s.buf k) data true).data = (s.buf k).data := if_neg (by simp)
    rw [hdata] at hk
    exact hk
  · intro hdel l hvalid hl
    rcases eq_or_ne l k with rfl | hne
    · rw [finish_buf_self]
      show (if (s.buf l).dirty = false ∧ err = false then data else (s.buf l).data) =
        s.disk (s.buf l).dev (s.buf l).blockno
      by_cases hdirty : (s.buf l).dirty = false
      · cases err with
        | true =>
            rw [if_neg (by simp)]
            exact hdel l c data hhead hdrive hdirty
        | false =>
            rw [if_pos ⟨hdirty, rfl⟩]
            rcases (h.active l hhead).drive with hd | ⟨data', err', hd, hdata⟩
            · rw [hd] at hdrive
              cases hdrive
            · obtain ⟨_, rfl, _⟩ := Drive.finished.inj (hd.symm.trans hdrive)
              exact hdata hdirty
      · rw [if_neg fun hc => hdirty hc.1]
        rw [hread, (Bool.not_eq_false _).mp hdirty, Bool.not_true, Bool.or_false] at hl
        exact hf l (h.valid l hl) hl
    · rw [(finish_of_ne hne).2] at hl
      rw [(finish_of_ne hne).1]
      exact hf l (h.valid l hl) hl

/-- **One step**: the buffers stay faithful if and only if it delivers. -/
theorem faithful_step_iff {havedisk1 : Bool} {s t : St} {a : Act} (hf : Faithful s) (h : Inv s)
    (hstep : step havedisk1 s a = some t) : Faithful t ↔ Delivered s a := by
  unfold Faults.step at hstep
  split_ifs at hstep
  cases a with
  | bget dev blockno =>
      cases hstep
      exact iff_of_true ((same_bget s _ _).faithful h hf) trivial
  | fill k =>
      obtain ⟨_, hstep⟩ := Option.ite_none_right_eq_some.mp hstep
      exact iff_of_true ((same_fill hstep).faithful h hf) trivial
  | store k data =>
      obtain ⟨_, hstep⟩ := Option.ite_none_right_eq_some.mp hstep
      cases hstep
      exact iff_of_true ((same_forget s _ _ _).faithful h hf) trivial
  | logWrite k =>
      obtain ⟨_, hstep⟩ := Option.ite_none_right_eq_some.mp hstep
      cases hstep
      exact iff_of_true ((same_logWrite s k).faithful h hf) trivial
  | bwrite k =>
      obtain ⟨_, hstep⟩ := Option.ite_none_right_eq_some.mp hstep
      exact iff_of_true ((same_bwrite hstep).faithful h hf) trivial
  | go k =>
      obtain ⟨_, hstep⟩ := Option.ite_none_right_eq_some.mp hstep
      cases hstep
      exact iff_of_true (Same.faithful (same_set rfl rfl rfl) h hf) trivial
  | brelse k =>
      obtain ⟨_, hstep⟩ := Option.ite_none_right_eq_some.mp hstep
      cases hstep
      exact iff_of_true ((same_brelse s k).faithful h hf) trivial
  | work err => exact iff_of_true (hf.work h hstep) trivial
  | ideintr =>
      rcases ideintr_cases hstep with ⟨hnil, rfl⟩ | ⟨k, rest, c, data, err, hqueue, hdrive, ht⟩
      · refine iff_of_true hf fun k c data hk => ?_
        rw [hnil] at hk
        cases hk
      · rw [← faithful_finish_iff hf h hqueue hdrive]
        rcases ht with ⟨_, rfl⟩ | ⟨next, _, ht⟩
        · exact Iff.rfl
        -- `idestart` touches no buffer and no block
        · exact faithful_idestart_iff ht

/-! ## The result -/

/-- A state that did not panic has the invariant. -/
def Sane (s : St) : Prop := s.panicked = none → Inv s

theorem panicked_of_step {havedisk1 : Bool} {s t : St} {a : Act}
    (h : step havedisk1 s a = some t) : s.panicked = none := by
  unfold Faults.step at h
  split_ifs at h with hp
  simpa using hp

/-- **Valid buffers and drive errors**: along a run the valid buffers hold
disk data if and only if no step of it ends a failed read of a block that
the buffer did not hold already. -/
theorem valid_buffers_iff (havedisk1 : Bool) (disk : Nat → Disk) {acts : List Act} {u : St}
    (hrun : execAll (step havedisk1) (St.init disk) acts = some u) :
    (∀ pre s, pre <+: acts → execAll (step havedisk1) (St.init disk) pre = some s → Faithful s) ↔
      ∀ pre a s, pre ++ [a] <+: acts → execAll (step havedisk1) (St.init disk) pre = some s →
        Delivered s a := by
  refine holds_along_iff (K := Sane) (fun _ => Inv.init disk) (fun s a t hs hstep hp => ?_)
    (fun k hvalid _ => ?_) (fun s a t hs hf hstep => ?_) hrun
  · exact (hs (panicked_of_step hstep)).step hstep hp
  · simp [St.init] at hvalid
  · exact faithful_step_iff hf (hs (panicked_of_step hstep)) hstep

/-- A drive with a block that is not zero. -/
def oneBlock : Nat → Disk := fun _ blockno => if blockno = 5 then 1 else Bytes.zero BSIZE

/-- The buffer at the end of the list. -/
def buf0 : Fin NBUF := ⟨0, NBUF_pos⟩

/-- `bread` of that block. -/
def readBlock (err : Bool) : List Act :=
  [.bget (Fin.last 1) 5, .fill buf0, .work err, .ideintr, .go buf0]

/-- The run of a read that does not fail. -/
theorem valid_buffers_read :
    ∃ u, execAll (step true) (St.init oneBlock) (readBlock false) = some u ∧
      ∀ pre s, pre <+: readBlock false →
        execAll (step true) (St.init oneBlock) pre = some s → Faithful s := by
  refine ⟨_, rfl, (valid_buffers_iff true oneBlock (u := _) rfl).mpr ?_⟩
  rintro pre a s ⟨rest, hpre⟩ hs
  rw [List.append_assoc] at hpre
  -- only the fourth step is an interrupt
  rcases pre with _ | ⟨_, _ | ⟨_, _ | ⟨_, _ | ⟨_, _ | ⟨_, _⟩⟩⟩⟩⟩
  all_goals simp only [readBlock, List.nil_append, List.cons_append, List.cons.injEq] at hpre
  · obtain ⟨rfl, _⟩ := hpre
    trivial
  · obtain ⟨_, rfl, _⟩ := hpre
    trivial
  · obtain ⟨_, _, rfl, _⟩ := hpre
    trivial
  · obtain ⟨rfl, rfl, rfl, rfl, _⟩ := hpre
    intro k c data _ hdrive
    cases hs
    cases hdrive
  · obtain ⟨_, _, _, _, rfl, _⟩ := hpre
    trivial
  · simp at hpre

/-- The same read where the drive reports an error: `bread` returns a buffer
that is valid and holds what was in it before. -/
theorem failed_read_valid :
    ∃ s, execAll (step true) (St.init oneBlock) (readBlock true) = some s ∧
      s.phase buf0 = .held ∧ (s.buf buf0).valid = true ∧ s.asRead buf0 = true ∧
      (s.buf buf0).dev = 1 ∧ (s.buf buf0).blockno = 5 ∧ (s.buf buf0).data ≠ s.disk 1 5 :=
  ⟨_, rfl, rfl, rfl, rfl, rfl, rfl, by decide +kernel⟩

end Xv6.Ide.Faults
