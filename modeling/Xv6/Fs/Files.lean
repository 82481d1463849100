import Xv6.Fs.Writei
import Xv6.Mkfs.Kernel

/-!
# Fs — files as byte arrays

`fileread` and `filewrite` as their users see them: a file is a list of
bytes and a descriptor an offset into it. Any sequence of calls, through
any of the open descriptors, does what it does on byte arrays, unless the
disk is full.
-/

namespace Xv6.Fs

open Lib

/-! ## Byte arrays with offsets -/

structure View where
  obj : Nat → Obj
  ftable : Fin NFILE → File

inductive Call
  | read (f : Fin NFILE) (n : Fin (2 ^ 31))
  | write (f : Fin NFILE) (src : List UInt8)

def Call.file : Call → Fin NFILE
  | .read f _ | .write f _ => f

/-- How many of `n` bytes are written at `off`: if there is no room for
all, as many as fill whole transactions. -/
def accepted (off n : Nat) : Nat :=
  if off + n ≤ MAXFILE * BSIZE then n else (MAXFILE * BSIZE - off) / maxWrite * maxWrite

def View.advance (v : View) (f : Fin NFILE) (m : Nat) : View :=
  { v with ftable := upd v.ftable f { v.ftable f with off := (v.ftable f).off + m } }

/-- Write at the offset of `f`, and move the offset. -/
def View.write (v : View) (i : Nat) (f : Fin NFILE) (src : List UInt8) : View :=
  { v.advance f src.length with
    obj := upd v.obj i { v.obj i with data := overwrite (v.obj i).data (v.ftable f).off src } }

/-- One transaction of `filewrite`: all of the bytes, or none. -/
def View.transact (v : View) (i : Nat) (f : Fin NFILE) (src : List UInt8) : Int × View :=
  if (v.ftable f).off + src.length ≤ MAXFILE * BSIZE then (src.length, v.write i f src) else (-1, v)

/-- Of `n` bytes written through `f`, some go past the end of its file. -/
def View.Grows (v : View) (i : Nat) (f : Fin NFILE) (n : Nat) : Prop :=
  (v.obj i).data.length < (v.ftable f).off + accepted (v.ftable f).off n

/-- A call, where file `f` is open on inode `ino f`. -/
def View.call (ino : Fin NFILE → Nat) (v : View) : Call → (Int × List UInt8) × View
  | .read f n =>
      if (v.ftable f).readable = false then ((-1, []), v)
      else
        let bytes := ((v.obj (ino f)).data.drop (v.ftable f).off).take n
        ((bytes.length, bytes), v.advance f bytes.length)
  | .write f src =>
      if (v.ftable f).writable = false then ((-1, []), v)
      else
        let m := accepted (v.ftable f).off src.length
        ((if m = src.length then src.length else -1, []), v.write (ino f) f (src.take m))

def View.run (ino : Fin NFILE → Nat) (v : View) : List Call → List (Int × List UInt8) × View
  | [] => ([], v)
  | c :: cs =>
      let r := v.call ino c
      let q := r.2.run ino cs
      (r.1 :: q.1, q.2)

/-! ## The kernel -/

def Call.exec : Call → Prog (Int × List UInt8)
  | .read f n => fileread f n
  | .write f src => do return (← filewrite f src, [])

def St.view (s : St) : View := ⟨s.obj, s.ftable⟩

theorem St.view_ftable (s : St) : s.view.ftable = s.ftable := rfl

/-- The files of `F` are open, and no call is under way. -/
structure Files (F : Set (Fin NFILE)) (ino : Fin NFILE → Nat) (s : St) : Prop where
  inv : Inv s ∅
  idle : s.outstanding = 0 ∧ s.lh = []
  room : s.sb.size < BPB ∧ LOGSIZE ≤ s.sb.nlog
  file : ∀ f ∈ F, (s.ftable f).type = .FD_INODE ∧ Points s (s.ftable f).ip (ino f) ∧
    (s.obj (ino f)).type ≠ 0 ∧ (s.obj (ino f)).type ≠ T_DEV ∧
    (s.ftable f).off ≤ (s.obj (ino f)).data.length

section Calls

variable {F : Set (Fin NFILE)} {ino : Fin NFILE → Nat} {s t : St} {f : Fin NFILE} {L : Set Nat}
  {k : Fin NINODE} {i off : Nat} {src : List UInt8} {E : Stop → Prop}

theorem Inv.congr (h : Inv s L) (hsb : t.sb = s.sb) (hdisk : t.disk = s.disk)
    (hic : t.icache = s.icache) : Inv t L := by
  obtain ⟨⟨h1, h2, h3, h4, h5, h6, h7⟩, h8, h9, h10⟩ := h
  cases s
  cases t
  cases hsb
  cases hdisk
  cases hic
  exact ⟨⟨h1, h2, h3, h4, h5, h6, h7⟩, h8, h9, h10⟩

/-- A write takes no lock and no reference. -/
theorem Written.inv (h : Inv s L) (hw : Written s k off src t) :
    Inv t L ∧ ∀ l i, Points s l i → Points t l i := by
  obtain ⟨disk', d', lh', rfl, hc, -⟩ := hw
  have hpins : ∀ l i, Points s l i → Points (s.put k disk' lh' d') l i := fun l i hl => by
    rwa [Points, St.Used, St.put_entry]
  refine ⟨⟨hc, fun l hl => ?_, fun l hl => ?_, fun i hi => ?_⟩, hpins⟩
  · rw [St.Used, St.put_entry] at hl
    rw [St.put_entry]
    exact h.busy l hl
  · rw [St.Used, St.put_entry] at hl
    rw [St.put_entry]
    exact h.valid l hl
  · obtain ⟨l, hl⟩ := refOf_pos_iff.mp (h.locked i hi)
    exact refOf_pos_iff.mpr ⟨l, hpins l i hl⟩

/-- **After a call**: objects have kept their type and have not shrunk, and the
offset of `f` is within its file. -/
theorem Files.next (h : Files F ino s) (hinv : Inv t ∅) (hidle : t.outstanding = 0 ∧ t.lh = [])
    (hsb : t.sb = s.sb) (hpins : ∀ k i, Points s k i → Points t k i) {m : Nat}
    (hft : t.ftable = (s.view.advance f m).ftable)
    (hobj : ∀ i, (t.obj i).type = (s.obj i).type ∧ (s.obj i).data.length ≤ (t.obj i).data.length)
    (hoff : (s.ftable f).off + m ≤ (t.obj (ino f)).data.length) : Files F ino t := by
  refine ⟨hinv, hidle, hsb ▸ h.room, fun g hg => ?_⟩
  obtain ⟨htype, hpt, hne, hdev, hle⟩ := h.file g hg
  rw [(hobj _).1, hft]
  by_cases hgf : g = f
  · subst hgf
    simp only [View.advance, St.view, upd_self]
    exact ⟨htype, hpins _ _ hpt, hne, hdev, hoff⟩
  · simp only [View.advance, St.view, upd_of_ne hgf]
    exact ⟨htype, hpins _ _ hpt, hne, hdev, hle.trans (hobj _).2⟩

/-- The size in memory is the length of the file. -/
theorem size_eq (h : Inv s {i}) (hk : Points s k i) :
    (s.icache k).din.size = (s.obj i).data.length ∧ (s.icache k).din.type = (s.obj i).type ∧
      content s.disk (s.icache k).din = (s.obj i).data ∧ NoHoles s.disk (s.icache k).din := by
  have hv := h.valid_of_mem hk rfl
  have hobj := h.cons.obj_eq hk.1 hv
  rw [hk.2] at hobj
  rw [hobj]
  exact ⟨(length_content ..).symm, rfl, rfl, h.cons.noHoles hk.1 hv⟩

theorem Files.ilock_spec (h : Files F ino s) (hf : f ∈ F) (n : Nat) :
    Ensures (ilock (s.ftable f).ip) { s with outstanding := n } E fun _ t =>
      (∃ ic, t = { s with outstanding := n, icache := ic }) ∧ Inv t {ino f} ∧
        ∀ k i, Points s k i → Points t k i := by
  obtain ⟨-, hpt, hne, -⟩ := h.file f hf
  have hinv : Inv { s with outstanding := n } ∅ := h.inv.congr rfl rfl rfl
  refine (Fs.ilock_spec hinv.holding hpt (Set.notMem_empty _) fun h0 =>
    absurd h0 (St.live_iff.mpr hne).2).next ?_
  rintro _ t ⟨hm, hh, -⟩
  exact ⟨⟨_, hm.kept⟩, by rw [← insert_empty_eq]; exact hh.inv, hh.pins⟩

/-- **The end of a call**: the offset moves by what was read or written. -/
theorem unlock_spec {u : St} (hinv : Inv u {i}) (hk : Points u k i)
    (hft : u.ftable = s.ftable) (r : Int) :
    Ensures (iunlock k) (u.setFile f { u.ftable f with
        off := if r > 0 then (u.ftable f).off + r.toNat else (u.ftable f).off }) E fun _ v =>
      (∃ ic, v = { u with ftable := (s.view.advance f r.toNat).ftable, icache := ic }) ∧
        Inv v ∅ ∧ ∀ k i, Points u k i → Points v k i := by
  have hmove : (if r > 0 then (u.ftable f).off + r.toNat else (u.ftable f).off) =
      (s.ftable f).off + r.toNat := by rw [hft]; split <;> omega
  rw [hmove, hft]
  generalize hw : u.setFile f _ = w
  have hinv' : Inv w {i} := hw ▸ hinv.congr rfl rfl rfl
  have hpins : ∀ k i, Points u k i → Points w k i := fun k i hk => hw ▸ hk
  refine (iunlock_spec hinv'.holding (hpins _ _ hk) rfl).next ?_
  rintro _ v ⟨hm, hh, -⟩
  refine ⟨⟨v.icache, ?_⟩, Set.sdiff_self (s := {i}) ▸ hh.inv,
    fun k i hk => hh.pins k i (hpins k i hk)⟩
  rw [hm.kept, ← hw, St.setFile, hft]
  rfl

/-- A transaction keeps the types and shortens no file, and the offset moves
by what was written. -/
theorem View.transact_grows (v : View) (src) (hoff : (v.ftable f).off ≤ (v.obj i).data.length) :
    (∀ j, ((v.transact i f src).2.obj j).type = (v.obj j).type ∧
      (v.obj j).data.length ≤ ((v.transact i f src).2.obj j).data.length) ∧
    (v.ftable f).off + (v.transact i f src).1.toNat ≤
      ((v.transact i f src).2.obj i).data.length ∧
    (v.transact i f src).2.ftable = (v.advance f (v.transact i f src).1.toNat).ftable := by
  unfold View.transact
  split
  · have hlen := @length_overwrite _ src _ hoff
    refine ⟨fun j => ?_, ?_, rfl⟩
    · by_cases hj : j = i
      · subst hj
        simp only [View.write, upd_self, hlen, le_max_left, and_self]
      · simp only [View.write, upd_of_ne hj, Nat.le_refl, and_self]
    · simp only [View.write, upd_self, hlen, Int.toNat_natCast, le_max_right]
  · exact ⟨fun _ => ⟨rfl, Nat.le_refl _⟩, hoff, by simp [View.advance]⟩

theorem maxWrite_eq : maxWrite = 6656 := rfl

/-- What `writei` comes to. The log has room for 14 blocks of data, the bitmap
block, the indirect block and the inode. -/
theorem Files.writei_spec {t : St} {ic : Fin NINODE → Inode} (h : Files F ino s) (hf : f ∈ F)
    (hn : src.length < 2 ^ 31) (ht : t = { s with outstanding := 1, icache := ic })
    (hinv : Inv t {ino f}) (hk : Points t (s.ftable f).ip (ino f))
    (hE : s.view.Grows (ino f) f src.length → E outOfBlocks)
    (hbig : maxWrite < src.length → E tooBig) :
    Ensures (writei (s.ftable f).ip src (s.ftable f).off) t E fun r u =>
      Inv u {ino f} ∧ (∀ k i, Points t k i → Points u k i) ∧ u.sb = s.sb ∧ u.outstanding = 1 ∧
        u.ftable = s.ftable ∧ (r, u.obj) = ((s.view.transact (ino f) f src).1,
          (s.view.transact (ino f) f src).2.obj) := by
  obtain ⟨-, -, -, hdev, hoff⟩ := h.file f hf
  obtain ⟨hsize, htype, -, hholes⟩ := size_eq hinv hk
  have hmax := hholes.size_le
  have hobj : t.obj = s.obj := by rw [ht]; rfl
  rw [hobj] at hsize htype
  by_cases hfit : (s.ftable f).off + src.length ≤ MAXFILE * BSIZE
  · refine (Fs.writei_spec hinv.cons hk.1 (hinv.valid_of_mem hk rfl)
      (by rwa [htype]) (by rw [ht]) (fun hrej => ?_) (fun hnone => hE ?_) fun hfull => hbig ?_).next ?_
    · simp only [Rejected, MAXFILE_eq, BSIZE_eq] at *
      omega
    · by_contra hle
      rw [View.Grows, accepted, St.view_ftable, if_pos hfit] at hle
      rw [hholes.needed_eq_zero (hsize ▸ Nat.not_lt.mp hle)] at hnone
      exact Nat.not_lt_zero _ hnone
    · have hlog : LOGSIZE = 30 := rfl
      have hroom := h.room
      rw [ht, h.idle.2] at hfull
      by_contra hlen
      simp only [LogFull, logBound, nblk, hlog, maxWrite_eq, BPB_eq, BSIZE_eq, List.length_nil] at *
      split at hfull <;> omega
    · rintro r u ⟨rfl, hw⟩
      obtain ⟨hinv', hpins'⟩ := hw.inv hinv
      obtain ⟨disk', d', lh', rfl, -, hobj'⟩ := hw
      rw [hk.2, hobj] at hobj'
      rw [View.transact, St.view_ftable, if_pos hfit, hobj', ht]
      exact ⟨ht ▸ hinv', ht ▸ hpins', rfl, rfl, rfl, rfl⟩
  · refine (writei_rejected (by rwa [htype]) (by simp only [MAXFILE_eq, BSIZE_eq] at *; omega)
      (by omega) (Or.inr (Or.inr (Nat.lt_of_not_le hfit)))).next ?_
    rintro r u ⟨rfl, rfl⟩
    rw [View.transact, St.view_ftable, if_neg hfit, hobj, ht]
    exact ⟨ht ▸ hinv, fun _ _ hk => hk, rfl, rfl, rfl, rfl⟩

theorem writeSection_spec (h : Files F ino s) (hf : f ∈ F) (hn : src.length < 2 ^ 31)
    (hE : s.view.Grows (ino f) f src.length → E outOfBlocks)
    (hbig : maxWrite < src.length → E tooBig) :
    Ensures (writeSection f src) s E fun r t =>
      Files F ino t ∧ (r, t.view) = s.view.transact (ino f) f src := by
  obtain ⟨-, hpt, -, -, hoff⟩ := h.file f hf
  simp only [writeSection, beginOp, ensures_bind, ensures_get]
  rw [if_neg (by rw [h.idle.1, h.idle.2]; decide)]
  simp only [ensures_set, h.idle.1]
  refine (h.ilock_spec hf _).next ?_
  rintro _ t ⟨⟨ic, ht⟩, hinv, hpins⟩
  refine (h.writei_spec hf hn ht hinv (hpins _ _ hpt) hE hbig).next ?_
  rintro r u ⟨hinv', hpins', hsb, hout, hft, hres⟩
  obtain ⟨hr, hobj⟩ := Prod.mk.inj hres
  simp only [ensures_modify]
  refine (unlock_spec hinv' (hpins' _ _ (hpins _ _ hpt)) hft r).next ?_
  rintro _ v ⟨⟨icv, rfl⟩, hinv₀, hpins₀⟩
  simp only [endOp, hout, Nat.sub_self, if_true, ensures_bind, ensures_get, ensures_set,
    ensures_pure]
  obtain ⟨hgrows, hend, hmoved⟩ := s.view.transact_grows src hoff
  rw [← hr, ← hobj] at hend
  rw [← hr] at hmoved
  rw [← hobj] at hgrows
  refine ⟨h.next (hinv₀.congr rfl rfl rfl) ⟨rfl, rfl⟩ hsb
    (fun k i hk => hpins₀ k i (hpins' k i (hpins k i hk))) rfl hgrows hend, Prod.ext hr ?_⟩
  show (⟨u.obj, (s.view.advance f r.toNat).ftable⟩ : View) = _
  rw [hobj, ← hmoved]

theorem accepted_fit {n : Nat} (h : off + min n maxWrite ≤ MAXFILE * BSIZE) :
    accepted off n = min n maxWrite + accepted (off + min n maxWrite) (n - min n maxWrite) := by
  unfold accepted
  split <;> split <;> simp only [maxWrite_eq, MAXFILE_eq, BSIZE_eq] at * <;> omega

theorem accepted_full {n : Nat} (h : ¬off + min n maxWrite ≤ MAXFILE * BSIZE) :
    accepted off n = 0 := by
  unfold accepted
  split <;> simp only [maxWrite_eq, MAXFILE_eq, BSIZE_eq] at * <;> omega

theorem accepted_min_le (off n : Nat) : accepted off (min n maxWrite) ≤ accepted off n := by
  unfold accepted
  split <;> split <;> simp only [maxWrite_eq, MAXFILE_eq, BSIZE_eq] at * <;> omega

theorem accepted_zero (off : Nat) : accepted off 0 = 0 := by
  unfold accepted
  split
  · rfl
  · rw [Nat.sub_eq_zero_of_le (by omega), Nat.zero_div, Nat.zero_mul]

theorem View.write_nil (v : View) : v.write i f [] = v := by
  simp [View.write, View.advance, overwrite]

theorem overwrite_overwrite {dst a b : List UInt8} (h : off ≤ dst.length) :
    overwrite (overwrite dst off a) (off + a.length) b = overwrite dst off (a ++ b) := by
  have hlen : (dst.take off ++ a).length = off + a.length := by simp [h]
  rw [overwrite, overwrite, overwrite, List.take_left' hlen, ← List.drop_drop, List.drop_left' hlen,
    List.drop_drop, List.length_append, Nat.add_assoc, List.append_assoc _ a b]

theorem View.write_write (v : View) {a b : List UInt8}
    (hoff : (v.ftable f).off ≤ (v.obj i).data.length) :
    (v.write i f a).write i f b = v.write i f (a ++ b) := by
  simp only [View.write, View.advance, upd_self, upd_upd, overwrite_overwrite hoff,
    List.length_append, Nat.add_assoc]

theorem filewriteLoop_spec (h : Files F ino s) (hf : f ∈ F) {fuel : Nat}
    (hfuel : src.length ≤ fuel) (hE : s.view.Grows (ino f) f src.length → E outOfBlocks) :
    Ensures (filewriteLoop f fuel src) s E fun m t => Files F ino t ∧
      m = accepted (s.ftable f).off src.length ∧ t.view = s.view.write (ino f) f (src.take m) := by
  induction fuel generalizing s src with
  | zero =>
      obtain rfl : src = [] := List.length_eq_zero_iff.mp (by omega)
      exact ⟨h, (accepted_zero _).symm, (View.write_nil _).symm⟩
  | succ fuel ih =>
      by_cases h0 : src.length = 0
      · obtain rfl : src = [] := List.length_eq_zero_iff.mp h0
        exact ⟨h, (accepted_zero _).symm, (View.write_nil _).symm⟩
      have hmin : (src.take (min src.length maxWrite)).length = min src.length maxWrite := by simp
      simp only [filewriteLoop, if_neg h0, ensures_bind]
      have hle := hmin.trans_le (min_le_right ..)
      refine (writeSection_spec h hf (hle.trans_lt (by decide)) (fun hgrow => hE (hgrow.trans_le
        (by rw [hmin]; exact Nat.add_le_add_left (accepted_min_le ..) _)))
        fun hlt => absurd hle (Nat.not_le.mpr hlt)).next ?_
      rintro r t ⟨ht, hrt⟩
      rw [View.transact, hmin, St.view_ftable] at hrt
      by_cases hfit : (s.ftable f).off + min src.length maxWrite ≤ MAXFILE * BSIZE
      · rw [if_pos hfit] at hrt
        obtain ⟨rfl, hview⟩ := Prod.mk.inj hrt
        rw [if_neg (by omega), if_neg (by simp)]
        simp only [ensures_bind]
        have hoff : (t.ftable f).off = (s.ftable f).off + min src.length maxWrite := by
          show (t.view.ftable f).off = _
          rw [hview]
          simp [View.write, View.advance, St.view]
        refine (ih ht (by rw [List.length_drop, maxWrite_eq]; omega) fun hgrow => hE ?_).next ?_
        · have hle : (s.view.obj (ino f)).data.length ≤ (t.view.obj (ino f)).data.length := by
            rw [hview]
            simp only [View.write, upd_self, length_overwrite (h.file f hf).2.2.2.2, St.view,
              le_max_left]
          rw [View.Grows, St.view_ftable, hoff, List.length_drop] at hgrow
          rw [View.Grows, St.view_ftable, accepted_fit hfit]
          omega
        rintro m u ⟨hu, hm, hview'⟩
        refine ⟨hu, ?_, ?_⟩
        · rw [accepted_fit hfit, hm, hoff, List.length_drop]
        · rw [hview', hview, View.write_write _ (h.file f hf).2.2.2.2, List.take_add]
      · rw [if_neg hfit] at hrt
        obtain ⟨rfl, hview⟩ := Prod.mk.inj hrt
        rw [if_pos (by decide)]
        exact ⟨ht, (accepted_full hfit).symm, hview.trans (View.write_nil _).symm⟩

theorem filewrite_spec (h : Files F ino s) (hf : f ∈ F) (src : List UInt8)
    (hE : s.view.Grows (ino f) f src.length → E outOfBlocks) :
    Ensures (filewrite f src) s E fun r t =>
      Files F ino t ∧ ((r, []), t.view) = s.view.call ino (.write f src) := by
  simp only [filewrite, ensures_bind, ensures_get]
  by_cases hw : (s.ftable f).writable = false
  · rw [if_pos hw]
    exact ⟨h, (if_pos hw).symm⟩
  · rw [if_neg hw, if_pos (h.file f hf).1]
    simp only [ensures_bind]
    refine (filewriteLoop_spec h hf (Nat.le_refl _) hE).next ?_
    rintro m t ⟨ht, rfl, hview⟩
    exact ⟨ht, hview ▸ (if_neg hw).symm⟩

theorem fileread_spec (h : Files F ino s) (hf : f ∈ F) (n : Fin (2 ^ 31)) :
    Ensures (Call.read f n).exec s E fun r t =>
      Files F ino t ∧ (r, t.view) = s.view.call ino (.read f n) := by
  obtain ⟨htype, hpt, -, hdev, hoff⟩ := h.file f hf
  simp only [Call.exec, fileread, ensures_bind, ensures_get]
  by_cases hr : (s.ftable f).readable = false
  · rw [if_pos hr]
    exact ⟨h, (if_pos hr).symm⟩
  rw [if_neg hr, if_pos htype]
  simp only [ensures_bind]
  refine (h.ilock_spec hf s.outstanding).next ?_
  rintro _ t ⟨⟨ic, ht⟩, hinv, hpins⟩
  obtain ⟨hsize, htype', hdata, hholes⟩ := size_eq hinv (hpins _ _ hpt)
  have hmax := hholes.size_le
  have hobj : t.obj = s.obj := by rw [ht]; rfl
  rw [hobj] at hsize htype' hdata
  have hlt : (s.ftable f).off + n < 2 ^ 32 := by
    simp only [MAXFILE_eq, BSIZE_eq] at hmax
    omega
  refine (readi_spec (by rwa [htype']) hholes (by omega) (by omega)).next ?_
  rintro r _ ⟨rfl, rfl⟩
  rw [hdata, readResult, if_neg (by omega)]
  generalize hbytes : ((s.obj (ino f)).data.drop (s.ftable f).off).take n = bytes
  have hend : (s.ftable f).off + bytes.length ≤ (s.obj (ino f)).data.length := by
    rw [← hbytes, List.length_take, List.length_drop]
    omega
  simp only [ensures_modify]
  refine (unlock_spec hinv (hpins _ _ hpt) (by rw [ht]) _).next ?_
  rintro _ v ⟨⟨icv, rfl⟩, hinv₀, hpins₀⟩
  rw [ht]
  refine ⟨h.next (ht ▸ hinv₀) h.idle rfl (fun k i hk => ht ▸ hpins₀ k i (hpins k i hk)) rfl
    (fun _ => ⟨rfl, Nat.le_refl _⟩) hend, ?_⟩
  subst hbytes
  exact (if_neg hr).symm

/-- **Files are byte arrays**: whatever calls are made through the open files,
and in whatever order, they return what they return on byte arrays and
leave what is left there. They stop only for lack of a free block; in
particular no transaction is too big for the log. -/
theorem files_are_byte_arrays (h : Files F ino s) {calls : List Call}
    (hcalls : ∀ c ∈ calls, c.file ∈ F) :
    Ensures (calls.mapM Call.exec) s (· = outOfBlocks) fun rs t =>
      Files F ino t ∧ (rs, t.view) = s.view.run ino calls := by
  induction calls generalizing s with
  | nil => exact ⟨h, rfl⟩
  | cons c cs ih =>
      have hc : Ensures c.exec s (· = outOfBlocks) fun r t =>
          Files F ino t ∧ (r, t.view) = s.view.call ino c := by
        cases c with
        | read f n => exact fileread_spec h (hcalls _ List.mem_cons_self) n
        | write f src =>
            simp only [Call.exec, ensures_bind, ensures_pure]
            exact filewrite_spec h (hcalls _ List.mem_cons_self) src fun _ => rfl
      simp only [List.mapM_cons, ensures_bind, ensures_pure]
      refine hc.next ?_
      rintro r t ⟨ht, hr⟩
      refine (ih ht fun c hc => hcalls c (List.mem_cons_of_mem _ hc)).next ?_
      rintro rs u ⟨hu, hrs⟩
      rw [View.run, ← hr, ← hrs]
      exact ⟨hu, rfl⟩

end Calls

/-! ## One inode -/

theorem readResult_overwrite {data src : List UInt8} {off : Nat} (hoff : off ≤ data.length)
    (hlt : off + src.length < 2 ^ 32) :
    readResult (overwrite data off src) off src.length = ((src.length : Int), src) := by
  have hbytes : ((overwrite data off src).drop off).take src.length = src := by
    rw [overwrite, List.append_assoc, List.drop_left' (List.length_take_of_le hoff),
      List.take_left]
  rw [readResult, if_neg (by rw [length_overwrite hoff]; omega), hbytes]

/-- **An inode is a byte array**, for `writei` and for `readi`. `writei` returns -1
and changes nothing exactly if the bytes do not fit; otherwise it stores them and changes
no other inode, and `readi` reads them back. It stops only where there are too
few free blocks, or the log might be full. -/
theorem inode_is_byte_array {s : St} {k : Fin NINODE} {off : Nat} {src : List UInt8}
    (h : Consistent s) (hk : s.Used k) (hv : (s.icache k).valid = true)
    (hdev : (s.icache k).din.type ≠ T_DEV) (hout : 1 ≤ s.outstanding) (hoff : off < 2 ^ 32)
    (hn : src.length < 2 ^ 32) :
    Ensures (writei k src off) s
      (fun e => ¬Rejected (s.icache k).din.size off src.length ∧
        (e = outOfBlocks ∧ freeCount s.sb.size (bit s.sb s.disk) <
            needed s.disk (s.icache k).din off src.length ∨
          e = tooBig ∧ LogFull s.sb (s.lh.length + logBound s.sb off src.length)))
      (fun r t => (r = -1 ∧ t = s ↔ Rejected (s.icache k).din.size off src.length) ∧
        (¬Rejected (s.icache k).din.size off src.length → r = src.length ∧ Written s k off src t ∧
          Ensures (readi k off src.length) t (fun _ => False) fun q u =>
            q = ((src.length : Int), src) ∧ u = t)) ∧
    ∀ n, n < 2 ^ 32 → Ensures (readi k off n) s (fun _ => False) fun q u =>
      q = readResult (s.obj (s.icache k).inum).data off n ∧ u = s := by
  have hobj := h.obj_eq hk hv
  refine ⟨?_, fun n hlt => ?_⟩
  · by_cases hrej : Rejected (s.icache k).din.size off src.length
    · refine (writei_rejected hdev hoff hn hrej).next fun r t hrt => ?_
      exact ⟨iff_of_true hrt hrej, fun hno => absurd hrej hno⟩
    · refine (Fs.writei_spec h hk hv hdev hout hrej (fun hnone => ⟨hrej, .inl ⟨rfl, hnone⟩⟩)
        fun hbig => ⟨hrej, .inr ⟨rfl, hbig⟩⟩).next ?_
      rintro r t ⟨rfl, hw⟩
      refine ⟨iff_of_false (fun hr => by have := hr.1; omega) hrej, fun _ => ⟨rfl, hw, ?_⟩⟩
      obtain ⟨disk', d', lh', rfl, hc, hobj'⟩ := hw
      have hinum : ((s.put k disk' lh' d').icache k).inum = (s.icache k).inum := by rw [St.put_entry]
      have hk' : (s.put k disk' lh' d').Used k := by rwa [St.Used, St.put_entry]
      have hv' : ((s.put k disk' lh' d').icache k).valid = true := by rwa [St.put_entry]
      have hnew := hc.obj_eq hk' hv'
      rw [hinum, hobj', upd_self, hobj] at hnew
      obtain ⟨htype, -, -, -, hdata⟩ := Obj.mk.inj hnew
      refine (readi_spec (htype ▸ hdev) (hc.noHoles hk' hv') hoff hn).next fun q u hq => ?_
      have hle : off ≤ (Obj.of s.disk (s.icache k).din).data.length :=
        (Nat.not_lt.mp fun hlt => hrej (.inl hlt)).trans_eq (length_content ..).symm
      rwa [← hdata, readResult_overwrite hle (Nat.not_le.mp fun hge => hrej (.inr (.inl hge)))] at hq
  · rw [hobj]
    exact readi_spec hdev (h.noHoles hk hv) hoff hlt

section Opened

open Mkfs

/-- The one open file. -/
def opened : Fin NFILE := ⟨0, by decide⟩

/-- A file of a new image, open for reading and writing. -/
theorem exists_opened (n m off : Nat) (h : 0 < m ∧ m ≤ BSIZE) (hn : n < MAXFILE)
    (hoff : off ≤ n * BSIZE + m) : ∃ s : St, Files {opened} (fun _ => 2) s ∧
      s.ftable opened = ⟨.FD_INODE, 1, true, true, rootEntry, off⟩ ∧
      (s.obj 2).data = List.replicate (n * BSIZE + m) 120 := by
  have hcount : [blockFile n m h, emptyFile].length + 1 < NINODES := (by decide : 2 + 1 < NINODES)
  obtain ⟨t, ht⟩ := main_ok hcount (fits_blockFile hn)
  have himg := image_of_main hcount ht
  have hused : ∀ i ∈ [2], UsedInode t i := fun i hi => by
    rw [List.mem_singleton.mp hi]
    exact RunsOn.usedInode_file himg (j := 0) Nat.two_pos
  have hrun := runsOn_running himg (List.nodup_singleton _) hused
  have hinv := inv_running himg hcount (by decide : (2 + 2) % 32 ≠ 0) (List.nodup_singleton _) hused
  obtain ⟨htype, hdata⟩ := hrun.file_obj himg hcount (j := 0) rfl
  rw [bytes_blockFile] at hdata
  refine ⟨{ running t.img [2] with
    ftable := fun _ => ⟨.FD_INODE, 1, true, true, rootEntry, off⟩ },
    ⟨hinv.congr rfl rfl rfl, ⟨rfl, rfl⟩, ?_, fun f _ => ⟨rfl,
      (running_points rfl : Points (running t.img [2]) rootEntry 2), ?_, ?_, ?_⟩⟩, rfl, hdata⟩
  · show (running t.img [2]).sb.size < BPB ∧ LOGSIZE ≤ (running t.img [2]).sb.nlog
    rw [hrun.super]
    decide
  · exact htype.trans_ne (by decide)
  · exact htype.trans_ne (by decide)
  · exact hoff.trans_eq ((congrArg List.length hdata).trans List.length_replicate).symm

/-- The inode of such a file, locked inside a transaction, with any header of the log. -/
theorem exists_locked (lh : List Nat) : ∃ (s : St) (k : Fin NINODE), Consistent s ∧ s.Used k ∧
    (s.icache k).valid = true ∧ (s.icache k).din.type ≠ T_DEV ∧ (s.icache k).din.size = 7268 ∧
    s.outstanding = 1 ∧ s.lh = lh ∧ s.sb.size < BPB ∧ LOGSIZE ≤ s.sb.nlog := by
  obtain ⟨s, hs, hopen, hdata⟩ := exists_opened 14 100 0 (by decide) (by decide) (by decide)
  obtain ⟨-, t, -, ⟨ic, rfl⟩, hinv, hpins⟩ := (hs.ilock_spec rfl 1).exists_ok
  obtain ⟨-, hpt, -, hdev, -⟩ := hs.file opened rfl
  have hk := hpins _ _ hpt
  obtain ⟨hsize, htype, -⟩ := size_eq hinv hk
  have hlen : (s.obj 2).data.length = 7268 := by
    rw [hdata, List.length_replicate]
    rfl
  have hinv' : Inv { s with outstanding := 1, icache := ic, lh := lh } {2} := hinv.congr rfl rfl rfl
  exact ⟨_, _, hinv'.cons, hk.1, hinv.valid_of_mem hk rfl, htype ▸ hdev, hsize.trans hlen, rfl, rfl,
    hs.room⟩

/-- A byte is written into the first block, and read back. -/
theorem inode_is_byte_array_locked : ∃ (s : St) (k : Fin NINODE), Consistent s ∧
    Ensures (writei k [104] 0) s (fun _ => False) fun r t => r = 1 ∧ Written s k 0 [104] t ∧
      Ensures (readi k 0 1) t (fun _ => False) fun q u => q = (1, [104]) ∧ u = t := by
  obtain ⟨s, k, h, hk, hv, hdev, hsize, hout, hlh, hroom⟩ := exists_locked []
  have hrej : ¬Rejected (s.icache k).din.size 0 1 := by simp [hsize, Rejected, MAXFILE_eq, BSIZE_eq]
  have hlen : [(104 : UInt8)].length < 2 ^ 32 := by decide
  refine ⟨s, k, h, (inode_is_byte_array h hk hv hdev hout.ge (by decide) hlen).1.imp ?_
    fun r t hr => hr.2 hrej⟩
  rintro e ⟨-, ⟨-, hnone⟩ | ⟨-, hfull⟩⟩
  · rw [(h.noHoles hk hv).needed_eq_zero (by rw [hsize]; decide)] at hnone
    exact Nat.not_lt_zero _ hnone
  · have hlog : LOGSIZE = 30 := rfl
    have hblk : nblk 0 1 = 1 := rfl
    simp only [LogFull, logBound, hlh, hlog, hblk, BPB_eq, List.length_nil,
      List.length_singleton] at *
    omega

/-- With the log full of other blocks, `writei` panics. -/
theorem writei_full_log : ∃ (s : St) (k : Fin NINODE), Consistent s ∧ s.Used k ∧
    (s.icache k).valid = true ∧ (s.icache k).din.type ≠ T_DEV ∧ 1 ≤ s.outstanding ∧
    ¬Rejected (s.icache k).din.size 0 1 ∧
    Ensures (writei k [104] 0) s (· = tooBig) fun _ _ => False := by
  obtain ⟨s, k, h, hk, hv, hdev, hsize, hout, hlh, -⟩ := exists_locked (List.range' 100 LOGSIZE)
  have hrej : ¬Rejected (s.icache k).din.size 0 1 := by simp [hsize, Rejected, MAXFILE_eq, BSIZE_eq]
  refine ⟨s, k, h, hk, hv, hdev, hout.ge, hrej, ?_⟩
  simp only [writei, ensures_bind, ensures_get, if_neg hdev, hsize]
  rw [if_neg (by decide), if_neg (by decide)]
  simp only [List.length_singleton, writeLoop, one_ne_zero, if_false, ensures_bind]
  obtain ⟨hbn, hmap⟩ := (h.noHoles hk hv).block (o := 0) (by rw [hsize]; decide)
  refine (bmap_mapped hbn hmap).next ?_
  rintro a t ⟨rfl, rfl⟩
  simp only [bread, store, logWrite, ensures_bind, ensures_get, ensures_pure, ensures_modify, hlh,
    List.length_range', ge_iff_le, Nat.le_refl, true_or, if_true]
  rfl

theorem files_are_byte_arrays_opened : ∃ s : St, Files {opened} (fun _ => 2) s ∧
    Ensures ([.write opened [104, 105]].mapM Call.exec) s (· = outOfBlocks) fun rs t =>
      (rs, t.view) = s.view.run (fun _ => 2) [.write opened [104, 105]] := by
  obtain ⟨s, hs, -⟩ := exists_opened 14 100 7268 (by decide) (by decide) (by decide)
  exact ⟨s, hs, (files_are_byte_arrays hs (by simp [Call.file])).next fun _ _ h => h.2⟩

end Opened

end Xv6.Fs
