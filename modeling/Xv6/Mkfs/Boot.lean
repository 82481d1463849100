import Xv6.Mkfs.Wellformed
import Mathlib.Data.List.TakeWhile

/-!
# Mkfs — the kernel reads the image

`mkfs` and the kernel pack inodes, map blocks and write directory entries
each in its own way. `readNamed` is what a kernel does to a file of the
root directory: `dirlookup`, `ilock`, `readi`. On the image of a list of
files it finds each of them under its name, with its length and its bytes.
-/

namespace Xv6.Mkfs

open Lib Fs

/-! ## The entries of the root directory -/

theorem entryAt_append {a : List UInt8} (ha : a.length = DIRENT) (b : List UInt8) (e : Nat) :
    entryAt (a ++ b) (e + 1) = entryAt b e := by
  rw [entryAt, entryAt, Nat.mul_succ, Nat.add_comm, ← List.drop_drop, ← ha, List.drop_left]

theorem entryAt_zero {a : List UInt8} (ha : a.length = DIRENT) (b : List UInt8) :
    entryAt (a ++ b) 0 = a := by
  rw [entryAt, Nat.mul_zero, List.drop_zero, ← ha, List.take_left]

theorem entryAt_entries {n j : Nat} {files : List HostFile} {f : HostFile}
    (hf : files[j]? = some f) : entryAt (entries n files) j = dirent (n + j) f.name := by
  induction files generalizing n j with
  | nil => cases hf
  | cons g rest ih =>
      rw [entries]
      cases j with
      | zero =>
          cases hf
          rw [entryAt_zero (length_dirent _ _), Nat.add_zero]
      | succ j =>
          rw [entryAt_append (length_dirent _ _), ih hf, Nat.add_right_comm, Nat.add_assoc]

/-- The two entries `mkfs` makes itself, and one for each file. -/
def entryOf (files : List HostFile) (e : Nat) : List UInt8 := entryAt (rootBytes files) e

theorem entryOf_file {files : List HostFile} {j : Nat} {f : HostFile} (hf : files[j]? = some f) :
    entryOf files (j + 2) = dirent (j + 2) f.name := by
  rw [entryOf, rootBytes, List.append_assoc, entryAt_append (length_dirent _ _),
    entryAt_append (length_dirent _ _), entryAt_entries hf, Nat.add_comm]

theorem entryOf_dot (files : List HostFile) : entryOf files 0 = dirent ROOTINO dot := by
  rw [entryOf, rootBytes, List.append_assoc, entryAt_zero (length_dirent _ _)]

theorem entryOf_dotdot (files : List HostFile) : entryOf files 1 = dirent ROOTINO dotdot := by
  rw [entryOf, rootBytes, List.append_assoc, entryAt_append (length_dirent _ _),
    entryAt_zero (length_dirent _ _)]

/-- The name of a file, as a directory entry can hold it. -/
def HostFile.entryName (f : HostFile) : List UInt8 := f.name.take DIRSIZ

theorem zero_notMem_name (f : HostFile) : 0 ∉ f.name := by
  intro h
  rw [HostFile.name] at h
  split at h
  · exact f.arg_nonul (List.mem_of_mem_tail h)
  · exact f.arg_nonul h

theorem strn_name (f : HostFile) : strn f.name = f.entryName := by
  rw [strn, HostFile.entryName, List.takeWhile_eq_self_iff]
  intro c hc
  have hne : c ≠ 0 := fun h0 => zero_notMem_name f (h0 ▸ List.mem_of_mem_take hc)
  simpa using hne

/-! ## A kernel with the image -/

/-- A kernel state over the image `img` in which entry `k` of the inode
cache is the root directory, locked, and no other inode is locked. -/
structure Mounted (img : Disk) (s : Fs.St) (k : Fin NINODE) : Prop where
  disk : s.disk = img
  super : s.sb = readsb (img 1)
  root : Points s k ROOTINO
  busy : ∀ j, s.Used j → ((s.icache j).busy = true ↔ j = k)
  loaded : (s.icache k).valid = true
  valid : ∀ j, s.Used j → (s.icache j).valid = true →
    (s.icache j).din = dinodeAt s.sb s.disk (s.icache j).inum
  room : ∃ j, (s.icache j).ref = 0

/-- Read `n` bytes of the file that is called `name` in the locked
directory `k`: its size, and what `readi` returns. -/
def readNamed (k : Fin NINODE) (name : List UInt8) (n : Nat) :
    Fs.Prog (Option (Nat × Int × List UInt8)) := do
  match ← dirlookup k name with
  | none => return none
  | some (ip, _) =>
      iunlock k
      ilock ip
      let s ← get
      let r ← readi ip 0 n
      return some ((s.icache ip).din.size, r)

section Boot

variable {files : List HostFile} {t : St} {s : Fs.St} {k : Fin NINODE} {E : Fs.Stop → Prop}

theorem Mounted.root_din (h : Mounted t.img s k) (himg : Image files t) :
    (s.icache k).din = nodes sb t.img ROOTINO := by
  have hsb : s.sb = sb := h.super.trans himg.super
  rw [h.valid k h.root.1 h.loaded, h.root.2, hsb, h.disk]
  exact (if_pos (by decide)).symm

/-- The kernel reads the entries of the root directory. -/
theorem Mounted.delivers (h : Mounted t.img s k) (himg : Image files t)
    (hcount : files.length + 1 < NINODES) {e : Nat} (he : e < files.length + 2) :
    Delivers s k e (entryOf files e) := by
  have hlen := length_rootBytes files
  have hdin := h.root_din himg
  have hsize : (s.icache k).din.size = (16 * (files.length + 2) / 512 + 1) * 512 := by
    rw [hdin, himg.root_size, rootSize, DIRENT_eq, BSIZE_eq]
  rw [NINODES_eq] at hcount
  rw [DIRENT_eq] at hlen
  have htype : (s.icache k).din.type = T_DIR := by
    rw [hdin, himg.type ROOTINO (by decide), himg.freeinode, typeAt,
      if_pos ⟨by decide, by rw [ROOTINO_eq]; omega⟩, if_pos rfl]
  have hread : Readable s.disk (s.icache k).din (16 * e) 16 := by
    intro o _ ho
    have hbn : o / BSIZE < MAXFILE := by
      rw [BSIZE_eq, MAXFILE_eq]
      omega
    refine ⟨hbn, ?_⟩
    rw [h.disk, hdin]
    refine (himg.root_covers.mapped hbn).mpr ?_
    rw [hlen, BSIZE_eq]
    omega
  refine ⟨by rw [hsize, DIRENT_eq]; omega, fun E => ?_⟩
  rw [DIRENT_eq]
  refine (readi_readable (by rw [htype]; decide) (by rw [hsize]; omega) (by omega) hread).next ?_
  rintro r u ⟨rfl, rfl⟩
  refine ⟨?_, rfl⟩
  rw [h.disk, hdin]
  congr 1
  refine ext_getD ?_ fun o ho => ?_
  · rw [List.length_map, List.length_range, entryOf, entryAt, List.length_take, List.length_drop,
      hlen, DIRENT_eq]
    omega
  · rw [List.length_map, List.length_range] at ho
    rw [List.getD_eq_getElem?_getD, List.getElem?_map, List.getElem?_range ho, entryOf, entryAt,
      List.getD_eq_getElem?_getD, DIRENT_eq, List.getElem?_take, if_pos ho, List.getElem?_drop,
      ← List.getD_eq_getElem?_getD]
    exact himg.root _ (by omega)

/-- Entry `ip` is in use for inode `i`, and agrees with the disk. -/
structure Found (s : Fs.St) (ip : Fin NINODE) (i : Nat) : Prop where
  points : Points s ip i
  valid : (s.icache ip).valid = true → (s.icache ip).din = dinodeAt s.sb s.disk i

/-- `iget` finds the inode, and the root directory stays locked. -/
theorem Mounted.iget_spec (h : Mounted t.img s k) (i : Nat) :
    Ensures (iget i) s E fun ip u => u.sb = s.sb ∧ u.disk = s.disk ∧ Found u ip i ∧ u.Used k ∧
      ((u.icache k).busy = true) ∧ (ip ≠ k → (u.icache ip).busy = false) := by
  obtain ⟨j, hj⟩ := h.room
  have hbusy : (s.icache k).busy = true := (h.busy k h.root.1).mpr rfl
  refine (iget_cases i fun hall _ => absurd hj (hall j)).next ?_
  rintro ip u (⟨hip, rfl⟩ | ⟨hno, h0, rfl⟩)
  · refine ⟨rfl, rfl, ⟨⟨?_, ?_⟩, fun hv => ?_⟩, ?_, ?_, fun hne => ?_⟩
    · rw [Fs.St.Used, setInode_self]
      exact Nat.succ_pos _
    · rw [setInode_self]
      exact hip.2
    · rw [setInode_self] at hv ⊢
      rw [← hip.2]
      exact h.valid ip hip.1 hv
    · by_cases hk : k = ip
      · subst hk
        rw [Fs.St.Used, setInode_self]
        exact Nat.succ_pos _
      · rw [Fs.St.Used, setInode_of_ne hk]
        exact h.root.1
    · by_cases hk : k = ip
      · subst hk
        rw [setInode_self]
        exact hbusy
      · rw [setInode_of_ne hk]
        exact hbusy
    · rw [setInode_self]
      exact Bool.eq_false_iff.mpr fun hb => hne ((h.busy ip hip.1).mp hb)
  · have hk : k ≠ ip := by
      rintro rfl
      have := h.root.1
      rw [Fs.St.Used] at this
      omega
    refine ⟨rfl, rfl, ⟨⟨?_, ?_⟩, fun hv => ?_⟩, ?_, ?_, fun _ => ?_⟩
    · rw [Fs.St.Used, setInode_self]
      exact Nat.one_pos
    · rw [setInode_self]
    · rw [setInode_self] at hv
      cases hv
    · rw [Fs.St.Used, setInode_of_ne hk]
      exact h.root.1
    · rw [setInode_of_ne hk]
      exact hbusy
    · rw [setInode_self]

/-- `ilock` has the inode in memory as it is on the disk. -/
theorem Found.ilock_spec {u : Fs.St} {ip : Fin NINODE} {i : Nat} (h : Found u ip i)
    (hbusy : (u.icache ip).busy = false) (htype : (dinodeAt u.sb u.disk i).type ≠ 0) :
    Ensures (ilock ip) u E fun _ v =>
      v.disk = u.disk ∧ (v.icache ip).din = dinodeAt u.sb u.disk i := by
  have hone : ¬(u.icache ip).ref < 1 := Nat.not_lt.mpr h.points.1
  simp only [ilock, ensures_bind, ensures_get]
  rw [if_neg hone, if_neg (by rw [hbusy]; decide)]
  by_cases hv : (u.icache ip).valid = true
  · rw [if_pos hv]
    simp only [modInode, ensures_modify]
    refine ⟨rfl, ?_⟩
    rw [setInode_self]
    exact h.valid hv
  · rw [if_neg hv, h.points.2]
    simp only [modInode, ensures_bind, ensures_modify]
    rw [if_neg htype]
    refine ⟨rfl, ?_⟩
    rw [setInode_self]

/-- **The first entry that has the name decides what is read.** -/
theorem Mounted.readNamed_spec {name : List UInt8} {e i n : Nat} (h : Mounted t.img s k)
    (himg : Image files t) (hcount : files.length + 1 < NINODES) (he : e < files.length + 2)
    (hi : direntInum (entryOf files e) = i) (hu : UsedInode t i)
    (hmiss : ∀ e', e' < e → hit name (entryOf files e') = false)
    (hhit : hit name (entryOf files e) = true) (hnh : NoHoles t.img (nodes sb t.img i))
    (hn : n < 2 ^ 32) :
    Ensures (readNamed k name n) s E fun r _ => r = some ((nodes sb t.img i).size,
      readResult (content t.img (nodes sb t.img i)) 0 n) := by
  have hsb : s.sb = sb := h.super.trans himg.super
  have hlt : i < NINODES := by
    have := hu.2
    rw [himg.freeinode] at this
    omega
  have hnode : dinodeAt s.sb s.disk i = nodes sb t.img i := by
    rw [hsb, h.disk, himg.node_eq hlt]
  have hlive := himg.live hlt hu
  have hdev : (nodes sb t.img i).type ≠ T_DEV := by
    have hpos : 0 < i ∧ i < t.freeinode := hu
    rw [himg.type i hlt, typeAt, if_pos hpos]
    split <;> decide
  have hdir : (s.icache k).din.type = T_DIR := by
    rw [h.root_din himg, himg.type ROOTINO (by decide), himg.freeinode, typeAt,
      if_pos ⟨by decide, by rw [ROOTINO_eq]; omega⟩, if_pos rfl]
  have hfuel : e - 0 < (s.icache k).din.size / DIRENT + 1 := by
    have hlast := (h.delivers himg hcount he).lt
    rw [DIRENT_eq] at hlast ⊢
    omega
  simp only [readNamed, dirlookup, ensures_bind, ensures_get]
  rw [if_neg (not_not.mpr hdir)]
  refine lookupLoop_hit (e := 0) (Nat.zero_le e) hfuel
    (fun j _ hj => h.delivers himg hcount (Nat.lt_of_le_of_lt hj he)) (fun j _ hj => hmiss j hj)
    hhit ?_
  rw [hi]
  refine h.iget_spec i |>.next ?_
  rintro ip u ⟨husb, hudisk, hfound, hkused, hkbusy, hother⟩
  -- the directory is let go
  have hok : ¬((u.icache k).busy = false ∨ (u.icache k).ref < 1) := by
    rw [hkbusy, not_or]
    exact ⟨by decide, Nat.not_lt.mpr hkused⟩
  simp only [ensures_bind, iunlock, ensures_get, if_neg hok, modInode, ensures_modify]
  set w := u.setInode k { u.icache k with busy := false } with hw
  have hwf : Found w ip i ∧ (w.icache ip).busy = false := by
    by_cases hk : ip = k
    · subst hk
      refine ⟨⟨⟨?_, ?_⟩, fun hv => ?_⟩, ?_⟩
      · rw [hw, Fs.St.Used, setInode_self]
        exact hkused
      · rw [hw, setInode_self]
        exact hfound.points.2
      · rw [hw, setInode_self] at hv ⊢
        exact hfound.valid hv
      · rw [hw, setInode_self]
    · have hsame : w.icache ip = u.icache ip := setInode_of_ne hk
      refine ⟨⟨⟨?_, ?_⟩, fun hv => ?_⟩, ?_⟩
      · rw [Fs.St.Used, hsame]
        exact hfound.points.1
      · rw [hsame]
        exact hfound.points.2
      · rw [hsame] at hv ⊢
        exact hfound.valid hv
      · rw [hsame]
        exact hother hk
  have hwdin : dinodeAt w.sb w.disk i = nodes sb t.img i := by
    rw [← hnode, ← husb, ← hudisk]
    rfl
  refine (hwf.1.ilock_spec hwf.2 (by rw [hwdin]; exact hlive.2)).next ?_
  rintro _ v ⟨hvdisk, hvdin⟩
  rw [hwdin] at hvdin
  have hdisk : v.disk = t.img := by
    rw [hvdisk, ← h.disk, ← hudisk]
    rfl
  refine (readi_spec (by rw [hvdin]; exact hdev) (by rw [hdisk, hvdin]; exact hnh) (by decide)
    hn).next ?_
  rintro r v' ⟨rfl, rfl⟩
  rw [ensures_pure, hvdin, hdisk]

end Boot

/-! ## Every file is found -/

/-- A name that was cut off is not a shorter one. -/
theorem eq_of_take_eq {l r : List UInt8} {n : Nat} (h : l.take n = r) (hr : r.length < n) :
    l = r := by
  have hlen := congrArg List.length h
  rw [List.length_take] at hlen
  rw [← h, List.take_of_length_le (by omega)]

theorem hit_file {f g : HostFile} {n : Nat} (hn : n + 2 < NINODES) :
    hit f.name (dirent (n + 2) g.name) = true ↔ f.entryName = g.entryName := by
  rw [NINODES_eq] at hn
  rw [hit_dirent (by omega) (by omega), strn_name, strn_name]

theorem hit_root {f : HostFile} {name : List UInt8} (hname : strn name = name)
    (hlen : name.length < DIRSIZ) (hne : f.name ≠ name) :
    hit f.name (dirent ROOTINO name) = false := by
  rw [Bool.eq_false_iff, Ne, hit_dirent (by decide) (by decide), strn_name, hname]
  exact fun he => hne (eq_of_take_eq he hlen)

/-- **The kernel finds every file**: `mkfs` succeeds on files that fit, and
on its image the kernel finds each file under its name, with its length
and its bytes. -/
theorem main_readNamed (files : List HostFile) (hcount : files.length + 1 < NINODES)
    (hnodup : (files.map HostFile.entryName).Nodup)
    (hdots : ∀ f ∈ files, f.name ≠ dot ∧ f.name ≠ dotdot) :
    (Fits files → ∃ t, main files St.start = .ok ((), t)) ∧
      ∀ t, main files St.start = .ok ((), t) → ∀ s k, Mounted t.img s k → ∀ f ∈ files,
        ∀ n, f.bytes.length ≤ n → n < 2 ^ 32 →
          Ensures (readNamed k f.name n) s (fun _ => False) fun r _ =>
            r = some (f.bytes.length, (f.bytes.length : Int), f.bytes) := by
  refine ⟨main_ok hcount, fun t ht s k hs f hf n hle hn => ?_⟩
  have himg := image_of_main hcount ht
  obtain ⟨j, hj, hjf⟩ := List.getElem_of_mem hf
  have hfile : files[j]? = some f := by rw [List.getElem?_eq_getElem hj, hjf]
  have hholds := himg.file j f hfile
  have hsmall : j + 2 < 2 ^ 16 := by
    rw [NINODES_eq] at hcount
    omega
  have hmiss : ∀ e, e < j + 2 → hit f.name (entryOf files e) = false := by
    intro e he
    rcases e with _ | _ | i
    · rw [entryOf_dot]
      exact hit_root (by decide) (by decide) (hdots f hf).1
    · rw [entryOf_dotdot]
      exact hit_root (by decide) (by decide) (hdots f hf).2
    · have hi : i < files.length := by omega
      have hg : files[i]? = some files[i] := List.getElem?_eq_getElem hi
      rw [entryOf_file hg, Bool.eq_false_iff, Ne, hit_file (by omega)]
      intro heq
      have hmap : ∀ l (hl : l < files.length), (files.map HostFile.entryName)[l]? =
          some files[l].entryName := fun l hl => by
        rw [List.getElem?_map, List.getElem?_eq_getElem hl, Option.map_some]
      have hij := (List.nodup_iff_getElem?_ne_getElem?.mp hnodup) i j (by omega)
        (by rw [List.length_map]; exact hj)
      rw [hmap i hi, hmap j hj, hjf, heq] at hij
      exact hij rfl
  refine (hs.readNamed_spec himg hcount (e := j + 2) (i := j + 2) (by omega) ?_ ?_ hmiss ?_
    hholds.noHoles hn).next ?_
  · rw [entryOf_file hfile, direntInum_dirent hsmall]
  · exact ⟨by omega, by rw [himg.freeinode]; omega⟩
  · rw [entryOf_file hfile, hit_file (by omega)]
  · rintro r _ rfl
    have hok : ¬(0 > f.bytes.length ∨ 2 ^ 32 ≤ 0 + n) := by omega
    rw [hholds.size_eq, hholds.content, readResult, if_neg hok, List.drop_zero,
      List.take_of_length_le hle]

def rootEntry : Fin NINODE := ⟨0, NINODE_pos⟩

/-- A kernel that has just locked the root directory. -/
def booted (img : Disk) : Fs.St where
  sb := readsb (img 1)
  disk := img
  outstanding := 0
  lh := []
  icache := fun k =>
    if k = rootEntry then ⟨ROOTINO, 1, true, true, dinodeAt (readsb (img 1)) img ROOTINO⟩
    else ⟨0, 0, false, false, .fresh 0⟩
  ftable := fun _ => ⟨.FD_NONE, 0, false, false, rootEntry, 0⟩
  proc := fun _ => ⟨none, fun _ => none⟩
  devsw := fun _ => none
  commits := []
  freed := fun _ => 0

theorem mounted_booted (img : Disk) : Mounted img (booted img) rootEntry := by
  have hused : ∀ j, (booted img).Used j → j = rootEntry := by
    intro j hj
    by_contra hne
    have hzero : ((booted img).icache j).ref = 0 := by
      show (if j = rootEntry then _ else _ : Inode).ref = 0
      rw [if_neg hne]
    rw [Fs.St.Used, hzero] at hj
    omega
  refine ⟨rfl, rfl, ⟨Nat.one_pos, rfl⟩, fun j hj => ?_, rfl, fun j hj _ => ?_, ⟨⟨1, by decide⟩, rfl⟩⟩
  · obtain rfl := hused j hj
    exact iff_of_true rfl rfl
  · obtain rfl := hused j hj
    rfl

/-- A file that needs the indirect block is read back whole. -/
theorem main_readNamed_blocks :
    ∃ t, main [blockFile 14 100 (by decide), emptyFile] St.start = .ok ((), t) ∧
      Mounted t.img (booted t.img) rootEntry ∧
      Ensures (readNamed rootEntry [98] 8000) (booted t.img) (fun _ => False) fun r _ =>
        r = some (7268, (7268 : Int), List.replicate 7268 120) := by
  have h := main_readNamed [blockFile 14 100 (by decide), emptyFile] (by decide) (by decide)
    (by decide)
  obtain ⟨t, ht⟩ := h.1 (fits_blockFile (by decide))
  have hread := h.2 t ht _ rootEntry (mounted_booted t.img) _ List.mem_cons_self 8000
  rw [bytes_blockFile, List.length_replicate] at hread
  exact ⟨t, ht, mounted_booted t.img, hread (by decide) (by decide)⟩

/-- The host file "_.", which is empty. -/
def dotFile : HostFile := ⟨[underscore, 46], some [], by decide⟩

/-- **A file called "." cannot be found**: the name stands for the root
directory. -/
theorem main_dot_lost : Fits [dotFile] ∧ ∃ t, main [dotFile] St.start = .ok ((), t) ∧
    ∃ s k, Mounted t.img s k ∧
      Ensures (readNamed k dotFile.name 100) s (fun _ => False) fun r _ =>
        ∃ size bytes, r = some (size, bytes) ∧ size ≠ dotFile.bytes.length := by
  have hfit : Fits [dotFile] := by
    refine ⟨fun f hf => ?_, by decide⟩
    rw [List.mem_singleton.mp hf]
    exact ⟨by decide, rfl, by decide⟩
  have hcount : [dotFile].length + 1 < NINODES := by decide
  obtain ⟨t, ht⟩ := main_ok hcount hfit
  have himg := image_of_main hcount ht
  refine ⟨hfit, t, ht, booted t.img, rootEntry, mounted_booted t.img, ?_⟩
  refine ((mounted_booted t.img).readNamed_spec himg hcount (e := 0) (i := ROOTINO) (by decide) ?_
    ?_ (fun e he => absurd he (Nat.not_lt_zero e)) ?_ ((himg.root_noHoles hcount).mpr (by decide))
    (by decide)).next ?_
  · rw [entryOf_dot]
    decide
  · exact ⟨by decide, by rw [himg.freeinode]; decide⟩
  · rw [entryOf_dot]
    decide
  · rintro r _ rfl
    refine ⟨_, _, rfl, ?_⟩
    rw [himg.root_size]
    decide

end Xv6.Mkfs
