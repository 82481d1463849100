import Xv6.Fs.Path
import Xv6.Mkfs.Boot

/-!
# Mkfs — a kernel that runs on an image

A kernel state over the image of a list of files (`RunsOn`) is a
consistent one, and every name leads to an inode, provided the root
directory has no hole. This is where the states come from on which the
theorems about the kernel are tried.
-/

namespace Xv6.Mkfs

open Lib Fs

/-- The kernel has the image for its disk, and the cache entries in use
are for inodes of the image. -/
structure RunsOn (t : St) (s : Fs.St) : Prop where
  disk : s.disk = t.img
  super : s.sb = sb
  uniq : ∀ k l, s.Used k → s.Used l → (s.icache k).inum = (s.icache l).inum → k = l
  used : ∀ k, s.Used k → UsedInode t (s.icache k).inum
  valid : ∀ k, s.Used k → (s.icache k).valid = true →
    (s.icache k).din = nodes sb t.img (s.icache k).inum

namespace RunsOn

variable {files : List HostFile} {t : St} {s : Fs.St}

theorem node_eq (h : RunsOn t s) : s.node = nodes sb t.img := by
  rw [Fs.St.node, h.super, h.disk]

theorem live_iff (h : RunsOn t s) (himg : Image files t) (hcount : files.length + 1 < NINODES)
    {i : Nat} : Live s.sb s.node i ↔ UsedInode t i := by
  rw [h.super, h.node_eq]
  constructor
  · rintro ⟨hi, ht⟩
    have hi : i < NINODES := hi
    rw [himg.type i hi] at ht
    exact typeAt_ne_zero.mp ht
  · intro hu
    have hi : i < NINODES := by
      have := hu.2
      rw [himg.freeinode] at this
      omega
    exact himg.live hi hu

/-- **The state is consistent.** -/
theorem consistent (h : RunsOn t s) (himg : Image files t) (hcount : files.length + 1 < NINODES)
    (hmod : (files.length + 2) % 32 ≠ 0) : Consistent s := by
  have hlive : ∀ k, s.Used k → Live s.sb s.node (s.icache k).inum := fun k hk =>
    (h.live_iff himg hcount).mpr (h.used k hk)
  refine ⟨h.super ▸ geo, ?_, ?_, fun i hi => ?_, h.uniq, fun k hk => (hlive k hk).1,
    fun k hk hv => ⟨?_, ?_⟩⟩
  · rw [h.disk, h.super]
    exact himg.super
  · rw [h.node_eq, h.disk, h.super]
    exact himg.blocks
  · rw [h.node_eq, h.disk]
    by_cases h1 : i = ROOTINO
    · rw [h1]
      exact (himg.root_noHoles hcount).mpr hmod
    · exact himg.file_noHoles ((h.live_iff himg hcount).mp hi) h1
  · rw [h.node_eq]
    exact h.valid k hk hv
  · rw [h.valid k hk hv, ← h.node_eq]
    exact (hlive k hk).2

theorem obj_eq (h : RunsOn t s) (himg : Image files t) (hcount : files.length + 1 < NINODES)
    {i : Nat} (hi : UsedInode t i) : s.obj i = Obj.of t.img (nodes sb t.img i) := by
  rw [St.obj_of_live ((h.live_iff himg hcount).mpr hi), h.node_eq, h.disk]

theorem usedInode_root (himg : Image files t) : UsedInode t ROOTINO := by
  refine ⟨by decide, ?_⟩
  rw [himg.freeinode, ROOTINO_eq]
  omega

theorem usedInode_file (himg : Image files t) {j : Nat} (hj : j < files.length) :
    UsedInode t (j + 2) := by
  refine ⟨by omega, ?_⟩
  rw [himg.freeinode]
  omega

/-- The contents of the root directory: its entries, then zeros. -/
theorem root_data (h : RunsOn t s) (himg : Image files t) (hcount : files.length + 1 < NINODES)
    (hmod : (files.length + 2) % 32 ≠ 0) :
    (s.obj ROOTINO).data =
      rootBytes files ++ List.replicate (rootSize files - (rootBytes files).length) 0 := by
  have hlen := length_rootBytes files
  have hle : (rootBytes files).length ≤ rootSize files := by
    rw [hlen, rootSize, DIRENT_eq, BSIZE_eq]
    omega
  rw [h.obj_eq himg hcount (usedInode_root himg)]
  show content t.img (nodes sb t.img ROOTINO) = _
  refine ext_getD ?_ fun o ho => ?_
  · rw [length_content, himg.root_size, List.length_append, List.length_replicate]
    omega
  rw [length_content] at ho
  rw [getD_content ho]
  by_cases hin : o < (rootBytes files).length
  · rw [himg.root o hin, List.getD_eq_getElem?_getD, List.getD_eq_getElem?_getD,
      List.getElem?_append_left hin]
  · obtain ⟨hbn, hmap⟩ := ((himg.root_noHoles hcount).mpr hmod).block ho
    rw [himg.root_size] at ho
    rw [himg.root_tail o (by omega) hbn hmap, List.getD_eq_getElem?_getD,
      List.getElem?_append_right (by omega), List.getElem?_replicate, if_pos (by omega)]
    rfl

theorem root_type (h : RunsOn t s) (himg : Image files t) (hcount : files.length + 1 < NINODES) :
    (s.obj ROOTINO).type = T_DIR := by
  rw [h.obj_eq himg hcount (usedInode_root himg)]
  show (nodes sb t.img ROOTINO).type = T_DIR
  have hpos : 0 < ROOTINO ∧ ROOTINO < t.freeinode := usedInode_root himg
  rw [himg.type ROOTINO (by decide), typeAt, if_pos hpos, if_pos rfl]

theorem file_obj (h : RunsOn t s) (himg : Image files t) (hcount : files.length + 1 < NINODES)
    {j : Nat} {f : HostFile} (hf : files[j]? = some f) :
    (s.obj (j + 2)).type = T_FILE ∧ (s.obj (j + 2)).data = f.bytes := by
  have hj : j < files.length := (List.getElem?_eq_some_iff.mp hf).1
  have hu := usedInode_file himg hj
  have hpos : 0 < j + 2 ∧ j + 2 < t.freeinode := hu
  rw [h.obj_eq himg hcount hu]
  refine ⟨?_, (himg.file j f hf).content⟩
  show (nodes sb t.img (j + 2)).type = T_FILE
  rw [himg.type (j + 2) (by omega), typeAt, if_pos hpos, if_neg (by rw [ROOTINO_eq]; omega)]

theorem nlink_eq (h : RunsOn t s) (himg : Image files t) (hcount : files.length + 1 < NINODES)
    {i : Nat} (hi : UsedInode t i) : (s.obj i).nlink = 1 := by
  rw [h.obj_eq himg hcount hi]
  exact himg.nlink i hi.1 hi.2

theorem getD_zeros (n i : Nat) : (List.replicate n (0 : UInt8)).getD i 0 = 0 := by
  rw [List.getD_eq_getElem?_getD, List.getElem?_replicate]
  split <;> rfl

/-- The entries of the root directory, as the kernel sees them. -/
theorem root_entry (h : RunsOn t s) (himg : Image files t) (hcount : files.length + 1 < NINODES)
    (hmod : (files.length + 2) % 32 ≠ 0) (e : Nat) :
    (e < files.length + 2 → entryAt (s.obj ROOTINO).data e = entryOf files e) ∧
      (files.length + 2 ≤ e → direntInum (entryAt (s.obj ROOTINO).data e) = 0) := by
  have hlen := length_rootBytes files
  rw [h.root_data himg hcount hmod, entryOf, entryAt, entryAt]
  rw [DIRENT_eq] at hlen ⊢
  constructor
  · intro he
    rw [List.drop_append_of_le_length (by omega), List.take_append_of_le_length]
    rw [List.length_drop]
    omega
  · intro he
    have hdrop : (rootBytes files).drop (16 * e) = [] := List.drop_eq_nil_of_le (by omega)
    rw [List.drop_append, hdrop, List.nil_append, List.drop_replicate, List.take_replicate,
      direntInum, getD_zeros, getD_zeros]
    rfl

/-- **What a name in the root directory stands for is an inode in use.** -/
theorem usedInode_of_lookup (h : RunsOn t s) (himg : Image files t)
    (hcount : files.length + 1 < NINODES) (hmod : (files.length + 2) % 32 ≠ 0)
    {name : List UInt8} {j : Nat} (hl : s.lookup ROOTINO name = some j) : UsedInode t j := by
  obtain ⟨e, he, rfl⟩ := Option.map_eq_some_iff.mp hl
  obtain ⟨_, _, hhit⟩ := findFrom_eq_some he
  obtain ⟨hin, hout⟩ := h.root_entry himg hcount hmod e
  have hlt : e < files.length + 2 := by
    by_contra hge
    exact (hit_iff.mp hhit).1 (hout (by omega))
  rw [hin hlt]
  rw [NINODES_eq] at hcount
  rcases e with _ | _ | i
  · rw [entryOf_dot]
    exact usedInode_root himg
  · rw [entryOf_dotdot]
    exact usedInode_root himg
  · have hi : i < files.length := by omega
    rw [entryOf_file (List.getElem?_eq_getElem hi), direntInum_dirent (by omega)]
    exact usedInode_file himg hi

/-- The name of the first entry that has it stands for its file. -/
theorem lookup_file (h : RunsOn t s) (himg : Image files t) (hcount : files.length + 1 < NINODES)
    (hmod : (files.length + 2) % 32 ≠ 0) {name : List UInt8} {j : Nat} (hj : j < files.length)
    (hmiss : ∀ e, e < j + 2 → hit name (entryOf files e) = false)
    (hhit : hit name (entryOf files (j + 2)) = true) : s.lookup ROOTINO name = some (j + 2) := by
  have hentry : ∀ e, e < files.length + 2 → entryAt (s.obj ROOTINO).data e = entryOf files e :=
    fun e => (h.root_entry himg hcount hmod e).1
  have hlen : j + 2 < (s.obj ROOTINO).data.length / DIRENT := by
    rw [h.root_data himg hcount hmod, List.length_append, length_rootBytes, DIRENT_eq]
    omega
  have hfind : findEntry (s.obj ROOTINO).data name = some (j + 2) := by
    refine findFrom_eq_of_first (Nat.zero_le _) (by omega) ?_ fun e _ he => ?_
    · rw [hentry _ (by omega)]
      exact hhit
    · rw [hentry _ (by omega)]
      exact hmiss e he
  rw [NINODES_eq] at hcount
  rw [Fs.St.lookup, hfind, Option.map_some, hentry _ (by omega),
    entryOf_file (List.getElem?_eq_getElem hj), direntInum_dirent (by omega)]

/-- **Every name leads to an inode.** -/
theorem navigable (h : RunsOn t s) (himg : Image files t) (hcount : files.length + 1 < NINODES)
    (hmod : (files.length + 2) % 32 ≠ 0) : Navigable s := by
  have halloc : ∀ i, UsedInode t i → (s.obj i).type ≠ 0 := fun i hi =>
    St.live_iff.mp ((h.live_iff himg hcount).mpr hi)
  have hlinked : ∀ i, UsedInode t i → Linked s i := fun i hi =>
    ⟨halloc i hi, Or.inr (by rw [h.nlink_eq himg hcount hi]; decide)⟩
  have hdir : ∀ i, (s.obj i).type = T_DIR → i = ROOTINO := by
    intro i hi
    have hu : UsedInode t i := (h.live_iff himg hcount).mp (St.live_iff.mpr (by rw [hi]; decide))
    by_contra hne
    obtain ⟨j, rfl⟩ : ∃ j, i = j + 2 := ⟨i - 2, by have := hu.1; rw [ROOTINO_eq] at hne; omega⟩
    have hj : j < files.length := by
      have := hu.2
      rw [himg.freeinode] at this
      omega
    rw [(h.file_obj himg hcount (List.getElem?_eq_getElem hj)).1] at hi
    exact absurd hi (by decide)
  refine ⟨fun i hi => ?_, fun i name j hi hl => ?_, hlinked _ (usedInode_root himg), fun i hi => ?_⟩
  · rw [hdir i hi, h.root_data himg hcount hmod, List.length_append, List.length_replicate,
      length_rootBytes, rootSize, DIRENT_eq, BSIZE_eq]
    omega
  · rw [hdir i hi] at hl
    exact hlinked j (h.usedInode_of_lookup himg hcount hmod hl)
  · obtain ⟨k, hk⟩ := refOf_pos_iff.mp hi
    exact hk.2 ▸ halloc _ (h.used k hk.1)

end RunsOn

/-! ## A kernel with some inodes in use -/

/-- A kernel that has the inodes `inums` in its cache, none of them read
or locked, and every process in the first of them. -/
def running (img : Disk) (inums : List Nat) : Fs.St :=
  { booted img with
    icache := fun k => (inums[k.val]?).elim ⟨0, 0, false, false, .fresh 0⟩
      fun i => ⟨i, 1, false, false, .fresh 0⟩
    proc := fun _ => ⟨some rootEntry, fun _ => none⟩ }

section Running

variable {files : List HostFile} {t : St} {inums : List Nat}

theorem running_entry {img : Disk} {k : Fin NINODE} (h : (running img inums).Used k) :
    inums[k.val]? = some ((running img inums).icache k).inum ∧
      ((running img inums).icache k).busy = false ∧
      ((running img inums).icache k).valid = false := by
  have hk : (running img inums).icache k = (inums[k.val]?).elim ⟨0, 0, false, false, .fresh 0⟩
      fun i => ⟨i, 1, false, false, .fresh 0⟩ := rfl
  rw [Fs.St.Used, hk] at h
  rw [hk]
  cases hi : inums[k.val]? with
  | none =>
      rw [hi] at h
      exact absurd h (by decide)
  | some i => exact ⟨rfl, rfl, rfl⟩

theorem runsOn_running (himg : Image files t) (hnodup : inums.Nodup)
    (hused : ∀ i ∈ inums, UsedInode t i) : RunsOn t (running t.img inums) := by
  refine ⟨rfl, himg.super, fun k l hk hl he => ?_, fun k hk => ?_, fun k hk hv => ?_⟩
  · have hk' := (running_entry hk).1
    have hl' := (running_entry hl).1
    rw [← he] at hl'
    obtain ⟨hlt, _⟩ := List.getElem?_eq_some_iff.mp hk'
    exact Fin.ext ((List.getElem?_inj hlt hnodup).mp (hk'.trans hl'.symm))
  · exact hused _ (List.mem_of_getElem? (running_entry hk).1)
  · rw [(running_entry hk).2.2] at hv
    exact absurd hv (by decide)

theorem inv_running (himg : Image files t) (hcount : files.length + 1 < NINODES)
    (hmod : (files.length + 2) % 32 ≠ 0) (hnodup : inums.Nodup)
    (hused : ∀ i ∈ inums, UsedInode t i) : Inv (running t.img inums) ∅ := by
  have hrun := runsOn_running himg hnodup hused
  refine ⟨hrun.consistent himg hcount hmod, fun k hk => ?_, fun k hk hb => ?_,
    fun i hi => absurd hi (Set.notMem_empty i)⟩
  · rw [(running_entry hk).2.1]
    exact iff_of_false (by decide) (Set.notMem_empty _)
  · rw [(running_entry hk).2.1] at hb
    exact absurd hb (by decide)

theorem running_points {img : Disk} {k : Fin NINODE} {i : Nat} (h : inums[k.val]? = some i) :
    Points (running img inums) k i := by
  have hk : (running img inums).icache k = (inums[k.val]?).elim ⟨0, 0, false, false, .fresh 0⟩
      fun i => ⟨i, 1, false, false, .fresh 0⟩ := rfl
  rw [Points, Fs.St.Used, hk, h]
  exact ⟨Nat.one_pos, rfl⟩

end Running

/-! ## Empty files called "a" -/

section Empty

variable {n : Nat} {t : St}

/-- The image of `n` empty files. -/
theorem exists_image_empty (hn : n ≤ 100) :
    ∃ t, main (List.replicate n emptyFile) St.start = .ok ((), t) ∧
      Image (List.replicate n emptyFile) t := by
  obtain ⟨t, ht⟩ := main_empty hn
  have hcount : (List.replicate n emptyFile).length + 1 < NINODES := by
    rw [List.length_replicate, NINODES_eq]
    omega
  exact ⟨t, ht, image_of_main hcount ht⟩

/-- The first file is the one that is found. -/
theorem lookup_empty {s : Fs.St} (hn : n < 100) (hmod : (n + 1 + 2) % 32 ≠ 0)
    (himg : Image (List.replicate (n + 1) emptyFile) t) (h : RunsOn t s) :
    s.lookup ROOTINO emptyFile.name = some 2 := by
  have hlen : (List.replicate (n + 1) emptyFile).length = n + 1 := List.length_replicate
  refine h.lookup_file himg (by rw [hlen, NINODES_eq]; omega) (by rw [hlen]; exact hmod) (j := 0)
    (by rw [hlen]; omega) (fun e he => ?_) ?_
  · rcases e with _ | _ | i
    · rw [entryOf_dot]
      decide
    · rw [entryOf_dotdot]
      decide
    · omega
  · rw [entryOf_file (f := emptyFile) rfl]
    decide

end Empty

end Xv6.Mkfs
