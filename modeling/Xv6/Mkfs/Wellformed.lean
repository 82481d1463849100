import Xv6.Mkfs.Main

/-!
# Mkfs — when the image is well formed

`WellFormed` is what a file system image should be when `mkfs` is done.
The image of a list of files (`Image`) has all of it but two things: the
root directory's size is rounded up to the next block even where it ends
on a block boundary, which leaves a hole at its end; and `ialloc` never
asks whether there is another inode. Both depend on the number of files
only.
-/

namespace Xv6.Mkfs

open Lib Fs

/-! ## Counting inodes -/

/-- The program leaves `freeinode` alone. -/
def KeepsInodes {α : Type} (m : Prog α) : Prop :=
  ∀ s, Ensures m s (fun _ => True) fun _ t => t.freeinode = s.freeinode

section Keeps

variable {α β : Type}

theorem KeepsInodes.pure (a : α) : KeepsInodes (pure a : Prog α) := fun _ => rfl

theorem KeepsInodes.throw (e : Stop) : KeepsInodes (throw e : Prog α) := fun _ => trivial

theorem KeepsInodes.bind {m : Prog α} {f : α → Prog β} (hm : KeepsInodes m)
    (hf : ∀ a, KeepsInodes (f a)) : KeepsInodes (m >>= f) := by
  intro s
  rw [ensures_bind]
  refine (hm s).next fun a t ht => ?_
  exact (hf a t).next fun _ u hu => hu.trans ht

theorem KeepsInodes.ite {c : Prop} [Decidable c] {m n : Prog α} (hm : KeepsInodes m)
    (hn : KeepsInodes n) : KeepsInodes (if c then m else n) := by
  intro s
  exact ensures_ite.mpr ⟨fun _ => hm s, fun _ => hn s⟩

theorem keepsInodes_wsect (sec : Nat) (buf : Block) : KeepsInodes (wsect sec buf) := fun _ => rfl

theorem keepsInodes_rsect (sec : Nat) : KeepsInodes (rsect sec) := by
  intro s
  rw [rsect, ensures_bind, ensures_get]
  exact ensures_ite.mpr ⟨fun _ => rfl, fun _ => trivial⟩

theorem keepsInodes_nextBlock : KeepsInodes nextBlock := fun _ => rfl

theorem keepsInodes_winode (inum : Nat) (ip : Dinode) : KeepsInodes (winode inum ip) :=
  (keepsInodes_rsect _).bind fun _ => keepsInodes_wsect _ _

theorem keepsInodes_rinode (inum : Nat) : KeepsInodes (rinode inum) :=
  (keepsInodes_rsect _).bind fun _ => .pure _

theorem keepsInodes_mapIndirect (din : Dinode) : KeepsInodes (mapIndirect din) :=
  .ite (keepsInodes_nextBlock.bind fun _ => .pure _) (.pure _)

theorem keepsInodes_mapEntry (din : Dinode) (fbn : Nat) : KeepsInodes (mapEntry din fbn) :=
  (keepsInodes_rsect _).bind fun _ =>
    .ite (keepsInodes_nextBlock.bind fun _ => (keepsInodes_wsect _ _).bind fun _ => .pure _) (.pure _)

theorem keepsInodes_mapBlock (din : Dinode) (fbn : Nat) : KeepsInodes (mapBlock din fbn) :=
  .ite (.ite (keepsInodes_nextBlock.bind fun _ => .pure _) (.pure _))
    ((keepsInodes_mapIndirect din).bind fun _ => keepsInodes_mapEntry _ _)

theorem keepsInodes_appendLoop (fuel : Nat) (din : Dinode) (off : Nat) (p : List UInt8) :
    KeepsInodes (appendLoop fuel din off p) := by
  induction fuel generalizing din off p with
  | zero => exact .pure _
  | succ fuel ih =>
      refine .ite (.pure _) (.ite (.throw _) ?_)
      refine (keepsInodes_mapBlock _ _).bind fun r => ?_
      exact (keepsInodes_rsect _).bind fun _ => (keepsInodes_wsect _ _).bind fun _ => ih _ _ _

theorem keepsInodes_iappend (inum : Nat) (p : List UInt8) : KeepsInodes (iappend inum p) :=
  (keepsInodes_rinode _).bind fun _ =>
    (keepsInodes_appendLoop _ _ _ _).bind fun _ => keepsInodes_winode _ _

theorem keepsInodes_appendAll (inum : Nat) (reads : List Chunk) :
    KeepsInodes (appendAll inum reads) := by
  induction reads with
  | nil => exact .pure _
  | cons p rest ih => exact (keepsInodes_iappend _ _).bind fun _ => ih

end Keeps

theorem ialloc_counts (type : Nat) (s : St) :
    Ensures (ialloc type) s (fun _ => True) fun _ t => t.freeinode = s.freeinode + 1 := by
  simp only [ialloc, ensures_bind, ensures_get, ensures_modify, ensures_pure]
  exact keepsInodes_winode _ _ _

theorem addFile_counts (rootino : Nat) (f : HostFile) (s : St) :
    Ensures (addFile rootino f) s (fun _ => True) fun _ t => t.freeinode = s.freeinode + 1 := by
  rw [addFile]
  refine ensures_ite.mpr ⟨fun _ => trivial, fun _ => ?_⟩
  cases f.reads with
  | none => trivial
  | some reads =>
      simp only [ensures_bind]
      refine (ialloc_counts _ s).next fun inum t ht => ?_
      refine (keepsInodes_iappend _ _ t).next fun _ u hu => ?_
      refine (keepsInodes_appendAll _ _ u).next fun _ v hv => ?_
      rw [hv, hu, ht]

theorem addFiles_counts (rootino : Nat) (files : List HostFile) (s : St) :
    Ensures (addFiles rootino files) s (fun _ => True) fun _ t =>
      t.freeinode = s.freeinode + files.length := by
  induction files generalizing s with
  | nil => rfl
  | cons f rest ih =>
      simp only [addFiles, ensures_bind]
      refine (addFile_counts rootino f s).next fun _ t ht => ?_
      refine (ih t).next fun _ u hu => ?_
      rw [hu, ht, List.length_cons]
      omega

theorem makeRoot_counts (s : St) :
    Ensures makeRoot s (fun _ => True) fun _ t => t.freeinode = s.freeinode + 1 := by
  simp only [makeRoot, ensures_bind]
  refine (ialloc_counts _ s).next fun rootino t ht => ?_
  refine ensures_ite.mpr ⟨fun _ => trivial, fun _ => ?_⟩
  simp only [ensures_bind, ensures_pure]
  refine (keepsInodes_iappend _ _ t).next fun _ u hu => ?_
  refine (keepsInodes_iappend _ _ u).next fun _ v hv => ?_
  rw [hv, hu, ht]

/-- **Every file takes an inode number**, whether or not there is an inode. -/
theorem freeinode_of_main {files : List HostFile} {t : St}
    (h : main files St.start = .ok ((), t)) : t.freeinode = files.length + 2 := by
  obtain ⟨s, _, hfi, _, hmain⟩ := main_eq
  rw [hmain] at h
  have hspec : Ensures (populate files) s (fun _ => True) fun _ t =>
      t.freeinode = s.freeinode + 1 + files.length := by
    simp only [populate, ensures_bind]
    refine (makeRoot_counts s).next fun rootino t ht => ?_
    refine (addFiles_counts rootino files t).next fun _ u hu => ?_
    have hfix : KeepsInodes (fixRoot rootino) :=
      (keepsInodes_rinode _).bind fun _ => keepsInodes_winode _ _
    refine (hfix u).next fun _ v hv => ?_
    rw [ensures_get]
    have hlast : KeepsInodes (balloc v.freeblock) := .ite (.throw _) (keepsInodes_wsect _ _)
    refine (hlast v).next fun _ w hw => ?_
    rw [hw, hv, hu, ht]
  have := hspec.of_ok h
  rw [hfi, ROOTINO_eq] at this
  omega

/-! ## Well-formed images -/

/-- An inode number `mkfs` has handed out. -/
def UsedInode (t : St) (i : Nat) : Prop := 0 < i ∧ i < t.freeinode

/-- **A well-formed image**: no inode has a hole below its size; block
addresses are distinct and those of data blocks; the bitmap marks the
blocks handed out and no other; the inodes in use are inodes. -/
structure WellFormed (t : St) : Prop where
  noHoles : ∀ i, UsedInode t i → NoHoles t.img (dinodeAt sb t.img i)
  range : ∀ i k, UsedInode t i → k < NSLOT → slotAddr t.img (dinodeAt sb t.img i) k ≠ 0 →
    nmeta ≤ slotAddr t.img (dinodeAt sb t.img i) k ∧ slotAddr t.img (dinodeAt sb t.img i) k < FSSIZE
  distinct : ∀ i j k l, UsedInode t i → UsedInode t j → k < NSLOT → l < NSLOT →
    slotAddr t.img (dinodeAt sb t.img i) k ≠ 0 →
    slotAddr t.img (dinodeAt sb t.img i) k = slotAddr t.img (dinodeAt sb t.img j) l → i = j ∧ k = l
  bitmap : ∀ b, b < BPB → ((t.img sb.bmapstart).testBit b = true ↔ b < t.freeblock)
  inodes : ∀ i, UsedInode t i → i < NINODES

namespace Image

variable {files : List HostFile} {t : St}

theorem node_eq (_ : Image files t) {i : Nat} (hi : i < NINODES) :
    nodes sb t.img i = dinodeAt sb t.img i := if_pos hi

theorem live (h : Image files t) {i : Nat} (hi : i < NINODES) (hu : UsedInode t i) :
    Live sb (nodes sb t.img) i :=
  ⟨hi, by rw [h.type i hi]; exact typeAt_ne_zero.mpr hu⟩

theorem testBit (h : Image files t) {b : Nat} :
    (t.img sb.bmapstart).testBit b = true ↔ b < t.freeblock := by
  have hle : t.freeblock ≤ BPB := Nat.le_trans h.free_le (by decide)
  rw [h.bitmap, testBit_bitmap hle, decide_eq_true_iff]

/-- The number of entries is small enough for direct blocks. -/
theorem root_le (hcount : files.length + 1 < NINODES) :
    DIRENT * (files.length + 2) ≤ 3200 ∧ (rootBytes files).length = DIRENT * (files.length + 2) := by
  refine ⟨?_, length_rootBytes files⟩
  rw [DIRENT_eq]
  rw [NINODES_eq] at hcount
  omega

/-- **The hole**: the root directory is covered up to its rounded size
exactly if its entries do not end on a block boundary. -/
theorem root_noHoles (h : Image files t) (hcount : files.length + 1 < NINODES) :
    NoHoles t.img (nodes sb t.img ROOTINO) ↔ (files.length + 2) % 32 ≠ 0 := by
  obtain ⟨hle, hlen⟩ := root_le hcount
  have hcov := h.root_covers
  rw [hlen] at hcov
  rw [DIRENT_eq] at hle hcov
  have hsize : (nodes sb t.img ROOTINO).size = (16 * (files.length + 2) / 512 + 1) * 512 := by
    rw [h.root_size, rootSize, DIRENT_eq, BSIZE_eq]
  constructor
  · intro hn hmod
    -- the block after the last entry
    have hbn : 16 * (files.length + 2) / 512 < MAXFILE := by
      rw [MAXFILE_eq]
      omega
    have hmap := hn.mapped (16 * (files.length + 2) / 512) (by rw [hsize, BSIZE_eq]; omega)
    have := (hcov.mapped hbn).mp hmap
    rw [BSIZE_eq] at this
    omega
  · intro hmod
    refine ⟨?_, fun bn hlt => ?_⟩
    · rw [hsize, MAXFILE_eq, BSIZE_eq]
      omega
    · rw [hsize, BSIZE_eq] at hlt
      have hbn : bn < MAXFILE := by
        rw [MAXFILE_eq]
        omega
      refine (hcov.mapped hbn).mpr ?_
      rw [BSIZE_eq]
      omega

/-- The inodes of the files have no hole. -/
theorem file_noHoles (h : Image files t) {i : Nat} (hu : UsedInode t i) (hi : i ≠ ROOTINO) :
    NoHoles t.img (nodes sb t.img i) := by
  obtain ⟨hpos, hlt⟩ := hu
  rw [h.freeinode] at hlt
  rw [ROOTINO_eq] at hi
  obtain ⟨j, rfl⟩ : ∃ j, i = j + 2 := ⟨i - 2, by omega⟩
  have hj : j < files.length := by omega
  exact (h.file j _ (List.getElem?_eq_getElem hj)).noHoles

theorem wellFormed (h : Image files t) (hcount : files.length + 1 < NINODES)
    (hmod : (files.length + 2) % 32 ≠ 0) : WellFormed t := by
  have hin : ∀ i, UsedInode t i → i < NINODES := by
    intro i hu
    have := hu.2
    rw [h.freeinode] at this
    omega
  refine ⟨fun i hu => ?_, fun i k hu hk h0 => ?_, fun i j k l hu hv hk hl h0 he => ?_,
    fun b _ => h.testBit, hin⟩
  · rw [← h.node_eq (hin i hu)]
    by_cases hi : i = ROOTINO
    · rw [hi]
      exact (h.root_noHoles hcount).mpr hmod
    · exact h.file_noHoles hu hi
  · rw [← h.node_eq (hin i hu)] at h0 ⊢
    exact h.blocks.range_slot (h.live (hin i hu) hu) hk h0
  · rw [← h.node_eq (hin i hu)] at h0 he
    rw [← h.node_eq (hin j hv)] at he
    exact h.blocks.inj_slot (h.live (hin i hu) hu) (h.live (hin j hv) hv) hk hl h0 he

end Image

/-- **When the image is well formed**: if and only if the entries of the
root directory, two more than there are files, do not fill whole blocks of
32, and there is an inode for every file. -/
theorem main_wellFormed_iff (files : List HostFile) (t : St)
    (h : main files St.start = .ok ((), t)) :
    WellFormed t ↔ (files.length + 2) % 32 ≠ 0 ∧ files.length + 1 < NINODES := by
  have hino := freeinode_of_main h
  constructor
  · intro hw
    have hlast : UsedInode t (files.length + 1) := ⟨by omega, by omega⟩
    have hcount := hw.inodes _ hlast
    have himg := image_of_main hcount h
    refine ⟨(himg.root_noHoles hcount).mp ?_, hcount⟩
    have hroot : UsedInode t ROOTINO := ⟨by decide, by rw [hino, ROOTINO_eq]; omega⟩
    rw [himg.node_eq (by decide)]
    exact hw.noHoles ROOTINO hroot
  · rintro ⟨hmod, hcount⟩
    exact (image_of_main hcount h).wellFormed hcount hmod

/-- An empty file with a one-letter name. -/
def emptyFile : HostFile := ⟨[97], some [], by decide⟩

theorem fits_empty {n : Nat} (hn : n ≤ 100) : Fits (List.replicate n emptyFile) := by
  have hbytes : emptyFile.bytes = [] := rfl
  refine ⟨fun f hf => ?_, ?_⟩
  · rw [List.eq_of_mem_replicate hf]
    exact ⟨by decide, rfl, by rw [hbytes]; exact Nat.zero_le _⟩
  · have h0 : blocksFor 0 = 0 := by decide
    have hfile : fileBlocks (List.replicate n emptyFile) = 0 := by
      simp only [fileBlocks, List.map_replicate, hbytes, List.length_nil, h0, List.sum_replicate_nat,
        Nat.mul_zero]
    have hroot := blocksFor_mono (show DIRENT * (n + 2) ≤ 16 * 102 by rw [DIRENT_eq]; omega)
    have h102 : blocksFor (16 * 102) = 4 := by decide
    rw [usedBlocks, hfile, List.length_replicate, nmeta_eq, FSSIZE_eq]
    omega

theorem main_empty {n : Nat} (hn : n ≤ 100) :
    ∃ t, main (List.replicate n emptyFile) St.start = .ok ((), t) := by
  refine main_ok ?_ (fits_empty hn)
  rw [List.length_replicate, NINODES_eq]
  omega

/-- A chunk of `n` bytes of the letter x. -/
def chunk (n : Nat) (h : 0 < n ∧ n ≤ BSIZE) : Chunk :=
  ⟨List.replicate n 120, by rwa [List.length_replicate]⟩

/-- A file of `n` whole blocks and `m` bytes. -/
def blockFile (n m : Nat) (h : 0 < m ∧ m ≤ BSIZE) : HostFile where
  arg := [underscore, 98]
  reads := some (List.replicate n (chunk BSIZE (by decide)) ++ [chunk m h])
  arg_nonul := by decide

section BlockFile

variable {n m : Nat} {h : 0 < m ∧ m ≤ BSIZE}

theorem bytes_blockFile : (blockFile n m h).bytes = List.replicate (n * BSIZE + m) 120 := by
  rw [HostFile.bytes, blockFile, Option.getD_some, List.map_append, List.map_replicate,
    List.flatten_append, List.map_singleton, List.flatten_singleton, chunk, chunk,
    List.flatten_replicate_replicate, List.replicate_append_replicate]

theorem fits_blockFile (hn : n < MAXFILE) : Fits [blockFile n m h, emptyFile] := by
  have hempty : emptyFile.bytes.length = 0 := rfl
  have hlen : (blockFile n m h).bytes.length = n * BSIZE + m := by
    rw [bytes_blockFile, List.length_replicate]
  have hle : n * BSIZE + m ≤ MAXFILE * BSIZE := by
    have := h.2
    rw [MAXFILE_eq, BSIZE_eq] at *
    omega
  refine ⟨fun f hf => ?_, ?_⟩
  · rcases List.mem_pair.mp hf with rfl | rfl
    · exact ⟨(by decide : slash ∉ [underscore, 98]), rfl, hlen ▸ hle⟩
    · exact ⟨by decide, rfl, by rw [hempty]; exact Nat.zero_le _⟩
  · have hfull := blocksFor_mono hle
    have h140 : blocksFor (MAXFILE * BSIZE) = 141 := by decide
    have hroot : blocksFor (DIRENT * (0 + 1 + 1 + 2)) = 1 := by decide
    have h0 : blocksFor 0 = 0 := by decide
    simp only [usedBlocks, fileBlocks, List.length_cons, List.length_nil, List.map_cons,
      List.map_nil, hlen, hempty, hroot, h0, List.sum_cons, List.sum_nil, nmeta_eq, FSSIZE_eq]
    omega

end BlockFile

/-- A file of fifteen blocks, three of them reached through the indirect block,
and an empty one. -/
theorem main_wellFormed_blocks :
    ∃ t, main [blockFile 14 100 (by decide), emptyFile] St.start = .ok ((), t) ∧ WellFormed t := by
  have hfits : Fits [blockFile 14 100 (by decide), emptyFile] := fits_blockFile (by decide)
  obtain ⟨t, ht⟩ := main_ok (by decide) hfits
  exact ⟨t, ht, (main_wellFormed_iff _ t ht).mpr (by decide)⟩

/-- **Thirty files leave a hole**: with "." and ".." their entries fill one
block, and the root directory is made two blocks long. -/
theorem main_thirty_not_wellFormed :
    ∃ t, main (List.replicate 30 emptyFile) St.start = .ok ((), t) ∧ ¬WellFormed t := by
  obtain ⟨t, ht⟩ := main_empty (n := 30) (by decide)
  have hcount : (List.replicate 30 emptyFile).length + 1 < NINODES := by decide
  have himg := image_of_main hcount ht
  refine ⟨t, ht, fun hw => ?_⟩
  have hroot : UsedInode t ROOTINO := by
    refine ⟨by decide, ?_⟩
    rw [himg.freeinode]
    decide
  have hn := hw.noHoles ROOTINO hroot
  rw [← himg.node_eq (by decide)] at hn
  exact (himg.root_noHoles hcount).mp hn (by decide)

end Xv6.Mkfs
