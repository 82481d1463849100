import Xv6.Fs.Dir
import Xv6.Mkfs.Build

/-!
# Mkfs — the image `main` leaves

`main` from its first line to `exit(0)`. The inodes are numbered in the
order of the command line, so what the image holds is a function of the
file list: `addData` enters one file after the other, as the loop does.
`Image` says what the finished image is, the rounded size of the root
directory included; `main_spec` says that `main` leaves it, and that with
files that fit it does reach its end.
-/

namespace Xv6.Mkfs

open Lib Fs

/-! ## The empty image -/

section Format

/-- The image before the first inode. -/
def St.formatted : St := ⟨upd (fun _ => Bytes.zero BSIZE) 1 superBlock, FSSIZE, 1, nmeta⟩

theorem St.formatted_of_ne {b : Nat} (h : b ≠ 1) : St.formatted.img b = Bytes.zero BSIZE :=
  if_neg h

/-- The image while it is being zeroed. -/
def St.zeroed (j : Nat) : St := ⟨fun _ => Bytes.zero BSIZE, j, 1, nmeta⟩

theorem wsect_zeroed {j : Nat} (hj : j < FSSIZE) :
    wsect j (Bytes.zero BSIZE) (St.zeroed j) = .ok ((), St.zeroed (j + 1)) := by
  have hlt : j < 2 ^ 23 := Nat.lt_trans hj (by decide)
  have hupd : upd (fun _ => Bytes.zero BSIZE) j (Bytes.zero BSIZE) = fun _ => Bytes.zero BSIZE :=
    upd_eq_self (fun _ => Bytes.zero BSIZE) j
  have hrun : wsect j (Bytes.zero BSIZE) (St.zeroed j) =
      .ok ((), ⟨upd (fun _ => Bytes.zero BSIZE) (sector j) (Bytes.zero BSIZE),
        max j (sector j + 1), 1, nmeta⟩) := rfl
  rw [hrun, sector_of_lt hlt, hupd, Nat.max_eq_right (Nat.le_succ j)]
  rfl

/-- The loop that zeroes the image. -/
theorem forLoop_zeroed {n i : Nat} (h : i + n ≤ FSSIZE) :
    forLoop (fun i => wsect i (Bytes.zero BSIZE)) n i (St.zeroed i) =
      .ok ((), St.zeroed (i + n)) := by
  induction n generalizing i with
  | zero => rfl
  | succ n ih =>
      simp only [forLoop, bind, StateT.bind, Except.bind]
      rw [wsect_zeroed (by omega)]
      simp only
      rw [ih (by omega), show i + 1 + n = i + (n + 1) by omega]

theorem readsb_superBlock : readsb superBlock = sb := by decide +kernel

theorem node_formatted (i : Nat) : (St.formatted.node i).type = 0 := by
  rw [St.node, nodes]
  split
  · rename_i hi
    have h58 : IBLOCK i sb ≠ sb.bmapstart := IBLOCK_ne hi
    have h1 : IBLOCK i sb ≠ 1 := by
      have := (IBLOCK_lt hi).1
      rw [inodestart_eq] at this
      omega
    have hz : marked St.formatted (IBLOCK i sb) = Bytes.zero BSIZE := by
      rw [marked_of_ne h58]
      exact St.formatted_of_ne h1
    rw [dinodeAt, hz, getDinode, Bytes.rd16_zero]
  · rfl

/-- No inode, no block. -/
theorem built_formatted (data : Nat → List UInt8) : Built St.formatted data := by
  have hrefs : ∀ p, refs sb (marked St.formatted) St.formatted.node p = 0 := fun p =>
    if_neg fun hx => hx.1.2 (node_formatted _)
  refine ⟨rfl, by decide, fun b hb => ?_, readsb_superBlock, ?_, by decide, fun i _ => ?_,
    fun i h0 h1 => ?_, fun i h0 h1 => ?_⟩
  · have hb1 : b ≠ 1 := by
      have hlo : nmeta ≤ b := hb
      rw [nmeta_eq] at hlo
      omega
    exact St.formatted_of_ne hb1
  · refine ⟨by decide, fun p hp => absurd (hrefs p) hp, fun p _ hp => absurd (hrefs p) hp,
      fun _ hx => absurd hx (by simp), fun _ hx => absurd hx (by simp), fun b hb => ?_⟩
    have hlt : b < BPB := Nat.lt_of_lt_of_le hb (by decide)
    rw [bit_marked (by decide) hlt, decide_eq_true_iff]
    constructor
    · exact Or.inl
    · rintro (hlo | hx | ⟨p, hp⟩)
      · exact hlo
      · exact absurd hx (by simp)
      · rw [← hp, hrefs p]
        decide
  · have h1 : St.formatted.freeinode = 1 := rfl
    rw [node_formatted, typeAt, h1, if_neg (by omega)]
  · have h1 : i < 1 := h1
    omega
  · have h1 : i < 1 := h1
    omega

theorem format_eq : format St.start = .ok ((), St.formatted) := by
  have hle : 0 + FSSIZE ≤ FSSIZE := by omega
  have hloop := forLoop_zeroed hle
  rw [Nat.zero_add] at hloop
  have hstart : (modify fun s => { s with freeblock := nmeta } : Prog Unit) St.start =
      .ok ((), St.zeroed 0) := rfl
  rw [format, bind_of_ok hstart, bind_of_ok hloop]
  rfl

/-- `main` gets to the empty image, whatever its files. -/
theorem main_eq : ∃ s, Built s (fun _ => []) ∧ s.freeinode = ROOTINO ∧ s.freeblock = nmeta ∧
    ∀ files, main files St.start = populate files s := by
  refine ⟨St.formatted, built_formatted _, rfl, rfl, fun files => ?_⟩
  rw [main, bind_of_ok format_eq]

end Format

/-! ## The directory entries -/

/-- The entries of files that get the inodes from `n` on. -/
def entries : Nat → List HostFile → List UInt8
  | _, [] => []
  | n, f :: rest => dirent n f.name ++ entries (n + 1) rest

/-- The contents of the root directory. -/
def rootBytes (files : List HostFile) : List UInt8 :=
  dirent ROOTINO dot ++ dirent ROOTINO dotdot ++ entries 2 files

/-- What the inodes hold once the files are entered, from inode `n` on. -/
def addData : (n : Nat) → (Nat → List UInt8) → List HostFile → Nat → List UInt8
  | _, data, [] => data
  | n, data, f :: rest =>
      addData (n + 1) (upd (upd data ROOTINO (data ROOTINO ++ dirent n f.name)) n f.bytes) rest

theorem length_entries (n : Nat) (files : List HostFile) :
    (entries n files).length = DIRENT * files.length := by
  induction files generalizing n with
  | nil => rfl
  | cons f rest ih =>
      rw [entries, List.length_append, length_dirent, ih, List.length_cons, Nat.mul_succ]
      omega

theorem length_rootBytes (files : List HostFile) :
    (rootBytes files).length = DIRENT * (files.length + 2) := by
  rw [rootBytes, List.length_append, List.length_append, length_dirent, length_dirent,
    length_entries, Nat.mul_add]
  omega

section AddData

variable {n : Nat} {data : Nat → List UInt8}

theorem addData_root (hn : ROOTINO < n) (files : List HostFile) :
    addData n data files ROOTINO = data ROOTINO ++ entries n files := by
  induction files generalizing n data with
  | nil => simp [addData, entries]
  | cons f rest ih =>
      have hne : ROOTINO ≠ n := by omega
      rw [addData, ih (by omega), entries, upd_of_ne hne, upd_self, List.append_assoc]

/-- Later files do not change the inodes handed out before. -/
theorem addData_of_lt {i : Nat} (hi : i < n) (h1 : i ≠ ROOTINO) (files : List HostFile) :
    addData n data files i = data i := by
  induction files generalizing n data with
  | nil => rfl
  | cons f rest ih =>
      rw [addData, ih (by omega), upd_of_ne (by omega), upd_of_ne h1]

theorem addData_file (hn : ROOTINO < n) {files : List HostFile} {j : Nat} {f : HostFile}
    (hf : files[j]? = some f) : addData n data files (n + j) = f.bytes := by
  induction files generalizing n data j with
  | nil => cases hf
  | cons g rest ih =>
      cases j with
      | zero =>
          cases hf
          show addData (n + 1) _ rest n = f.bytes
          rw [addData_of_lt (by omega) (by omega), upd_self]
      | succ j =>
          rw [addData, show n + (j + 1) = n + 1 + j by omega]
          exact ih (by omega) hf

end AddData

/-! ## The loops -/

/-- The blocks the files need. -/
def fileBlocks (files : List HostFile) : Nat :=
  (files.map fun f => blocksFor f.bytes.length).sum

/-- The file can be read, and is not too long for an inode. -/
def Loadable (f : HostFile) : Prop :=
  slash ∉ f.arg ∧ f.reads.isSome = true ∧ f.bytes.length ≤ MAXFILE * BSIZE

section Loops

variable {s : St} {E : Stop → Prop} {data : Nat → List UInt8} {i : Nat}

/-- **The loop that copies a file.** -/
theorem appendAll_spec {reads : List Chunk} (h : Built s data) (hi : 0 < i ∧ i < s.freeinode)
    (hE : ¬Room s (data i).length (reads.map Subtype.val).flatten.length → ∀ e, E e) :
    Ensures (appendAll i reads) s E fun _ t =>
      Built t (upd data i (data i ++ (reads.map Subtype.val).flatten)) ∧
      t.freeinode = s.freeinode ∧
      t.freeblock + blocksFor (data i).length =
        s.freeblock + blocksFor ((data i).length + (reads.map Subtype.val).flatten.length) := by
  induction reads generalizing s data with
  | nil =>
      simp only [appendAll, ensures_pure, List.map_nil, List.flatten_nil, List.append_nil,
        upd_eq_self, List.length_nil, Nat.add_zero, and_self, and_true]
      exact h
  | cons p rest ih =>
      have hlen : ((p :: rest).map Subtype.val).flatten.length =
          p.val.length + (rest.map Subtype.val).flatten.length := by simp
      set m := (rest.map Subtype.val).flatten.length with hm
      rw [hlen] at hE ⊢
      simp only [appendAll, ensures_bind]
      refine (iappend_spec h hi fun hno => hE fun hroom => hno ?_).next ?_
      · obtain ⟨h1, h2⟩ := hroom
        have := blocksFor_mono (show (data i).length + p.val.length ≤
          (data i).length + (p.val.length + m) by omega)
        exact ⟨by omega, by omega⟩
      · rintro _ t ⟨hb, hino, hfree⟩
        have hlen' : (upd data i (data i ++ p.val) i).length = (data i).length + p.val.length := by
          rw [upd_self, List.length_append]
        have hsum : (data i).length + p.val.length + m = (data i).length + (p.val.length + m) := by
          omega
        refine (ih hb (by omega) fun hno => hE fun hroom => hno ?_).next ?_
        · obtain ⟨h1, h2⟩ := hroom
          rw [hlen']
          refine ⟨?_, by omega⟩
          rw [hsum]
          omega
        · rintro _ u ⟨hb', hino', hfree'⟩
          rw [hlen', hsum] at hfree'
          rw [upd_self, upd_upd, List.append_assoc] at hb'
          refine ⟨?_, hino'.trans hino, by omega⟩
          rw [List.map_cons, List.flatten_cons]
          exact hb'

/-- The root directory has as many entries as there are inode numbers. -/
def RootSize (s : St) (data : Nat → List UInt8) : Prop :=
  (data ROOTINO).length = DIRENT * s.freeinode ∧ ROOTINO < s.freeinode

/-- **One file of the command line.** -/
theorem addFile_spec {f : HostFile} (h : Built s data) (hroot : RootSize s data)
    (hlt : s.freeinode < NINODES)
    (hE : ¬(Loadable f ∧ s.freeblock + blocksFor (DIRENT * (s.freeinode + 1)) +
      blocksFor f.bytes.length ≤ FSSIZE + blocksFor (DIRENT * s.freeinode)) → ∀ e, E e) :
    Ensures (addFile ROOTINO f) s E fun _ t =>
      Built t (upd (upd data ROOTINO (data ROOTINO ++ dirent s.freeinode f.name)) s.freeinode
        f.bytes) ∧
      t.freeinode = s.freeinode + 1 ∧
      t.freeblock + blocksFor (DIRENT * s.freeinode) =
        s.freeblock + blocksFor (DIRENT * (s.freeinode + 1)) + blocksFor f.bytes.length := by
  obtain ⟨hlen, hpos⟩ := hroot
  have h1 : ROOTINO = 1 := rfl
  simp only [addFile]
  by_cases hslash : slash ∈ f.arg
  · rw [if_pos hslash]
    exact hE (fun hx => hx.1.1 hslash) _
  rw [if_neg hslash]
  cases hreads : f.reads with
  | none =>
      refine hE (fun hx => ?_) _
      have := hx.1.2.1
      rw [hreads] at this
      cases this
  | some reads =>
      have hbytes : f.bytes = (reads.map Subtype.val).flatten := by
        rw [HostFile.bytes, hreads]
        rfl
      simp only [ensures_bind]
      have hnoroot : s.freeinode ≠ ROOTINO := by omega
      have hroot' : upd data s.freeinode [] ROOTINO = data ROOTINO := upd_of_ne (Ne.symm hnoroot)
      refine (ialloc_spec h hlt (by omega) (by rw [if_neg hnoroot])).next ?_
      rintro _ t ⟨rfl, hb, hino, hfree⟩
      have hmul : DIRENT * s.freeinode + DIRENT = DIRENT * (s.freeinode + 1) :=
        (Nat.mul_succ ..).symm
      -- the entry
      refine (iappend_spec hb (by omega) fun hno => hE fun hroom => hno ?_).next ?_
      · rw [hroot', hlen, length_dirent, Room, hmul]
        obtain ⟨_, hroom⟩ := hroom
        refine ⟨by omega, ?_⟩
        rw [NINODES_eq] at hlt
        rw [DIRENT_eq, MAXFILE_eq, BSIZE_eq]
        omega
      rintro _ u ⟨hb', hino', hfree'⟩
      rw [hroot', length_dirent, hlen, hmul] at hfree'
      -- and the contents
      set data' := upd (upd data s.freeinode []) ROOTINO
        (upd data s.freeinode [] ROOTINO ++ dirent s.freeinode f.name) with hdata'
      have hempty : data' s.freeinode = [] := by
        rw [hdata', upd_of_ne hnoroot, upd_self]
      refine (@appendAll_spec _ _ _ _ reads hb' (by omega)
        fun hno => hE fun hroom => hno ?_).next ?_
      · obtain ⟨hload, hroom⟩ := hroom
        have hmax := hload.2.2
        rw [hbytes] at hmax hroom
        have h0 : blocksFor 0 = 0 := by decide
        rw [hempty, List.length_nil, Room, Nat.zero_add]
        exact ⟨by omega, hmax⟩
      rintro _ v ⟨hb'', hino'', hfree''⟩
      rw [hempty, List.nil_append, ← hbytes] at hb''
      have h0 : blocksFor 0 = 0 := by decide
      rw [hempty, List.length_nil, Nat.zero_add, h0, ← hbytes] at hfree''
      refine ⟨?_, by omega, by omega⟩
      have heq : upd data' s.freeinode f.bytes =
          upd (upd data ROOTINO (data ROOTINO ++ dirent s.freeinode f.name)) s.freeinode f.bytes := by
        rw [hdata', hroot', upd_comm hnoroot, upd_upd]
      rw [← heq]
      exact hb''

/-- **The loop over the command line.** -/
theorem addFiles_spec {files : List HostFile} (h : Built s data) (hroot : RootSize s data)
    (hcount : s.freeinode + files.length ≤ NINODES)
    (hE : ¬((∀ f ∈ files, Loadable f) ∧
      s.freeblock + blocksFor (DIRENT * (s.freeinode + files.length)) + fileBlocks files ≤
        FSSIZE + blocksFor (DIRENT * s.freeinode)) → ∀ e, E e) :
    Ensures (addFiles ROOTINO files) s E fun _ t =>
      Built t (addData s.freeinode data files) ∧ t.freeinode = s.freeinode + files.length ∧
      t.freeblock + blocksFor (DIRENT * s.freeinode) =
        s.freeblock + blocksFor (DIRENT * (s.freeinode + files.length)) + fileBlocks files := by
  induction files generalizing s data with
  | nil => exact ⟨h, rfl, rfl⟩
  | cons f rest ih =>
      simp only [List.length_cons] at hcount hE ⊢
      have hsum : s.freeinode + 1 + rest.length = s.freeinode + (rest.length + 1) := by omega
      have hblk : fileBlocks (f :: rest) = blocksFor f.bytes.length + fileBlocks rest := by
        simp [fileBlocks]
      have hmono : blocksFor (DIRENT * (s.freeinode + 1)) ≤
          blocksFor (DIRENT * (s.freeinode + (rest.length + 1))) :=
        blocksFor_mono (Nat.mul_le_mul_left _ (by omega))
      rw [hblk] at hE ⊢
      simp only [addFiles, ensures_bind]
      refine (addFile_spec h hroot (by omega) fun hno => hE fun hroom => hno ?_).next ?_
      · exact ⟨hroom.1 f (List.mem_cons_self ..), by omega⟩
      rintro _ t ⟨hb, hino, hfree⟩
      have hroot' : RootSize t (upd (upd data ROOTINO
          (data ROOTINO ++ dirent s.freeinode f.name)) s.freeinode f.bytes) := by
        obtain ⟨hlen, hpos⟩ := hroot
        refine ⟨?_, by omega⟩
        rw [upd_of_ne (by omega), upd_self, List.length_append, hlen, length_dirent, hino,
          Nat.mul_succ]
      refine (ih hb hroot' (by omega) fun hno => hE fun hroom => hno ?_).next ?_
      · refine ⟨fun g hg => hroom.1 g (List.mem_cons_of_mem _ hg), ?_⟩
        rw [hino, hsum]
        omega
      rintro _ u ⟨hb', hino', hfree'⟩
      rw [hino] at hb'
      rw [hino, hsum] at hfree'
      exact ⟨hb', by omega, by omega⟩

end Loops

/-! ## The finished image -/

/-- The root directory before the first file. -/
def rootData : Nat → List UInt8 :=
  upd (fun _ => []) ROOTINO (dirent ROOTINO dot ++ dirent ROOTINO dotdot)

theorem makeRoot_spec {s : St} {E : Stop → Prop} (h : Built s fun _ => [])
    (hfi : s.freeinode = ROOTINO) (hfb : s.freeblock = 59) :
    Ensures makeRoot s E fun rootino t => rootino = ROOTINO ∧ Built t rootData ∧
      t.freeinode = 2 ∧ t.freeblock = 60 := by
  have h0 : blocksFor 0 = 0 := by decide
  have h16 : blocksFor 16 = 1 := by decide
  have h32 : blocksFor 32 = 1 := by decide
  have hl : ∀ name, (dirent ROOTINO name).length = 16 := length_dirent ROOTINO
  simp only [makeRoot, ensures_bind]
  refine (ialloc_spec h (by rw [hfi]; decide) (by rw [hfi]; decide) (by rw [if_pos hfi])).next ?_
  rintro _ t ⟨rfl, hb, hino, hfree⟩
  rw [hfi, if_neg (not_not.mpr rfl)]
  rw [hfi] at hb hino
  rw [hfb] at hfree
  simp only [ensures_bind, ensures_pure, true_and]
  -- "."
  refine (iappend_spec hb (by rw [hino]; decide) fun hno => absurd ?_ hno).next ?_
  · rw [upd_self, List.length_nil, hl, Room, Nat.zero_add, h0, h16, hfree]
    decide
  rintro _ u ⟨hb', hino', hfree'⟩
  rw [upd_self, List.length_nil, hl, Nat.zero_add, h0, h16, hfree] at hfree'
  rw [upd_self, upd_upd, List.nil_append] at hb'
  -- ".."
  refine (iappend_spec hb' (by rw [hino', hino]; decide) fun hno => absurd ?_ hno).next ?_
  · rw [upd_self, hl, hl, Room, h16, h32]
    exact ⟨by rw [FSSIZE_eq]; omega, by decide⟩
  rintro _ v ⟨hb'', hino'', hfree''⟩
  rw [upd_self, hl, hl, h16, h32] at hfree''
  rw [upd_self, upd_upd] at hb''
  exact ⟨hb'', by rw [hino'', hino', hino]; rfl, by omega⟩

/-- The size `mkfs` gives the root directory in the end. -/
def rootSize (files : List HostFile) : Nat := (DIRENT * (files.length + 2) / BSIZE + 1) * BSIZE

/-- The blocks in use on the image. -/
def usedBlocks (files : List HostFile) : Nat :=
  nmeta + blocksFor (DIRENT * (files.length + 2)) + fileBlocks files

/-- **The image of a list of files.** -/
structure Image (files : List HostFile) (t : St) : Prop where
  freeinode : t.freeinode = files.length + 2
  freeblock : t.freeblock = usedBlocks files
  free_le : t.freeblock ≤ FSSIZE
  bitmap : t.img sb.bmapstart = bitmap t.freeblock
  super : readsb (t.img 1) = sb
  blocks : Blocks sb t.img (nodes sb t.img) ∅
  type : ∀ i, i < NINODES → (nodes sb t.img i).type = typeAt t.freeinode i
  nlink : ∀ i, 0 < i → i < t.freeinode → (nodes sb t.img i).nlink = 1
  root_size : (nodes sb t.img ROOTINO).size = rootSize files
  root_covers : Covers t.img (nodes sb t.img ROOTINO) (rootBytes files).length
  root : ∀ o, o < (rootBytes files).length →
    byteAt t.img (nodes sb t.img ROOTINO) o = (rootBytes files).getD o 0
  root_tail : ∀ o, (rootBytes files).length ≤ o → o / BSIZE < MAXFILE →
    bmapAddr t.img (nodes sb t.img ROOTINO) (o / BSIZE) ≠ 0 →
    byteAt t.img (nodes sb t.img ROOTINO) o = 0
  file : ∀ j f, files[j]? = some f → Holds t.img (nodes sb t.img (j + 2)) f.bytes

section Finish

variable {s : St} {files : List HostFile} {E : Stop → Prop}

/-- Rounding the size of the root directory, and the bitmap. -/
theorem finish_spec (h : Built s (addData 2 rootData files)) (hino : s.freeinode = files.length + 2)
    (hfree : s.freeblock = usedBlocks files) :
    Ensures (fixRoot ROOTINO >>= fun _ => get >>= fun t => balloc t.freeblock) s E fun _ t =>
      Image files t := by
  have hroot : addData 2 rootData files ROOTINO = rootBytes files := by
    rw [addData_root (by decide), rootData, upd_self, rootBytes]
  have hi : 0 < ROOTINO ∧ ROOTINO < s.freeinode := ⟨by decide, by rw [hino, ROOTINO_eq]; omega⟩
  have hlt : ROOTINO < NINODES := by decide
  have hh := h.holds ROOTINO hi.1 hi.2
  rw [hroot] at hh
  have hsize : (s.node ROOTINO).size = DIRENT * (files.length + 2) := by
    rw [hh.size_eq, length_rootBytes]
  have hround : ((s.node ROOTINO).size / BSIZE + 1) * BSIZE = rootSize files := by
    rw [hsize, rootSize]
  have hr := h.ready hi
  have hfits : ({ s.node ROOTINO with size := rootSize files } : Dinode).Fits := by
    refine ⟨hr.fits.type, hr.fits.major, hr.fits.minor, hr.fits.nlink, ?_, hr.fits.addrs⟩
    have hn := h.inodes
    show rootSize files < 2 ^ 32
    rw [rootSize, DIRENT_eq, BSIZE_eq]
    rw [hino, NINODES_eq] at hn
    omega
  simp only [ensures_bind, fixRoot, ensures_get]
  refine (rinode_spec h.len hlt).next ?_
  rintro d t ⟨rfl, rfl⟩
  rw [hround]
  refine (winode_spec h.len hlt).next ?_
  rintro _ u rfl
  set d : Dinode := { t.node ROOTINO with size := rootSize files } with hd
  have hfb : (t.putInode ROOTINO d).freeblock = t.freeblock := rfl
  have hused : t.freeblock < BSIZE * 8 := Nat.lt_of_le_of_lt h.free (by decide)
  rw [balloc, hfb, if_neg (not_not.mpr hused)]
  have hbm : sb.bmapstart < FSSIZE := by decide
  refine (wsect_spec (s := t.putInode ROOTINO d) h.len hbm _).next ?_
  rintro _ v rfl
  -- the image is the marked one
  have himg : ((t.putInode ROOTINO d).write sb.bmapstart (bitmap t.freeblock)).img =
      inodeDisk sb (marked t) ROOTINO d := marked_putInode hlt
  have hnode : nodes sb (inodeDisk sb (marked t) ROOTINO d) = upd t.node ROOTINO d :=
    nodes_inodeDisk hlt hfits
  have hB : Blocks sb (marked t) (upd t.node ROOTINO d) ∅ := by
    refine blocks_resize ?_ _
    rw [upd_eq_self]
    exact h.blocks
  have hkeep : ∀ j, Live sb (upd t.node ROOTINO d) j →
      SameBlocks (marked t) (inodeDisk sb (marked t) ROOTINO d) (upd t.node ROOTINO d j) :=
    fun j hj => sameBlocks_inodeDisk hB geo hlt hj
  have hself := hkeep ROOTINO (live_upd hlt hr.live)
  rw [upd_self] at hself
  refine ⟨hino, hfree, h.free, ?_, ?_, ?_, fun i hi => ?_, fun i hi hi' => ?_, ?_, ?_, ?_, ?_,
    fun j f hf => ?_⟩
  · exact St.write_self ..
  · rw [himg, inodeDisk_one geo, marked_of_ne (by decide)]
    exact h.super
  · rw [himg, hnode]
    exact hB.inodeDisk geo hlt
  · rw [himg, hnode]
    by_cases hi1 : i = ROOTINO
    · rw [hi1, upd_self]
      exact h.type ROOTINO hlt
    · rw [upd_of_ne hi1]
      exact h.type i hi
  · rw [himg, hnode]
    by_cases hi1 : i = ROOTINO
    · rw [hi1, upd_self]
      exact h.nlink ROOTINO (by decide) (hi1 ▸ hi')
    · rw [upd_of_ne hi1]
      exact h.nlink i hi hi'
  · rw [himg, hnode, upd_self]
  · rw [himg, hnode, upd_self]
    intro k hk
    rw [hself.slots]
    exact hh.covers k hk
  · rw [himg, hnode, upd_self]
    intro o ho
    have hold : (content (marked t) (t.node ROOTINO)).getD o 0 =
        byteAt (marked t) (t.node ROOTINO) o :=
      getD_content (by rw [hh.size_eq]; exact ho)
    rw [hh.content] at hold
    obtain ⟨hbn, hmap⟩ := hh.noHoles.block (o := o) (by rw [hh.size_eq]; exact ho)
    rw [hold, byteAt, bmapAddr, hself.slots]
    exact congrArg (fun b => Bytes.get b (o % BSIZE)) (hself _ (bmapSlot_lt hbn) hmap)
  · rw [himg, hnode, upd_self]
    intro o ho hbn h0
    rw [bmapAddr, hself.slots] at h0
    rw [← hh.tail o ho hbn h0, byteAt, byteAt, bmapAddr, hself.slots]
    exact congrArg (fun b => Bytes.get b (o % BSIZE)) (hself _ (bmapSlot_lt hbn) h0)
  · have hj : j < files.length := (List.getElem?_eq_some_iff.mp hf).1
    have hlt' : 0 < j + 2 ∧ j + 2 < t.freeinode := ⟨by omega, by omega⟩
    have hne : j + 2 ≠ ROOTINO := by
      rw [ROOTINO_eq]
      omega
    have hhj := h.holds (j + 2) hlt'.1 hlt'.2
    rw [Nat.add_comm j 2, addData_file (by decide) hf] at hhj
    have hsame := hkeep (j + 2) ((live_upd_of_ne hne).mpr (h.live_iff.mpr hlt'))
    rw [upd_of_ne hne] at hsame
    rw [himg, hnode, upd_of_ne hne]
    rw [Nat.add_comm j 2] at hsame ⊢
    exact hhj.frame hsame

/-- The files fit the image. -/
structure Fits (files : List HostFile) : Prop where
  loadable : ∀ f ∈ files, Loadable f
  blocks : usedBlocks files ≤ FSSIZE

theorem populate_spec (h : Built s fun _ => []) (hfi : s.freeinode = ROOTINO)
    (hfb : s.freeblock = nmeta) (hcount : files.length + 1 < NINODES)
    (hE : ¬Fits files → ∀ e, E e) :
    Ensures (populate files) s E fun _ t => Image files t := by
  simp only [populate, ensures_bind]
  refine (makeRoot_spec h hfi hfb).next ?_
  rintro _ t ⟨rfl, hb, hino, hfree⟩
  have hlen : RootSize t rootData := by
    refine ⟨?_, by rw [hino]; decide⟩
    rw [rootData, upd_self, List.length_append, length_dirent, length_dirent, hino, Nat.mul_two]
  have h2 : blocksFor (DIRENT * 2) = 1 := by decide
  have hused : usedBlocks files =
      59 + blocksFor (DIRENT * (2 + files.length)) + fileBlocks files := by
    rw [usedBlocks, Nat.add_comm 2, nmeta_eq]
  refine (addFiles_spec hb hlen (by omega) fun hno => hE fun hfit => hno ⟨hfit.loadable, ?_⟩).next ?_
  · have := hfit.blocks
    rw [hino, h2]
    omega
  rintro _ u ⟨hb', hino', hfree'⟩
  rw [hino] at hb'
  rw [hino, h2] at hfree'
  have := finish_spec (E := E) hb' (by omega) (by omega)
  simpa only [ensures_bind] using this

/-- **`main` leaves the image of its files.** -/
theorem image_of_main {t : St} (hcount : files.length + 1 < NINODES)
    (h : main files St.start = .ok ((), t)) : Image files t := by
  obtain ⟨s, hb, hfi, hfb, hmain⟩ := main_eq
  rw [hmain] at h
  exact (populate_spec (E := fun _ => True) hb hfi hfb hcount fun _ _ => trivial).of_ok h

/-- **`main` succeeds on files that fit.** -/
theorem main_ok (hcount : files.length + 1 < NINODES) (hfit : Fits files) :
    ∃ t, main files St.start = .ok ((), t) := by
  obtain ⟨s, hb, hfi, hfb, hmain⟩ := main_eq
  have hspec := populate_spec (E := fun _ => False) hb hfi hfb hcount fun hno => absurd hfit hno
  obtain ⟨_, t, hrun, -⟩ := hspec.exists_ok
  exact ⟨t, (hmain files).trans hrun⟩

end Finish

end Xv6.Mkfs
