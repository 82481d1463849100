import Xv6.Fs.File
import Xv6.Fs.Inode

/-!
# Fs — a directory is looked up by name

What the bytes of a directory mean, apart from the code: a name is what
stands before the first NUL among its first `DIRSIZ` bytes (`strn`), an
entry is sixteen bytes, and a name stands for the first live entry that
has it (`findEntry`). `dirlookup` computes that, and takes a reference to
the inode it finds.
-/

namespace Xv6.Fs

open Lib

/-! ## Names -/

/-- `strncmp` compares up to the first NUL, and `n` bytes at the most. -/
theorem strncmpEq_iff (n : Nat) (s t : List UInt8) :
    strncmpEq n s t = true ↔
      (s.take n).takeWhile (· ≠ 0) = (t.take n).takeWhile (· ≠ 0) := by
  induction n generalizing s t with
  | zero => simp [strncmpEq]
  | succ n ih =>
      cases s with
      | nil =>
          cases t with
          | nil => simp [strncmpEq]
          | cons q t =>
              by_cases hq : q = 0
              · simp [strncmpEq, hq]
              · simp [strncmpEq, hq, Ne.symm hq]
      | cons p s =>
          by_cases hp : p = 0
          · cases t with
            | nil => simp [strncmpEq, hp]
            | cons q t =>
                by_cases hq : q = 0
                · simp [strncmpEq, hp, hq]
                · simp [strncmpEq, hp, hq, Ne.symm hq]
          · cases t with
            | nil => simp [strncmpEq, hp]
            | cons q t =>
                by_cases hpq : p = q
                · subst hpq
                  simp [strncmpEq, hp, ih]
                · by_cases hq : q = 0
                  · simp [strncmpEq, hp, hq]
                  · simp [strncmpEq, hp, hq, hpq]

/-- **`namecmp`** compares names. -/
theorem namecmp_iff (s t : List UInt8) : namecmp s t = true ↔ strn s = strn t :=
  strncmpEq_iff DIRSIZ s t

theorem length_strncpy (n : Nat) (s : List UInt8) : (strncpy n s).length = n := by
  induction n generalizing s with
  | zero => rfl
  | succ n ih =>
      rw [strncpy]
      split
      · rw [List.length_cons, ih]
      · rw [List.length_cons, List.length_replicate]

/-- What `strncpy` stores is read back up to its NUL. -/
theorem takeWhile_strncpy (n : Nat) (s : List UInt8) :
    (strncpy n s).takeWhile (· ≠ 0) = (s.take n).takeWhile (· ≠ 0) := by
  induction n generalizing s with
  | zero => simp [strncpy]
  | succ n ih =>
      cases s with
      | nil => simp [strncpy]
      | cons p s =>
          by_cases hp : p = 0
          · simp [strncpy, hp]
          · simp only [strncpy, List.headD_cons, List.tail_cons, List.take_succ_cons,
              List.takeWhile_cons, hp, ne_eq, not_false_eq_true, if_true, decide_true]
            rw [← ih]

theorem strn_strncpy (s : List UInt8) : strn (strncpy DIRSIZ s) = strn s := by
  rw [strn, strn, List.take_of_length_le (Nat.le_of_eq (length_strncpy DIRSIZ s))]
  exact takeWhile_strncpy DIRSIZ s

/-! ## Entries -/

theorem length_dirent (inum : Nat) (name : List UInt8) : (dirent inum name).length = DIRENT := by
  rw [dirent, List.length_append, length_strncpy, Bytes.length_le16]
  rfl

theorem direntInum_dirent {inum : Nat} (h : inum < 2 ^ 16) (name : List UInt8) :
    direntInum (dirent inum name) = inum := by
  simp only [direntInum, dirent, Bytes.le16, List.cons_append, List.nil_append, List.getD_cons_zero,
    List.getD_cons_succ, UInt8.toNat_ofNat']
  omega

theorem direntName_dirent (inum : Nat) (name : List UInt8) :
    direntName (dirent inum name) = strncpy DIRSIZ name := by
  have h : (dirent inum name).drop 2 = strncpy DIRSIZ name := rfl
  rw [direntName, h, List.take_of_length_le (Nat.le_of_eq (length_strncpy DIRSIZ name))]

/-- Entry `e` of a directory. -/
def entryAt (data : List UInt8) (e : Nat) : List UInt8 := (data.drop (DIRENT * e)).take DIRENT

/-- A live entry with this name. -/
def hit (name de : List UInt8) : Bool := decide (direntInum de ≠ 0) && namecmp name (direntName de)

theorem hit_iff {name de : List UInt8} :
    hit name de = true ↔ direntInum de ≠ 0 ∧ strn name = strn (direntName de) := by
  rw [hit, Bool.and_eq_true, decide_eq_true_iff, namecmp_iff]

theorem hit_dirent {name : List UInt8} {inum : Nat} (h0 : inum ≠ 0) (h : inum < 2 ^ 16)
    (name' : List UInt8) : hit name (dirent inum name') = true ↔ strn name = strn name' := by
  rw [hit_iff, direntInum_dirent h, direntName_dirent, strn_strncpy]
  exact and_iff_right h0

/-- The first entry that has the name. -/
def findEntry (data : List UInt8) (name : List UInt8) : Option Nat :=
  findFrom (fun e => hit name (entryAt data e)) (data.length / DIRENT) 0

/-! ## `dirlookup` -/

section Lookup

variable {s : St} {E : Stop → Prop} {k : Fin NINODE} {name : List UInt8}

/-- `readi` delivers `de` as entry `e`. -/
structure Delivers (s : St) (k : Fin NINODE) (e : Nat) (de : List UInt8) : Prop where
  lt : DIRENT * e < (s.icache k).din.size
  reads : ∀ E, Ensures (readi k (DIRENT * e) DIRENT) s E fun r t => r = ((DIRENT : Int), de) ∧ t = s

variable {Q : Option (Fin NINODE × Nat) → St → Prop}

/-- The scan passes an entry that does not have the name. -/
theorem lookupLoop_skip {fuel e : Nat} {de : List UInt8} (hd : Delivers s k e de)
    (hno : hit name de = false)
    (hnext : Ensures (lookupLoop k name fuel (DIRENT * (e + 1))) s E Q) :
    Ensures (lookupLoop k name (fuel + 1) (DIRENT * e)) s E Q := by
  simp only [lookupLoop, ensures_bind, ensures_get, if_pos hd.lt]
  refine (hd.reads E).next ?_
  rintro r t ⟨rfl, rfl⟩
  simp only [ne_eq, not_true_eq_false, if_false]
  rw [Nat.mul_succ] at hnext
  rw [hit, Bool.and_eq_false_iff, decide_eq_false_iff_not, not_not] at hno
  by_cases h0 : direntInum de = 0
  · rw [if_pos h0]
    exact hnext
  · rw [if_neg h0, if_neg (by rw [hno.resolve_left h0]; decide)]
    exact hnext

/-- **The scan finds an entry**: those before it do not have the name. -/
theorem lookupLoop_hit {fuel e e' : Nat} {de : Nat → List UInt8} (hle : e ≤ e') (hfuel : e' - e < fuel)
    (hread : ∀ i, e ≤ i → i ≤ e' → Delivers s k i (de i))
    (hmiss : ∀ i, e ≤ i → i < e' → hit name (de i) = false) (hhit : hit name (de e') = true)
    (hQ : Ensures (iget (direntInum (de e'))) s E fun ip t => Q (some (ip, DIRENT * e')) t) :
    Ensures (lookupLoop k name fuel (DIRENT * e)) s E Q := by
  induction fuel generalizing e with
  | zero => omega
  | succ fuel ih =>
      have hd := hread e (Nat.le_refl e) hle
      rcases Nat.lt_or_eq_of_le hle with hlt | rfl
      · exact lookupLoop_skip hd (hmiss e (Nat.le_refl e) hlt) (ih (by omega) (by omega)
          (fun i hi => hread i (by omega)) fun i hi => hmiss i (by omega))
      · simp only [lookupLoop, ensures_bind, ensures_get, if_pos hd.lt]
        refine (hd.reads E).next ?_
        rintro r t ⟨rfl, rfl⟩
        simp only [ne_eq, not_true_eq_false, if_false]
        rw [hit, Bool.and_eq_true, decide_eq_true_iff] at hhit
        rw [if_neg hhit.1, if_pos hhit.2]
        simp only [ensures_bind, ensures_pure]
        exact hQ

/-- **The scan finds nothing.** -/
theorem lookupLoop_miss {fuel e n : Nat} {de : Nat → List UInt8} (hle : e ≤ n) (hfuel : n - e < fuel)
    (hend : (s.icache k).din.size ≤ DIRENT * n) (hread : ∀ i, e ≤ i → i < n → Delivers s k i (de i))
    (hmiss : ∀ i, e ≤ i → i < n → hit name (de i) = false) (hQ : Q none s) :
    Ensures (lookupLoop k name fuel (DIRENT * e)) s E Q := by
  induction fuel generalizing e with
  | zero => omega
  | succ fuel ih =>
      rcases Nat.lt_or_eq_of_le hle with hlt | rfl
      · exact lookupLoop_skip (hread e (Nat.le_refl e) hlt) (hmiss e (Nat.le_refl e) hlt) (ih hlt
          (by omega) (fun i hi => hread i (by omega)) fun i hi => hmiss i (by omega))
      · simp only [lookupLoop, ensures_bind, ensures_get]
        rw [if_neg (by omega)]
        exact hQ

end Lookup

/-! ## `dirlookup` of a locked directory -/

section Locked

variable {s : St} {E : Stop → Prop} {L : Set Nat} {k : Fin NINODE} {i : Nat} {name : List UInt8}
  {Q : Option (Fin NINODE × Nat) → St → Prop}

theorem Inv.obj_eq (h : Inv s L) (hk : Points s k i) (hi : i ∈ L) :
    s.obj i = Obj.of s.disk (s.icache k).din := by
  rw [← hk.2]
  exact h.cons.obj_eq hk.1 (h.valid_of_mem hk hi)

/-- The entries of a locked directory can be read. -/
theorem Inv.delivers (h : Inv s L) (hk : Points s k i) (hi : i ∈ L)
    (htype : (s.obj i).type = T_DIR) {e : Nat} (he : e < (s.obj i).data.length / DIRENT) :
    Delivers s k e (entryAt (s.obj i).data e) := by
  have hobj := h.obj_eq hk hi
  have hnh := h.cons.noHoles hk.1 (h.valid_of_mem hk hi)
  have hdir : (s.icache k).din.type = T_DIR := by rw [← htype, hobj]; rfl
  have hlen : (s.obj i).data.length = (s.icache k).din.size := by
    rw [hobj]
    exact length_content _ _
  have hle : DIRENT * e + DIRENT ≤ (s.icache k).din.size := by
    rw [← hlen]
    exact (Nat.mul_le_mul_left DIRENT he).trans (Nat.mul_div_le _ _)
  have hbound : (s.icache k).din.size < 2 ^ 32 := Nat.lt_of_le_of_lt hnh.size_le (by decide)
  have h16 : 0 < DIRENT := by decide
  refine ⟨by omega, fun E => (readi_spec (by rw [hdir]; decide) hnh (by omega) (by decide)).next ?_⟩
  rintro r t ⟨rfl, rfl⟩
  have hdata : content t.disk (t.icache k).din = (t.obj i).data := by
    rw [hobj]
    rfl
  have hok : ¬(DIRENT * e > (t.obj i).data.length ∨ 2 ^ 32 ≤ DIRENT * e + DIRENT) := by omega
  have hfull : (((t.obj i).data.drop (DIRENT * e)).take DIRENT).length = DIRENT := by
    rw [List.length_take, List.length_drop]
    omega
  rw [hdata, readResult, if_neg hok, hfull]
  exact ⟨rfl, rfl⟩

theorem Inv.size_eq (h : Inv s L) (hk : Points s k i) (hi : i ∈ L) :
    (s.icache k).din.size = (s.obj i).data.length := by
  rw [h.obj_eq hk hi]
  exact (length_content _ _).symm

/-- **`dirlookup`** takes a reference to the inode of the first entry that
has the name. -/
theorem dirlookup_hit {e : Nat} (h : Inv s L) (hk : Points s k i) (hi : i ∈ L)
    (htype : (s.obj i).type = T_DIR) (hfind : findEntry (s.obj i).data name = some e)
    (hQ : Ensures (iget (direntInum (entryAt (s.obj i).data e))) s E
      fun ip t => Q (some (ip, DIRENT * e)) t) : Ensures (dirlookup k name) s E Q := by
  have hdir : (s.icache k).din.type = T_DIR := by rw [← htype, h.obj_eq hk hi]; rfl
  obtain ⟨_, hlt, hhit⟩ := findFrom_eq_some hfind
  rw [Nat.zero_add] at hlt
  simp only [dirlookup, ensures_bind, ensures_get]
  rw [if_neg (not_not.mpr hdir), h.size_eq hk hi]
  exact lookupLoop_hit (e := 0) (Nat.zero_le e) (by omega)
    (fun j _ hj => h.delivers hk hi htype (Nat.lt_of_le_of_lt hj hlt))
    (fun j _ hj => findFrom_lt hfind (Nat.zero_le j) hj) hhit hQ

/-- **`dirlookup`** of a name that no entry has. -/
theorem dirlookup_miss (h : Inv s L) (hk : Points s k i) (hi : i ∈ L)
    (htype : (s.obj i).type = T_DIR) (hdvd : DIRENT ∣ (s.obj i).data.length)
    (hfind : findEntry (s.obj i).data name = none) (hQ : Q none s) :
    Ensures (dirlookup k name) s E Q := by
  have hdir : (s.icache k).din.type = T_DIR := by rw [← htype, h.obj_eq hk hi]; rfl
  simp only [dirlookup, ensures_bind, ensures_get]
  rw [if_neg (not_not.mpr hdir), h.size_eq hk hi]
  refine lookupLoop_miss (e := 0) (n := (s.obj i).data.length / DIRENT) (Nat.zero_le _)
    (Nat.lt_succ_of_le (Nat.sub_le _ _))
    ?_ (fun j _ hj => h.delivers hk hi htype hj)
    (fun j hj hlt => findFrom_eq_none hfind hj (by omega)) hQ
  rw [h.size_eq hk hi, Nat.mul_div_cancel' hdvd]

end Locked

end Xv6.Fs
