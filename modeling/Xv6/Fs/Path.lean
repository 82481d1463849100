import Xv6.Fs.Dir
import Mathlib.Data.List.TakeWhile

/-!
# Fs — path resolution

A path is a list of components (`components`), and to resolve it is to
look each of them up in the directory that those before it lead to
(`resolve`). This says nothing of references, locks and strings;
`namex` does the same with all three, and `namexLoop_spec` says so.
-/

namespace Xv6.Fs

open Lib

/-! ## Components -/

/-- The maximal substrings without a slash, cut off at `DIRSIZ` bytes. -/
def components (path : List UInt8) : List (List UInt8) :=
  ((path.splitOnP (· = slash)).filter (· ≠ [])).map (List.take DIRSIZ)

theorem components_nil : components [] = [] := by
  rw [components, List.splitOnP_nil]
  rfl

theorem components_slash (path : List UInt8) : components (slash :: path) = components path := by
  rw [components, components, List.splitOnP_cons_eq_if_modifyHead, if_pos (by decide),
    List.filter_cons_of_neg (by decide)]

theorem components_dropWhile (path : List UInt8) :
    components (path.dropWhile (· = slash)) = components path := by
  induction path with
  | nil => rfl
  | cons c path ih =>
      by_cases hc : c = slash
      · subst hc
        rw [List.dropWhile_cons_of_pos (by decide), ih, components_slash]
      · rw [List.dropWhile_cons_of_neg (by simpa using hc)]

/-- The first component is what stands before the first slash. -/
theorem components_word {word rest : List UInt8} (hne : word ≠ []) (hword : slash ∉ word)
    (hrest : rest = [] ∨ ∃ path, rest = slash :: path) :
    components (word ++ rest) = word.take DIRSIZ :: components rest := by
  have hall : ∀ c ∈ word, decide (c = slash) = false := by
    intro c hc
    rw [decide_eq_false_iff_not]
    rintro rfl
    exact hword hc
  have hkeep : decide (word ≠ []) = true := decide_eq_true hne
  rcases hrest with rfl | ⟨path, rfl⟩
  · rw [List.append_nil, components_nil, components, List.splitOnP_eq_singleton hall,
      List.filter_cons, if_pos hkeep]
    rfl
  · rw [components_slash, components, List.splitOnP_append_cons_of_forall_mem hall slash
      (by decide), List.filter_cons, if_pos hkeep, List.map_cons]
    rfl

theorem dropWhile_head {p : UInt8 → Bool} (l : List UInt8) :
    l.dropWhile p = [] ∨ ∃ c rest, l.dropWhile p = c :: rest ∧ p c = false := by
  induction l with
  | nil => exact Or.inl rfl
  | cons c l ih =>
      by_cases hc : p c = true
      · rw [List.dropWhile_cons_of_pos hc]
        exact ih
      · rw [List.dropWhile_cons_of_neg hc]
        exact Or.inr ⟨c, l, rfl, Bool.eq_false_iff.mpr hc⟩

/-- A path that does not start with a slash starts with a component. -/
theorem components_cons {path : List UInt8} (hne : path ≠ []) (hhead : path.head? ≠ some slash) :
    components path = (path.takeWhile (· ≠ slash)).take DIRSIZ ::
      components (path.dropWhile (· ≠ slash)) := by
  have hword : path.takeWhile (· ≠ slash) ≠ [] := by
    cases path with
    | nil => exact absurd rfl hne
    | cons c path =>
        have hc : c ≠ slash := fun h => hhead (congrArg some h)
        rw [List.takeWhile_cons_of_pos (by simpa using hc)]
        exact List.cons_ne_nil _ _
  have hslash : slash ∉ path.takeWhile (· ≠ slash) := fun h => by
    simpa using List.mem_takeWhile_imp h
  conv_lhs => rw [← List.takeWhile_append_dropWhile (p := (· ≠ slash)) (l := path)]
  refine components_word hword hslash ?_
  rcases dropWhile_head (p := (· ≠ slash)) path with h | ⟨c, rest, h, hc⟩
  · exact Or.inl h
  · have hcs : c = slash := by simpa using hc
    exact Or.inr ⟨rest, hcs ▸ h⟩

theorem head?_dropWhile_slash (path : List UInt8) :
    (path.dropWhile (· = slash)).head? ≠ some slash := by
  rcases dropWhile_head (p := (· = slash)) path with h | ⟨c, rest, h, hc⟩
  · rw [h]
    decide
  · rw [h]
    rintro ⟨⟩
    exact absurd hc (by decide)

/-- A path without leading slashes is empty if it has no components. -/
theorem components_eq_nil_iff {path : List UInt8} (hhead : path.head? ≠ some slash) :
    components path = [] ↔ path = [] := by
  constructor
  · intro h
    by_contra hne
    rw [components_cons hne hhead] at h
    exact List.cons_ne_nil _ _ h
  · rintro rfl
    exact components_nil

theorem components_of_skipelem_none {path : List UInt8} (h : skipelem path = none) :
    components path = [] := by
  rw [← components_dropWhile]
  by_contra hne
  have hp : path.dropWhile (· = slash) ≠ [] := fun h0 => hne (h0 ▸ components_nil)
  simp only [skipelem, if_neg hp] at h
  cases h

/-- **`skipelem`** takes the first component off, and the slashes after
it. -/
theorem components_of_skipelem {path name rest : List UInt8}
    (h : skipelem path = some (name, rest)) :
    components path = name :: components rest ∧ rest.head? ≠ some slash ∧
      rest.length < path.length := by
  set p := path.dropWhile (· = slash) with hp
  have hne : p ≠ [] := by
    intro h0
    simp only [skipelem, ← hp, if_pos h0] at h
    cases h
  simp only [skipelem, ← hp, if_neg hne] at h
  cases h
  have hcomp := components_cons hne (head?_dropWhile_slash path)
  refine ⟨?_, head?_dropWhile_slash _, ?_⟩
  · rw [components_dropWhile, ← hcomp, hp, components_dropWhile]
  · have h1 : ((p.dropWhile (· ≠ slash)).dropWhile (· = slash)).length ≤
        (p.dropWhile (· ≠ slash)).length := (List.dropWhile_suffix _).length_le
    have h2 : p.length ≤ path.length := (List.dropWhile_suffix _).length_le
    have h3 : (p.dropWhile (· ≠ slash)).length < p.length := by
      obtain ⟨c, l, hcl⟩ := List.exists_cons_of_ne_nil hne
      have hc : c ≠ slash := fun h0 => head?_dropWhile_slash path (by rw [← hp, hcl, h0]; rfl)
      rw [hcl, List.dropWhile_cons_of_pos (by simpa using hc)]
      exact Nat.lt_succ_of_le ((List.dropWhile_suffix _).length_le)
    omega

/-! ## Resolution -/

/-- The inode a name stands for in directory `i`. -/
def St.lookup (s : St) (i : Nat) (name : List UInt8) : Option Nat :=
  (findEntry (s.obj i).data name).map fun e => direntInum (entryAt (s.obj i).data e)

/-- Look a name up in `i`, if that is a directory. -/
def St.enter (s : St) (i : Nat) (name : List UInt8) : Option Nat :=
  if (s.obj i).type = T_DIR then s.lookup i name else none

/-- The inode the components lead to, from inode `i`. -/
def St.resolve (s : St) (i : Nat) (names : List (List UInt8)) : Option Nat :=
  names.foldlM s.enter i

/-- The directory that all components but the last lead to, and the last. -/
def St.resolveParent (s : St) (i : Nat) (names : List (List UInt8)) :
    Option (Nat × List UInt8) := do
  let name ← names.getLast?
  let j ← s.resolve i names.dropLast
  if (s.obj j).type = T_DIR then some (j, name) else none

/-- What `namex` is to find. -/
def St.target (s : St) (parent : Bool) (i : Nat) (names : List (List UInt8)) :
    Option (Nat × List UInt8) :=
  if parent then s.resolveParent i names else (s.resolve i names).map fun j => (j, [])

section Target

variable {s : St} {i : Nat} {parent : Bool} {name : List UInt8} {names : List (List UInt8)}

theorem resolve_cons : s.resolve i (name :: names) = (s.enter i name).bind (s.resolve · names) := by
  rw [St.resolve, List.foldlM_cons]
  rfl

theorem resolveParent_cons (hne : names ≠ []) :
    s.resolveParent i (name :: names) = (s.enter i name).bind (s.resolveParent · names) := by
  obtain ⟨c, cs, rfl⟩ := List.exists_cons_of_ne_nil hne
  simp only [St.resolveParent, List.getLast?_cons_cons, List.dropLast_cons_cons, resolve_cons,
    Option.bind_eq_bind]
  cases s.enter i name with
  | none => cases (c :: cs).getLast? <;> rfl
  | some j => rfl

/-- A component that is not the last is looked up. -/
theorem target_cons (hlast : ¬(parent = true ∧ names = [])) :
    s.target parent i (name :: names) =
      (s.enter i name).bind fun j => s.target parent j names := by
  cases parent with
  | true =>
      have hne : names ≠ [] := fun h => hlast ⟨rfl, h⟩
      simp only [St.target, if_true, resolveParent_cons hne]
  | false =>
      simp only [St.target, if_false, Bool.false_eq_true, resolve_cons, Option.map_bind]
      rfl

theorem target_nil : s.target parent i [] = if parent then none else some (i, []) := rfl

theorem target_last : s.target true i [name] =
    if (s.obj i).type = T_DIR then some (i, name) else none := rfl

end Target

/-! ## Navigable file systems -/

/-- Inode `i` is allocated, and has a link or is in use. -/
def Linked (s : St) (i : Nat) : Prop :=
  (s.obj i).type ≠ 0 ∧ (0 < s.refOf i ∨ (s.obj i).nlink ≠ 0)

/-- **A file system to find one's way in**: a directory is made of whole entries,
and what an entry names, the root directory and every inode in use are
allocated; what an entry names has a link or is in use. -/
structure Navigable (s : St) : Prop where
  dirs : ∀ i, (s.obj i).type = T_DIR → DIRENT ∣ (s.obj i).data.length
  names : ∀ i name j, (s.obj i).type = T_DIR → s.lookup i name = some j → Linked s j
  root : Linked s ROOTINO
  used : ∀ i, 0 < s.refOf i → (s.obj i).type ≠ 0

/-- What a resolution came to: a reference to the inode found, or none. -/
inductive Lands (s₀ : St) (t : St) : Option (Nat × List UInt8) →
    Option (Fin NINODE × List UInt8) → Prop
  | lost (h : Holding s₀ ∅ 0 t) : Lands s₀ t none none
  | found {k : Fin NINODE} {i : Nat} (name : List UInt8) (hk : Points t k i)
      (h : Holding s₀ ∅ {i} t) : Lands s₀ t (some (i, name)) (some (k, name))

section Namex

variable {s₀ s : St} {E : Stop → Prop} {k : Fin NINODE} {i : Nat} {parent : Bool}

theorem node_of_obj (h : (s.obj i).type ≠ 0) : s.obj i = Obj.of s.disk (s.node i) := by
  rw [St.obj] at h ⊢
  split at h
  · rename_i hl
    rw [if_pos hl]
  · exact absurd rfl h

/-- A reference to a linked inode can be given up. -/
theorem Linked.keep (h : Linked s₀ i) (hkept : Kept s₀ s) {n : Nat}
    (h0 : s₀.refOf i + n = 0) : (s.node i).nlink ≠ 0 := by
  have hnl := h.2.resolve_left (by omega)
  rw [node_of_obj h.1] at hnl
  rw [hkept.node]
  exact hnl

theorem Linked.type (h : Linked s₀ i) (hkept : Kept s₀ s) : (s.node i).type ≠ 0 := by
  have h0 := h.1
  rw [node_of_obj h.1] at h0
  rw [hkept.node]
  exact h0

/-- The step from a locked directory to the inode a name stands for. -/
theorem dirlookup_step (hw : Navigable s₀) (hE : s₀.freeEntries < 2 → E noInodes)
    (hkept : Kept s₀ s) (h : Holding s₀ {i} {i} s) (hk : Points s k i)
    (hdir : (s₀.obj i).type = T_DIR) (name : List UInt8)
    {Q : Option (Fin NINODE × Nat) → St → Prop}
    (hnone : s₀.lookup i name = none → Q none s)
    (hsome : ∀ j next off t, s₀.lookup i name = some j → Moved s t →
      Holding s₀ {i} (i ::ₘ {j}) t → Points t next j → Q (some (next, off)) t) :
    Ensures (dirlookup k name) s E Q := by
  have hobj : s.obj = s₀.obj := hkept.obj
  have hmem : i ∈ ({i} : Set Nat) := Set.mem_singleton i
  have hdir' : (s.obj i).type = T_DIR := by rw [hobj]; exact hdir
  cases hfind : findEntry (s.obj i).data name with
  | none =>
      refine dirlookup_miss h.inv hk hmem hdir' ?_ hfind (hnone ?_)
      · rw [hobj]
        exact hw.dirs i hdir
      · rw [St.lookup, ← hobj, hfind, Option.map_none]
  | some e =>
      have hl : s₀.lookup i name = some (direntInum (entryAt (s.obj i).data e)) := by
        rw [St.lookup, ← hobj, hfind, Option.map_some]
      have hlt := (St.live_iff.mpr (hw.names i name _ hdir hl).1).1
      rw [← hkept.sb] at hlt
      refine dirlookup_hit h.inv hk hmem hdir' hfind ?_
      refine (iget_spec h hlt fun hfull _ => hE ?_).next ?_
      · have := h.freeEntries_le hfull
        rw [Multiset.card_singleton] at this
        omega
      · rintro next t ⟨hm, ht, hn⟩
        rw [← Multiset.singleton_add, Multiset.add_comm] at ht
        exact hsome _ next _ t hl hm ht hn

/-- **The loop of `namex`** resolves the rest of the path. -/
theorem namexLoop_spec (hw : Navigable s₀) (hE : s₀.freeEntries < 2 → E noInodes) {fuel : Nat}
    {path : List UInt8} (hfuel : path.length < fuel) (hkept : Kept s₀ s)
    (h : Holding s₀ ∅ {i} s) (hk : Points s k i) (hi : Linked s₀ i) :
    Ensures (namexLoop parent fuel k path) s E fun r t =>
      Kept s₀ t ∧ Lands s₀ t (s₀.target parent i (components path)) r := by
  induction fuel generalizing path s k i with
  | zero => omega
  | succ fuel ih =>
      cases hskip : skipelem path with
      | none =>
          simp only [namexLoop, hskip, components_of_skipelem_none hskip, target_nil]
          cases parent with
          | true =>
              simp only [if_true, ensures_bind, ensures_pure]
              refine (iput_spec h hk (fun hx => absurd hx (Set.notMem_empty i))
                (hi.keep hkept)).next ?_
              rintro _ t ⟨hm, ht⟩
              exact ⟨hkept.trans hm.kept, .lost ht⟩
          | false =>
              simp only [Bool.false_eq_true, if_false, ensures_pure]
              exact ⟨hkept, .found [] hk h⟩
      | some p =>
          obtain ⟨name, rest⟩ := p
          obtain ⟨hcomp, hhead, hlen⟩ := components_of_skipelem hskip
          simp only [namexLoop, hskip, hcomp, ensures_bind, ensures_get]
          refine (ilock_spec h hk (Set.notMem_empty i) fun h0 => absurd h0 (hi.type hkept)).next ?_
          rintro _ t ⟨hm, ht, hkt⟩
          have hkt' : Kept s₀ t := hkept.trans hm.kept
          rw [insert_empty_eq] at ht
          have hmem : i ∈ ({i} : Set Nat) := Set.mem_singleton i
          have hdin : (t.icache k).din.type = (s₀.obj i).type := by
            rw [← hkt'.obj, ht.inv.obj_eq hkt hmem]
            rfl
          have hempty : ({i} : Set Nat) \ {i} = ∅ := sdiff_self
          rw [hdin]
          by_cases hdir : (s₀.obj i).type = T_DIR
          · rw [if_neg (not_not.mpr hdir)]
            by_cases hlast : parent = true ∧ rest = []
            · -- stop one level early
              obtain ⟨rfl, rfl⟩ := hlast
              rw [if_pos ⟨rfl, rfl⟩, components_nil, target_last, if_pos hdir]
              simp only [ensures_bind, ensures_pure]
              refine (iunlock_spec ht hkt hmem).next ?_
              rintro _ u ⟨hm', hu, hku⟩
              rw [hempty] at hu
              exact ⟨hkt'.trans hm'.kept, .found name hku hu⟩
            · have hlast' : ¬(parent = true ∧ components rest = []) := by
                rwa [components_eq_nil_iff hhead]
              rw [if_neg hlast, target_cons hlast', St.enter, if_pos hdir]
              simp only [ensures_bind]
              refine dirlookup_step hw hE hkt' ht hkt hdir name (fun hnone => ?_)
                fun j next off u hsome hm' hu hnext => ?_
              · rw [hnone]
                simp only [ensures_bind, ensures_pure]
                refine (iunlockput_spec ht hkt hmem (hi.keep hkt')).next ?_
                rintro _ u ⟨hm', hu⟩
                rw [hempty] at hu
                exact ⟨hkt'.trans hm'.kept, .lost hu⟩
              · rw [hsome]
                simp only [ensures_bind]
                have hku : Points u k i := hu.stays hm' hkt (Multiset.mem_cons_self i _)
                have hku' : Kept s₀ u := hkt'.trans hm'.kept
                refine (iunlockput_spec hu hku hmem (hi.keep hku')).next ?_
                rintro _ v ⟨hm'', hv⟩
                rw [hempty] at hv
                exact ih (by omega) (hku'.trans hm''.kept) hv
                  (hv.stays hm'' hnext (Multiset.mem_singleton_self j)) (hw.names i name j hdir hsome)
          · rw [if_pos hdir]
            simp only [ensures_bind, ensures_pure]
            have htarget : s₀.target parent i (name :: components rest) = none := by
              by_cases hlast : parent = true ∧ components rest = []
              · rw [hlast.1, hlast.2, target_last, if_neg hdir]
              · rw [target_cons hlast, St.enter, if_neg hdir, Option.bind_none]
            rw [htarget]
            refine (iunlockput_spec ht hkt hmem (hi.keep hkt')).next ?_
            rintro _ u ⟨hm', hu⟩
            rw [hempty] at hu
            exact ⟨hkt'.trans hm'.kept, .lost hu⟩

end Namex

end Xv6.Fs
