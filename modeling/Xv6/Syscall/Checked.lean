import Xv6.Syscall.Model

/-!
# Syscall — which user bytes a call touches

`argptr` and `argstr` accept a pointer only if what is behind it lies
below `proc->sz`, and every call keeps to what was accepted, with one
exception: `sys_read` with a negative count. The 32-bit sum of `argptr`
wraps around for it, and `readi`, which takes the count as unsigned,
copies the rest of the file.
-/

namespace Xv6.Syscall

open Lib

/-! ## Numbers -/

theorem toInt_of_lt {n : Word} (h : n.toNat < 2 ^ 31) : n.toInt = n.toNat := by
  rw [BitVec.toInt_eq_toNat_cond, if_pos (by omega)]

theorem toInt_of_ge {n : Word} (h : 2 ^ 31 ≤ n.toNat) : n.toInt = n.toNat - 2 ^ 32 := by
  rw [BitVec.toInt_eq_toNat_cond, if_neg (by omega)]
  rfl

theorem toNat_lt (n : Word) : n.toNat < 2 ^ 32 := n.isLt

theorem addr_lt {a b c : Addr} (h1 : a ≤ b) (h2 : b < c) : a < c :=
  BitVec.lt_def.mpr (Nat.lt_of_le_of_lt (BitVec.le_def.mp h1) (BitVec.lt_def.mp h2))

/-- One byte further, below the end of the address space. -/
theorem toNat_succ {a b : Addr} (h : a < b) : (a + 1).toNat = a.toNat + 1 := by
  have h1 := toNat_lt b
  rw [BitVec.lt_def] at h
  rw [BitVec.toNat_add]
  exact Nat.mod_eq_of_lt (by change a.toNat + 1 < 2 ^ 32; omega)

/-! ## Programs that keep below `sz` -/

section Rules

variable {α β : Type} {sz : Addr} {b : Addr → UInt8}

/-- Everything touched so far is below `sz`. -/
def Within (sz : Addr) (s : Mem) : Prop := ∀ a ∈ s.log, a < sz

theorem Within.cons {log : List Addr} {a : Addr} (ha : a < sz) (h : ∀ a ∈ log, a < sz) :
    ∀ x ∈ a :: log, x < sz := by
  intro x hx
  rcases List.mem_cons.mp hx with rfl | hx
  · exact ha
  · exact h x hx

@[simp] theorem ensures_store {a : Addr} {v : UInt8} {s : Mem} {E Q} :
    Ensures (store a v) s E Q ↔ Q () ⟨upd s.byte a v, a :: s.log⟩ := Iff.rfl

/-- `m` returns with `Q`, leaves memory alone and keeps below `sz`. -/
def Reads (sz : Addr) (m : User α) (b : Addr → UInt8) (Q : α → Prop) : Prop :=
  ∀ log, (∀ a ∈ log, a < sz) →
    Ensures m ⟨b, log⟩ (fun _ => False) fun x t => t.byte = b ∧ Within sz t ∧ Q x

/-- `m` keeps below `sz`, whether it returns or not. -/
def Keeps (sz : Addr) (m : User α) (b : Addr → UInt8) : Prop :=
  ∀ log, (∀ a ∈ log, a < sz) →
    Ensures m ⟨b, log⟩ (fun e => Within sz e.2) fun _ t => Within sz t

namespace Reads

theorem pure {x : α} {Q : α → Prop} (h : Q x) : Reads sz (Pure.pure x) b Q :=
  fun _ hl => ⟨rfl, hl, h⟩

theorem load {a : Addr} (h : a < sz) : Reads sz (load a) b (· = b a) :=
  fun _ hl => ⟨rfl, Within.cons h hl, rfl⟩

theorem bind {m : User β} {f : β → User α} {Q : β → Prop} {Q' : α → Prop} (h : Reads sz m b Q)
    (hf : ∀ x, Q x → Reads sz (f x) b Q') : Reads sz (m >>= f) b Q' := by
  intro log hl
  rw [ensures_bind]
  refine (h log hl).next fun x t ht => ?_
  obtain ⟨rfl, hw, hq⟩ := ht
  exact hf x hq t.log hw

theorem imp {m : User α} {Q Q' : α → Prop} (h : Reads sz m b Q) (hq : ∀ x, Q x → Q' x) :
    Reads sz m b Q' :=
  fun log hl => (h log hl).next fun _ _ ht => ⟨ht.1, ht.2.1, hq _ ht.2.2⟩

theorem keeps_bind {m : User β} {f : β → User α} {Q : β → Prop} (h : Reads sz m b Q)
    (hf : ∀ x, Q x → Keeps sz (f x) b) : Keeps sz (m >>= f) b := by
  intro log hl
  rw [ensures_bind]
  refine (h log hl).imp (fun _ he => he.elim) fun x t ht => ?_
  obtain ⟨rfl, hw, hq⟩ := ht
  exact hf x hq t.log hw

end Reads

namespace Keeps

theorem pure (x : α) : Keeps sz (Pure.pure x) b := fun _ hl => hl

theorem panic (msg : String) : Keeps sz (panic msg : User α) b := fun _ hl => hl

theorem bind {m : User β} {f : β → User α} (h : Keeps sz m b)
    (hf : ∀ x b, Keeps sz (f x) b) : Keeps sz (m >>= f) b := by
  intro log hl
  rw [ensures_bind]
  exact (h log hl).next fun x t hw => hf x t.byte t.log hw

theorem touched {m : User α} (h : Keeps sz m b) : ∀ a ∈ touched m ⟨b, []⟩, a < sz := by
  have := h [] (by simp)
  unfold Ensures at this
  unfold Syscall.touched
  split at this <;> rename_i heq <;> rw [heq] <;> exact this

end Keeps

/-! ## Moving bytes -/

theorem moveIn_reads {n : Nat} {s : Addr} (h : s.toNat + n ≤ sz.toNat) :
    Reads sz (moveIn n s) b fun _ => True := by
  induction n generalizing s with
  | zero => exact Reads.pure trivial
  | succ n ih =>
      have hs : s < sz := by rw [BitVec.lt_def]; omega
      refine (Reads.load hs).bind fun c _ => ?_
      refine (ih ?_).bind fun cs _ => Reads.pure trivial
      rw [toNat_succ hs]
      omega

theorem moveOut_keeps {cs : List UInt8} {d : Addr} (h : d.toNat + cs.length ≤ sz.toNat) :
    Keeps sz (moveOut cs d) b := by
  induction cs generalizing d b with
  | nil => exact Keeps.pure _
  | cons c cs ih =>
      rw [List.length_cons] at h
      have hd : d < sz := by rw [BitVec.lt_def]; omega
      intro log hl
      rw [moveOut, ensures_bind, ensures_store]
      exact ih (by rw [toNat_succ hd]; omega) _ (Within.cons hd hl)

/-- The four bytes of an `int` in memory. -/
def wordAt (b : Addr → UInt8) (a : Addr) : Word := wordOf (b a) (b (a + 1)) (b (a + 2)) (b (a + 3))

theorem loadInt_reads {a : Addr} (h : a.toNat + 4 ≤ sz.toNat) :
    Reads sz (loadInt a) b (· = wordAt b a) := by
  have hsz := toNat_lt sz
  have hlt : ∀ j : Nat, j < 4 → a + BitVec.ofNat 32 j < sz := fun j hj => by
    rw [BitVec.lt_def, BitVec.toNat_add, BitVec.toNat_ofNat]
    omega
  refine (Reads.load (by have := hlt 0; simpa using this)).bind fun c0 h0 => ?_
  refine (Reads.load (hlt 1 (by omega))).bind fun c1 h1 => ?_
  refine (Reads.load (hlt 2 (by omega))).bind fun c2 h2 => ?_
  refine (Reads.load (hlt 3 (by omega))).bind fun c3 h3 => ?_
  refine Reads.pure ?_
  rw [h0, h1, h2, h3]
  rfl

theorem scan_reads_of_le {stop : UInt8 → Bool} {n : Nat} {s : Addr} (h : s.toNat + n ≤ sz.toNat) :
    Reads sz (scan stop n s) b fun r => ∀ e, r = some e → s ≤ e ∧ e < sz ∧ stop (b e) = true := by
  induction n generalizing s with
  | zero => exact Reads.pure fun e he => (by cases he)
  | succ n ih =>
      have hs : s < sz := by rw [BitVec.lt_def]; omega
      refine (Reads.load hs).bind fun c hc => ?_
      split
      · rename_i hstop
        refine Reads.pure fun e he => ?_
        obtain rfl := Option.some.inj he
        exact ⟨BitVec.le_refl _, hs, hc ▸ hstop⟩
      · refine (ih (by rw [toNat_succ hs]; omega)).imp fun r hr e he => ?_
        obtain ⟨h1, h2⟩ := hr e he
        rw [BitVec.le_def, toNat_succ hs] at h1
        exact ⟨by rw [BitVec.le_def]; omega, h2⟩

/-- A loop that stops at `e` at the latest. -/
theorem scan_reads {stop : UInt8 → Bool} {n : Nat} {s e : Addr} (he : stop (b e) = true)
    (hle : s ≤ e) (hlt : e < sz) (hn : e.toNat - s.toNat < n) :
    Reads sz (scan stop n s) b fun r =>
      ∃ s', r = some s' ∧ s ≤ s' ∧ s' ≤ e ∧ stop (b s') = true := by
  induction n generalizing s with
  | zero => omega
  | succ n ih =>
      rw [BitVec.le_def] at hle
      rw [BitVec.lt_def] at hlt
      have hs : s < sz := by rw [BitVec.lt_def]; omega
      refine (Reads.load hs).bind fun c hc => ?_
      split
      · rename_i hstop
        exact Reads.pure ⟨s, rfl, BitVec.le_refl _, hle, hc ▸ hstop⟩
      · rename_i hstop
        have hne : s ≠ e := by
          rintro rfl
          exact hstop (hc ▸ he)
        have hne' : s.toNat ≠ e.toNat := fun h => hne (BitVec.eq_of_toNat_eq h)
        have hsucc := toNat_succ hs
        refine (ih (by rw [BitVec.le_def]; omega) (by omega)).imp fun r hr => ?_
        obtain ⟨s', h1, h2, h3⟩ := hr
        rw [BitVec.le_def, hsucc] at h2
        exact ⟨s', h1, by rw [BitVec.le_def]; omega, h3⟩

theorem scanAll_reads {stop : UInt8 → Bool} {s e : Addr} (he : stop (b e) = true)
    (hle : s ≤ e) (hlt : e < sz) :
    Reads sz (scanAll stop s) b fun s' => s ≤ s' ∧ s' ≤ e ∧ stop (b s') = true := by
  refine (scan_reads he hle hlt (by have := toNat_lt e; omega)).bind fun r hr => ?_
  obtain ⟨s', rfl, h⟩ := hr
  exact Reads.pure h

end Rules

/-! ## The arguments -/

/-- There is a string at `q`: its end comes before `sz`. -/
def Str (sz : Addr) (b : Addr → UInt8) (q : Addr) : Prop := ∃ e, q ≤ e ∧ e < sz ∧ b e = 0

namespace Proc

variable (p : Proc) (b : Addr → UInt8)

/-- The word `fetchint` returns. -/
def intAt (a : Addr) : Option Word :=
  if p.sz ≤ a ∨ p.sz < a + 4 then none else some (wordAt b a)

/-- The `n`-th argument. -/
def arg (n : Word) : Option Word := p.intAt b (p.esp + 4 + 4 * n)

/-- The `n`-th argument as a pointer to `size` bytes. -/
def ptr (n size : Word) : Option Addr :=
  (p.arg b n).bind fun i => if p.sz ≤ i ∨ p.sz < i + size then none else some i

variable {p b}

theorem sz_lt (hsz : p.sz < KERNBASE) : p.sz.toNat < 2 ^ 31 := by
  rw [BitVec.lt_def] at hsz
  exact hsz

theorem fetchint_reads (hsz : p.sz < KERNBASE) (a : Addr) :
    Reads p.sz (p.fetchint a) b (· = p.intAt b a) := by
  have hlt := sz_lt hsz
  rw [fetchint, intAt]
  split
  · exact Reads.pure rfl
  · rename_i h
    obtain ⟨h1, h2⟩ := not_or.mp h
    rw [BitVec.not_le, BitVec.lt_def] at h1
    rw [BitVec.not_lt, BitVec.le_def, BitVec.toNat_add] at h2
    change (a.toNat + 4) % 2 ^ 32 ≤ _ at h2
    refine (loadInt_reads (by omega)).bind fun x hx => Reads.pure ?_
    rw [hx]

theorem argint_reads (hsz : p.sz < KERNBASE) (n : Word) :
    Reads p.sz (p.argint n) b (· = p.arg b n) :=
  fetchint_reads hsz _

theorem argptr_reads (hsz : p.sz < KERNBASE) (n size : Word) :
    Reads p.sz (p.argptr n size) b (· = p.ptr b n size) := by
  refine (argint_reads hsz n).bind fun x hx => ?_
  rw [ptr, ← hx]
  cases x with
  | none => exact Reads.pure rfl
  | some i =>
      dsimp only [Option.bind_some]
      split <;> exact Reads.pure rfl

theorem fetchstr_reads (a : Addr) :
    Reads p.sz (p.fetchstr a) b fun r => ∀ n, r = some n → Str p.sz b a := by
  rw [fetchstr]
  split
  · exact Reads.pure fun n hn => (by cases hn)
  · rename_i h
    rw [BitVec.not_le, BitVec.lt_def] at h
    have hle : a.toNat + (p.sz - a).toNat ≤ p.sz.toNat := by
      rw [BitVec.toNat_sub_of_le (by rw [BitVec.le_def]; omega)]
      omega
    refine (scan_reads_of_le hle).bind fun r hr => ?_
    cases r with
    | none => exact Reads.pure fun n hn => (by cases hn)
    | some e =>
        obtain ⟨h1, h2, h3⟩ := hr e rfl
        exact Reads.pure fun _ _ => ⟨e, h1, h2, by simpa using h3⟩

theorem argstr_reads (hsz : p.sz < KERNBASE) (n : Word) :
    Reads p.sz (p.argstr n) b fun r => ∀ q, r = some q → Str p.sz b q := by
  refine (argint_reads hsz n).bind fun x _ => ?_
  cases x with
  | none => exact Reads.pure fun q hq => (by cases hq)
  | some a =>
      refine (fetchstr_reads a).bind fun r hr => ?_
      cases r with
      | none => exact Reads.pure fun q hq => (by cases hq)
      | some len =>
          refine Reads.pure fun q hq => ?_
          obtain rfl := Option.some.inj hq
          exact hr len rfl

end Proc

section Calls

variable {k : Kernel} {p : Proc} {b : Addr → UInt8}

/-- The file `argfd` returns. -/
def fileAt (k : Kernel) (p : Proc) (b : Addr → UInt8) (n : Word) : Option File :=
  (p.arg b n).bind fun fd =>
    if fd.toInt < 0 ∨ (NOFILE : Int) ≤ fd.toInt then none else k.ofile fd.toNat

theorem argfd_reads (hsz : p.sz < KERNBASE) (n : Word) :
    Reads p.sz (argfd k p n) b (· = fileAt k p b n) := by
  refine (Proc.argint_reads hsz n).bind fun x hx => ?_
  rw [fileAt, ← hx]
  cases x with
  | none => exact Reads.pure rfl
  | some fd =>
      dsimp only [Option.bind_some]
      split <;> exact Reads.pure rfl

/-- **What `argptr` accepts**: a block of `size` bytes below `sz`, unless
`size` is negative. -/
theorem toNat_le_of_ptr {n size addr : Word} (hsz : p.sz < KERNBASE)
    (h : p.ptr b n size = some addr) : addr.toNat + size.toInt.toNat ≤ p.sz.toNat := by
  have hlt := Proc.sz_lt hsz
  rw [Proc.ptr, Option.bind_eq_some_iff] at h
  obtain ⟨i, -, hi⟩ := h
  split at hi
  · cases hi
  · rename_i hn
    obtain rfl := Option.some.inj hi
    obtain ⟨h1, h2⟩ := not_or.mp hn
    rw [BitVec.not_le, BitVec.lt_def] at h1
    rw [BitVec.not_lt, BitVec.le_def, BitVec.toNat_add] at h2
    rcases Nat.lt_or_ge size.toNat (2 ^ 31) with hs | hs
    · rw [toInt_of_lt hs, Int.toNat_natCast]
      omega
    · have := toNat_lt size
      rw [toInt_of_ge hs]
      omega

/-! ## Reading and writing files -/

theorem consoleLoop_keeps {sz : Addr} {target : Int} {cs : List UInt8} {n : Nat} {d : Addr}
    (h : d.toNat + n ≤ sz.toNat) : Keeps sz (consoleLoop target cs n d) b := by
  induction n generalizing cs d b with
  | zero =>
      rw [consoleLoop]
      exact Keeps.pure _
  | succ n ih =>
      have hd : d < sz := by rw [BitVec.lt_def]; omega
      cases cs with
      | nil =>
          rw [consoleLoop]
          exact Keeps.pure _
      | cons c cs =>
          rw [consoleLoop]
          split
          · exact Keeps.pure _
          · intro log hl
            rw [ensures_bind, ensures_store]
            split
            · exact Keeps.pure _ _ (Within.cons hd hl)
            · exact ih (by rw [toNat_succ hd]; omega) _ (Within.cons hd hl)

theorem consoleread_keeps {sz : Addr} {d : Addr} {n : Word}
    (h : d.toNat + n.toInt.toNat ≤ sz.toNat) : Keeps sz (consoleread k d n) b := by
  rw [consoleread]
  split
  · exact Keeps.pure _
  · exact consoleLoop_keeps h

theorem pipereadLoop_keeps {sz : Addr} {cs : List UInt8} {i n : Nat} {d : Addr}
    (h : d.toNat + n ≤ sz.toNat) : Keeps sz (pipereadLoop cs i n d) b := by
  induction n generalizing cs i d b with
  | zero =>
      rw [pipereadLoop]
      exact Keeps.pure _
  | succ n ih =>
      have hd : d < sz := by rw [BitVec.lt_def]; omega
      cases cs with
      | nil =>
          rw [pipereadLoop]
          exact Keeps.pure _
      | cons c cs =>
          rw [pipereadLoop]
          intro log hl
          rw [ensures_bind, ensures_store]
          exact ih (by rw [toNat_succ hd]; omega) _ (Within.cons hd hl)

theorem piperead_keeps {sz : Addr} {d : Addr} {n : Word}
    (h : d.toNat + n.toInt.toNat ≤ sz.toNat) : Keeps sz (piperead k d n) b := by
  rw [piperead]
  split
  · exact Keeps.pure _
  · exact pipereadLoop_keeps h

/-- A round of the loops of `readi` and `writei` moves at least a byte,
and at most what is left. -/
theorem umin_bounds {n tot : Word} (h : tot < n) (off : Word) :
    0 < (umin (n - tot) (BitVec.ofNat 32 BSIZE - off % BitVec.ofNat 32 BSIZE)).toNat ∧
    (umin (n - tot) (BitVec.ofNat 32 BSIZE - off % BitVec.ofNat 32 BSIZE)).toNat ≤
      n.toNat - tot.toNat := by
  have hB : (BitVec.ofNat 32 BSIZE).toNat = 512 := rfl
  have hmod : (off % BitVec.ofNat 32 BSIZE).toNat < 512 := by
    rw [BitVec.toNat_umod, hB]
    exact Nat.mod_lt _ (by omega)
  have hsub : (BitVec.ofNat 32 BSIZE - off % BitVec.ofNat 32 BSIZE).toNat =
      512 - (off % BitVec.ofNat 32 BSIZE).toNat := by
    rw [BitVec.toNat_sub_of_le (by rw [BitVec.le_def, hB]; omega), hB]
  rw [BitVec.lt_def] at h
  have hrest : (n - tot).toNat = n.toNat - tot.toNat :=
    BitVec.toNat_sub_of_le (by rw [BitVec.le_def]; omega)
  rw [umin]
  split
  · rename_i hlt
    rw [BitVec.lt_def] at hlt
    omega
  · rename_i hlt
    rw [BitVec.not_lt, BitVec.le_def] at hlt
    omega

theorem readiLoop_keeps {sz n : Word} {fuel : Nat} {tot off d : Word} (hn : tot ≤ n)
    (h : d.toNat + (n.toNat - tot.toNat) ≤ sz.toNat) :
    Keeps sz (readiLoop k n fuel tot off d) b := by
  induction fuel generalizing tot off d b with
  | zero => exact Keeps.pure _
  | succ fuel ih =>
      rw [readiLoop]
      split
      · rename_i hlt
        obtain ⟨hpos, hle⟩ := umin_bounds hlt off
        have h1 := toNat_lt n
        have h2 := toNat_lt sz
        rw [BitVec.lt_def] at hlt
        dsimp only
        generalize umin _ _ = m at hpos hle ⊢
        refine Keeps.bind (moveOut_keeps ?_) fun _ b => ih ?_ ?_
        · rw [List.length_map, List.length_range]
          omega
        · rw [BitVec.le_def, BitVec.toNat_add]
          omega
        · rw [BitVec.toNat_add, BitVec.toNat_add]
          omega
      · exact Keeps.pure _

/-- How much `readi` reads of a file. -/
theorem toNat_rest {size off n : Word} (h1 : off ≤ size) (h2 : off.toNat + n.toNat < 2 ^ 32) :
    (if size < off + n then size - off else n).toNat = min n.toNat (size.toNat - off.toNat) := by
  have hsum : (off + n).toNat = off.toNat + n.toNat := by
    rw [BitVec.toNat_add, Nat.mod_eq_of_lt h2]
  have hsub := BitVec.toNat_sub_of_le h1
  rw [BitVec.le_def] at h1
  split
  · rename_i h
    rw [BitVec.lt_def, hsum] at h
    omega
  · rename_i h
    rw [BitVec.not_lt, BitVec.le_def, hsum] at h
    omega

/-- The test `off + n < off`. -/
theorem add_lt_iff {off n : Word} : off + n < off ↔ 2 ^ 32 ≤ off.toNat + n.toNat := by
  have h1 := toNat_lt off
  have h2 := toNat_lt n
  rw [BitVec.lt_def, BitVec.toNat_add]
  omega

/-- **`readi` keeps below `sz`** if what it copies of a file does. -/
theorem readi_keeps {sz : Addr} {ip : Inode} {d : Addr} {off n : Word}
    (h : d.toNat + n.toInt.toNat ≤ sz.toNat)
    (hfile : ip.type ≠ .T_DEV → off ≤ ip.size → off.toNat + n.toNat < 2 ^ 32 →
      d.toNat + min n.toNat (ip.size.toNat - off.toNat) ≤ sz.toNat) :
    Keeps sz (readi k ip d off n) b := by
  rw [readi]
  split
  · split
    · exact Keeps.pure _
    · exact consoleread_keeps h
  · rename_i htype
    split
    · exact Keeps.pure _
    · rename_i hoff
      obtain ⟨h1, h2⟩ := not_or.mp hoff
      rw [BitVec.not_lt] at h1
      rw [add_lt_iff, Nat.not_le] at h2
      have hrest := hfile htype h1 h2
      rw [← toNat_rest h1 h2] at hrest
      refine Keeps.bind (readiLoop_keeps ?_ hrest) fun _ _ => Keeps.pure _
      rw [BitVec.le_def]
      exact Nat.zero_le _

theorem fileread_keeps {sz : Addr} {f : File} {d : Addr} {n : Word}
    (h : d.toNat + n.toInt.toNat ≤ sz.toNat)
    (hfile : f.readable = true → f.type = .FD_INODE → (k.ip 0).type ≠ .T_DEV →
      k.off 0 ≤ (k.ip 0).size → (k.off 0).toNat + n.toNat < 2 ^ 32 →
      d.toNat + min n.toNat ((k.ip 0).size.toNat - (k.off 0).toNat) ≤ sz.toNat) :
    Keeps sz (fileread k f d n) b := by
  rw [fileread]
  split
  · exact Keeps.pure _
  · rename_i hr
    split
    · exact piperead_keeps h
    · rename_i htype
      exact readi_keeps h (hfile (by simpa using hr) htype)
    · exact Keeps.panic _

/-! ### The bytes the loop of `readi` touches -/

theorem moveOut_log {cs : List UInt8} {d : Addr} {log : List Addr} {E} :
    Ensures (moveOut cs d) ⟨b, log⟩ E fun _ t =>
      (∀ a ∈ log, a ∈ t.log) ∧ ∀ j < cs.length, d + BitVec.ofNat 32 j ∈ t.log := by
  induction cs generalizing d b log with
  | nil => exact ⟨fun a ha => ha, fun j hj => absurd hj (Nat.not_lt_zero j)⟩
  | cons c cs ih =>
      rw [moveOut, ensures_bind, ensures_store]
      refine ih.next fun _ t ht => ⟨fun a ha => ht.1 a (List.mem_cons_of_mem d ha), fun j hj => ?_⟩
      cases j with
      | zero =>
          have := ht.1 d (List.mem_cons_self ..)
          simpa using this
      | succ j =>
          have := ht.2 j (Nat.lt_of_succ_lt_succ hj)
          rwa [BitVec.add_assoc, show (1 : Word) + BitVec.ofNat 32 j = BitVec.ofNat 32 (j + 1) by
            rw [BitVec.add_comm, BitVec.ofNat_add]
            rfl] at this

theorem readiLoop_log {n : Word} {fuel : Nat} {tot off d : Word} {log : List Addr} {E}
    (hn : tot ≤ n) (hfuel : n.toNat - tot.toNat ≤ fuel) :
    Ensures (readiLoop k n fuel tot off d) ⟨b, log⟩ E fun _ t =>
      (∀ a ∈ log, a ∈ t.log) ∧
      ∀ a : Addr, d ≤ a → a.toNat < d.toNat + (n.toNat - tot.toNat) → a ∈ t.log := by
  induction fuel generalizing tot off d b log with
  | zero => exact ⟨fun a ha => ha, fun a h1 h2 => by rw [BitVec.le_def] at h1; omega⟩
  | succ fuel ih =>
      have h1 := toNat_lt n
      rw [readiLoop]
      split
      · rename_i hlt
        have hround := umin_bounds hlt off
        rw [BitVec.lt_def] at hlt
        dsimp only
        generalize umin _ _ = m at hround ⊢
        obtain ⟨hpos, hle⟩ := hround
        rw [ensures_bind]
        refine moveOut_log.next fun _ t ht => ?_
        have htot : (tot + m).toNat = tot.toNat + m.toNat := by
          rw [BitVec.toNat_add]
          omega
        refine (ih ?_ ?_).next fun _ u hu => ⟨fun a ha => hu.1 a (ht.1 a ha), ?_⟩
        · rw [BitVec.le_def]
          omega
        · omega
        · intro a hda ha
          rw [BitVec.le_def] at hda
          have ha' := toNat_lt a
          -- the byte is moved in this round or a later one
          rcases Nat.lt_or_ge a.toNat (d.toNat + m.toNat) with hnow | hlater
          · refine hu.1 a ?_
            have := ht.2 (a.toNat - d.toNat) (by rw [List.length_map, List.length_range]; omega)
            rwa [show d + BitVec.ofNat 32 (a.toNat - d.toNat) = a from
              BitVec.eq_of_toNat_eq (by rw [BitVec.toNat_add, BitVec.toNat_ofNat]; omega)] at this
          · have hd : (d + m).toNat = d.toNat + m.toNat := by
              rw [BitVec.toNat_add]
              omega
            refine hu.2 a (by rw [BitVec.le_def]; omega) ?_
            rw [hd, htot]
            omega
      · rename_i hge
        rw [BitVec.not_lt, BitVec.le_def] at hge
        exact ⟨fun a ha => ha, fun a h1 h2 => by rw [BitVec.le_def] at h1; omega⟩

/-- **`readi` touches** every byte of what it copies of a file. -/
theorem readi_log {ip : Inode} {d : Addr} {off n : Word} {log : List Addr} {E}
    (htype : ip.type ≠ .T_DEV) (h1 : off ≤ ip.size) (h2 : off.toNat + n.toNat < 2 ^ 32)
    {a : Addr} (hda : d ≤ a)
    (ha : a.toNat < d.toNat + min n.toNat (ip.size.toNat - off.toNat)) :
    Ensures (readi k ip d off n) ⟨b, log⟩ E fun _ t => a ∈ t.log := by
  have hoff : ¬(ip.size < off ∨ off + n < off) := by
    rw [add_lt_iff, not_or, BitVec.not_lt]
    exact ⟨h1, by omega⟩
  rw [readi, if_neg htype, if_neg hoff]
  rw [← toNat_rest h1 h2] at ha
  dsimp only
  rw [ensures_bind]
  refine (readiLoop_log ?_ ?_).next fun _ t ht => ht.2 a hda ?_
  · rw [BitVec.le_def]
    exact Nat.zero_le _
  · exact Nat.sub_le _ _
  · exact ha

/-- **The one way past `sz`**: `sys_read` with a negative count that the
check of `argptr` wraps around for, on a file with more bytes to read than
there are up to `sz`. -/
structure Overruns (k : Kernel) (p : Proc) (b : Addr → UInt8) (f : File) (addr n : Word) :
    Prop where
  file : fileAt k p b 0 = some f
  count : p.arg b 2 = some n
  pointer : p.arg b 1 = some addr
  negative : n.toInt < 0
  below : addr < p.sz
  wraps : 0 ≤ addr.toNat + n.toInt
  readable : f.readable = true
  inode : f.type = .FD_INODE
  notDev : (k.ip 0).type ≠ .T_DEV
  off : k.off 0 ≤ (k.ip 0).size
  fits : (k.off 0).toNat + n.toNat < 2 ^ 32
  past : p.sz.toNat < addr.toNat + min n.toNat ((k.ip 0).size.toNat - (k.off 0).toNat)

/-- `argptr` accepts a pointer with a negative size. -/
theorem ptr_of_negative {m n addr : Word} (hp : p.arg b m = some addr) (hn : n.toInt < 0)
    (hlt : addr < p.sz) (hw : 0 ≤ addr.toNat + n.toInt) : p.ptr b m n = some addr := by
  have h1 := toNat_lt n
  have h2 : 2 ^ 31 ≤ n.toNat := by
    by_contra hlt
    rw [toInt_of_lt (by omega)] at hn
    omega
  rw [toInt_of_ge h2] at hw
  rw [Proc.ptr, hp, Option.bind_some, if_neg]
  rw [not_or, BitVec.not_le, BitVec.not_lt, BitVec.le_def, BitVec.toNat_add]
  rw [BitVec.lt_def] at hlt
  refine ⟨hlt, ?_⟩
  omega

theorem arg_of_ptr {m n addr : Word} (h : p.ptr b m n = some addr) : p.arg b m = some addr ∧
    addr < p.sz ∧ (addr + n).toNat ≤ p.sz.toNat := by
  rw [Proc.ptr, Option.bind_eq_some_iff] at h
  obtain ⟨i, hi, h⟩ := h
  split at h
  · cases h
  · rename_i hn
    obtain rfl := Option.some.inj h
    rw [not_or, BitVec.not_le, BitVec.not_lt, BitVec.le_def] at hn
    exact ⟨hi, hn⟩

/-- Three arguments, and then the call proper. -/
theorem sysRead_keeps (hsz : p.sz < KERNBASE) (h : ∀ f addr n, ¬Overruns k p b f addr n) :
    Keeps p.sz (sysRead k p) b := by
  have hlt := Proc.sz_lt hsz
  refine (argfd_reads hsz 0).keeps_bind fun f hf => ?_
  cases f with
  | none => exact Keeps.pure _
  | some f =>
      refine (Proc.argint_reads hsz 2).keeps_bind fun n hn => ?_
      cases n with
      | none => exact Keeps.pure _
      | some n =>
          refine (Proc.argptr_reads hsz 1 n).keeps_bind fun addr haddr => ?_
          cases addr with
          | none => exact Keeps.pure _
          | some addr =>
              obtain ⟨hp, hbelow, hsum⟩ := arg_of_ptr haddr.symm
              refine fileread_keeps (toNat_le_of_ptr hsz haddr.symm)
                fun hread hinode hdev hoff hfits => ?_
              by_contra hpast
              rw [BitVec.toNat_add] at hsum
              have h1 := toNat_lt n
              have h2 := hbelow
              rw [BitVec.lt_def] at h2
              rcases Nat.lt_or_ge n.toNat (2 ^ 31) with hsmall | hlarge
              · omega
              · have hneg := toInt_of_ge hlarge
                exact h f addr n ⟨hf.symm, hn.symm, hp, by omega, hbelow, by omega, hread, hinode,
                  hdev, hoff, hfits, by omega⟩

/-- A run of `f` after the arguments are read touches what it touches. -/
theorem Reads.log_bind {α β : Type} {sz : Addr} {m : User β} {f : β → User α} {v : β} {a : Addr}
    (h : Reads sz m b (· = v)) (hf : ∀ log, (∀ x ∈ log, x < sz) →
      Ensures (f v) ⟨b, log⟩ (fun _ => False) fun _ t => a ∈ t.log) :
    ∀ log, (∀ x ∈ log, x < sz) →
      Ensures (m >>= f) ⟨b, log⟩ (fun _ => False) fun _ t => a ∈ t.log := by
  intro log hl
  rw [ensures_bind]
  refine (h log hl).next fun x t ht => ?_
  obtain ⟨rfl, hw, rfl⟩ := ht
  exact hf t.log hw

theorem sysRead_overruns (hsz : p.sz < KERNBASE) {f : File} {addr n : Word}
    (h : Overruns k p b f addr n) : p.sz ∈ touched (sysRead k p) ⟨b, []⟩ := by
  have hptr := ptr_of_negative h.pointer h.negative h.below h.wraps
  have hrun : ∀ log, (∀ x ∈ log, x < p.sz) →
      Ensures (sysRead k p) ⟨b, log⟩ (fun _ => False) fun _ t => p.sz ∈ t.log := by
    refine Reads.log_bind (h.file ▸ argfd_reads hsz 0) ?_
    refine Reads.log_bind (h.count ▸ Proc.argint_reads hsz 2) ?_
    refine Reads.log_bind (hptr ▸ Proc.argptr_reads hsz 1 n) fun log _ => ?_
    dsimp only
    rw [fileread, if_neg (by simp [h.readable]), h.inode]
    exact readi_log h.notDev h.off h.fits (BitVec.le_of_lt h.below) h.past
  have := hrun [] (by simp)
  unfold Ensures at this
  unfold touched
  split at this
  · rename_i heq
    rw [heq]
    exact this
  · exact this.elim

/-! ## Writing -/

theorem pipewriteLoop_keeps {sz : Addr} {n : Int} {i m : Nat} {s : Addr}
    (h : s.toNat + m ≤ sz.toNat) : Keeps sz (pipewriteLoop k n i m s) b := by
  induction m generalizing i s with
  | zero => exact Keeps.pure _
  | succ m ih =>
      have hs : s < sz := by rw [BitVec.lt_def]; omega
      rw [pipewriteLoop]
      split
      · exact Keeps.pure _
      · exact (Reads.load hs).keeps_bind fun _ _ => ih (by rw [toNat_succ hs]; omega)

theorem writeiLoop_keeps {sz n : Word} {fuel : Nat} {tot off s : Word} {α : Type}
    {f : Unit → User α} (hn : tot ≤ n) (h : s.toNat + (n.toNat - tot.toNat) ≤ sz.toNat)
    (hf : Keeps sz (f ()) b) : Keeps sz (writeiLoop k n fuel tot off s >>= f) b := by
  induction fuel generalizing tot off s with
  | zero => exact hf
  | succ fuel ih =>
      rw [writeiLoop]
      split
      · rename_i hlt
        have hround := umin_bounds hlt off
        have h1 := toNat_lt n
        have h2 := toNat_lt sz
        rw [BitVec.lt_def] at hlt
        dsimp only
        generalize umin _ _ = m at hround ⊢
        obtain ⟨hpos, hle⟩ := hround
        split
        · exact Keeps.panic _
        · rw [bind_assoc]
          refine (moveIn_reads (by omega)).keeps_bind fun _ _ => ih ?_ ?_
          · rw [BitVec.le_def, BitVec.toNat_add]
            omega
          · rw [BitVec.toNat_add, BitVec.toNat_add]
            omega
      · exact hf

/-- `writei` reads `n` bytes at most, and then the caller goes on. -/
theorem writei_keeps {α : Type} {sz : Addr} {ip : Inode} {s : Addr} {off n : Word}
    {f : Int → User α} (h : s.toNat + n.toNat ≤ sz.toNat) (hn : 0 ≤ n.toInt)
    (hf : ∀ r, Keeps sz (f r) b) : Keeps sz (writei k ip s off n >>= f) b := by
  rw [writei]
  split
  · split
    · exact hf _
    · rw [consolewrite, bind_assoc]
      refine (moveIn_reads ?_).keeps_bind fun _ _ => hf _
      have := toNat_lt n
      rcases Nat.lt_or_ge n.toNat (2 ^ 31) with hlt | hge
      · rw [toInt_of_lt hlt, Int.toNat_natCast]
        exact h
      · rw [toInt_of_ge hge] at hn
        omega
  · split
    · exact hf _
    · split
      · exact hf _
      · rw [bind_assoc]
        refine writeiLoop_keeps ?_ h (hf _)
        rw [BitVec.le_def]
        exact Nat.zero_le _

theorem filewriteLoop_keeps {sz addr : Addr} {n : Int} {fuel j : Nat} {i : Int} (hi : 0 ≤ i)
    (hn : n < 2 ^ 31) (h : addr.toNat + n.toNat ≤ sz.toNat) :
    Keeps sz (filewriteLoop k addr n fuel j i) b := by
  induction fuel generalizing j i with
  | zero => exact Keeps.pure _
  | succ fuel ih =>
      have hsz := toNat_lt sz
      rw [filewriteLoop]
      split
      · rename_i hlt
        dsimp only
        -- the bytes of this round
        generalize hn1 : (if ((LOGSIZE : Int) - 1 - 1 - 2) / 2 * 512 < n - i then
          ((LOGSIZE : Int) - 1 - 1 - 2) / 2 * 512 else n - i) = n1
        have hmax : ((LOGSIZE : Int) - 1 - 1 - 2) / 2 * 512 = 6656 := rfl
        have hpos : 0 < n1 := by
          rw [← hn1, hmax]
          split <;> omega
        have hle : n1 ≤ n - i := by
          rw [← hn1, hmax]
          split <;> omega
        have hnat : (BitVec.ofInt 32 n1).toNat = n1.toNat := by
          rw [BitVec.toNat_ofInt]
          omega
        have hi' : (BitVec.ofInt 32 i).toNat = i.toNat := by
          rw [BitVec.toNat_ofInt]
          omega
        refine writei_keeps ?_ ?_ fun r => ?_
        · rw [hnat, BitVec.toNat_add, hi']
          omega
        · rw [toInt_of_lt (by omega)]
          omega
        · split
          · exact Keeps.pure _
          · rename_i hr
            split
            · exact Keeps.panic _
            · exact ih (by omega)
      · exact Keeps.pure _

theorem filewrite_keeps {sz : Addr} {f : File} {addr : Addr} {n : Word}
    (h : addr.toNat + n.toInt.toNat ≤ sz.toNat) : Keeps sz (filewrite k f addr n) b := by
  rw [filewrite]
  split
  · exact Keeps.pure _
  · split
    · exact pipewriteLoop_keeps h
    · have := toNat_lt n
      refine filewriteLoop_keeps (Int.le_refl 0) ?_ h
      rcases Nat.lt_or_ge n.toNat (2 ^ 31) with hlt | hge
      · rw [toInt_of_lt hlt]
        omega
      · rw [toInt_of_ge hge]
        omega
    · exact Keeps.panic _

theorem sysWrite_keeps (hsz : p.sz < KERNBASE) : Keeps p.sz (sysWrite k p) b := by
  refine (argfd_reads hsz 0).keeps_bind fun f _ => ?_
  cases f with
  | none => exact Keeps.pure _
  | some f =>
      refine (Proc.argint_reads hsz 2).keeps_bind fun n _ => ?_
      cases n with
      | none => exact Keeps.pure _
      | some n =>
          refine (Proc.argptr_reads hsz 1 n).keeps_bind fun addr haddr => ?_
          cases addr with
          | none => exact Keeps.pure _
          | some addr => exact filewrite_keeps (toNat_le_of_ptr hsz haddr.symm)

/-! ## Results of fixed size -/

/-- A field of a result that was accepted as a whole. -/
theorem field_keeps {sz st : Addr} {size : Nat} (h : st.toNat + size ≤ sz.toNat) {cs : List UInt8}
    {i : Nat} (hi : i + cs.length ≤ size) : Keeps sz (moveOut cs (st + BitVec.ofNat 32 i)) b := by
  have := toNat_lt sz
  have hle : (st + BitVec.ofNat 32 i).toNat ≤ st.toNat + i := by
    rw [BitVec.toNat_add, BitVec.toNat_ofNat]
    omega
  exact moveOut_keeps (by omega)

theorem stati_keeps {sz st : Addr} {ip : Inode} (h : st.toNat + 20 ≤ sz.toNat) :
    Keeps sz (stati ip st) b := by
  refine Keeps.bind (field_keeps h (Nat.le_of_ble_eq_true rfl)) fun _ b => ?_
  refine Keeps.bind (field_keeps h (Nat.le_of_ble_eq_true rfl)) fun _ b => ?_
  refine Keeps.bind ?_ fun _ b => ?_
  · exact moveOut_keeps (by change st.toNat + 2 ≤ sz.toNat; omega)
  refine Keeps.bind (field_keeps h (Nat.le_of_ble_eq_true rfl)) fun _ b => ?_
  exact field_keeps h (Nat.le_of_ble_eq_true rfl)

theorem sysFstat_keeps (hsz : p.sz < KERNBASE) : Keeps p.sz (sysFstat k p) b := by
  refine (argfd_reads hsz 0).keeps_bind fun f _ => ?_
  cases f with
  | none => exact Keeps.pure _
  | some f =>
      refine (Proc.argptr_reads hsz 1 20).keeps_bind fun st hst => ?_
      cases st with
      | none => exact Keeps.pure _
      | some st =>
          have h : st.toNat + 20 ≤ p.sz.toNat := toNat_le_of_ptr hsz hst.symm
          dsimp only
          rw [filestat]
          split
          · exact Keeps.bind (stati_keeps h) fun _ _ => Keeps.pure _
          · exact Keeps.pure _

theorem sysPipe_keeps (hsz : p.sz < KERNBASE) : Keeps p.sz (sysPipe k p) b := by
  refine (Proc.argptr_reads hsz 0 8).keeps_bind fun fd hfd => ?_
  cases fd with
  | none => exact Keeps.pure _
  | some fd =>
      have h : fd.toNat + 8 ≤ p.sz.toNat := toNat_le_of_ptr hsz hfd.symm
      dsimp only
      split
      · exact Keeps.pure _
      · rename_i fd0 fd1 _
        refine Keeps.bind (moveOut_keeps ?_) fun _ b => ?_
        · change fd.toNat + 4 ≤ p.sz.toNat
          omega
        · exact Keeps.bind (field_keeps h (Nat.le_of_ble_eq_true rfl)) fun _ _ => Keeps.pure _

theorem sysGettime_keeps (hsz : p.sz < KERNBASE) : Keeps p.sz (sysGettime k p) b := by
  refine (Proc.argptr_reads hsz 0 24).keeps_bind fun d hd => ?_
  cases d with
  | none => exact Keeps.pure _
  | some d =>
      have h : d.toNat + 24 ≤ p.sz.toNat := toNat_le_of_ptr hsz hd.symm
      have hsz' := toNat_lt p.sz
      have htime : (k.time.take 24).length ≤ 24 := List.length_take_le _ _
      refine Keeps.bind (Keeps.bind (moveOut_keeps (by omega)) fun _ b => ?_) fun _ _ => Keeps.pure _
      have hyear : (d + 20).toNat = d.toNat + 20 := by
        rw [BitVec.toNat_add]
        exact Nat.mod_eq_of_lt (by change d.toNat + 20 < 2 ^ 32; omega)
      refine (loadInt_reads (by omega)).keeps_bind fun _ _ => ?_
      exact field_keeps h (Nat.le_of_ble_eq_true rfl)

/-! ## Paths -/

/-- `skipelem` on a string that ends at `e`: the rest is further on. -/
theorem skipelem_reads {sz q e : Addr} (h1 : q ≤ e) (h2 : e < sz) (h3 : b e = 0) :
    Reads sz (skipelem q) b fun r => ∀ name q', r = some (name, q') → q < q' ∧ q' ≤ e := by
  refine (scanAll_reads (e := e) (by rw [h3]; rfl) h1 h2).bind fun s hs => ?_
  obtain ⟨hqs, hse, hs⟩ := hs
  refine (Reads.load (addr_lt hse h2)).bind fun c hc => ?_
  split
  · exact Reads.pure fun _ _ h => (by cases h)
  · rename_i hc0
    refine (scanAll_reads (e := e) (by rw [h3]; rfl) hse h2).bind fun t ht => ?_
    obtain ⟨hst, hte, ht⟩ := ht
    -- the element is not empty
    have hne : s ≠ t := by
      rintro rfl
      rcases (Bool.or_eq_true _ _).mp ht with ht | ht
      · rw [bne_iff_ne] at hs
        exact hs (by simpa using ht)
      · exact hc0 (hc.trans (by simpa using ht))
    have hlt : s.toNat < t.toNat := by
      rw [BitVec.le_def] at hst
      exact Nat.lt_of_le_of_ne hst fun h => hne (BitVec.eq_of_toNat_eq h)
    have hlen : s.toNat + min (t - s).toNat DIRSIZ ≤ sz.toNat := by
      rw [BitVec.toNat_sub_of_le hst]
      rw [BitVec.le_def] at hte
      rw [BitVec.lt_def] at h2
      omega
    refine (moveIn_reads hlen).bind fun name _ => ?_
    refine (scanAll_reads (e := e) (by rw [h3]; rfl) hte h2).bind fun u hu => ?_
    refine Reads.pure fun name' q' h => ?_
    obtain ⟨-, rfl⟩ := Prod.mk.inj (Option.some.inj h)
    obtain ⟨htu, hue, -⟩ := hu
    rw [BitVec.le_def] at hqs htu
    exact ⟨by rw [BitVec.lt_def]; omega, hue⟩

theorem namexLoop_reads {sz q e : Addr} {w : Nat} {parent : Bool} {fuel i : Nat} (h1 : q ≤ e)
    (h2 : e < sz) (h3 : b e = 0) (hfuel : e.toNat - q.toNat < fuel) :
    Reads sz (namexLoop k w parent fuel i q) b fun _ => True := by
  induction fuel generalizing i q with
  | zero => omega
  | succ fuel ih =>
      refine (skipelem_reads h1 h2 h3).bind fun r hr => ?_
      cases r with
      | none => exact Reads.pure trivial
      | some r =>
          obtain ⟨name, q'⟩ := r
          obtain ⟨hlt, hle⟩ := hr name q' rfl
          have hnext : Reads sz (namexLoop k w parent fuel (i + 1) q') b fun _ => True := by
            rw [BitVec.lt_def] at hlt
            rw [BitVec.le_def] at h1
            have hle' := hle
            rw [BitVec.le_def] at hle'
            exact ih hle (by omega)
          dsimp only
          split
          · exact Reads.pure trivial
          · cases parent with
            | false =>
                simp only [Bool.false_eq_true, if_false]
                split
                · exact Reads.pure trivial
                · exact hnext
            | true =>
                simp only [if_true]
                refine (Reads.load (addr_lt hle h2)).bind fun c _ => ?_
                split
                · exact Reads.pure trivial
                · split
                  · exact Reads.pure trivial
                  · exact hnext

theorem namex_reads {sz q : Addr} {w : Nat} {parent : Bool} (h : Str sz b q) :
    Reads sz (namex k w q parent) b fun _ => True := by
  obtain ⟨e, h1, h2, h3⟩ := h
  refine (Reads.load (addr_lt h1 h2)).bind fun _ _ => ?_
  exact namexLoop_reads h1 h2 h3 (by have := toNat_lt e; omega)

/-- A call that looks up one path. -/
theorem path_keeps {q : Addr} {parent : Bool} (h : Str p.sz b q) :
    Keeps p.sz (do let _ ← namex k 0 q parent; return k.result) b :=
  (namex_reads h).keeps_bind fun _ _ => Keeps.pure _

/-- Fetch a path, and go on with it. -/
theorem argstr_keeps {α : Type} (hsz : p.sz < KERNBASE) {n : Word} {f : Option Addr → User α}
    (hnone : Keeps p.sz (f none) b) (hsome : ∀ q, Str p.sz b q → Keeps p.sz (f (some q)) b) :
    Keeps p.sz (p.argstr n >>= f) b := by
  refine (Proc.argstr_reads hsz n).keeps_bind fun r hr => ?_
  cases r with
  | none => exact hnone
  | some q => exact hsome q (hr q rfl)

/-- Fetch a number. -/
theorem argint_keeps {α : Type} (hsz : p.sz < KERNBASE) {n : Word} {f : Option Word → User α}
    (hnone : Keeps p.sz (f none) b) (hsome : ∀ x, Keeps p.sz (f (some x)) b) :
    Keeps p.sz (p.argint n >>= f) b := by
  refine (Proc.argint_reads hsz n).keeps_bind fun r _ => ?_
  cases r with
  | none => exact hnone
  | some q => exact hsome q

theorem sysLink_keeps (hsz : p.sz < KERNBASE) : Keeps p.sz (sysLink k p) b := by
  refine argstr_keeps hsz (Keeps.pure _) fun old hold => ?_
  refine argstr_keeps hsz (Keeps.pure _) fun new hnew => ?_
  refine (namex_reads hold).keeps_bind fun _ _ => ?_
  split
  · exact Keeps.pure _
  · split
    · exact Keeps.pure _
    · exact (namex_reads hnew).keeps_bind fun _ _ => Keeps.pure _

theorem sysUnlink_keeps (hsz : p.sz < KERNBASE) : Keeps p.sz (sysUnlink k p) b :=
  argstr_keeps hsz (Keeps.pure _) fun _ hq => path_keeps hq

theorem sysOpen_keeps (hsz : p.sz < KERNBASE) : Keeps p.sz (sysOpen k p) b :=
  argstr_keeps hsz (Keeps.pure _) fun _ hq =>
    argint_keeps hsz (Keeps.pure _) fun _ => path_keeps hq

theorem sysMkdir_keeps (hsz : p.sz < KERNBASE) : Keeps p.sz (sysMkdir k p) b :=
  argstr_keeps hsz (Keeps.pure _) fun _ hq => path_keeps hq

theorem sysMknod_keeps (hsz : p.sz < KERNBASE) : Keeps p.sz (sysMknod k p) b :=
  argstr_keeps hsz (Keeps.pure _) fun _ hq =>
    argint_keeps hsz (Keeps.pure _) fun _ =>
      argint_keeps hsz (Keeps.pure _) fun _ => path_keeps hq

theorem sysChdir_keeps (hsz : p.sz < KERNBASE) : Keeps p.sz (sysChdir k p) b :=
  argstr_keeps hsz (Keeps.pure _) fun _ hq => path_keeps hq

/-! ## `exec` -/

theorem strlen_reads {sz s : Addr} (h : Str sz b s) :
    Reads sz (strlen s) b fun n => s.toNat + n + 1 ≤ sz.toNat := by
  obtain ⟨e, h1, h2, h3⟩ := h
  refine (scanAll_reads (e := e) (by rw [h3]; rfl) h1 h2).bind fun t ht => Reads.pure ?_
  obtain ⟨hst, hte, -⟩ := ht
  rw [BitVec.toNat_sub_of_le hst]
  rw [BitVec.le_def] at hst hte
  rw [BitVec.lt_def] at h2
  omega

theorem pushArgs_reads {sz : Addr} {argc : Nat} {argv : List Addr} (h : ∀ s ∈ argv, Str sz b s) :
    Reads sz (pushArgs k argc argv) b fun _ => True := by
  induction argv generalizing argc with
  | nil => exact Reads.pure trivial
  | cons s argv ih =>
      have hs := h s (List.mem_cons_self ..)
      rw [pushArgs]
      split
      · exact Reads.pure trivial
      · refine (strlen_reads hs).bind fun _ _ => ?_
        refine (strlen_reads hs).bind fun n hn => ?_
        refine (moveIn_reads (by omega)).bind fun _ _ => ?_
        split
        · exact Reads.pure trivial
        · exact ih fun t ht => h t (List.mem_cons_of_mem s ht)

/-- The last element of a string is a string. -/
theorem lastElem_reads {sz s e last : Addr} {fuel : Nat} (h1 : s ≤ e) (h2 : e < sz) (h3 : b e = 0)
    (hl : last ≤ s) (hfuel : e.toNat - s.toNat < fuel) :
    Reads sz (lastElem fuel s last) b (Str sz b) := by
  induction fuel generalizing s last with
  | zero => omega
  | succ fuel ih =>
      have hs := addr_lt h1 h2
      refine (Reads.load hs).bind fun c hc => ?_
      rw [BitVec.le_def] at h1 hl
      split
      · refine Reads.pure ⟨e, ?_, h2, h3⟩
        rw [BitVec.le_def]
        omega
      · rename_i hc0
        have hne : s ≠ e := by
          rintro rfl
          exact hc0 (hc.trans h3)
        have hne' : s.toNat ≠ e.toNat := fun h => hne (BitVec.eq_of_toNat_eq h)
        have hsucc := toNat_succ hs
        refine ih ?_ ?_ (by omega)
        · rw [BitVec.le_def]
          omega
        · rw [BitVec.le_def]
          split
          · exact Nat.le_refl _
          · omega

theorem safestrcpy_reads {sz s : Addr} {n : Nat} (h : Str sz b s) :
    Reads sz (safestrcpy n s) b fun _ => True := by
  induction n generalizing s with
  | zero => exact Reads.pure trivial
  | succ n ih =>
      cases n with
      | zero => exact Reads.pure trivial
      | succ n =>
          obtain ⟨e, h1, h2, h3⟩ := h
          have hs := addr_lt h1 h2
          refine (Reads.load hs).bind fun c hc => ?_
          split
          · exact Reads.pure trivial
          · rename_i hc0
            have hne : s ≠ e := by
              rintro rfl
              exact hc0 (hc.trans h3)
            have hne' : s.toNat ≠ e.toNat := fun h => hne (BitVec.eq_of_toNat_eq h)
            rw [BitVec.le_def] at h1
            refine ih ⟨e, ?_, h2, h3⟩
            rw [BitVec.le_def, toNat_succ hs]
            omega

theorem exec_keeps {path : Addr} {argv : List Addr} (hp : Str p.sz b path)
    (ha : ∀ s ∈ argv, Str p.sz b s) : Keeps p.sz (exec k path argv) b := by
  refine (namex_reads hp).keeps_bind fun _ _ => ?_
  split
  · exact Keeps.pure _
  · split
    · exact Keeps.pure _
    · refine (pushArgs_reads ha).keeps_bind fun _ _ => ?_
      split
      · exact Keeps.pure _
      · obtain ⟨e, h1, h2, h3⟩ := hp
        have hlt := toNat_lt e
        refine (lastElem_reads h1 h2 h3 (BitVec.le_refl path) (by omega)).keeps_bind
          fun last hl => ?_
        exact (safestrcpy_reads hl).keeps_bind fun _ _ => Keeps.pure _

theorem fetchArgs_reads (hsz : p.sz < KERNBASE) {uargv : Addr} {n i : Nat} :
    Reads p.sz (fetchArgs p uargv n i) b fun r => ∀ argv, r = some argv →
      ∀ s ∈ argv, Str p.sz b s := by
  induction n generalizing i with
  | zero => exact Reads.pure fun _ h => (by cases h)
  | succ n ih =>
      refine (Proc.fetchint_reads hsz _).bind fun x _ => ?_
      cases x with
      | none => exact Reads.pure fun _ h => (by cases h)
      | some uarg =>
          dsimp only
          split
          · refine Reads.pure fun argv h s hs => ?_
            obtain rfl := Option.some.inj h
            cases hs
          · refine (Proc.fetchstr_reads uarg).bind fun len hlen => ?_
            cases len with
            | none => exact Reads.pure fun _ h => (by cases h)
            | some len =>
                refine ih.bind fun rest hrest => ?_
                cases rest with
                | none => exact Reads.pure fun _ h => (by cases h)
                | some rest =>
                    refine Reads.pure fun argv h s hs => ?_
                    obtain rfl := Option.some.inj h
                    rcases List.mem_cons.mp hs with rfl | hs
                    · exact hlen len rfl
                    · exact hrest rest rfl s hs

theorem sysExec_keeps (hsz : p.sz < KERNBASE) : Keeps p.sz (sysExec k p) b := by
  refine argstr_keeps hsz (Keeps.pure _) fun path hpath => ?_
  refine argint_keeps hsz (Keeps.pure _) fun uargv => ?_
  refine (fetchArgs_reads hsz).keeps_bind fun argv hargv => ?_
  cases argv with
  | none => exact Keeps.pure _
  | some argv => exact exec_keeps hpath (hargv argv rfl)

/-- **Every call but `sys_read`** keeps to the memory of the process. -/
theorem run_keeps (hsz : p.sz < KERNBASE) {c : Call} (hc : c ≠ .read) :
    Keeps p.sz (run k p c) b := by
  cases c with
  | read => exact absurd rfl hc
  | write => exact sysWrite_keeps hsz
  | fstat => exact sysFstat_keeps hsz
  | pipe => exact sysPipe_keeps hsz
  | gettime => exact sysGettime_keeps hsz
  | exec => exact sysExec_keeps hsz
  | link => exact sysLink_keeps hsz
  | unlink => exact sysUnlink_keeps hsz
  | «open» => exact sysOpen_keeps hsz
  | mkdir => exact sysMkdir_keeps hsz
  | mknod => exact sysMknod_keeps hsz
  | chdir => exact sysChdir_keeps hsz

/-- **User pointers are checked**, in every call but `sys_read` on the
counts described by `Overruns`. -/
theorem user_bytes_below_iff (hsz : p.sz < KERNBASE) (c : Call) :
    (∀ a ∈ touched (run k p c) ⟨b, []⟩, a < p.sz) ↔
      (c = .read → ∀ f addr n, ¬Overruns k p b f addr n) := by
  constructor
  · rintro h rfl f addr n ho
    have := h p.sz (sysRead_overruns hsz ho)
    rw [BitVec.lt_def] at this
    exact Nat.lt_irrefl _ this
  · intro h
    by_cases hc : c = .read
    · obtain rfl := hc
      exact (sysRead_keeps hsz (h rfl)).touched
    · exact (run_keeps hsz hc).touched

end Calls

/-! ## Two reads -/

/-- Sixteen bytes: the stack with the arguments `0`, `15` and `n`. -/
def smallProc : Proc := ⟨16, 0⟩

def smallMem (n : Word) (a : Addr) : UInt8 :=
  if a = 8 then 15 else if 12 ≤ a then ⟨(n >>> ((a - 12) * 8)).setWidth 8⟩ else 0

/-- File 0 is a file of two bytes. -/
def smallKernel : Kernel where
  ofile := fun fd => if fd = 0 then some ⟨.FD_INODE, true, true⟩ else none
  ip := fun _ => ⟨1, 2, .T_FILE, 0, 1, 2⟩
  off := fun _ => 0
  content := fun _ => 0
  bmap := fun _ => true
  console := []
  piped := none
  takes := fun _ => false
  isDir := fun _ _ => false
  dirlookup := fun _ _ _ => false
  oldIsDir := false
  newPipe := none
  time := []
  loads := false
  copyout := fun _ => 0
  result := -1

/-- A read of `-1` bytes at the last byte of the process. -/
theorem user_bytes_past_sz : smallProc.sz < KERNBASE ∧
    smallProc.sz ∈ touched (run smallKernel smallProc .read) ⟨smallMem (-1), []⟩ := by
  decide +kernel

/-- A read of one byte there. -/
theorem user_bytes_below_one : smallProc.sz < KERNBASE ∧
    15 ∈ touched (run smallKernel smallProc .read) ⟨smallMem 1, []⟩ ∧
    ∀ a ∈ touched (run smallKernel smallProc .read) ⟨smallMem 1, []⟩, a < smallProc.sz := by
  refine ⟨by decide, by decide +kernel, (user_bytes_below_iff (by decide) .read).mpr ?_⟩
  rintro - f addr n ho
  have hn : smallProc.arg (smallMem 1) 2 = some 1 := by decide +kernel
  obtain rfl : 1 = n := Option.some.inj (hn.symm.trans ho.count)
  exact absurd ho.negative (by decide)

end Xv6.Syscall
