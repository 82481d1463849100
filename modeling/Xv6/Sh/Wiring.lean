import Xv6.Sh.Run

/-!
# Sh — how `runcmd` wires the descriptors

`wiring` says what the descriptors of a command are to refer to, from the
nodes around it alone; `pi` says which pipe each `PIPE` node has made. The
invariant is that every process has the table that its place in `runcmd`
calls for. A node is entered only once, so that it makes one pipe: the
commands that a process will still enter are below no place where another
one is, and below no node that has made its pipe.
-/

namespace Xv6.Sh

open Lib

variable {α : Type}

/-! ## What the nodes prescribe -/

/-- **The descriptors of a command.** A redirection and a pipe replace what the
nodes outside them say, so the innermost one wins. -/
def wiring (root : Cmd α) (files : Nat → Nat) (pi : Ptr → Option Nat) : Ptr → Table α
  | [] => fun fd => if fd < 3 then some (.given (files fd)) else none
  | d :: a =>
      match root.at a with
      | some (.redir _ file mode fd) => upd (wiring root files pi a) fd (some (.file file mode))
      | some (.pipe _ _) =>
          upd (wiring root files pi a) d.fd ((pi a).map fun n => .pipe n d.writes)
      | _ => wiring root files pi a

/-- Exactly 0, 1 and 2 are open. -/
def Std (t : Table α) : Prop := ∀ fd, (t fd).isSome = true ↔ fd < 3

section Wiring

variable {root : Cmd α} {files : Nat → Nat} {pi pi' : Ptr → Option Nat} {a : Ptr}

theorem wiring_redir {c : Cmd α} {file : α} {mode fd : Nat} {d : Sub}
    (h : root.at a = some (.redir c file mode fd)) :
    wiring root files pi (d :: a) = upd (wiring root files pi a) fd (some (.file file mode)) := by
  rw [wiring, h]

theorem wiring_pipe {l r : Cmd α} {d : Sub} (h : root.at a = some (.pipe l r)) :
    wiring root files pi (d :: a) =
      upd (wiring root files pi a) d.fd ((pi a).map fun n => .pipe n d.writes) := by
  rw [wiring, h]

theorem wiring_list {l r : Cmd α} {d : Sub} (h : root.at a = some (.list l r)) :
    wiring root files pi (d :: a) = wiring root files pi a := by
  rw [wiring, h]

theorem wiring_back {c : Cmd α} {d : Sub} (h : root.at a = some (.back c)) :
    wiring root files pi (d :: a) = wiring root files pi a := by
  rw [wiring, h]

/-- The wiring of a command depends on the pipes of the nodes around it. -/
theorem wiring_congr (h : ∀ d c, d :: c <:+ a → pi c = pi' c) :
    wiring root files pi a = wiring root files pi' a := by
  induction a with
  | nil => rfl
  | cons d a ih =>
      have ih := ih fun e c hc => h e c (hc.trans (List.suffix_cons d a))
      rw [wiring, wiring, ih, h d a (List.suffix_refl _)]

end Wiring

/-! ## The calls on a table -/

section Calls

variable {t : Table α} {f : File α}

theorem Std.open (h : Std t) {fd : Nat} (hfd : fd < 3) : (t fd).isSome = true := (h fd).mpr hfd

theorem Std.closed (h : Std t) {fd : Nat} (hfd : 3 ≤ fd) : t fd = none := by
  rw [← Option.not_isSome_iff_eq_none, h fd]
  omega

theorem Std.upd (h : Std t) {fd : Nat} (hfd : fd < 3) : Std (upd t fd (some f)) := by
  intro j
  by_cases hj : j = fd
  · rw [hj, upd_self]
    simp [hfd]
  · rw [upd_of_ne hj]
    exact h j

theorem fdalloc_eq {fd : Nat} (hfd : fd < NOFILE) (hfree : t fd = none)
    (hlow : ∀ j, j < fd → (t j).isSome = true) : fdalloc t f = some (fd, Lib.upd t fd (some f)) := by
  have hfirst : findFrom (fun fd => (t fd).isNone) NOFILE 0 = some fd := by
    apply findFrom_eq_of_first (Nat.zero_le fd) (by omega)
    · rw [hfree]
      rfl
    · intro k _ hk
      rw [Option.isNone_eq_false_iff]
      exact hlow k hk
  rw [fdalloc, hfirst]
  rfl

theorem close_eq {fd : Nat} (h : (t fd).isSome = true) : close t fd = some (Lib.upd t fd none) := by
  obtain ⟨f, hf⟩ := Option.isSome_iff_exists.mp h
  rw [close, hf]
  rfl

theorem close_eq_some {fd : Nat} {t' : Table α} (h : close t fd = some t') :
    (t fd).isSome = true ∧ t' = Lib.upd t fd none := by
  obtain ⟨f, hf, ht⟩ := Option.map_eq_some_iff.mp h
  exact ⟨by rw [hf]; rfl, ht.symm⟩

/-- One of the three is closed: it is the one that the next call gets. -/
theorem Std.fdalloc_closed (h : Std t) {fd : Nat} (hfd : fd < 3) :
    fdalloc (Lib.upd t fd none) f = some (fd, Lib.upd t fd (some f)) := by
  have hlow : ∀ j, j < fd → ((Lib.upd t fd none) j).isSome = true := by
    intro j hj
    rw [upd_of_ne (by omega)]
    exact h.open (by omega)
  have hlt : fd < NOFILE := Nat.lt_trans hfd (by decide)
  rw [fdalloc_eq hlt (upd_self _ _ _) hlow, upd_upd]

/-- The table with both ends of a pipe at 3 and 4. -/
def both (t : Table α) (n : Nat) : Table α :=
  Lib.upd (Lib.upd t 3 (some (.pipe n false))) 4 (some (.pipe n true))

theorem Std.pipe_eq (h : Std t) (n : Nat) : pipe t n = some (3, 4, both t n) := by
  have h3 : fdalloc t (.pipe n false) = some (3, Lib.upd t 3 (some (.pipe n false))) :=
    fdalloc_eq (by decide) (h.closed (Nat.le_refl 3)) fun j hj => h.open hj
  have h4 : fdalloc (Lib.upd t 3 (some (.pipe n false))) (.pipe n true) =
      some (4, both t n) := by
    apply fdalloc_eq (by decide)
    · rw [upd_of_ne (by decide)]
      exact h.closed (by decide)
    · intro j hj
      by_cases hj3 : j = 3
      · rw [hj3, upd_self]
        rfl
      · rw [upd_of_ne hj3]
        exact h.open (by omega)
  rw [pipe, h3, Option.bind_some, h4]
  rfl

/-- Closing 3 and 4 leaves what was there before. -/
theorem Std.close_both (h : Std t) (n : Nat) :
    Lib.upd (Lib.upd (both t n) 3 none) 4 none = t := by
  funext fd
  by_cases h4 : fd = 4
  · rw [h4, upd_self, h.closed (by decide)]
  · by_cases h3 : fd = 3
    · rw [h3, upd_of_ne (by decide), upd_self, h.closed (by decide)]
    · rw [upd_of_ne h4, upd_of_ne h3, both, upd_of_ne h4, upd_of_ne h3]

theorem both_of_lt {fd : Nat} (hfd : fd < 3) (n : Nat) : both t n fd = t fd := by
  rw [both, upd_of_ne (by omega), upd_of_ne (by omega)]

theorem both_upd {fd : Nat} (hfd : fd < 3) (n : Nat) (v : Option (File α)) :
    Lib.upd (both t n) fd v = both (Lib.upd t fd v) n := by
  rw [both, both, upd_comm (by omega), upd_comm (i := 3) (by omega)]

end Calls

end Xv6.Sh
