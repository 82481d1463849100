import Mathlib.Algebra.BigOperators.Group.Multiset.Basic
import Mathlib.Data.Multiset.Range

/-!
# Blocks — runs of units in an address space

A block is an address and a number of units, each of `w` bytes. What a list
of blocks takes up is the multiset of the addresses of its units (`total`),
so that blocks are apart, and nothing is taken up twice, where it has no
duplicates; cutting a block or joining two leaves it as it is.
-/

namespace Xv6.Lib

structure Block where
  addr : Nat
  size : Nat
deriving Repr, DecidableEq

namespace Block

variable {w : Nat} {b c : Block}

/-- The address after the block. -/
def stop (w : Nat) (b : Block) : Nat := b.addr + w * b.size

/-- The units of a block. -/
def units (w : Nat) (b : Block) : Multiset Nat :=
  (Multiset.range b.size).map fun k => b.addr + w * k

theorem mem_units {u : Nat} : u ∈ b.units w ↔ ∃ k < b.size, b.addr + w * k = u := by
  simp only [units, Multiset.mem_map, Multiset.mem_range]

theorem addr_mem_units (h : 0 < b.size) : b.addr ∈ b.units w :=
  mem_units.mpr ⟨0, h, by rw [Nat.mul_zero, Nat.add_zero]⟩

/-- **A block cut in two** takes up what it did. -/
theorem units_add (w addr m n : Nat) :
    units w ⟨addr, m + n⟩ = units w ⟨addr, m⟩ + units w ⟨addr + w * m, n⟩ := by
  induction n with
  | zero => simp [units]
  | succ n ih =>
      have hsucc : ∀ a k, units w ⟨a, k + 1⟩ = (a + w * k) ::ₘ units w ⟨a, k⟩ := by
        intro a k
        rw [units, Multiset.range_succ, Multiset.map_cons]
        rfl
      rw [← Nat.add_assoc, hsucc, hsucc, ih, Multiset.add_cons, Nat.mul_add, Nat.add_assoc]

/-- What a list of blocks takes up. -/
def total (w : Nat) (bs : List Block) : Multiset Nat := (bs.map (units w)).sum

@[simp] theorem total_nil : total w [] = 0 := rfl

@[simp] theorem total_cons (b : Block) (bs : List Block) :
    total w (b :: bs) = b.units w + total w bs := by
  rw [total, List.map_cons, List.sum_cons]
  rfl

@[simp] theorem total_append (bs cs : List Block) :
    total w (bs ++ cs) = total w bs + total w cs := by
  rw [total, List.map_append, List.sum_append]
  rfl

theorem units_le_total {bs : List Block} (h : b ∈ bs) : b.units w ≤ total w bs := by
  obtain ⟨u, v, rfl⟩ := List.append_of_mem h
  rw [total_append, total_cons]
  exact (Multiset.le_add_right _ _).trans (Multiset.le_add_left _ _)

theorem total_erase {bs : List Block} (h : b ∈ bs) :
    total w bs = b.units w + total w (bs.erase b) := by
  rw [← total_cons]
  exact (((List.perm_cons_erase h).map (units w)).sum_eq)

/-- Two blocks with no address in common. -/
def Apart (w : Nat) (b c : Block) : Prop := b.stop w ≤ c.addr ∨ c.stop w ≤ b.addr

/-- Blocks at whole units that share none are apart. -/
theorem apart_of_disjoint (hb : w ∣ b.addr) (hc : w ∣ c.addr)
    (hdisj : Disjoint (b.units w) (c.units w)) (hbpos : 0 < b.size) (hcpos : 0 < c.size) :
    Apart w b c := by
  obtain ⟨i, hi⟩ := hb
  obtain ⟨j, hj⟩ := hc
  rw [Apart, stop, stop, hi, hj, ← Nat.mul_add, ← Nat.mul_add]
  by_contra hno
  rw [not_or, Nat.not_le, Nat.not_le] at hno
  have h1 : j < i + b.size := Nat.lt_of_mul_lt_mul_left hno.1
  have h2 : i < j + c.size := Nat.lt_of_mul_lt_mul_left hno.2
  -- the later of the two addresses is a unit of both
  rcases Nat.le_total i j with hij | hij
  · have hmem : c.addr ∉ b.units w := fun h => Multiset.disjoint_left.mp hdisj h (addr_mem_units hcpos)
    refine hmem ?_
    exact mem_units.mpr ⟨j - i, by omega, by rw [hi, hj, ← Nat.mul_add, Nat.add_sub_cancel' hij]⟩
  · refine Multiset.disjoint_left.mp hdisj (addr_mem_units hbpos) ?_
    exact mem_units.mpr ⟨i - j, by omega, by rw [hi, hj, ← Nat.mul_add, Nat.add_sub_cancel' hij]⟩

theorem pairwise_apart {bs : List Block} (hdvd : ∀ b ∈ bs, w ∣ b.addr)
    (hpos : ∀ b ∈ bs, 0 < b.size) (hnodup : (total w bs).Nodup) : bs.Pairwise (Apart w) := by
  induction bs with
  | nil => exact List.Pairwise.nil
  | cons b bs ih =>
      obtain ⟨hb, hdvd⟩ := List.forall_mem_cons.mp hdvd
      obtain ⟨hbpos, hpos⟩ := List.forall_mem_cons.mp hpos
      rw [total_cons] at hnodup
      obtain ⟨_, hrest, hdisj⟩ := Multiset.nodup_add.mp hnodup
      refine List.pairwise_cons.mpr ⟨fun c hc => ?_, ih hdvd hpos hrest⟩
      exact apart_of_disjoint hb (hdvd c hc) (hdisj.mono le_rfl (units_le_total hc)) hbpos
        (hpos c hc)

/-- `b` ends before `c`, and does not touch it. -/
def Below (w : Nat) (b c : Block) : Prop := b.stop w < c.addr

/-- How many blocks fit between two addresses. -/
theorem length_le_of_below {bs : List Block} {lo hi : Nat} (hlo : lo ≤ hi + w)
    (hbelow : bs.Pairwise (Below w)) (hpos : ∀ b ∈ bs, 0 < b.size)
    (hrange : ∀ b ∈ bs, lo ≤ b.addr ∧ b.addr < hi) : lo + w * bs.length ≤ hi + w := by
  induction bs generalizing lo with
  | nil => simpa using hlo
  | cons b bs ih =>
      obtain ⟨hb, hrest⟩ := List.pairwise_cons.mp hbelow
      obtain ⟨hbpos, hpos⟩ := List.forall_mem_cons.mp hpos
      obtain ⟨hbrange, hrange⟩ := List.forall_mem_cons.mp hrange
      have hstop : b.addr + w ≤ b.stop w := by
        have := Nat.mul_le_mul_left w hbpos
        rw [stop]
        omega
      have hlen : b.addr + w + w * bs.length ≤ hi + w := by
        refine ih (by omega) hrest hpos fun c hc => ⟨?_, (hrange c hc).2⟩
        have hbelow : b.stop w < c.addr := hb c hc
        omega
      rw [List.length_cons, Nat.mul_succ]
      omega

end Block

end Xv6.Lib
