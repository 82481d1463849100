import Xv6.Exec.Args

/-!
# Exec — the loop over the program headers

Which program headers `exec` gets to, and with which image, is told by the
file and the answers of `kalloc`. A property of `exec` is one of each of
these headers, and of the image after the last.
-/

namespace Xv6.Exec

open Lib Vm

variable {κ : Type} {A : Allocator κ} {L : Lawful A} {d : Page} {h : Heap κ} {c : Current}
  {g : Image κ} {ip : Reads} {elf : Elfhdr} {n i : Nat}

/-- `P` holds of every segment that `exec` loads, among the `n` program headers
from the `i`-th on and with the image `g` so far; and `Q` of the image after
them. What comes after a header at which `exec` gives up does not matter. -/
def Each (A : Allocator κ) (c : Current) (ip : Reads) (elf : Elfhdr)
    (P : Image κ → Proghdr → (Nat → Nat → Answer) → Prop) (Q : Image κ → Prop) :
    Nat → Nat → Image κ → Prop
  | 0, _, g => Q g
  | n + 1, i, g =>
      ∀ ph, progHeader ip elf i = some ph →
        if ph.type ≠ ELF_PROG_LOAD then Each A c ip elf P Q n (i + 1) g
        else ph.filesz ≤ ph.memsz → ∀ g', g.grow A ((ph.vaddr + ph.memsz) % 2 ^ 32) = some g' →
          P g' ph (segment ip ph i) ∧
            (ph.vaddr % PGSIZE = 0 → Loads c g' ph (segment ip ph i) →
              Each A c ip elf P Q n (i + 1) g')

/-- No segment strays. -/
def Contained (A : Allocator κ) (c : Current) (ip : Reads) (elf : Elfhdr) :
    Nat → Nat → Image κ → Prop :=
  Each A c ip elf (fun g ph rd => ph.vaddr % PGSIZE = 0 → ¬ Strays c g ph rd) fun _ => True

/-- No segment makes the kernel panic, and the image after them has `Q`. -/
def Survives (A : Allocator κ) (c : Current) (ip : Reads) (elf : Elfhdr) (Q : Image κ → Prop) :
    Nat → Nat → Image κ → Prop :=
  Each A c ip elf (fun g ph rd => ph.vaddr % PGSIZE = 0 ∧ ¬ Halts c g ph rd) Q

section Each

variable {P : Image κ → Proghdr → (Nat → Nat → Answer) → Prop} {Q : Image κ → Prop} {ph : Proghdr}

/-- A header that is not delivered. -/
theorem each_none (hp : progHeader ip elf i = none) : Each A c ip elf P Q (n + 1) i g :=
  fun ph hph => by cases hp.symm.trans hph

/-- A header of another type. -/
theorem each_skip (hp : progHeader ip elf i = some ph) (htype : ph.type ≠ ELF_PROG_LOAD) :
    Each A c ip elf P Q (n + 1) i g ↔ Each A c ip elf P Q n (i + 1) g := by
  simp only [Each, hp, Option.some_inj, forall_eq', if_pos htype]

/-- A header whose sizes do not fit, or for which there is no memory. -/
theorem each_bad (hp : progHeader ip elf i = some ph) (htype : ph.type = ELF_PROG_LOAD)
    (hbad : ph.memsz < ph.filesz ∨ g.grow A ((ph.vaddr + ph.memsz) % 2 ^ 32) = none) :
    Each A c ip elf P Q (n + 1) i g := by
  simp only [Each, hp, Option.some_inj, forall_eq', htype, ne_eq, not_true_eq_false, if_false]
  intro hle g' hg'
  rcases hbad with hlt | hnone
  · omega
  · cases hnone.symm.trans hg'

/-- A segment. -/
theorem each_load {g' : Image κ} (hp : progHeader ip elf i = some ph)
    (htype : ph.type = ELF_PROG_LOAD) (hle : ph.filesz ≤ ph.memsz)
    (hg : g.grow A ((ph.vaddr + ph.memsz) % 2 ^ 32) = some g') :
    Each A c ip elf P Q (n + 1) i g ↔ P g' ph (segment ip ph i) ∧
      (ph.vaddr % PGSIZE = 0 → Loads c g' ph (segment ip ph i) →
        Each A c ip elf P Q n (i + 1) g') := by
  simp only [Each, hp, Option.some_inj, forall_eq', htype, ne_eq, not_true_eq_false, if_false, hle,
    hg, true_implies]

end Each

/-- What the loop over the program headers does to the log. -/
def Writes (A : Allocator κ) (c : Current) (ip : Reads) (elf : Elfhdr) (n i : Nat) (g : Image κ)
    (log log' : List (Nat × Option Pte)) : Prop :=
  (∀ w ∈ log', Own w) ↔ (∀ w ∈ log, Own w) ∧ Contained A c ip elf n i g

/-- **The loop over the program headers**: what it has written, and whether it
stops. -/
theorem segments_spec (ip : Reads) (elf : Elfhdr) (n i : Nat) (hE : Exact L) (hks : KmapOk c.kmap) (hdir : Direct A c)
    (hS : Shape L c.kmap d g h) :
    Ensures (segments A c ip elf d n i g.sz) h
      (fun e => Writes A c ip elf n i g h.log e.2.log ∧ ∀ Q, ¬ Survives A c ip elf Q n i g)
      fun r h' => Writes A c ip elf n i g h.log h'.log ∧
        match r with
        | none => (∀ Q, Survives A c ip elf Q n i g) ∧ ∃ ρ, Sharp L ρ h' ∧ ρ d = .dir
        | some sz => ∃ g', sz = g'.sz ∧ Shape L c.kmap d g' h' ∧
            ∀ Q, Survives A c ip elf Q n i g ↔ Q g' := by
  induction n generalizing i g h with
  | zero => exact ⟨(and_iff_left trivial).symm, g, rfl, hS, fun Q => Iff.rfl⟩
  | succ n ih =>
      -- where `exec` gives up, nothing more is asked
      have hbad : ∀ h', h'.log = h.log → (∀ P Q, Each A c ip elf P Q (n + 1) i g) →
          (∃ ρ, Sharp L ρ h' ∧ ρ d = .dir) →
          Writes A c ip elf (n + 1) i g h.log h'.log ∧
            (∀ Q, Survives A c ip elf Q (n + 1) i g) ∧ ∃ ρ, Sharp L ρ h' ∧ ρ d = .dir := by
        intro h' hlog hall htag
        refine ⟨?_, fun Q => hall _ Q, htag⟩
        rw [Writes, hlog]
        exact (and_iff_left (hall _ _)).symm
      rw [segments]
      cases hp : progHeader ip elf i with
      | none => exact hbad h rfl (fun P Q => each_none hp) hS.sharp
      | some ph =>
          by_cases htype : ph.type = ELF_PROG_LOAD
          case neg =>
            simp only [htype, ne_eq, not_false_eq_true, if_true, Writes, Contained, Survives,
              each_skip hp htype]
            exact ih (i + 1) hS
          by_cases hmz : ph.memsz < ph.filesz
          · simp only [htype, hmz, ne_eq, not_true_eq_false, if_false, if_true, ensures_pure]
            exact hbad h rfl (fun P Q => each_bad hp htype (.inl hmz)) hS.sharp
          have hle : ph.filesz ≤ ph.memsz := Nat.le_of_not_lt hmz
          simp only [htype, hmz, ne_eq, not_true_eq_false, if_false, ensures_bind]
          refine ((hS.grow hE hks _).and (keepsLog_allocuvm d g.sz _ h)).imp
            (fun _ he => he.1.elim) fun r h1 hr => ?_
          obtain ⟨hr, hlog⟩ := hr
          cases hg : g.grow A ((ph.vaddr + ph.memsz) % 2 ^ 32) with
          | none =>
              rw [hg] at hr
              obtain ⟨rfl, htag⟩ := hr
              simp only [if_true, ensures_pure]
              exact hbad h1 hlog (fun P Q => each_bad hp htype (.inr hg)) htag
          | some g' =>
              rw [hg] at hr
              obtain ⟨rfl, h0, hS1⟩ := hr
              simp only [h0, if_false, ensures_bind, Writes, Contained, Survives,
                each_load hp htype hle hg]
              by_cases halign : ph.vaddr % PGSIZE = 0
              case neg =>
                -- the address is not aligned, and `loaduvm` panics
                simp only [loaduvm, halign, ne_eq, not_false_eq_true, if_true, false_and,
                  false_implies, and_self, and_true, ensures_bind]
                exact ⟨iff_of_eq (by rw [hlog]), fun Q => trivial⟩
              simp only [halign, true_implies, true_and]
              refine (loaduvm_spec (segment ip ph i) hS1 (fun x hx => (hdir x hx).2) halign).imp
                (fun e he => ⟨?_, fun Q hQ => hQ.1 he.2⟩) fun b h2 hr => ?_
              · -- the load is not complete, so the headers after it do not matter
                obtain ⟨hown, j, hj, hwhy⟩ := he
                have hnot : ¬ Loads c g' ph (segment ip ph i) := by
                  intro hl
                  obtain ⟨htab, htakes, _⟩ := hl j hj.1
                  rcases hwhy with hno | ⟨_, hno⟩
                  · exact Bool.false_ne_true (hno.symm.trans htab)
                  · exact hno htakes
                rw [hown, hlog]
                exact and_congr_right fun _ => (and_iff_left fun hl => absurd hl hnot).symm
              · obtain ⟨hown, hno, hloads, hS2⟩ := hr
                rw [hlog] at hown
                cases b with
                | false =>
                    have hnot : ¬ Loads c g' ph (segment ip ph i) := by simp [← hloads]
                    simp only [hnot, false_implies, and_true, hno, not_false_eq_true,
                      Bool.false_eq_true, if_false, ensures_pure, implies_true, true_and]
                    exact ⟨hown, hS2.sharp⟩
                | true =>
                    have hall : Loads c g' ph (segment ip ph i) := hloads.mp rfl
                    have hiff : ∀ log' : List (Nat × Option Pte), ((∀ w ∈ log', Own w) ↔ (∀ w ∈ h2.log, Own w) ∧
                        Contained A c ip elf n (i + 1) g') → ((∀ w ∈ log', Own w) ↔
                        (∀ w ∈ h.log, Own w) ∧ ¬ Strays c g' ph (segment ip ph i) ∧
                          Contained A c ip elf n (i + 1) g') := by
                      intro log' hl
                      rw [hl, hown, and_assoc]
                    simp only [hall, true_implies, hno, not_false_eq_true, true_and, if_true]
                    exact (ih (i + 1) hS2).imp (fun e he => ⟨hiff _ he.1, he.2⟩)
                      fun r h3 hr => ⟨hiff _ hr.1, hr.2⟩

/-! ## After the segments -/

theorem keepsLog_pushArgs (d : Page) (argv : List Nat) (argc sp : Nat) :
    KeepsLog (pushArgs A c d argv argc sp) := by
  induction argv generalizing argc sp with
  | nil => exact .pure _
  | cons len argv ih =>
      unfold pushArgs
      split
      · exact .pure _
      · refine (keepsLog_copyout _ _ _ _).bind fun b => ?_
        cases b with
        | true => exact ih _ _
        | false => exact .pure _

theorem keepsLog_userStack (d : Page) (sz : Nat) : KeepsLog (userStack A d sz) := by
  unfold KeepsLog userStack
  generalize pgup sz * PGSIZE = top
  generalize 2 * PGSIZE = two
  intro h
  rw [ensures_bind]
  refine (keepsLog_allocuvm d top (top + two) h).next fun r h1 h1log => ?_
  by_cases h0 : r = 0
  · rw [if_pos h0]
    exact h1log
  · rw [if_neg h0, ensures_bind]
    exact (keepsLog_clearpteu _ _ h1).imp (fun e he => he.trans h1log) fun _ _ hr => hr.trans h1log

/-- After the loop over the program headers nothing is loaded. -/
theorem keepsLog_finish (argv : List Nat) (d : Page) (sz : Nat) :
    KeepsLog (finish A c argv d sz) := by
  unfold finish
  refine (keepsLog_userStack d sz).bind fun r => ?_
  by_cases h0 : r = 0
  · simp only [h0, if_true]
    exact .pure _
  · simp only [h0, if_false]
    refine (keepsLog_pushArgs d argv 0 r).bind fun sp => ?_
    cases sp with
    | none => exact .pure _
    | some sp => exact keepsLog_copyout _ _ _ _

/-! ## The whole of `exec` -/

/-- The condition `C` on the new directory and the program headers, if `exec` gets
to them. -/
def Starts (A : Allocator κ) (c : Current) (ip : Reads) (stack : List UInt8) (k : κ)
    (C : Elfhdr → Nat → Nat → Image κ → Prop) : Prop :=
  ∀ elf g, checkHeader ip stack = some elf → Image.new A c.kmap k = some g → C elf elf.phnum 0 g

/-- **`exec`**: what `loaduvm` has written, and whether it stops. -/
theorem exec_spec (ip : Reads) (stack : List UInt8) (argv : List Nat) {ρ : Page → Tag}
    (hE : Exact L) (hks : KmapOk c.kmap) (hdir : Direct A c) (hρ : Sharp L ρ h) :
    Ensures (exec A c ip stack argv) h
      (fun e => ((∀ w ∈ e.2.log, Own w) ↔
          (∀ w ∈ h.log, Own w) ∧ Starts A c ip stack h.kmem (Contained A c ip)) ∧
        ¬ Starts A c ip stack h.kmem fun elf => Survives A c ip elf (StackOk A c argv))
      fun _ h' => ((∀ w ∈ h'.log, Own w) ↔
          (∀ w ∈ h.log, Own w) ∧ Starts A c ip stack h.kmem (Contained A c ip)) ∧
        Starts A c ip stack h.kmem fun elf => Survives A c ip elf (StackOk A c argv) := by
  unfold exec
  cases hc : checkHeader ip stack with
  | none => simp [Starts, hc]
  | some elf =>
      simp only [ensures_bind]
      refine ((Shape.new hE hks hρ).and (keepsLog_setupkvm c.kmap h)).imp
        (fun _ he => he.1.elim) fun r h1 hr => ?_
      obtain ⟨hr, hlog1⟩ := hr
      cases hg : Image.new A c.kmap h.kmem with
      | none =>
          rw [hg] at hr
          obtain rfl := hr
          simp [hlog1, Starts, hg]
      | some g =>
          rw [hg] at hr
          obtain ⟨d, rfl, h0, hS⟩ := hr
          have hstarts : ∀ C : Elfhdr → Nat → Nat → Image κ → Prop,
              Starts A c ip stack h.kmem C ↔ C elf elf.phnum 0 g := by
            intro C
            simp [Starts, hc, hg]
          simp only [hstarts, ensures_bind, build]
          have hseg := segments_spec ip elf elf.phnum 0 hE hks hdir hS
          rw [h0, hlog1] at hseg
          refine hseg.imp (fun e he => ⟨he.1, he.2 _⟩) fun r h2 hr => ?_
          obtain ⟨hw, hr⟩ := hr
          -- the rest of `exec` neither stops in `freevm` nor loads
          have hfree : ∀ (b : Bool) h3, h3.log = h2.log → (∃ ρ, Sharp L ρ h3 ∧ ρ d = .dir) →
              Survives A c ip elf (StackOk A c argv) elf.phnum 0 g →
              Ensures (if b then pure true else do
                freevm A d
                return false) h3
              (fun e => Writes A c ip elf elf.phnum 0 g h.log e.2.log ∧
                ¬ Survives A c ip elf (StackOk A c argv) elf.phnum 0 g)
              fun _ h4 => Writes A c ip elf elf.phnum 0 g h.log h4.log ∧
                Survives A c ip elf (StackOk A c argv) elf.phnum 0 g := by
            intro b h3 h3log htag hs
            obtain ⟨ρ3, hρ3, hd3⟩ := htag
            cases b with
            | true =>
                simp only [if_true, ensures_pure, h3log]
                exact ⟨hw, hs⟩
            | false =>
                simp only [Bool.false_eq_true, if_false, ensures_bind, ensures_pure]
                refine ((freevm_rule hρ3.toTagged hd3).and (keepsLog_freevm d h3)).imp
                  (fun e he => he.1.elim) fun _ h4 hr => ?_
                rw [hr.2, h3log]
                exact ⟨hw, hs⟩
          cases r with
          | none =>
              obtain ⟨hs, htag⟩ := hr
              exact hfree false h2 rfl htag (hs _)
          | some sz =>
              obtain ⟨g', rfl, hS2, hs⟩ := hr
              rw [hs (StackOk A c argv)]
              rw [hs (StackOk A c argv)] at hfree
              refine ((finish_spec hE hks hdir hS2).and (keepsLog_finish argv d g'.sz h2)).imp
                (fun e he => ⟨by rw [he.2]; exact hw, he.1⟩) fun b h3 hr => ?_
              exact hfree b h3 hr.2 hr.1.2 hr.1.1

end Xv6.Exec
