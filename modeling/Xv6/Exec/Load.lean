import Xv6.Exec.Image

/-!
# Exec — loading a segment

`loaduvm` goes through the pages of a segment until one has no page table,
cannot be written, or is not delivered in full. It does not look whether
`allocuvm` mapped the page: that was asked for `vaddr + memsz` on 32 bits,
so the segment may run into the kernel's part of the directory, and a page
of the image for which no page table could be made may have got one later.
-/

namespace Xv6.Exec

open Lib Vm

/-- The `j`-th page from the address `addr`. -/
def pageAt (addr j : Nat) : Nat := (addr + j * PGSIZE) % 2 ^ 32 / PGSIZE

/-- `readi` delivers the `j`-th page of a segment in full. -/
def Full (rd : Nat → Nat → Answer) (sz j : Nat) : Prop :=
  (rd j (chunk sz j)).ret = some (chunk sz j)

instance (rd : Nat → Nat → Answer) (sz j : Nat) : Decidable (Full rd sz j) :=
  inferInstanceAs (Decidable (_ = _))

/-- `readi` stores something into the `j`-th page. -/
def Stores (rd : Nat → Nat → Answer) (sz j : Nat) : Prop := (rd j (chunk sz j)).data ≠ []

instance (rd : Nat → Nat → Answer) (sz j : Nat) : Decidable (Stores rd sz j) :=
  inferInstanceAs (Decidable (_ ≠ _))

variable {κ : Type} {A : Allocator κ} {L : Lawful A} {d : Page} {h : Heap κ} {c : Current}
  {g : Image κ} {ph : Proghdr} {rd : Nat → Nat → Answer} {i j : Nat}

/-- A store through the entry of the page does not fault: the page is of the
image, or the kernel can write to what its entry, or an entry of 0, names. -/
def Image.Takes (c : Current) (g : Image κ) (v : Nat) : Prop :=
  g.Maps v ∨ c.storable (frame (kernelPte c.kmap v)) = true

/-- `loaduvm` goes on after the `j`-th page of the segment. -/
def Passes (c : Current) (g : Image κ) (ph : Proghdr) (rd : Nat → Nat → Answer) (j : Nat) : Prop :=
  g.tab (pdx (pageAt ph.vaddr j)) = true ∧ g.Takes c (pageAt ph.vaddr j) ∧ Full rd ph.filesz j

/-- `loaduvm` gets to the `j`-th page. -/
def Reached (c : Current) (g : Image κ) (ph : Proghdr) (rd : Nat → Nat → Answer) (j : Nat) : Prop :=
  j * PGSIZE < ph.filesz ∧ ∀ j', j' < j → Passes c g ph rd j'

/-- It writes to a page there that is not of the image. -/
def StraysAt (c : Current) (g : Image κ) (ph : Proghdr) (rd : Nat → Nat → Answer) (j : Nat) : Prop :=
  Reached c g ph rd j ∧ g.tab (pdx (pageAt ph.vaddr j)) = true ∧ Stores rd ph.filesz j ∧
    g.Takes c (pageAt ph.vaddr j) ∧ ¬ g.Maps (pageAt ph.vaddr j)

/-- It panics there for want of a page table, or faults. -/
def HaltsAt (c : Current) (g : Image κ) (ph : Proghdr) (rd : Nat → Nat → Answer) (j : Nat) : Prop :=
  Reached c g ph rd j ∧ (g.tab (pdx (pageAt ph.vaddr j)) = false ∨
    Stores rd ph.filesz j ∧ ¬ g.Takes c (pageAt ph.vaddr j))

def Strays (c : Current) (g : Image κ) (ph : Proghdr) (rd : Nat → Nat → Answer) : Prop :=
  ∃ j, StraysAt c g ph rd j

def Halts (c : Current) (g : Image κ) (ph : Proghdr) (rd : Nat → Nat → Answer) : Prop :=
  ∃ j, HaltsAt c g ph rd j

/-- The segment is loaded. -/
def Loads (c : Current) (g : Image κ) (ph : Proghdr) (rd : Nat → Nat → Answer) : Prop :=
  ∀ j, j * PGSIZE < ph.filesz → Passes c g ph rd j

/-- A write of `loaduvm` to a page of the user. -/
def Own (w : Nat × Option Pte) : Prop := w.1 < KERNPAGE ∧ ∃ e, w.2 = some e ∧ e.user = true

/-! ## One page -/

theorem Full.stores {sz : Nat} (hf : Full rd sz j) (hj : j * PGSIZE < sz) : Stores rd sz j := by
  unfold Full at hf
  unfold Stores
  have hpos : chunk sz j ≠ 0 := by
    unfold chunk PGSIZE at *
    split <;> omega
  cases hr : rd j (chunk sz j) with
  | fail data => simp [hr, Answer.ret] at hf
  | read data =>
      rw [hr] at hf
      simp only [Answer.ret, Option.some_inj] at hf
      rintro rfl
      exact hpos hf.symm

/-- What is written to a page is the user's if the page is of the image. -/
theorem Shape.own_iff {ks : List Kmap} {v : Nat} (hS : Shape L ks d g h) :
    Own (v, entry h d v) ↔ g.Maps v := by
  constructor
  · rintro ⟨_, e, he, hu⟩
    by_contra hno
    have he : entry h d v = some e := he
    rw [hS.other v hno] at he
    rw [kernelPte_user he] at hu
    cases hu
  · intro hv
    exact ⟨hS.low hv, hS.user v hv⟩

/-- Whether a store faults. -/
theorem Shape.storable_iff {v : Nat} (hS : Shape L c.kmap d g h)
    (hst : ∀ x, A.valid x = true → c.storable x = true) :
    c.storable (frame (entry h d v)) = true ↔ g.Takes c v := by
  by_cases hv : g.Maps v
  · obtain ⟨e, he, _⟩ := hS.user v hv
    rw [he]
    exact iff_of_true (hst e.page (hS.valid hv he)) (.inl hv)
  · rw [hS.other v hv]
    exact ⟨.inr, fun ht => ht.resolve_left hv⟩

/-- After a page at which `loaduvm` does not go on nothing is reached. -/
theorem Reached.not_of_lt (hno : ¬ Passes c g ph rd i) (hlt : i < j) : ¬ Reached c g ph rd j :=
  fun hr => hno (hr.2 i hlt)

theorem exists_from {P : Nat → Prop} : (∃ j, i ≤ j ∧ P j) ↔ P i ∨ ∃ j, i + 1 ≤ j ∧ P j := by
  constructor
  · rintro ⟨j, hle, hj⟩
    rcases Nat.eq_or_lt_of_le hle with rfl | hlt
    · exact .inl hj
    · exact .inr ⟨j, hlt, hj⟩
  · rintro (hi | ⟨j, hle, hj⟩)
    · exact ⟨i, Nat.le_refl i, hi⟩
    · exact ⟨j, by omega, hj⟩

/-- So it is that page that decides. -/
theorem exists_from_stop {P : Nat → Prop} (hP : ∀ j, P j → Reached c g ph rd j)
    (hno : ¬ Passes c g ph rd i) : (∃ j, i ≤ j ∧ P j) ↔ P i := by
  rw [exists_from]
  refine or_iff_left ?_
  rintro ⟨j, hlt, hj⟩
  exact Reached.not_of_lt hno hlt (hP j hj)

/-! ## The loop -/

/-- What loading from the `i`-th page on does to the log. -/
def Logs (c : Current) (g : Image κ) (ph : Proghdr) (rd : Nat → Nat → Answer) (i : Nat)
    (log log' : List (Nat × Option Pte)) : Prop :=
  (∀ w ∈ log', Own w) ↔ (∀ w ∈ log, Own w) ∧ ¬ ∃ j, i ≤ j ∧ StraysAt c g ph rd j

/-- The loop of `loaduvm` ends at its `i`-th page. -/
theorem Logs.stop {log : List (Nat × Option Pte)} (hno : ¬ Passes c g ph rd i)
    (hi : ¬ StraysAt c g ph rd i) : Logs c g ph rd i log log := by
  rw [Logs, exists_from_stop (fun j hj => hj.1) hno]
  simp [hi]

/-- Past the last page there is nothing to do. -/
theorem load_done (hS : Shape L c.kmap d g h) (hprev : ∀ j, j < i → Passes c g ph rd j)
    (hi : ph.filesz ≤ i * PGSIZE) : Logs c g ph rd i h.log h.log ∧
      (¬ ∃ j, i ≤ j ∧ HaltsAt c g ph rd j) ∧ (true = true ↔ Loads c g ph rd) ∧
      Shape L c.kmap d g h := by
  have hnot : ∀ j, i ≤ j → ¬ Reached c g ph rd j := by
    intro j hle hr
    have := hr.1
    unfold PGSIZE at *
    omega
  refine ⟨?_, ?_, iff_of_true rfl fun j hj => hprev j ?_, hS⟩
  · exact (and_iff_left fun ⟨j, hle, hj⟩ => hnot j hle hj.1).symm
  · rintro ⟨j, hle, hj⟩
    exact hnot j hle hj.1
  · unfold PGSIZE at *
    omega

/-- **The loop of `loaduvm`**, from a page that it gets to. -/
theorem loadLoop_spec {fuel : Nat} (rd : Nat → Nat → Answer) (hS : Shape L c.kmap d g h)
    (hst : ∀ x, A.valid x = true → c.storable x = true) (hfuel : ph.filesz ≤ (i + fuel) * PGSIZE)
    (hprev : ∀ j, j < i → Passes c g ph rd j) :
    Ensures (loadLoop A c d ph.vaddr ph.filesz rd fuel i) h
      (fun e => Logs c g ph rd i h.log e.2.log ∧ Halts c g ph rd)
      fun r h' => Logs c g ph rd i h.log h'.log ∧ (¬ ∃ j, i ≤ j ∧ HaltsAt c g ph rd j) ∧
        (r = true ↔ Loads c g ph rd) ∧ Shape L c.kmap d g h' := by
  induction fuel generalizing i h with
  | zero => exact load_done hS hprev hfuel
  | succ fuel ih =>
      by_cases hi : i * PGSIZE < ph.filesz
      · have hreach : Reached c g ph rd i := ⟨hi, hprev⟩
        obtain ⟨ρ, hρ, hd⟩ := hS.sharp
        have htab : g.tab (pdx (pageAt ph.vaddr i)) = (table h d (pdx (pageAt ph.vaddr i))).isSome := by
          rw [← hS.tables]
          rfl
        simp only [loadLoop, hi, if_true, ensures_bind, walk_find hρ.toTagged hd]
        rw [show (ph.vaddr + i * PGSIZE) % 2 ^ 32 / PGSIZE = pageAt ph.vaddr i from rfl]
        cases ht : table h d (pdx (pageAt ph.vaddr i)) with
        | none =>
            rw [ht] at htab
            have htab : g.tab (pdx (pageAt ph.vaddr i)) = false := htab
            refine ⟨.stop ?_ ?_, i, hreach, .inl htab⟩
            · exact fun hp => Bool.false_ne_true (htab.symm.trans hp.1)
            · exact fun hs => Bool.false_ne_true (htab.symm.trans hs.2.1)
        | some t =>
            rw [ht] at htab
            have htab : g.tab (pdx (pageAt ph.vaddr i)) = true := htab
            obtain ⟨_, pte, hc⟩ := tag_of_table hρ.toTagged hd ht
            have he : pte (ptx (pageAt ph.vaddr i)) = entry h d (pageAt ph.vaddr i) :=
              (entry_of_tab ht hc).symm
            have hown := hS.own_iff (v := pageAt ph.vaddr i)
            have hiff := hS.storable_iff (v := pageAt ph.vaddr i) hst
            simp only [Option.map_some, ensures_bind, ensures_tabAt hc, he]
            generalize entry h d (pageAt ph.vaddr i) = e at hown hiff ⊢
            -- once the page is written, or not, the loop goes on or returns
            have rest : ∀ log1, ((∀ w ∈ log1, Own w) ↔ (∀ w ∈ h.log, Own w) ∧
                ¬ StraysAt c g ph rd i) → (Stores rd ph.filesz i → g.Takes c (pageAt ph.vaddr i)) →
                Ensures (if (rd i (chunk ph.filesz i)).ret = some (chunk ph.filesz i) then
                    loadLoop A c d ph.vaddr ph.filesz rd fuel (i + 1) else pure false)
                  { h with log := log1 }
                  (fun e => Logs c g ph rd i h.log e.2.log ∧ Halts c g ph rd)
                  fun r h' => Logs c g ph rd i h.log h'.log ∧
                    (¬ ∃ j, i ≤ j ∧ HaltsAt c g ph rd j) ∧ (r = true ↔ Loads c g ph rd) ∧
                    Shape L c.kmap d g h' := by
              intro log1 hlog htakes
              have hhalt : ¬ HaltsAt c g ph rd i := by
                rintro ⟨_, hno | ⟨hs, hno⟩⟩
                · exact Bool.false_ne_true (hno.symm.trans htab)
                · exact hno (htakes hs)
              by_cases hfull : Full rd ph.filesz i
              · have hpass : Passes c g ph rd i := ⟨htab, htakes (hfull.stores hi), hfull⟩
                have hlogs : ∀ log', Logs c g ph rd (i + 1) log1 log' →
                    Logs c g ph rd i h.log log' := by
                  intro log' hl
                  rw [Logs] at hl ⊢
                  rw [hl, hlog, exists_from (i := i), not_or, and_assoc]
                rw [if_pos (show (rd i (chunk ph.filesz i)).ret = some (chunk ph.filesz i) from hfull)]
                have hprev1 : ∀ j, j < i + 1 → Passes c g ph rd j := by
                  intro j hj
                  rcases Nat.lt_succ_iff_lt_or_eq.mp hj with hj | rfl
                  · exact hprev j hj
                  · exact hpass
                have hS1 : Shape L c.kmap d g { h with log := log1 } := hS.congr rfl rfl
                refine (ih hS1 (by rw [Nat.add_right_comm]; exact hfuel) hprev1).imp
                  (fun e he => ⟨hlogs _ he.1, he.2⟩) fun r h' hr => ⟨hlogs _ hr.1, ?_, hr.2.2⟩
                · rw [exists_from, not_or]
                  exact ⟨hhalt, hr.2.1⟩
              · have hno : ¬ Passes c g ph rd i := fun hp => hfull hp.2.2
                rw [if_neg (show ¬ (rd i (chunk ph.filesz i)).ret = some (chunk ph.filesz i) from hfull)]
                refine ⟨?_, ?_, iff_of_false Bool.false_ne_true fun hl => hno (hl i hi),
                  hS.congr rfl rfl⟩
                · rw [Logs, exists_from_stop (fun j hj => hj.1) hno]
                  exact hlog
                · rw [exists_from_stop (fun j hj => hj.1) hno]
                  exact hhalt
            by_cases hs : Stores rd ph.filesz i
            · rw [if_pos (show (rd i (chunk ph.filesz i)).data ≠ [] from hs)]
              cases hb : c.storable (frame e) with
              | true =>
                  have htakes := hiff.mp hb
                  simp only [Bool.true_eq_false, if_false, ensures_bind, ensures_modify]
                  refine rest _ ?_ fun _ => htakes
                  have hstray : StraysAt c g ph rd i ↔ ¬ g.Maps (pageAt ph.vaddr i) :=
                    ⟨fun hs => hs.2.2.2.2, fun hno => ⟨hreach, htab, hs, htakes, hno⟩⟩
                  rw [hstray, not_not, ← hown]
                  simp only [List.mem_append, List.mem_singleton, or_imp, forall_and, forall_eq]
              | false =>
                  have htakes : ¬ g.Takes c (pageAt ph.vaddr i) := by
                    rw [← hiff, hb]
                    exact Bool.false_ne_true
                  simp only [if_true, ensures_bind]
                  refine ⟨.stop (fun hp => htakes hp.2.1) (fun hs => htakes hs.2.2.2.1), i, hreach, ?_⟩
                  exact .inr ⟨hs, htakes⟩
            · rw [if_neg (show ¬ (rd i (chunk ph.filesz i)).data ≠ [] from hs)]
              refine rest h.log ?_ fun hs' => absurd hs' hs
              exact (and_iff_left fun hst : StraysAt c g ph rd i => hs hst.2.2.1).symm
      · simp only [loadLoop, hi, if_false]
        exact load_done hS hprev (Nat.le_of_not_lt hi)

/-- **`loaduvm`** of an aligned segment. -/
theorem loaduvm_spec (rd : Nat → Nat → Answer) (hS : Shape L c.kmap d g h)
    (hst : ∀ x, A.valid x = true → c.storable x = true) (halign : ph.vaddr % PGSIZE = 0) :
    Ensures (loaduvm A c d ph.vaddr ph.filesz rd) h
      (fun e => ((∀ w ∈ e.2.log, Own w) ↔ (∀ w ∈ h.log, Own w) ∧ ¬ Strays c g ph rd) ∧
        Halts c g ph rd)
      fun r h' => ((∀ w ∈ h'.log, Own w) ↔ (∀ w ∈ h.log, Own w) ∧ ¬ Strays c g ph rd) ∧
        ¬ Halts c g ph rd ∧ (r = true ↔ Loads c g ph rd) ∧ Shape L c.kmap d g h' := by
  have hfuel : ph.filesz ≤ (0 + pgup ph.filesz) * PGSIZE := by
    unfold pgup PGSIZE
    omega
  unfold loaduvm
  rw [if_neg (by simp [halign])]
  have hloop := loadLoop_spec rd hS hst hfuel (by simp)
  simp only [Logs, Nat.zero_le, true_and] at hloop
  exact hloop

end Xv6.Exec
