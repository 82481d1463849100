import Xv6.Log.Commit

/-!
# Log — crash atomicity

Two predicates on a disk carry the whole argument. `Clean target d`: the
header says `n = 0` and every block outside the log is `target`'s.
`Committed lh view base d`: the header lists `lh`, the log slots hold
`view`'s contents of those blocks, and every other block outside the log
is `base`'s; the home blocks themselves may hold ANYTHING, which is why
replaying after a crash in the middle of a replay is harmless.

A commit goes from `Clean old` to `Clean new` and is `Committed` in
between, exactly from the first `write_head` on. Recovery keeps either
predicate at every crash point and ends in `Clean`.
-/

namespace Xv6.Log

open Lib

/-- No transaction on disk, and the blocks outside the log are `target`'s. -/
structure Clean (log : Area) (target d : Disk) : Prop where
  head : (d log.start).rd32 0 = 0
  home : ∀ b, ¬ log.Contains b → d b = target b

/-- The header is on disk and the log holds `view`'s contents of the
blocks it lists. -/
structure Committed (log : Area) (lh : List Nat) (view base d : Disk) : Prop where
  head : readHead (d log.start) = lh
  logged : ∀ t, t < lh.length → d (log.start + t + 1) = view (lh.getD t 0)
  other : ∀ b, ¬ log.Contains b → b ∉ lh → d b = base b

/-- The blocks after the transaction: `view`'s where the header lists
them, `base`'s elsewhere. -/
def newDisk (lh : List Nat) (view base : Disk) : Disk := fun b =>
  if b ∈ lh then view b else base b

variable {log : Area} {lh : Header} {view base d : Disk}

theorem take_append_singleton {α : Type*} (ws : List α) (w : α) (k : Nat) :
    (ws ++ [w]).take k = if k ≤ ws.length then ws.take k else ws ++ [w] := by
  split
  · rename_i h
    exact List.take_append_of_le_length h
  · exact List.take_of_length_le (by simp; omega)

/-- The header block is part of the log area. -/
theorem start_contains (log : Area) : log.Contains log.start :=
  ⟨Nat.le_refl _, Nat.lt_add_of_pos_right log.hasHeader⟩

theorem readHead_of_zero {buf : Block} (h : buf.rd32 0 = 0) : readHead buf = [] := by
  simp [readHead, headCount, h]

/-! ## Which blocks the loops touch -/

theorem mem_installWrites {lh : List Nat} {w : Nat × Block} (h : w ∈ installWrites log lh view) :
    w.1 ∈ lh := by
  obtain ⟨t, ht, rfl⟩ := List.mem_map.mp h
  exact getD_mem (List.mem_range.mp ht)

theorem mem_logWrites {lh : List Nat} (hl : Loggable log lh) {w : Nat × Block}
    (h : w ∈ logWrites log lh view) : log.Contains w.1 ∧ w.1 ≠ log.start := by
  obtain ⟨t, ht, rfl⟩ := List.mem_map.mp h
  have hlt := List.mem_range.mp ht
  have hfit := hl.fits
  refine ⟨⟨?_, ?_⟩, ?_⟩ <;> dsimp only <;> omega

theorem map_getD_range (lh : List Nat) : (List.range lh.length).map (fun t => lh.getD t 0) = lh := by
  refine List.ext_getElem (by simp) fun i h1 h2 => ?_
  rw [List.getElem_map, List.getElem_range]
  exact List.getD_eq_getElem _ _ h2

theorem fst_installWrites (log : Area) (lh : List Nat) (view : Disk) :
    (installWrites log lh view).map Prod.fst = lh := by
  rw [installWrites, List.map_map]
  exact map_getD_range lh

theorem nodup_fst_logWrites (log : Area) (lh : List Nat) (view : Disk) :
    ((logWrites log lh view).map Prod.fst).Nodup := by
  rw [logWrites, List.map_map]
  exact List.nodup_range.map_on fun t _ u _ he => by
    simp only [Function.comp_apply] at he
    omega

/-- After installing, a home block holds what its log slot held. -/
theorem applyWrites_install {lh : List Nat} (hl : Loggable log lh) {t : Nat} (ht : t < lh.length) :
    applyWrites d (installWrites log lh view) (lh.getD t 0) = view (log.start + t + 1) :=
  applyWrites_of_mem (by rw [fst_installWrites]; exact hl.nodup)
    (List.mem_map.mpr ⟨t, List.mem_range.mpr ht, rfl⟩)

/-! ## Recovery -/

/-- The writes of a recovery: install what the header lists, then clear it. -/
theorem recoverWrites_eq (hl : Loggable log (readHead (d log.start))) :
    ∃ buf, recoverWrites log d =
      installWrites log (readHead (d log.start)) d ++ [(log.start, headBlock buf [])] := by
  rw [recoverWrites, recoverFromLog, Io.bread, Io.boot]
  simp only [installTrans_eq hl, writeHead, Io.bwrite, List.nil_append]
  exact ⟨_, rfl⟩

/-- An erased header ends every story: the disk is clean, whatever else
was on it inside the log. -/
theorem clean_of_head {target : Disk} {buf : Block}
    (h : ∀ b, ¬ log.Contains b → d b = target b) :
    Clean log target (Function.update d log.start (headBlock buf [])) where
  head := by rw [Function.update_self, rd32_zero_headBlock (by simp)]; rfl
  home := fun b hb => by
    have hne : b ≠ log.start := fun he => hb (by rw [he]; exact start_contains log)
    rw [Function.update_of_ne hne, h b hb]

/-- A clean disk recovers to itself outside the log, from every crash. -/
theorem Clean.recover {target : Disk} (h : Clean log target d) (k : Nat) :
    Clean log target (applyWrites d ((recoverWrites log d).take k)) := by
  have hnil : readHead (d log.start) = [] := readHead_of_zero h.head
  obtain ⟨buf, hw⟩ := recoverWrites_eq (d := d) (by rw [hnil]; exact Loggable.nil log)
  rw [hw, hnil, take_append_singleton]
  split
  · simpa [installWrites] using h
  · exact clean_of_head h.home

/-- Installing any prefix keeps a committed disk committed. -/
theorem Committed.install_take (hl : Loggable log lh.block)
    (h : Committed log lh.block view base d) (k : Nat) :
    Committed log lh.block view base
      (applyWrites d ((installWrites log lh.block d).take k)) := by
  have htouch : ∀ w ∈ (installWrites log lh.block d).take k, w.1 ∈ lh.block :=
    fun w hw => mem_installWrites (List.mem_of_mem_take hw)
  -- blocks of the log and blocks the header does not list are not targets
  have hkeep : ∀ b, (log.Contains b ∨ b ∉ lh.block) →
      applyWrites d ((installWrites log lh.block d).take k) b = d b := by
    intro b hb
    refine applyWrites_of_not_mem fun w hw he => ?_
    rcases hb with hin | hout
    · exact hl.outside _ (htouch w hw) (he ▸ hin)
    · exact hout (he ▸ htouch w hw)
  have hfit := hl.fits
  refine ⟨?_, ?_, ?_⟩
  · rw [hkeep _ (Or.inl (start_contains log))]
    exact h.head
  · intro t ht
    rw [hkeep _ (Or.inl ⟨by omega, by omega⟩)]
    exact h.logged t ht
  · intro b hb hne
    rw [hkeep b (Or.inr hne)]
    exact h.other b hb hne

/-- Installing everything makes the home blocks the new ones. -/
theorem Committed.install_all (hl : Loggable log lh.block)
    (h : Committed log lh.block view base d) {b : Nat} (hb : ¬ log.Contains b) :
    applyWrites d (installWrites log lh.block d) b = newDisk lh.block view base b := by
  by_cases hmem : b ∈ lh.block
  · obtain ⟨t, ht, rfl⟩ := List.getElem_of_mem hmem
    have hget : lh.block[t] = lh.block.getD t 0 := (List.getD_eq_getElem _ _ ht).symm
    rw [hget, applyWrites_install hl ht, h.logged t ht, newDisk, if_pos (getD_mem ht)]
  · rw [newDisk, if_neg hmem, applyWrites_of_not_mem, h.other b hb hmem]
    intro w hw he
    exact hmem (he ▸ mem_installWrites hw)

/-- **One recovery run, crashed anywhere**: a committed disk stays
committed, or the run finished and the disk is clean and new. -/
theorem Committed.recover (hl : Loggable log lh.block)
    (h : Committed log lh.block view base d) (k : Nat) :
    (k ≤ lh.block.length ∧
        Committed log lh.block view base (applyWrites d ((recoverWrites log d).take k)))
      ∨ (lh.block.length < k ∧
        Clean log (newDisk lh.block view base)
          (applyWrites d ((recoverWrites log d).take k))) := by
  obtain ⟨buf, hw⟩ := recoverWrites_eq (d := d) (by rw [h.head]; exact hl)
  rw [hw, h.head, take_append_singleton, length_installWrites]
  split
  · rename_i hk
    exact Or.inl ⟨hk, h.install_take hl k⟩
  · rename_i hk
    refine Or.inr ⟨by omega, ?_⟩
    rw [applyWrites_append]
    exact clean_of_head fun b hb => h.install_all hl hb

/-- Any sequence of crashed recoveries of a committed disk, completed
once, ends clean with the new blocks. -/
theorem Committed.restarts (hl : Loggable log lh.block)
    (h : Committed log lh.block view base d) {d' : Disk}
    (hr : Restarts (recoverWrites log) d d') : Clean log (newDisk lh.block view base) d' := by
  refine hr.rule (I := fun d => Committed log lh.block view base d
    ∨ Clean log (newDisk lh.block view base) d) ?_ ?_ (Or.inl h)
  · intro d k hd
    rcases hd with hd | hd
    · exact (hd.recover hl k).imp And.right And.right
    · exact Or.inr (hd.recover k)
  · intro d hd
    obtain ⟨k, hk, hlen⟩ : ∃ k, (recoverWrites log d).take k = recoverWrites log d
        ∧ lh.block.length < k :=
      ⟨(recoverWrites log d).length + lh.block.length + 1,
        List.take_of_length_le (by omega), by omega⟩
    rw [← hk]
    rcases hd with hd | hd
    · rcases hd.recover hl k with ⟨hle, -⟩ | ⟨-, hc⟩
      · omega
      · exact hc
    · exact hd.recover k

/-- A clean disk stays clean through any crashed recoveries. -/
theorem Clean.restarts {target d' : Disk} (h : Clean log target d)
    (hr : Restarts (recoverWrites log) d d') : Clean log target d' := by
  refine hr.rule (I := Clean log target) (fun d k hd => hd.recover k) (fun d hd => ?_) h
  have hall := hd.recover (recoverWrites log d).length
  rwa [List.take_length] at hall

/-! ## Commit -/

/-- The writes of a commit: the log, the header, the home blocks, the
erased header. -/
theorem commitWrites_eq (hl : Loggable log lh.block) (hne : 0 < lh.block.length) :
    ∃ buf buf', commitWrites log lh.block view =
      logWrites log lh.block view ++ ((log.start, headBlock buf lh.block) ::
        (installWrites log lh.block
          (Function.update (applyWrites view (logWrites log lh.block view)) log.start
            (headBlock buf lh.block)) ++ [(log.start, headBlock buf' [])])) := by
  rw [commitWrites, commit, if_pos hne]
  simp only [writeLog_eq hl, writeHead, Io.bwrite, Io.bread, installTrans_eq hl, Io.boot,
    List.nil_append, List.append_assoc, List.singleton_append]
  exact ⟨_, _, rfl⟩

/-- The log slots and the header make the disk committed. -/
theorem committed_of_head (hl : Loggable log lh.block) (buf : Block) :
    Committed log lh.block view base
      (Function.update (applyWrites base (logWrites log lh.block view)) log.start
        (headBlock buf lh.block)) where
  head := by rw [Function.update_self, readHead_headBlock]
  logged := fun t ht => by
    rw [Function.update_of_ne (by omega)]
    exact applyWrites_of_mem (nodup_fst_logWrites log lh.block view)
      (List.mem_map.mpr ⟨t, List.mem_range.mpr ht, rfl⟩)
  other := fun b hb _ => by
    have hne : b ≠ log.start := fun he => hb (by rw [he]; exact start_contains log)
    rw [Function.update_of_ne hne]
    exact applyWrites_of_not_mem fun w hw he => hb (he ▸ (mem_logWrites hl hw).1)

/-- Any part of the log writes leaves a clean disk clean. -/
theorem Clean.log_take {target : Disk} (hl : Loggable log lh.block) (h : Clean log target d)
    (k : Nat) : Clean log target (applyWrites d ((logWrites log lh.block view).take k)) where
  head := by
    rw [applyWrites_of_not_mem fun w hw => (mem_logWrites hl (List.mem_of_mem_take hw)).2]
    exact h.head
  home := fun b hb => by
    have hne : ∀ w ∈ (logWrites log lh.block view).take k, w.1 ≠ b := fun w hw he =>
      hb (he ▸ (mem_logWrites hl (List.mem_of_mem_take hw)).1)
    rw [applyWrites_of_not_mem hne, h.home b hb]

/-- The first `write_head` is among the first `k` disk writes of the
commit: some write to the header block reached the disk. -/
def HeadWritten (log : Area) (lh : List Nat) (view : Disk) (k : Nat) : Prop :=
  ∃ w ∈ (commitWrites log lh view).take k, w.1 = log.start

/-- Up to the log writes the header has not been written. -/
theorem not_headWritten_of_le (hl : Loggable log lh.block) {k : Nat} (hk : k ≤ lh.block.length) :
    ¬ HeadWritten log lh.block view k
      ∧ (commitWrites log lh.block view).take k = (logWrites log lh.block view).take k := by
  have htake : (commitWrites log lh.block view).take k = (logWrites log lh.block view).take k := by
    rcases Nat.eq_zero_or_pos lh.block.length with h0 | hpos
    · have hk0 : k = 0 := by omega
      subst hk0
      rfl
    · obtain ⟨buf, buf', hw⟩ := commitWrites_eq hl hpos
      rw [hw, List.take_append_of_le_length (by simpa using hk)]
  refine ⟨?_, htake⟩
  rintro ⟨w, hw, he⟩
  rw [htake] at hw
  exact (mem_logWrites hl (List.mem_of_mem_take hw)).2 he

/-- From the `n + 1`-st write on the disk is committed, or already clean
and new. -/
theorem commit_crash_late (hl : Loggable log lh.block) (hpos : 0 < lh.block.length) {k : Nat}
    (hk : lh.block.length < k) :
    Committed log lh.block view base (applyWrites base ((commitWrites log lh.block view).take k))
      ∨ Clean log (newDisk lh.block view base)
          (applyWrites base ((commitWrites log lh.block view).take k)) := by
  obtain ⟨buf, buf', hw⟩ := commitWrites_eq hl hpos
  obtain ⟨j, rfl⟩ : ∃ j, k = lh.block.length + (j + 1) := ⟨k - lh.block.length - 1, by omega⟩
  have hlen : lh.block.length = (logWrites log lh.block view).length := by simp
  have hcom : Committed log lh.block view base
      (Function.update (applyWrites base (logWrites log lh.block view)) log.start
        (headBlock buf lh.block)) := committed_of_head hl buf
  -- the slots the cache shows after `write_log` are the ones now on disk
  have hview : installWrites log lh.block
        (Function.update (applyWrites view (logWrites log lh.block view)) log.start
          (headBlock buf lh.block))
      = installWrites log lh.block
        (Function.update (applyWrites base (logWrites log lh.block view)) log.start
          (headBlock buf lh.block)) := by
    refine List.map_congr_left fun t ht => ?_
    have hcom' : Committed log lh.block view view
        (Function.update (applyWrites view (logWrites log lh.block view)) log.start
          (headBlock buf lh.block)) := committed_of_head hl buf
    rw [hcom.logged t (List.mem_range.mp ht), hcom'.logged t (List.mem_range.mp ht)]
  rw [hw, hlen, List.take_length_add_append, List.take_succ_cons, applyWrites_append,
    applyWrites_cons, hview, take_append_singleton]
  split
  · exact Or.inl (hcom.install_take hl j)
  · refine Or.inr ?_
    rw [applyWrites_append]
    exact clean_of_head fun b hb => hcom.install_all hl hb

/-- **Crash atomicity of the redo log.** The on-disk header starts with
`n = 0`; `commit()` runs with a header listing distinct home blocks
outside the log, their new contents in the cache, and the disk stops
after any `k` of its writes; recovery then runs, crashed and restarted
any number of times, until one run completes. The blocks outside the log
are all the new ones when the commit's first `write_head` reached the
disk and all the old ones when it did not, and the header ends with
`n = 0`. -/
theorem commit_crash_atomic (log : Area) (lh : Header) (disk cache : Disk)
    (hl : Loggable log lh.block) (hfresh : (disk log.start).rd32 0 = 0) (k : Nat) (d : Disk)
    (hr : Restarts (recoverWrites log)
      (applyWrites disk ((commitWrites log lh.block cache).take k)) d) :
    (HeadWritten log lh.block cache k →
        ∀ b, ¬ log.Contains b → d b = newDisk lh.block cache disk b)
      ∧ (¬ HeadWritten log lh.block cache k → ∀ b, ¬ log.Contains b → d b = disk b)
      ∧ (d log.start).rd32 0 = 0 := by
  have hold : Clean log disk disk := ⟨hfresh, fun _ _ => rfl⟩
  rcases Nat.lt_or_ge lh.block.length k with hk | hk
  · rcases Nat.eq_zero_or_pos lh.block.length with h0 | hpos
    · -- an empty header: `commit()` writes nothing
      have hnil : commitWrites log lh.block cache = [] := by
        rw [commitWrites, commit, if_neg (by omega)]
        rfl
      rw [hnil] at hr
      have hc := hold.restarts (by simpa using hr)
      refine ⟨?_, fun _ => hc.home, hc.head⟩
      rintro ⟨w, hw, -⟩
      simp [hnil] at hw
    · have hc : Clean log (newDisk lh.block cache disk) d := by
        rcases commit_crash_late hl hpos hk with h | h
        · exact h.restarts hl hr
        · exact h.restarts hr
      refine ⟨fun _ => hc.home, fun hno => absurd ?_ hno, hc.head⟩
      obtain ⟨buf, buf', hw⟩ := commitWrites_eq hl hpos
      refine ⟨(log.start, headBlock buf lh.block), ?_, rfl⟩
      obtain ⟨j, rfl⟩ : ∃ j, k = lh.block.length + (j + 1) := ⟨k - lh.block.length - 1, by omega⟩
      have hlen : lh.block.length = (logWrites log lh.block cache).length := by simp
      rw [hw, hlen, List.take_length_add_append, List.take_succ_cons]
      simp
  · obtain ⟨hno, htake⟩ := not_headWritten_of_le hl hk
    rw [htake] at hr
    have hc := (hold.log_take hl k).restarts hr
    exact ⟨fun h => absurd h hno, fun _ => hc.home, hc.head⟩

/-- The disk after a recovery that stops at its first `j` writes and one
that completes. -/
def recoverTwice (log : Area) (d : Disk) (j : Nat) : Disk :=
  applyWrites (applyWrites d ((recoverWrites log d).take j))
    (recoverWrites log (applyWrites d ((recoverWrites log d).take j)))

/-- Every block holds its own number. -/
def numbered : Disk := fun b => BitVec.ofNat _ b

/-- The blocks 100, 101 and 102 are committed over an erased disk, and the
first recovery stops when two of them are home. With five writes of the
commit on disk, the header and one home block among them, all three end up
new; with only the three writes to the log, all three stay as they were. -/
theorem commit_crash_atomic_three_blocks :
    (∀ b ∈ [100, 101, 102],
      recoverTwice ⟨2, 30, by decide⟩
        (applyWrites (fun _ => Bytes.zero BSIZE)
          ((commitWrites ⟨2, 30, by decide⟩ [100, 101, 102] numbered).take 5)) 2 b = numbered b) ∧
    (∀ b ∈ [100, 101, 102],
      recoverTwice ⟨2, 30, by decide⟩
        (applyWrites (fun _ => Bytes.zero BSIZE)
          ((commitWrites ⟨2, 30, by decide⟩ [100, 101, 102] numbered).take 3)) 2 b =
        Bytes.zero BSIZE) := by
  have hl : Loggable ⟨2, 30, by decide⟩ [100, 101, 102] :=
    ⟨by decide, by simp [Area.Contains], by decide⟩
  have hhead : HeadWritten ⟨2, 30, by decide⟩ [100, 101, 102] numbered 5 :=
    ⟨_, List.mem_cons_of_mem _ (List.mem_cons_of_mem _ (List.mem_cons_of_mem _
      List.mem_cons_self)), rfl⟩
  have hno : ¬ HeadWritten ⟨2, 30, by decide⟩
      (⟨[100, 101, 102], by decide, by simp⟩ : Header).block numbered 3 :=
    (not_headWritten_of_le hl (Nat.le_refl 3)).1
  have h := fun k => commit_crash_atomic ⟨2, 30, by decide⟩ ⟨[100, 101, 102], by decide, by simp⟩
    (fun _ => Bytes.zero BSIZE) numbered hl (Bytes.rd32_zero 0) k _
    (.crash _ 2 (.complete _))
  refine ⟨fun b hb => ?_, fun b hb => (h 3).2.1 hno b (hl.outside b hb)⟩
  rw [recoverTwice, (h 5).1 hhead b (hl.outside b hb), newDisk, if_pos hb]

end Xv6.Log
