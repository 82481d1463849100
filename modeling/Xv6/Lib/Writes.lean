import Mathlib.Logic.Function.Basic
import Mathlib.Data.List.Nodup

/-!
# Writes — arrays, write sequences, crashes and restarts

An array is a function from indices to cells; a program's effect on a
durable array is the SEQUENCE of single-cell writes it issues. A crash
keeps a prefix of that sequence. A recovery procedure is given by the
writes it would issue from each array, and `Restarts` is the relation
"recovery was started, crashed and restarted any number of times, and
one run completed".

The rule `Restarts.rule` is the only induction over restarts a client
needs: an invariant that every crashed run keeps, and that a completed
run turns into the conclusion.
-/

namespace Xv6.Lib

variable {ι β : Type*} [DecidableEq ι]

/-- The array after the writes of `ws`, in order. -/
def applyWrites (d : ι → β) (ws : List (ι × β)) : ι → β :=
  ws.foldl (fun d w => Function.update d w.1 w.2) d

@[simp] theorem applyWrites_nil (d : ι → β) : applyWrites d [] = d := rfl

@[simp] theorem applyWrites_cons (d : ι → β) (w : ι × β) (ws : List (ι × β)) :
    applyWrites d (w :: ws) = applyWrites (Function.update d w.1 w.2) ws := rfl

@[simp] theorem applyWrites_append (d : ι → β) (ws ws' : List (ι × β)) :
    applyWrites d (ws ++ ws') = applyWrites (applyWrites d ws) ws' := by
  simp [applyWrites, List.foldl_append]

/-- A cell that no write names is unchanged. -/
theorem applyWrites_of_not_mem {d : ι → β} {ws : List (ι × β)} {i : ι}
    (h : ∀ w ∈ ws, w.1 ≠ i) : applyWrites d ws i = d i := by
  induction ws generalizing d with
  | nil => rfl
  | cons w ws ih =>
      rw [applyWrites_cons, ih (fun v hv => h v (List.mem_cons_of_mem _ hv))]
      exact Function.update_of_ne (h w List.mem_cons_self).symm _ _

/-- With distinct targets, a written cell holds what was written. -/
theorem applyWrites_of_mem {d : ι → β} {ws : List (ι × β)} {i : ι} {v : β}
    (hnd : (ws.map Prod.fst).Nodup) (h : (i, v) ∈ ws) : applyWrites d ws i = v := by
  induction ws generalizing d with
  | nil => simp at h
  | cons w ws ih =>
      rw [List.map_cons, List.nodup_cons] at hnd
      rw [applyWrites_cons]
      rcases List.mem_cons.mp h with rfl | htl
      · rw [applyWrites_of_not_mem, Function.update_self]
        intro u hu he
        exact hnd.1 (List.mem_map.mpr ⟨u, hu, he⟩)
      · exact ih hnd.2 htl

/-- Recovery started on the first array, crashed and restarted any
number of times, and completed with the second. -/
inductive Restarts (recover : (ι → β) → List (ι × β)) : (ι → β) → (ι → β) → Prop
  | complete (d : ι → β) : Restarts recover d (applyWrites d (recover d))
  | crash (d : ι → β) (k : Nat) {d' : ι → β} :
      Restarts recover (applyWrites d ((recover d).take k)) d' → Restarts recover d d'

/-- **The restart rule**: an invariant kept by every crashed run, and
turned into `J` by a completed one, gives `J` at the end. -/
theorem Restarts.rule {recover : (ι → β) → List (ι × β)} {I J : (ι → β) → Prop}
    (hcrash : ∀ d k, I d → I (applyWrites d ((recover d).take k)))
    (hdone : ∀ d, I d → J (applyWrites d (recover d)))
    {d d' : ι → β} (h : Restarts recover d d') (hI : I d) : J d' := by
  induction h with
  | complete d => exact hdone d hI
  | crash d k _ ih => exact ih (hcrash d k hI)

end Xv6.Lib
