import Mathlib.Logic.Relation
import Mathlib.Data.Fintype.Card
import Mathlib.Algebra.BigOperators.Group.Finset.Piecewise

/-!
# Runs — transition systems given by a step function

A system is `step : σ → α → Option σ`: the state after an action, or
`none` where the action is not enabled. `Reaches` hides the actions;
`execAll` runs a given list of them, so a concrete run can be evaluated.

The counting lemmas at the end are what invariants of the form "this
counter equals the number of parties in that phase" need when one party
moves.
-/

namespace Xv6.Lib

variable {σ α : Type*}

/-- `s'` is reached from `s` by some sequence of actions. -/
def Reaches (step : σ → α → Option σ) : σ → σ → Prop :=
  Relation.ReflTransGen fun s s' => ∃ a, step s a = some s'

/-- **The invariant rule**: what every step keeps holds in every state
reached. -/
theorem Reaches.invariant {step : σ → α → Option σ} {I : σ → Prop}
    (hstep : ∀ s a s', I s → step s a = some s' → I s')
    {s s' : σ} (h : Reaches step s s') (h0 : I s) : I s' := by
  induction h with
  | refl => exact h0
  | tail _ hs ih =>
      obtain ⟨a, ha⟩ := hs
      exact hstep _ a _ ih ha

/-- Run a list of actions. -/
def execAll (step : σ → α → Option σ) (s : σ) (acts : List α) : Option σ :=
  acts.foldlM step s

theorem execAll_append_eq_some {step : σ → α → Option σ} {s u : σ} {as bs : List α} :
    execAll step s (as ++ bs) = some u ↔
      ∃ t, execAll step s as = some t ∧ execAll step t bs = some u := by
  simp only [execAll, List.foldlM_append, Option.bind_eq_bind, Option.bind_eq_some_iff]

theorem execAll_cons_eq_some {step : σ → α → Option σ} {s u : σ} {a : α} {as : List α} :
    execAll step s (a :: as) = some u ↔ ∃ t, step s a = some t ∧ execAll step t as = some u := by
  simp only [execAll, List.foldlM_cons, Option.bind_eq_bind, Option.bind_eq_some_iff]

theorem reaches_of_execAll {step : σ → α → Option σ} {s s' : σ} {acts : List α}
    (h : execAll step s acts = some s') : Reaches step s s' := by
  induction acts generalizing s with
  | nil =>
      cases h
      exact Relation.ReflTransGen.refl
  | cons a acts ih =>
      obtain ⟨t, ht, hrest⟩ := execAll_cons_eq_some.mp h
      exact Relation.ReflTransGen.head ⟨a, ht⟩ (ih hrest)

/-- What a run keeps whatever it does. -/
theorem execAll_invariant {step : σ → α → Option σ} {K : σ → Prop}
    (hK : ∀ s a t, K s → step s a = some t → K t) {s t : σ} {acts : List α}
    (h : execAll step s acts = some t) (h0 : K s) : K t :=
  (reaches_of_execAll h).invariant hK h0

/-- **Along a run**: where each step keeps `I` if and only if it meets `C`,
all states have `I` if and only if all steps meet `C`. -/
theorem holds_along_iff {step : σ → α → Option σ} {K I : σ → Prop} {C : σ → α → Prop} {s₀ u : σ}
    {acts : List α} (hK0 : K s₀) (hK : ∀ s a t, K s → step s a = some t → K t) (hI0 : I s₀)
    (hI : ∀ s a t, K s → I s → step s a = some t → (I t ↔ C s a))
    (hrun : execAll step s₀ acts = some u) :
    (∀ pre s, pre <+: acts → execAll step s₀ pre = some s → I s) ↔
      ∀ pre a s, pre ++ [a] <+: acts → execAll step s₀ pre = some s → C s a := by
  have hlast : ∀ s t a, execAll step s [a] = some t → step s a = some t := by
    intro s t a h
    obtain ⟨t', ht', he⟩ := execAll_cons_eq_some.mp h
    cases he
    exact ht'
  constructor
  · intro hall pre a s hpre hs
    obtain ⟨rest, rfl⟩ := hpre
    obtain ⟨t, ht, _⟩ := execAll_append_eq_some.mp hrun
    obtain ⟨s', hs', hstep⟩ := execAll_append_eq_some.mp ht
    obtain rfl : s = s' := Option.some.inj (hs.symm.trans hs')
    have hIs := hall pre s ⟨[a] ++ rest, (List.append_assoc ..).symm⟩ hs
    have hIt := hall (pre ++ [a]) t ⟨rest, rfl⟩ ht
    exact (hI s a t (execAll_invariant hK hs hK0) hIs (hlast s t a hstep)).mp hIt
  · intro hall pre
    induction pre using List.reverseRecOn with
    | nil =>
        intro s _ hs
        cases hs
        exact hI0
    | append_singleton pre a ih =>
        intro t hpre ht
        obtain ⟨s, hs, hstep⟩ := execAll_append_eq_some.mp ht
        have hIs := ih s ((List.prefix_append pre [a]).trans hpre) hs
        exact (hI s a t (execAll_invariant hK hs hK0) hIs (hlast s t a hstep)).mpr
          (hall pre a s hpre hs)

/-- Restrict a system to the actions that meet a condition on the state
before them. -/
def guarded (C : σ → α → Prop) [∀ s a, Decidable (C s a)] (step : σ → α → Option σ) :
    σ → α → Option σ := fun s a => if C s a then step s a else none

theorem guarded_eq_some {C : σ → α → Prop} [∀ s a, Decidable (C s a)]
    {step : σ → α → Option σ} {s s' : σ} {a : α} :
    guarded C step s a = some s' ↔ C s a ∧ step s a = some s' := by
  by_cases h : C s a <;> simp [guarded, h]

/-- A restricted run is a run. -/
theorem Reaches.of_guarded {C : σ → α → Prop} [∀ s a, Decidable (C s a)]
    {step : σ → α → Option σ} {s s' : σ} (h : Reaches (guarded C step) s s') :
    Reaches step s s' := by
  induction h with
  | refl => exact Relation.ReflTransGen.refl
  | tail _ hs ih =>
      obtain ⟨a, ha⟩ := hs
      exact ih.tail ⟨a, (guarded_eq_some.mp ha).2⟩

/-! ## One party moves -/

/-- What holds of every party after one of them moved. -/
theorem forall_update {P β : Type*} [DecidableEq P] {R : P → β → Prop} {f : P → β} {p : P} {v : β}
    (hp : R p v) (hq : ∀ q, q ≠ p → R q (f q)) (q : P) : R q (Function.update f p v q) := by
  rcases eq_or_ne q p with rfl | hne
  · rwa [Function.update_self]
  · rw [Function.update_of_ne hne]
    exact hq q hne

/-! ## Counting parties -/

section Count

variable {P β : Type*} [Fintype P]

/-- How many parties are in a phase that satisfies `q`. -/
def countIn (q : β → Bool) (pc : P → β) : Nat :=
  (Finset.univ.filter fun p => q (pc p) = true).card

theorem countIn_eq_zero {q : β → Bool} {pc : P → β} :
    countIn q pc = 0 ↔ ∀ p, q (pc p) = false := by
  simp [countIn, Finset.filter_eq_empty_iff]

theorem countIn_pos {q : β → Bool} {pc : P → β} {p : P} (h : q (pc p) = true) :
    0 < countIn q pc :=
  Finset.card_pos.mpr ⟨p, by simp [h]⟩

/-- A sum over the parties, when one party's summand changes. -/
theorem sum_add_eq_of_agree [DecidableEq P] {f g : P → Nat} (p : P)
    (h : ∀ x, x ≠ p → g x = f x) : (∑ x, g x) + f p = (∑ x, f x) + g p := by
  have hf : ∑ x, f x = f p + ∑ x ∈ Finset.univ.erase p, f x :=
    (Finset.add_sum_erase _ _ (Finset.mem_univ p)).symm
  have hg : ∑ x, g x = g p + ∑ x ∈ Finset.univ.erase p, g x :=
    (Finset.add_sum_erase _ _ (Finset.mem_univ p)).symm
  have heq : ∑ x ∈ Finset.univ.erase p, g x = ∑ x ∈ Finset.univ.erase p, f x :=
    Finset.sum_congr rfl fun x hx => h x (Finset.ne_of_mem_erase hx)
  omega

/-- One party moves: the count changes by what it was and what it is. -/
theorem countIn_update [DecidableEq P] (q : β → Bool) (pc : P → β) (p : P) (v : β) :
    countIn q (Function.update pc p v) + (if q (pc p) then 1 else 0)
      = countIn q pc + (if q v then 1 else 0) := by
  simp only [countIn, Finset.card_filter]
  have h := sum_add_eq_of_agree (f := fun x => if q (pc x) = true then 1 else 0)
    (g := fun x => if q (Function.update pc p v x) = true then 1 else 0) p
    (fun x hx => by rw [Function.update_of_ne hx])
  simpa using h

end Count

end Xv6.Lib
