import Mathlib.Algebra.Order.BigOperators.Group.List
import Mathlib.Algebra.Order.Ring.Nat
import Mathlib.Data.BitVec
import Mathlib.Data.FinEnum
import Mathlib.Tactic.Common

/-!
# Saturating counters

A system keeps a counter for each of finitely many slots. If every counter below its target can be
advanced by a step that leaves the other counters alone, some run brings all of them to their targets.

## Main results

* `exists_run_saturated`: the run to the targets.
-/

variable {σ : Type*} {Step : σ → σ → Prop} {Inv : σ → Prop} {size : σ → ℕ → ℕ} {target : ℕ → ℕ}
  {slots : List ℕ}

/-- The distance to the targets shrinks when one counter advances. -/
private theorem distance_lt {s s' : σ} {k : ℕ} (hk : k ∈ slots) (hlt : size s k < size s' k)
    (hle : size s' k ≤ target k) (hother : ∀ j ≠ k, size s' j = size s j) :
    (slots.map fun j => target j - size s' j).sum < (slots.map fun j => target j - size s j).sum := by
  refine List.sum_lt_sum _ _ (fun j _ => ?_) ⟨k, hk, by omega⟩
  by_cases hj : j = k
  · subst hj
    omega
  · rw [hother j hj]

/-- If every counter below its target can advance on its own, some run brings all of them to their
targets. -/
theorem exists_run_saturated
    (hstep : ∀ s, Inv s → ∀ k ∈ slots, size s k < target k → ∃ s', Step s s' ∧ Inv s' ∧
      size s k < size s' k ∧ size s' k ≤ target k ∧ ∀ j ≠ k, size s' j = size s j)
    {s : σ} (hinv : Inv s) (hle : ∀ k ∈ slots, size s k ≤ target k) :
    ∃ s', Relation.ReflTransGen Step s s' ∧ Inv s' ∧ ∀ k ∈ slots, size s' k = target k := by
  -- the induction is on the total distance to the targets
  induction hn : (slots.map fun j => target j - size s j).sum using Nat.strong_induction_on
    generalizing s with
  | _ n ih =>
    by_cases hdone : ∀ k ∈ slots, size s k = target k
    · exact ⟨s, .refl, hinv, hdone⟩
    · push Not at hdone
      obtain ⟨k, hk, hne⟩ := hdone
      obtain ⟨s₁, hs₁, hinv₁, hlt, hle₁, hother⟩ :=
        hstep s hinv k hk (lt_of_le_of_ne (hle k hk) hne)
      have hle' : ∀ j ∈ slots, size s₁ j ≤ target j := by
        intro j hj
        by_cases hjk : j = k
        · exact hjk ▸ hle₁
        · exact hother j hjk ▸ hle j hj
      obtain ⟨s', hrun, hinv', hsat⟩ :=
        ih _ (hn ▸ distance_lt hk hlt hle₁ hother) hinv₁ hle' rfl
      exact ⟨s', .head hs₁ hrun, hinv', hsat⟩
