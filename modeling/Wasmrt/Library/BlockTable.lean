import Mathlib.Data.BitVec
import Mathlib.Data.FinEnum
import Mathlib.Tactic.Common

/-!
# Interning into disjoint blocks

A table that gives each key a block of consecutive numbers, as many as the key's size. Keys are
interned one after another; a new key gets the block that starts at or above everything handed out
so far. A number of a block then determines the key and the position in the block.

## Main definitions

* `BlockTable P size base next`: the blocks of the keys satisfying `P` are disjoint and end at or
  below `next`.

## Main results

* `BlockTable.eq_of_add_eq`: equal numbers come from equal keys at equal positions.
* `BlockTable.insert`: interning a new key at `next` keeps the table disjoint.
-/

variable {κ : Type*}

/-- The blocks `[base k, base k + size k)` of distinct keys are disjoint and lie below `next`. -/
structure BlockTable (P : κ → Prop) (size : κ → ℕ) (base : κ → Option ℕ) (next : ℕ) : Prop where
  below : ∀ ⦃k b⦄, P k → base k = some b → b + size k ≤ next
  disjoint : ∀ ⦃k k' b b'⦄, P k → P k' → base k = some b → base k' = some b' → k ≠ k' →
    b + size k ≤ b' ∨ b' + size k' ≤ b

namespace BlockTable

variable {P : κ → Prop} {size : κ → ℕ} {base : κ → Option ℕ} {next : ℕ}

/-- A table with no key is disjoint. -/
theorem empty (h : ∀ k, base k = none) : BlockTable P size base next where
  below := by simp [h]
  disjoint := by simp [h]

/-- A number determines the key whose block it lies in, and its position there. -/
theorem eq_of_add_eq (T : BlockTable P size base next) {k k' : κ} {b b' i i' : ℕ} (hk : P k)
    (hk' : P k') (hb : base k = some b) (hb' : base k' = some b') (hi : i < size k)
    (hi' : i' < size k') (h : b + i = b' + i') : k = k' ∧ i = i' := by
  by_cases hne : k = k'
  · subst hne
    obtain rfl : b = b' := Option.some.inj (hb.symm.trans hb')
    exact ⟨rfl, by omega⟩
  · rcases T.disjoint hk hk' hb hb' hne with hlt | hlt <;> omega

/-- A new key interned at `next` keeps the blocks disjoint. -/
theorem insert [DecidableEq κ] (T : BlockTable P size base next) {k : κ} {base' : κ → Option ℕ}
    {next' : ℕ} (hbase : ∀ k', P k' → base' k' = if k' = k then some next else base k')
    (hnext : next + size k ≤ next') : BlockTable P size base' next' where
  below := by
    intro k' b hk' hb
    rw [hbase k' hk'] at hb
    split at hb
    · next heq => subst heq; cases hb; exact hnext
    · have := T.below hk' hb
      omega
  disjoint := by
    intro k₁ k₂ b₁ b₂ hk₁ hk₂ hb₁ hb₂ hne
    rw [hbase _ hk₁] at hb₁
    rw [hbase _ hk₂] at hb₂
    split at hb₁ <;> split at hb₂
    · next h₁ h₂ => exact absurd (h₁.trans h₂.symm) hne
    · cases hb₁
      exact .inr (T.below hk₂ hb₂)
    · cases hb₂
      exact .inl (T.below hk₁ hb₁)
    · exact T.disjoint hk₁ hk₂ hb₁ hb₂ hne

end BlockTable
