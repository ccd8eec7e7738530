import Mathlib.Data.BitVec
import Mathlib.Data.FinEnum
import Mathlib.Tactic.Common

/-!
# Shared slots

Nodes that join one after another, each with a list of entries that name slots of one memory. An entry
is an alias of an entry of an earlier node, or has a slot of its own. Following the aliases of an entry
leads to the entry that owns the slot, and two entries share a slot exactly when they lead to the same
owner.

## Main definitions

* `Origin source i k o l`: following the aliases from entry `k` of node `i` ends at entry `l` of `o`.
* `AliasTable source slot`: aliases point to earlier nodes and share the slot; owned slots are distinct.

## Main results

* `AliasTable.join`: a node whose aliases point into the table, and whose other slots are new, joins.
* `AliasTable.exists_origin`, `Origin.unique`: every entry leads to exactly one owner.
* `AliasTable.slot_eq_iff`: two entries have one slot iff they have one owner.
-/

/-- Following the aliases from entry `k` of node `i` ends at entry `l` of node `o`, which is no
alias. -/
inductive Origin (source : ℕ → ℕ → Option (ℕ × ℕ)) : ℕ → ℕ → ℕ → ℕ → Prop
  | own {i k : ℕ} (h : source i k = none) : Origin source i k i k
  | follow {i k e j o l : ℕ} (h : source i k = some (e, j)) (hrest : Origin source e j o l) :
    Origin source i k o l

namespace Origin

variable {source : ℕ → ℕ → Option (ℕ × ℕ)} {i k o l o' l' : ℕ}

/-- The end of a chain is no alias. -/
theorem source_eq_none (h : Origin source i k o l) : source o l = none := by
  induction h with
  | own h => exact h
  | follow _ _ ih => exact ih

/-- A chain has one end. -/
theorem unique (h : Origin source i k o l) (h' : Origin source i k o' l') : o = o' ∧ l = l' := by
  induction h with
  | own hnone =>
    cases h' with
    | own => exact ⟨rfl, rfl⟩
    | follow hsome _ => simp [hnone] at hsome
  | follow hsome _ ih =>
    cases h' with
    | own hnone => simp [hnone] at hsome
    | follow hsome' hrest =>
      rw [hsome, Option.some.injEq, Prod.mk.injEq] at hsome'
      obtain ⟨rfl, rfl⟩ := hsome'
      exact ih hrest

/-- The chain of an owner is empty. -/
theorem eq_of_source_eq_none (h : Origin source i k o l) (hnone : source i k = none) :
    o = i ∧ l = k :=
  h.unique (.own hnone)

end Origin

/-- A table of slots in which every alias points to an earlier node and has the slot it points to, and
no two entries of their own have one slot. -/
structure AliasTable (source : ℕ → ℕ → Option (ℕ × ℕ)) (slot : ℕ → ℕ → Option ℕ) : Prop where
  source_lt : ∀ ⦃i k e j⦄, source i k = some (e, j) → e < i
  slot_eq : ∀ ⦃i k e j⦄, source i k = some (e, j) → slot i k = slot e j
  own_inj : ∀ ⦃i k i' k' c⦄, source i k = none → source i' k' = none → slot i k = some c →
    slot i' k' = some c → i = i' ∧ k = k'

namespace AliasTable

variable {source : ℕ → ℕ → Option (ℕ × ℕ)} {slot : ℕ → ℕ → Option ℕ} {i k o l i' k' o' l' : ℕ}

/-- Node `n` joins a table whose slots are below `size`: its aliases point into the table, and the
slots of its own are new and distinct. -/
theorem join {source' : ℕ → ℕ → Option (ℕ × ℕ)} {slot' : ℕ → ℕ → Option ℕ}
    (h : AliasTable source slot) (n size : ℕ) (hsource : ∀ ⦃i⦄, i ≠ n → source' i = source i)
    (hslot : ∀ ⦃i⦄, i ≠ n → slot' i = slot i)
    (hsize : ∀ ⦃i k c⦄, i ≠ n → slot i k = some c → c < size)
    (halias : ∀ ⦃k e j⦄, source' n k = some (e, j) → e < n ∧ slot' n k = slot e j)
    (hown : ∀ ⦃k c⦄, source' n k = none → slot' n k = some c → size ≤ c)
    (hinj : ∀ ⦃k k' c⦄, source' n k = none → source' n k' = none → slot' n k = some c →
      slot' n k' = some c → k = k')
    (hlt : ∀ ⦃i k e j⦄, i ≠ n → source i k = some (e, j) → e ≠ n) :
    AliasTable source' slot' where
  source_lt i k e j hs := by
    by_cases hi : i = n
    · subst hi
      exact (halias hs).1
    · rw [hsource hi] at hs
      exact h.source_lt hs
  slot_eq i k e j hs := by
    by_cases hi : i = n
    · subst hi
      obtain ⟨hen, heq⟩ := halias hs
      rw [heq, hslot (Nat.ne_of_lt hen)]
    · rw [hsource hi] at hs
      rw [hslot hi, hslot (hlt hi hs)]
      exact h.slot_eq hs
  own_inj i k i' k' c hi hi' hc hc' := by
    -- the slots of the new node are beyond those of the others
    by_cases hin : i = n <;> by_cases hin' : i' = n
    · subst hin hin'
      exact ⟨rfl, hinj hi hi' hc hc'⟩
    · subst hin
      rw [hslot hin'] at hc'
      have hge := hown hi hc
      have hlt := hsize hin' hc'
      omega
    · subst hin'
      rw [hslot hin] at hc
      have hge := hown hi' hc'
      have hlt := hsize hin hc
      omega
    · rw [hsource hin] at hi
      rw [hsource hin'] at hi'
      rw [hslot hin] at hc
      rw [hslot hin'] at hc'
      exact h.own_inj hi hi' hc hc'

/-- Every entry leads to an owner: the nodes of a chain have falling numbers. -/
theorem exists_origin (h : AliasTable source slot) (i k : ℕ) : ∃ o l, Origin source i k o l := by
  induction i using Nat.strongRecOn generalizing k with
  | ind i ih =>
    cases hs : source i k with
    | none => exact ⟨i, k, .own hs⟩
    | some p =>
      obtain ⟨e, j⟩ := p
      obtain ⟨o, l, hrest⟩ := ih e (h.source_lt hs) j
      exact ⟨o, l, .follow hs hrest⟩

/-- An alias has the slot of its owner, through any number of aliases. -/
theorem slot_origin (h : AliasTable source slot) (ho : Origin source i k o l) :
    slot i k = slot o l := by
  induction ho with
  | own => rfl
  | follow hs _ ih => exact (h.slot_eq hs).trans ih

/-- Two entries have one slot exactly when they have one owner. -/
theorem slot_eq_iff (h : AliasTable source slot) {c c' : ℕ} (hc : slot i k = some c)
    (hc' : slot i' k' = some c') (ho : Origin source i k o l) (ho' : Origin source i' k' o' l') :
    c = c' ↔ o = o' ∧ l = l' := by
  have hown : slot o l = some c := (h.slot_origin ho).symm.trans hc
  have hown' : slot o' l' = some c' := (h.slot_origin ho').symm.trans hc'
  constructor
  · rintro rfl
    exact h.own_inj ho.source_eq_none ho'.source_eq_none hown hown'
  · rintro ⟨rfl, rfl⟩
    exact Option.some.inj (hown.symm.trans hown')

end AliasTable
