import Mathlib.Data.BitVec
import Mathlib.Data.FinEnum
import Mathlib.Tactic.Common

/-!
# Framed records

Records laid end to end, each of which tells where it ends. A reader who holds only the front of such a string takes
the records that are complete off it, and knows where to go on.

## Main definitions

* `Framing`: how records are written, and how one is taken off the front of a string.
* `Framing.complete`: the complete records at the front of a string.

## Main results

* `Framing.complete_take`: what is complete at the front of some records are the first of them.
-/

/-- How records are written, and how one is taken off the front of a string. -/
structure Framing (α β : Type*) where
  encode : α → List β
  parse : List β → Option (α × List β)
  /-- The records that can be written. -/
  Valid : α → Prop
  parse_append {a : α} (ha : Valid a) (rest : List β) : parse (encode a ++ rest) = some (a, rest)
  parse_take {a : α} (ha : Valid a) {n : ℕ} (hn : n < (encode a).length) : parse ((encode a).take n) = none
  length_lt {l rest : List β} {a : α} (h : parse l = some (a, rest)) : rest.length < l.length

namespace Framing

variable {α β : Type*} (F : Framing α β)

/-- At most `fuel` records at the front of a string. -/
def records : ℕ → List β → List α
  | 0, _ => []
  | fuel + 1, l =>
    match F.parse l with
    | some (a, rest) => a :: records fuel rest
    | none => []

/-- The complete records at the front of a string. -/
def complete (l : List β) : List α := F.records l.length l

variable {F}

theorem records_of_parse {l rest : List β} {a : α} (h : F.parse l = some (a, rest)) (fuel : ℕ) :
    F.records (fuel + 1) l = a :: F.records fuel rest := by
  rw [records, h]

theorem records_of_parse_none {l : List β} (h : F.parse l = none) (fuel : ℕ) : F.records fuel l = [] := by
  cases fuel with
  | zero => rfl
  | succ fuel => rw [records, h]

theorem parse_nil : F.parse [] = none := by
  by_contra h
  obtain ⟨⟨a, rest⟩, hparse⟩ := Option.ne_none_iff_exists'.mp h
  exact absurd (F.length_lt hparse) (Nat.not_lt_zero _)

/-- A record takes up some room. -/
theorem length_pos {a : α} (ha : F.Valid a) : 0 < (F.encode a).length := by
  have hparse := F.parse_append ha []
  rw [List.append_nil] at hparse
  exact F.length_lt hparse

theorem records_take {l : List α} (hl : ∀ a ∈ l, F.Valid a) {b fuel : ℕ}
    (hfuel : ((l.flatMap F.encode).take b).length ≤ fuel) :
    ∃ j ≤ l.length, F.records fuel ((l.flatMap F.encode).take b) = l.take j ∧
      ∀ a ∈ l.head?, (F.encode a).length ≤ b → 0 < j := by
  induction l generalizing b fuel with
  | nil =>
    rw [List.flatMap_nil, List.take_nil]
    exact ⟨0, Nat.le_refl _, records_of_parse_none parse_nil fuel, nofun⟩
  | cons a l ih =>
    have ha : F.Valid a := hl a List.mem_cons_self
    rw [List.flatMap_cons] at hfuel ⊢
    by_cases hb : (F.encode a).length ≤ b
    · -- The first record is complete, and the reader goes on behind it.
      rw [List.take_append, List.take_of_length_le hb] at hfuel ⊢
      have hpos := length_pos ha
      rw [List.length_append] at hfuel
      obtain ⟨fuel, rfl⟩ : ∃ f, fuel = f + 1 := ⟨fuel - 1, by omega⟩
      have hrest : ((l.flatMap F.encode).take (b - (F.encode a).length)).length ≤ fuel := by omega
      obtain ⟨j, hj, hrecords, -⟩ := ih (fun a' ha' => hl a' (List.mem_cons_of_mem _ ha')) hrest
      refine ⟨j + 1, by rw [List.length_cons]; omega, ?_, fun _ _ _ => Nat.succ_pos j⟩
      rw [records_of_parse (F.parse_append ha _), hrecords, List.take_succ_cons]
    · rw [List.take_append_of_le_length (by omega)]
      refine ⟨0, Nat.zero_le _, records_of_parse_none (F.parse_take ha (by omega)) fuel, ?_⟩
      intro a' ha' hb'
      obtain rfl := Option.some.inj ha'
      exact absurd hb' hb

/-- What is complete at the front of some records are the first of them, and there is one if there is room for it. -/
theorem complete_take {l : List α} (hl : ∀ a ∈ l, F.Valid a) (b : ℕ) :
    ∃ j ≤ l.length, F.complete ((l.flatMap F.encode).take b) = l.take j ∧
      ∀ a ∈ l.head?, (F.encode a).length ≤ b → 0 < j :=
  records_take hl (Nat.le_refl _)

end Framing
