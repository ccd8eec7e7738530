import Mathlib.Data.BitVec
import Mathlib.Data.FinEnum
import Mathlib.Data.List.GetD
import Mathlib.Data.Nat.Digits.Lemmas
import Mathlib.Tactic.Common

/-!
# Lanes

A word is cut into lanes of one width, the lowest first, and put together from them. The lanes of a word are the digits
of its number to the base `2 ^ w`, so that bytes are the lanes of width 8.

## Main definitions

* `lane`: a lane of a word.
* `pack`: the word of a list of lanes.

## Main results

* `lane_pack`, `pack_lane`: packing and cutting are inverse.
* `ofDigits_digit`: the first digits of a number are its remainder.
* `ofDigits_flatMap`: digits grouped in lanes.
-/

namespace Lanes

variable {N w : ℕ}

/-- Lane `i` of a word. -/
def lane (w : ℕ) (x : BitVec N) (i : ℕ) : BitVec w := x.extractLsb' (w * i) w

/-- The word of `N` bits with the given lanes. -/
def pack (N : ℕ) (l : List (BitVec w)) : BitVec N := BitVec.ofNat N (Nat.ofDigits (2 ^ w) (l.map BitVec.toNat))

theorem toNat_lane (x : BitVec N) (i : ℕ) : (lane w x i).toNat = x.toNat / (2 ^ w) ^ i % 2 ^ w := by
  rw [lane, BitVec.extractLsb'_toNat, Nat.shiftRight_eq_div_pow, pow_mul]

/-! ## Digits -/

/-- The first digits of a number are its remainder. -/
theorem ofDigits_digit (b m k : ℕ) : Nat.ofDigits b ((List.range k).map fun i => m / b ^ i % b) = m % b ^ k := by
  induction k with
  | zero => rw [pow_zero, Nat.mod_one]; rfl
  | succ k ih =>
    rw [List.range_succ, List.map_append, Nat.ofDigits_append, ih, List.length_map, List.length_range, List.map_singleton,
      Nat.ofDigits_singleton, pow_succ, Nat.mod_mul]

/-- Digits grouped in lanes of `k` are digits to the power of the base. -/
theorem ofDigits_flatMap {α : Type*} (b k : ℕ) (f : α → List ℕ) (l : List α) (hlen : ∀ a ∈ l, (f a).length = k) :
    Nat.ofDigits b (l.flatMap f) = Nat.ofDigits (b ^ k) (l.map fun a => Nat.ofDigits b (f a)) := by
  induction l with
  | nil => rfl
  | cons a l ih =>
    rw [List.flatMap_cons, Nat.ofDigits_append, hlen a List.mem_cons_self, ih fun a' ha' => hlen a' (.tail _ ha'),
      List.map_cons, Nat.ofDigits_cons]

/-- A digit read back. -/
theorem ofDigits_div_mod {b : ℕ} {l : List ℕ} (hl : ∀ d ∈ l, d < b) (i : ℕ) :
    Nat.ofDigits b l / b ^ i % b = l.getD i 0 := by
  induction l generalizing i with
  | nil => simp
  | cons d l ih =>
    have hd : d < b := hl d List.mem_cons_self
    have ih := ih (fun d' hd' => hl d' (.tail _ hd'))
    rw [Nat.ofDigits_cons]
    cases i with
    | zero => rw [pow_zero, Nat.div_one, Nat.add_mul_mod_self_left, Nat.mod_eq_of_lt hd, List.getD_cons_zero]
    | succ i =>
      rw [pow_succ', ← Nat.div_div_eq_div_mul, Nat.add_mul_div_left _ _ (by omega), Nat.div_eq_of_lt hd, Nat.zero_add, ih,
        List.getD_cons_succ]

/-! ## Packing -/

theorem lane_pack (hw : 0 < w) {l : List (BitVec w)} (hl : w * l.length ≤ N) (i : ℕ) :
    lane w (pack N l) i = l.getD i 0 := by
  have hdigit : ∀ d ∈ l.map BitVec.toNat, d < 2 ^ w := by
    intro d hd
    obtain ⟨x, -, rfl⟩ := List.mem_map.mp hd
    exact x.isLt
  have hlt : Nat.ofDigits (2 ^ w) (l.map BitVec.toNat) < 2 ^ N := by
    calc Nat.ofDigits (2 ^ w) (l.map BitVec.toNat)
        < (2 ^ w) ^ (l.map BitVec.toNat).length := Nat.ofDigits_lt_base_pow_length (Nat.one_lt_two_pow hw.ne') hdigit
      _ = 2 ^ (w * l.length) := by rw [List.length_map, pow_mul]
      _ ≤ 2 ^ N := Nat.pow_le_pow_right (by decide) hl
  apply BitVec.eq_of_toNat_eq
  rw [toNat_lane, pack, BitVec.toNat_ofNat, Nat.mod_eq_of_lt hlt, ofDigits_div_mod hdigit]
  exact List.getD_map l 0 BitVec.toNat

/-- A word is packed from its lanes. -/
theorem pack_lane {n : ℕ} (hn : w * n = N) (x : BitVec N) : pack N ((List.range n).map (lane w x)) = x := by
  apply BitVec.eq_of_toNat_eq
  have hdigits : ((List.range n).map (lane w x)).map BitVec.toNat =
      (List.range n).map fun i => x.toNat / (2 ^ w) ^ i % 2 ^ w := by
    rw [List.map_map]
    exact List.map_congr_left fun i _ => toNat_lane x i
  rw [pack, BitVec.toNat_ofNat, hdigits, ofDigits_digit, ← pow_mul, hn, Nat.mod_mod, Nat.mod_eq_of_lt x.isLt]

end Lanes
