import Mathlib.Data.BitVec
import Mathlib.Data.FinEnum
import Mathlib.Data.Nat.Bitwise
import Mathlib.Data.Nat.Size
import Mathlib.Tactic.Common
import Wasmrt.Library.Rounding
import Wasmrt.Wat.Floats

/-!
# Hexadecimal digits are rounded correctly

The pattern that the reader makes of the digits is the one to which their exact value rounds, whatever was lost on the
way to the integer of 128 bits, and a number is refused just in case it rounds to infinity.

## Main definitions

* `FloatFmt.value`: the numbers of a format, by their patterns.

## Main results

* `composeFloatBits_eq`: the pattern of a significand at an exponent.
* `roundHex_eq`: the digits are rounded to nearest, ties to even.
-/

namespace Wasmrt.Wat

open Rounding (Nearest binaryValue shiftRound)

/-! ## Formats -/

namespace FloatFmt

variable (f : FloatFmt) (neg : Bool)

/-- The exponent of the smallest subnormal. -/
def ulpMin : ℤ := f.expMin - f.mantBits

/-- The numbers of the format that are not negative, and beyond the largest one as if there were no largest exponent. -/
def value : ℕ → ℚ := binaryValue f.mantBits f.ulpMin

theorem value_strictMono : StrictMono f.value := Rounding.binaryValue_strictMono _ _

theorem signShift_eq : f.signShift = match f with | f32 => 31 | f64 => 63 := by
  cases f <;> rfl

theorem expAll_eq : f.expAll = f.maxBiased * 2 ^ f.mantBits := Nat.shiftLeft_eq _ _

theorem expAll_lt : f.expAll < 2 ^ f.signShift := by
  cases f <;> decide

theorem mantBits_pos : 0 < f.mantBits := by
  cases f <;> decide

/-- The sign and the rest of a pattern do not overlap. -/
theorem signBit_or {b : ℕ} (h : b < 2 ^ f.signShift) : f.signBit neg ||| b = f.signBit neg + b := by
  cases neg with
  | false => simp [signBit]
  | true =>
    have hor := Nat.two_pow_add_eq_or_of_lt h 1
    rw [mul_one] at hor
    simp [signBit, Nat.one_shiftLeft, hor]

/-- The pattern without its sign. -/
theorem ldiff_signBit {b : ℕ} (h : b < 2 ^ f.signShift) : (f.signBit neg + b).ldiff (1 <<< f.signShift) = b := by
  rw [← signBit_or f neg h]
  apply Nat.eq_of_testBit_eq
  intro i
  rw [Nat.testBit_ldiff, Nat.testBit_or, Nat.one_shiftLeft, Nat.testBit_two_pow]
  by_cases hi : f.signShift = i
  · subst hi
    simp [Nat.testBit_lt_two_pow h]
  · cases neg <;> simp [signBit, Nat.one_shiftLeft, hi]

end FloatFmt

theorem i32_of_range {z : ℤ} (hle : -2 ^ 31 ≤ z) (hlt : z < 2 ^ 31) : i32 z = z := by
  rw [i32, Int.bmod_def]
  split_ifs <;> omega

/-! ## The pattern -/

section Compose

variable {f : FloatFmt} {j q : ℕ} (neg : Bool)

theorem size_eq {n k : ℕ} (hle : 2 ^ k ≤ n) (hlt : n < 2 ^ (k + 1)) : n.size = k + 1 :=
  le_antisymm (Nat.size_le.mpr hlt) (Nat.lt_size.mpr hle)

theorem expMin_add_bias (f : FloatFmt) : f.expMin + f.bias = 1 := by
  cases f <;> rfl

/-- The pattern of a significand that needs no carry. -/
theorem composeFloatBits_of_lt (hq : q < 2 ^ (f.mantBits + 1)) (hj : j = 0 ∨ 2 ^ f.mantBits ≤ q)
    (hbound : j < 2 ^ 31 - 2 ^ 12) :
    composeFloatBits q (f.ulpMin + j) neg f = f.signBit neg + min (j * 2 ^ f.mantBits + q) f.expAll := by
  have hbits : f.mantBits < 64 := by cases f <;> decide
  have hmin : -2000 < f.expMin ∧ f.expMin < 0 := by cases f <;> decide
  have hbias : 0 < f.bias ∧ f.bias < 2000 := by cases f <;> decide
  have hsum := expMin_add_bias f
  have hmax : 2 ≤ f.maxBiased := by cases f <;> decide
  have hall := f.expAll_eq
  have hpow := Nat.two_pow_pos f.mantBits
  rcases Nat.eq_zero_or_pos q with rfl | hpos
  · obtain rfl := hj.resolve_right (by omega)
    simp [composeFloatBits]
  have hsize : ¬ q.size > f.mantBits + 1 := not_lt.mpr (Nat.size_le.mpr hq)
  simp only [composeFloatBits, hpos.ne', if_false, if_neg hsize]
  rcases lt_or_ge q (2 ^ f.mantBits) with hsub | hnormal
  · obtain rfl := hj.resolve_right (by omega)
    have hle : q.size ≤ f.mantBits := Nat.size_le.mpr hsub
    have hq_lt : q < f.expAll := by
      rw [hall]
      nlinarith
    rw [i32_of_range (by simp only [FloatFmt.ulpMin]; omega) (by simp only [FloatFmt.ulpMin]; omega),
      if_pos (by simp only [FloatFmt.ulpMin]; omega), Nat.zero_mul, Nat.zero_add, min_eq_left hq_lt.le,
      f.signBit_or neg (hq_lt.trans f.expAll_lt)]
  · have he : i32 (f.ulpMin + j + (f.mantBits + 1 : ℕ) - 1) = f.expMin + j := by
      rw [FloatFmt.ulpMin, i32_of_range (by omega) (by omega)]
      push_cast
      ring
    have hbiased : i32 (f.expMin + j + f.bias) = (j + 1 : ℕ) := by
      rw [i32_of_range (by omega) (by omega)]
      omega
    rw [size_eq hnormal hq, he, if_neg (by omega), hbiased, Int.toNat_natCast, Nat.add_sub_cancel, Nat.one_shiftLeft]
    rw [pow_succ] at hq
    split_ifs with hinf
    · have hle : f.maxBiased * 2 ^ f.mantBits ≤ (j + 1) * 2 ^ f.mantBits :=
        Nat.mul_le_mul_right _ (by exact_mod_cast hinf)
      rw [min_eq_right (by rw [hall, Nat.succ_mul] at *; omega), f.signBit_or neg f.expAll_lt]
    · have hle : (j + 1 + 1) * 2 ^ f.mantBits ≤ f.maxBiased * 2 ^ f.mantBits :=
        Nat.mul_le_mul_right _ (by omega)
      have hlt : j * 2 ^ f.mantBits + q < f.expAll := by
        rw [hall]
        simp only [Nat.succ_mul] at hle
        omega
      have hpattern : (j + 1) <<< f.mantBits ||| (q - 2 ^ f.mantBits) = j * 2 ^ f.mantBits + q := by
        rw [← Nat.shiftLeft_add_eq_or_of_lt (by omega), Nat.shiftLeft_eq, Nat.succ_mul]
        omega
      rw [Nat.or_assoc, hpattern, min_eq_left hlt.le, f.signBit_or neg (hlt.trans f.expAll_lt)]

/-- The pattern of a significand. -/
theorem composeFloatBits_eq (hq : q ≤ 2 ^ (f.mantBits + 1)) (hj : j = 0 ∨ 2 ^ f.mantBits ≤ q)
    (hbound : j < 2 ^ 31 - 2 ^ 12 - 1) :
    composeFloatBits q (f.ulpMin + j) neg f = f.signBit neg + min (j * 2 ^ f.mantBits + q) f.expAll := by
  rcases hq.lt_or_eq with hlt | rfl
  · exact composeFloatBits_of_lt neg hlt hj (by omega)
  -- the carry is to the smallest significand of the next exponent
  have hbits : f.mantBits < 64 := by cases f <;> decide
  have hmin : -2000 < f.expMin ∧ f.expMin < 0 := by cases f <;> decide
  have hcarry : composeFloatBits (2 ^ (f.mantBits + 1)) (f.ulpMin + j) neg f =
      composeFloatBits (2 ^ f.mantBits) (f.ulpMin + (j + 1 : ℕ)) neg f := by
    have hi32 : i32 (f.ulpMin + j + 1) = f.ulpMin + (j + 1 : ℕ) := by
      rw [i32_of_range (by simp only [FloatFmt.ulpMin]; omega) (by simp only [FloatFmt.ulpMin]; omega)]
      push_cast
      ring
    have hshift : 2 ^ (f.mantBits + 1) >>> 1 = 2 ^ f.mantBits := by
      rw [Nat.shiftRight_eq_div_pow, pow_one, pow_succ, Nat.mul_div_cancel _ two_pos]
    simp only [composeFloatBits, Nat.size_pow, (Nat.two_pow_pos _).ne', if_false, gt_iff_lt, lt_add_iff_pos_right,
      zero_lt_one, if_true, lt_self_iff_false, hshift, hi32]
  rw [hcarry, composeFloatBits_of_lt neg (Nat.pow_lt_pow_succ one_lt_two) (.inr le_rfl) (by omega)]
  congr 2
  ring

end Compose

/-! ## Rounding -/

section Round

variable {mant : ℕ} {sticky : Bool}

theorem and_one_ne_zero_iff (n i : ℕ) : n >>> i &&& 1 ≠ 0 ↔ n.testBit i = true := by
  rw [Nat.land_comm]
  simp [Nat.testBit]

/-- Rounding by a guard bit and a sticky bit, in however many pieces. -/
theorem roundMant_of_pos (hmant : mant < 2 ^ 128) {k : ℕ} (hk : 0 < k) :
    roundMant mant sticky k = shiftRound mant k sticky := by
  have hsh : ((k : ℤ) - 1).toNat = k - 1 := by omega
  unfold roundMant
  rw [if_pos (by exact_mod_cast hk), hsh, Int.toNat_natCast]
  by_cases hbig : (k : ℤ) > 128
  · have hk' : 128 < k := by exact_mod_cast hbig
    have hlt {i : ℕ} (hi : 128 ≤ i) : mant < 2 ^ i := hmant.trans_le (Nat.pow_le_pow_right two_pos hi)
    rw [if_pos hbig, shiftRound, Nat.testBit_lt_two_pow (hlt (by omega)), Nat.div_eq_of_lt (hlt hk'.le)]
    rfl
  · have hq : (if (k : ℤ) = 128 then 0 else mant >>> k) = mant / 2 ^ k := by
      split_ifs with h128
      · obtain rfl : k = 128 := by exact_mod_cast h128
        rw [Nat.div_eq_of_lt hmant]
      · exact Nat.shiftRight_eq_div_pow mant k
    have hodd : (mant / 2 ^ k &&& 1 ≠ 0) ↔ mant.testBit k = true := by
      rw [← Nat.shiftRight_eq_div_pow, and_one_ne_zero_iff]
    simp only [if_neg hbig, hq, Nat.one_shiftLeft, Nat.and_two_pow_sub_one_eq_mod, and_one_ne_zero_iff, hodd,
      Bool.decide_eq_true, shiftRound]
    cases (mant.testBit (k - 1) && (sticky || decide (mant % 2 ^ (k - 1) ≠ 0) || mant.testBit k)) <;> rfl

/-- In units of the last place the digits round to a significand, whose pattern is the nearest one. -/
theorem nearest_roundMant {f : FloatFmt} {exp : ℤ} {d : ℚ} {j : ℕ} (hpos : 0 < mant) (hmant : mant < 2 ^ 128)
    (hd : 0 ≤ d) (hd₁ : d < 1) (hsticky : sticky = true ↔ 0 < d) (hfull : d = 0 ∨ 2 ^ 124 ≤ mant)
    (hle : exp + mant.size - (f.mantBits + 1) ≤ f.ulpMin + j)
    (hj : j = 0 ∨ f.ulpMin + j = exp + mant.size - (f.mantBits + 1)) :
    roundMant mant sticky (f.ulpMin + j - exp) ≤ 2 ^ (f.mantBits + 1) ∧
      (j = 0 ∨ 2 ^ f.mantBits ≤ roundMant mant sticky (f.ulpMin + j - exp)) ∧
      Nearest f.value ((mant + d) * 2 ^ exp) (j * 2 ^ f.mantBits + roundMant mant sticky (f.ulpMin + j - exp)) := by
  have hbits : f.mantBits ≤ 52 := by cases f <;> decide
  have hsize_pos : 0 < mant.size := Nat.size_pos.mpr hpos
  have hsize_le : 2 ^ (mant.size - 1) ≤ mant := Nat.lt_size.mp (by omega)
  have hsize_lt : mant < 2 ^ mant.size := Nat.lt_size_self mant
  rcases lt_or_ge 0 (f.ulpMin + j - exp) with hk | hk
  · obtain ⟨k, hk_eq⟩ := Int.eq_ofNat_of_zero_le hk.le
    obtain rfl : exp = f.ulpMin + j - k := by omega
    rw [hk_eq] at hk ⊢
    have hk_pos : 0 < k := by exact_mod_cast hk
    have hq : mant / 2 ^ k < 2 ^ (f.mantBits + 1) := by
      rw [Nat.div_lt_iff_lt_mul (Nat.two_pow_pos k), ← pow_add]
      exact hsize_lt.trans_le (Nat.pow_le_pow_right two_pos (by omega))
    have hj' : j = 0 ∨ 2 ^ f.mantBits ≤ mant / 2 ^ k := by
      refine hj.imp_right fun hu => ?_
      rw [Nat.le_div_iff_mul_le (Nat.two_pow_pos k), ← pow_add]
      exact (Nat.pow_le_pow_right two_pos (by omega)).trans hsize_le
    rw [roundMant_of_pos hmant hk_pos]
    refine ⟨?_, hj'.imp_right fun h => h.trans (Nat.le_add_right _ _),
      Rounding.nearest_shiftRound f.mantBits_pos hk_pos hd hd₁ hsticky hq hj'⟩
    exact (Nat.add_le_add_left (Bool.toNat_le _) _).trans hq
  · obtain ⟨k, hk_eq⟩ := Int.eq_ofNat_of_zero_le (neg_nonneg.mpr hk)
    obtain rfl : exp = f.ulpMin + j + k := by omega
    -- there is room for all digits, so that none is lost
    have hroom : mant.size + k ≤ f.mantBits + 1 := by omega
    obtain rfl : d = 0 := by
      refine hfull.resolve_right fun h => ?_
      have hlarge := Nat.lt_size.mpr h
      omega
    have hq : mant * 2 ^ k < 2 ^ (f.mantBits + 1) := by
      calc mant * 2 ^ k < 2 ^ mant.size * 2 ^ k := Nat.mul_lt_mul_of_pos_right hsize_lt (Nat.two_pow_pos k)
        _ = 2 ^ (mant.size + k) := (pow_add ..).symm
        _ ≤ 2 ^ (f.mantBits + 1) := Nat.pow_le_pow_right two_pos hroom
    have hround : roundMant mant sticky (f.ulpMin + j - (f.ulpMin + j + k)) = mant * 2 ^ k := by
      rw [roundMant, if_neg (by omega), show (-(f.ulpMin + j - (f.ulpMin + j + k))).toNat = k by omega,
        Nat.shiftLeft_eq, Nat.mod_eq_of_lt (hq.trans (Nat.pow_lt_pow_right one_lt_two (by omega)))]
    have hj' : j = 0 ∨ 2 ^ f.mantBits ≤ mant * 2 ^ k := by
      refine hj.imp_right fun hu => ?_
      calc 2 ^ f.mantBits = 2 ^ (mant.size - 1) * 2 ^ k := by rw [← pow_add]; congr 1; omega
        _ ≤ mant * 2 ^ k := Nat.mul_le_mul_right _ hsize_le
    rw [hround]
    refine ⟨hq.le, hj', ?_⟩
    have hvalue : (mant + 0 : ℚ) * 2 ^ (f.ulpMin + j + k) = f.value (j * 2 ^ f.mantBits + mant * 2 ^ k) := by
      rw [FloatFmt.value, Rounding.binaryValue_eq _ _ hq.le hj', add_zero, zpow_add₀ two_ne_zero, zpow_natCast]
      push_cast
      ring
    rw [hvalue]
    exact Rounding.nearest_self f.value_strictMono _

/-- The pattern to which the digits round. -/
theorem roundHex_eq {f : FloatFmt} {exp : ℤ} {d : ℚ} (neg : Bool) (hmant : mant < 2 ^ 128) (hd : 0 ≤ d) (hd₁ : d < 1)
    (hsticky : sticky = true ↔ 0 < d) (hfull : d = 0 ∨ 2 ^ 124 ≤ mant) (hlow : -2 ^ 30 - 2 ^ 29 ≤ exp)
    (hhigh : exp ≤ 2 ^ 30 + 2 ^ 29) :
    ∃ b, Nearest f.value ((mant + d) * 2 ^ exp) b ∧
      roundHex mant sticky exp neg f = if b < f.expAll then some (f.signBit neg + b) else none := by
  have hmin : -2000 < f.expMin ∧ f.expMin < 0 := by cases f <;> decide
  have hbits : f.mantBits ≤ 52 := by cases f <;> decide
  rcases Nat.eq_zero_or_pos mant with rfl | hpos
  · obtain rfl := hfull.resolve_right (by simp)
    have hzero : ((0 : ℕ) + 0 : ℚ) * 2 ^ exp = f.value 0 := by
      simp [FloatFmt.value, binaryValue]
    rw [hzero]
    refine ⟨0, Rounding.nearest_self f.value_strictMono 0, ?_⟩
    have hall : 0 < f.expAll := by cases f <;> decide
    simp [roundHex, hall]
  -- the unit of the last place is the one of the exponent, or the smallest there is
  have hsize_max : mant.size ≤ 128 := Nat.size_le.mpr hmant
  obtain ⟨j, hulp⟩ : ∃ j : ℕ, max (f.expMin - (f.mantBits + 1) + 1) (exp + mant.size - (f.mantBits + 1)) =
      f.ulpMin + j := by
    refine ⟨(exp + mant.size - (f.mantBits + 1) - f.ulpMin).toNat, ?_⟩
    simp only [FloatFmt.ulpMin]
    omega
  have hle : exp + mant.size - (f.mantBits + 1) ≤ f.ulpMin + j := hulp ▸ le_max_right _ _
  have hj : j = 0 ∨ f.ulpMin + j = exp + mant.size - (f.mantBits + 1) := by
    simp only [FloatFmt.ulpMin] at hulp ⊢
    omega
  obtain ⟨hq, hj', hnearest⟩ := nearest_roundMant hpos hmant hd hd₁ hsticky hfull hle hj
  refine ⟨_, hnearest, ?_⟩
  have hulp_bound : f.ulpMin + j ≤ 2 ^ 30 + 2 ^ 29 + 128 ∧ -2100 ≤ f.ulpMin := by
    simp only [FloatFmt.ulpMin] at hulp ⊢
    omega
  have he : i32 (exp + mant.size - 1) = exp + mant.size - 1 := i32_of_range (by omega) (by omega)
  have hlast : i32 (exp + mant.size - 1 - (f.mantBits + 1) + 1) = exp + mant.size - (f.mantBits + 1) := by
    rw [i32_of_range (by omega) (by omega)]
    ring
  have hk : i32 (f.ulpMin + j - exp) = f.ulpMin + j - exp := i32_of_range (by omega) (by omega)
  simp only [roundHex, hpos.ne', if_false, he, hlast, hulp, hk, composeFloatBits_eq neg hq hj' (by omega)]
  rw [f.ldiff_signBit neg ((min_le_right _ _).trans_lt f.expAll_lt)]
  split_ifs with hall hlt hlt
  · rw [min_eq_left hlt.le] at hall
    omega
  · rfl
  · rw [min_eq_left hlt.le]
  · exact absurd (min_eq_right (not_lt.mp hlt)) hall

end Round

end Wasmrt.Wat
