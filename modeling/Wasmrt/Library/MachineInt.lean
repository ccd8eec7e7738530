import Mathlib.Algebra.Order.Group.MinMax
import Mathlib.Algebra.Order.Ring.Int
import Mathlib.Data.BitVec
import Mathlib.Data.FinEnum
import Mathlib.Data.Nat.Find
import Mathlib.Tactic.Common
import Mathlib.Tactic.Linarith
import Mathlib.Tactic.Ring

/-!
# Machine integers

A word of `w` bits stands for an integer, read as unsigned or in two's complement. The operations of a programming
language on such words wrap around, saturate, or are checked: a checked operation has no result where the exact one is
out of range.

## Main definitions

* `readInt`: the integer a word stands for.
* `minInt`, `maxInt`, `saturate`: the range of a width and the nearest integer in it.
* `fitInt`: the word of an integer in range.
* `castInt`: the conversion to another width.

## Main results

* `readInt_ofInt`, `ofInt_readInt`: a word and its integer determine each other.
* `ofInt_eq_ofInt_iff`: two integers have one word just in case they agree modulo the power.
-/

namespace MachineInt

variable {w : ℕ} {s : Bool}

/-- The integer a word stands for. -/
def readInt (s : Bool) (x : BitVec w) : ℤ := if s then x.toInt else x.toNat

/-- The least integer of a width. -/
def minInt (s : Bool) (w : ℕ) : ℤ := if s then -2 ^ (w - 1) else 0

/-- The greatest integer of a width. -/
def maxInt (s : Bool) (w : ℕ) : ℤ := if s then 2 ^ (w - 1) - 1 else 2 ^ w - 1

/-- The integer in range nearest to one. -/
def saturate (s : Bool) (w : ℕ) (z : ℤ) : ℤ := max (minInt s w) (min (maxInt s w) z)

/-- The word of an integer in range. -/
def fitInt (s : Bool) (w : ℕ) (z : ℤ) : Option (BitVec w) :=
  if minInt s w ≤ z ∧ z ≤ maxInt s w then some (BitVec.ofInt w z) else none

/-- A word converted to another width: extended as it is read, or cut. -/
def castInt (s : Bool) (w' : ℕ) (x : BitVec w) : BitVec w' := BitVec.ofInt w' (readInt s x)

@[simp]
theorem readInt_true (x : BitVec w) : readInt true x = x.toInt := rfl

@[simp]
theorem readInt_false (x : BitVec w) : readInt false x = x.toNat := rfl

/-! ## The range of a width -/

theorem minInt_le_readInt (x : BitVec w) : minInt s w ≤ readInt s x := by
  cases s with
  | true => exact x.le_toInt
  | false => exact Int.natCast_nonneg _

theorem readInt_le_maxInt (x : BitVec w) : readInt s x ≤ maxInt s w := by
  cases s with
  | true => exact x.toInt_le
  | false =>
    have hlt : (x.toNat : ℤ) < 2 ^ w := by exact_mod_cast x.isLt
    simp only [readInt_false, maxInt]
    exact Int.le_sub_one_of_lt hlt

/-- Two integers have one word just in case they agree modulo the power. -/
theorem ofInt_eq_ofInt_iff {y z : ℤ} : BitVec.ofInt w y = BitVec.ofInt w z ↔ y % 2 ^ w = z % 2 ^ w := by
  rw [← BitVec.toNat_inj, BitVec.toNat_ofInt, BitVec.toNat_ofInt, ← Int.ofNat_inj]
  have hpos : (0 : ℤ) < 2 ^ w := by positivity
  rw [Int.toNat_of_nonneg (Int.emod_nonneg _ (by exact_mod_cast hpos.ne')),
    Int.toNat_of_nonneg (Int.emod_nonneg _ (by exact_mod_cast hpos.ne'))]
  push_cast
  rfl

/-- The word of an integer is that of its remainder. -/
theorem ofInt_emod (z : ℤ) : BitVec.ofInt w (z % 2 ^ w) = BitVec.ofInt w z :=
  ofInt_eq_ofInt_iff.mpr (Int.emod_emod_of_dvd z dvd_rfl)

@[simp]
theorem ofInt_readInt (x : BitVec w) : BitVec.ofInt w (readInt s x) = x := by
  cases s with
  | true => exact BitVec.ofInt_toInt
  | false => rw [readInt_false, BitVec.ofInt_natCast, BitVec.ofNat_toNat, BitVec.setWidth_eq]

theorem readInt_inj {x y : BitVec w} : readInt s x = readInt s y ↔ x = y :=
  ⟨fun h => by rw [← ofInt_readInt x, h, ofInt_readInt], fun h => h ▸ rfl⟩

/-- The word of an integer in range stands for it. -/
theorem readInt_ofInt (hw : 0 < w) {z : ℤ} (hmin : minInt s w ≤ z) (hmax : z ≤ maxInt s w) :
    readInt s (BitVec.ofInt w z) = z := by
  cases s with
  | true =>
    simp only [minInt, maxInt, if_pos] at hmin hmax
    exact BitVec.toInt_ofInt_eq_self hw hmin (by omega)
  | false =>
    simp only [minInt, maxInt, Bool.false_eq_true, if_false] at hmin hmax
    rw [readInt_false, BitVec.toNat_ofInt]
    have hmod : z % ((2 ^ w : ℕ) : ℤ) = z := Int.emod_eq_of_lt hmin (by push_cast; omega)
    rw [hmod, Int.toNat_of_nonneg hmin]

theorem minInt_le_maxInt : minInt s w ≤ maxInt s w := by
  have hpos : (0 : ℤ) < 2 ^ (w - 1) := by positivity
  have hpos' : (0 : ℤ) < 2 ^ w := by positivity
  cases s <;> simp only [minInt, maxInt, if_pos, Bool.false_eq_true, if_false] <;> omega

/-- The word that stands for an integer in range. -/
theorem eq_ofInt_iff (hw : 0 < w) {x : BitVec w} {z : ℤ} (hmin : minInt s w ≤ z) (hmax : z ≤ maxInt s w) :
    x = BitVec.ofInt w z ↔ readInt s x = z := by
  rw [← readInt_inj (s := s), readInt_ofInt hw hmin hmax]

theorem minInt_le_saturate (z : ℤ) : minInt s w ≤ saturate s w z := le_max_left _ _

theorem saturate_le_maxInt (z : ℤ) : saturate s w z ≤ maxInt s w := max_le minInt_le_maxInt (min_le_left _ _)

theorem saturate_eq_self {z : ℤ} (hmin : minInt s w ≤ z) (hmax : z ≤ maxInt s w) : saturate s w z = z := by
  rw [saturate, min_eq_right hmax, max_eq_right hmin]

/-! ## Operations -/

theorem fitInt_of_mem {z : ℤ} (hmin : minInt s w ≤ z) (hmax : z ≤ maxInt s w) :
    fitInt s w z = some (BitVec.ofInt w z) := if_pos ⟨hmin, hmax⟩

theorem add_eq_ofInt (x y : BitVec w) : x + y = BitVec.ofInt w (readInt s x + readInt s y) := by
  rw [BitVec.ofInt_add, ofInt_readInt, ofInt_readInt]

theorem neg_eq_ofInt (x : BitVec w) : -x = BitVec.ofInt w (-readInt s x) := by
  rw [BitVec.ofInt_neg, ofInt_readInt]

theorem sub_eq_ofInt (x y : BitVec w) : x - y = BitVec.ofInt w (readInt s x - readInt s y) := by
  rw [Int.sub_eq_add_neg, BitVec.ofInt_add, BitVec.ofInt_neg, ofInt_readInt, ofInt_readInt, BitVec.sub_eq_add_neg]

theorem mul_eq_ofInt (x y : BitVec w) : x * y = BitVec.ofInt w (readInt s x * readInt s y) := by
  rw [BitVec.ofInt_mul, ofInt_readInt, ofInt_readInt]

/-- A wider word stands for the same integer. -/
theorem readInt_castInt {w' : ℕ} (hw : 0 < w) (hle : w ≤ w') (x : BitVec w) :
    readInt s (castInt s w' x) = readInt s x := by
  have hmin : minInt s w' ≤ minInt s w := by
    cases s with
    | true =>
      have hpow : (2 : ℤ) ^ (w - 1) ≤ 2 ^ (w' - 1) := pow_le_pow_right₀ (by decide) (by omega)
      simp only [minInt, if_pos]
      omega
    | false => exact le_rfl
  have hmax : maxInt s w ≤ maxInt s w' := by
    have hpow : (2 : ℤ) ^ (w - 1) ≤ 2 ^ (w' - 1) := pow_le_pow_right₀ (by decide) (by omega)
    have hpow' : (2 : ℤ) ^ w ≤ 2 ^ w' := pow_le_pow_right₀ (by decide) hle
    cases s <;> simp only [maxInt, if_pos, Bool.false_eq_true, if_false] <;> omega
  exact readInt_ofInt (by omega) (hmin.trans (minInt_le_readInt x)) ((readInt_le_maxInt x).trans hmax)

/-! ## Double words -/

/-- The sum of two words fits a double word. -/
theorem add_mem (hw : 0 < w) (x y : BitVec w) :
    minInt s (2 * w) ≤ readInt s x + readInt s y ∧ readInt s x + readInt s y ≤ maxInt s (2 * w) := by
  have hx := minInt_le_readInt (s := s) x
  have hx' := readInt_le_maxInt (s := s) x
  have hy := minInt_le_readInt (s := s) y
  have hy' := readInt_le_maxInt (s := s) y
  have hpow : (2 : ℤ) * 2 ^ (w - 1) ≤ 2 ^ (2 * w - 1) := by
    rw [← pow_succ']
    exact pow_le_pow_right₀ (by decide) (by omega)
  have hpow' : (2 : ℤ) * 2 ^ w ≤ 2 ^ (2 * w) := by
    rw [← pow_succ']
    exact pow_le_pow_right₀ (by decide) (by omega)
  cases s <;> simp only [minInt, maxInt, if_pos, Bool.false_eq_true, if_false] at * <;> omega

/-- The product of two words fits a double word. -/
theorem mul_mem (hw : 0 < w) (x y : BitVec w) :
    minInt s (2 * w) ≤ readInt s x * readInt s y ∧ readInt s x * readInt s y ≤ maxInt s (2 * w) := by
  cases s with
  | true =>
    have hle := BitVec.le_toInt_mul_toInt (x := x) (y := y)
    have hle' := BitVec.toInt_mul_toInt_le (x := x) (y := y)
    have hpow : (2 : ℤ) ^ (w * 2 - 2) < 2 ^ (2 * w - 1) := pow_lt_pow_right₀ (by decide) (by omega)
    simp only [minInt, maxInt, if_pos, readInt_true]
    omega
  | false =>
    have hlt : x.toNat * y.toNat < 2 ^ (2 * w) := by
      rw [two_mul, pow_add]
      exact Nat.mul_lt_mul'' x.isLt y.isLt
    have hlt' : (x.toNat : ℤ) * y.toNat < 2 ^ (2 * w) := by exact_mod_cast hlt
    simp only [minInt, maxInt, Bool.false_eq_true, if_false, readInt_false]
    exact ⟨by positivity, Int.le_sub_one_of_lt hlt'⟩

/-- A narrower type is within the range of a signed one. -/
theorem range_of_lt {w' : ℕ} (hlt : w' < w) : minInt true w ≤ minInt s w' ∧ maxInt s w' ≤ maxInt true w := by
  have hpow : (2 : ℤ) ^ w' ≤ 2 ^ (w - 1) := pow_le_pow_right₀ (by decide) (by omega)
  have hpow' : (2 : ℤ) ^ (w' - 1) ≤ 2 ^ w' := pow_le_pow_right₀ (by decide) (Nat.sub_le _ _)
  have hpos : (0 : ℤ) < 2 ^ (w - 1) := by positivity
  cases s <;> simp only [minInt, maxInt, if_pos, Bool.false_eq_true, if_false] <;> omega

/-! ## Division -/

theorem minInt_nonpos : minInt s w ≤ 0 := by
  have hpos : (0 : ℤ) < 2 ^ (w - 1) := by positivity
  cases s <;> simp only [minInt, if_pos, Bool.false_eq_true, if_false] <;> omega

theorem maxInt_nonneg : 0 ≤ maxInt s w := by
  have hpos : (0 : ℤ) < 2 ^ (w - 1) := by positivity
  have hpos' : (0 : ℤ) < 2 ^ w := by positivity
  cases s <;> simp only [maxInt, if_pos, Bool.false_eq_true, if_false] <;> omega

/-- A quotient is in range, but for the least signed integer divided by -1. -/
theorem tdiv_mem (x y : BitVec w) (hover : s = true → ¬ (readInt true x = minInt true w ∧ readInt true y = -1)) :
    minInt s w ≤ (readInt s x).tdiv (readInt s y) ∧ (readInt s x).tdiv (readInt s y) ≤ maxInt s w := by
  have hmin := minInt_le_readInt (s := s) x
  have hmax := readInt_le_maxInt (s := s) x
  cases s with
  | false =>
    have hnonneg : (0 : ℤ) ≤ readInt false x := Int.natCast_nonneg _
    have hnonneg' : (0 : ℤ) ≤ readInt false y := Int.natCast_nonneg _
    rw [Int.tdiv_eq_ediv_of_nonneg hnonneg]
    exact ⟨minInt_nonpos.trans (Int.ediv_nonneg hnonneg hnonneg'), (Int.ediv_le_self _ hnonneg).trans hmax⟩
  | true =>
    simp only [readInt_true] at hmin hmax hover ⊢
    generalize x.toInt = m at *
    generalize y.toInt = n at *
    have hbound : minInt true w = -2 ^ (w - 1) ∧ maxInt true w = 2 ^ (w - 1) - 1 := ⟨rfl, rfl⟩
    obtain ⟨hminEq, hmaxEq⟩ := hbound
    have hpos : (0 : ℤ) < 2 ^ (w - 1) := by positivity
    generalize (2 : ℤ) ^ (w - 1) = p at *
    have habs : (m.tdiv n).natAbs = m.natAbs / n.natAbs := Int.natAbs_tdiv m n
    by_cases hone : n.natAbs ≤ 1
    · obtain rfl | rfl | rfl : n = 0 ∨ n = 1 ∨ n = -1 := by omega
      · rw [Int.tdiv_zero]
        omega
      · rw [Int.tdiv_one]
        exact ⟨hmin, hmax⟩
      · rw [Int.tdiv_neg, Int.tdiv_one]
        have hne : m ≠ minInt true w := fun h => hover trivial ⟨h, rfl⟩
        omega
    · have hle : m.natAbs / n.natAbs ≤ m.natAbs / 2 := Nat.div_le_div_left (by omega) (by decide)
      omega

/-- A remainder lies between zero and the dividend. -/
theorem tmod_mem (x y : BitVec w) :
    minInt s w ≤ (readInt s x).tmod (readInt s y) ∧ (readInt s x).tmod (readInt s y) ≤ maxInt s w := by
  have hmin := minInt_le_readInt (s := s) x
  have hmax := readInt_le_maxInt (s := s) x
  have hzero := minInt_nonpos (s := s) (w := w)
  have hzero' := maxInt_nonneg (s := s) (w := w)
  have habs : ((readInt s x).tmod (readInt s y)).natAbs ≤ (readInt s x).natAbs := by
    rw [Int.natAbs_tmod]
    exact Nat.mod_le _ _
  rcases le_total 0 (readInt s x) with hx | hx
  · have hnonneg := Int.tmod_nonneg (readInt s y) hx
    omega
  · have hnonpos : (readInt s x).tmod (readInt s y) ≤ 0 := by
      have hneg := Int.tmod_nonneg (readInt s y) (Int.neg_nonneg.mpr hx)
      rw [Int.neg_tmod] at hneg
      omega
    omega

/-! ## Shifts and rotations -/

theorem shiftLeft_eq_ofInt (x : BitVec w) (k : ℕ) : x <<< k = BitVec.ofInt w (readInt false x * 2 ^ k) := by
  have hcast : readInt false x * 2 ^ k = ((x.toNat * 2 ^ k : ℕ) : ℤ) := by push_cast; rfl
  apply BitVec.eq_of_toNat_eq
  rw [hcast, BitVec.ofInt_natCast, BitVec.toNat_shiftLeft, BitVec.toNat_ofNat, Nat.shiftLeft_eq]

/-- A shift to the right divides what a word stands for, rounding down. -/
theorem shiftRight_eq_ofInt (s : Bool) (x : BitVec w) (k : ℕ) :
    (if s then x.sshiftRight k else x >>> k) = BitVec.ofInt w (readInt s x / 2 ^ k) := by
  cases s with
  | true =>
    have hshift : (x.sshiftRight k).toInt = x.toInt / 2 ^ k := by
      rw [BitVec.toInt_sshiftRight, Int.shiftRight_eq_div_pow]
      push_cast
      rfl
    rw [if_pos rfl, readInt_true, ← hshift, BitVec.ofInt_toInt]
  | false =>
    have hcast : readInt false x / 2 ^ k = ((x.toNat / 2 ^ k : ℕ) : ℤ) := by push_cast; rfl
    have hlt : x.toNat / 2 ^ k < 2 ^ w := (Nat.div_le_self _ _).trans_lt x.isLt
    rw [if_neg Bool.false_ne_true, hcast, BitVec.ofInt_natCast]
    apply BitVec.eq_of_toNat_eq
    rw [BitVec.toNat_ushiftRight, BitVec.toNat_ofNat, Nat.shiftRight_eq_div_pow, Nat.mod_eq_of_lt hlt]

/-- The bits shifted out on one side come in on the other. -/
theorem rotate_eq {n k : ℕ} (hk : k ≤ w) (hn : n < 2 ^ w) :
    (n <<< k) % 2 ^ w ||| n >>> (w - k) = (n * 2 ^ k + n / 2 ^ (w - k)) % 2 ^ w := by
  have hpow : 2 ^ w = 2 ^ (w - k) * 2 ^ k := by rw [← pow_add, Nat.sub_add_cancel hk]
  have hhigh : (n <<< k) % 2 ^ w = (n % 2 ^ (w - k)) <<< k := by
    rw [Nat.shiftLeft_eq, Nat.shiftLeft_eq, hpow, Nat.mul_mod_mul_right]
  have hlow : n >>> (w - k) < 2 ^ k := by
    rw [Nat.shiftRight_eq_div_pow]
    exact Nat.div_lt_of_lt_mul (hpow ▸ hn)
  rw [hhigh, ← Nat.shiftLeft_add_eq_or_of_lt hlow, ← hhigh, Nat.shiftLeft_eq, ← Nat.shiftRight_eq_div_pow]
  -- the two parts lie in different bits, so that their sum is in range
  have hsum : n * 2 ^ k % 2 ^ w + n >>> (w - k) < 2 ^ w := by
    have hmod : n % 2 ^ (w - k) + 1 ≤ 2 ^ (w - k) := Nat.mod_lt _ (Nat.two_pow_pos _)
    have hmul := Nat.mul_le_mul_right (2 ^ k) hmod
    rw [← Nat.shiftLeft_eq n k, hhigh, Nat.shiftLeft_eq]
    rw [← hpow] at hmul
    linarith
  rw [Nat.add_mod, Nat.mod_eq_of_lt (hlow.trans_le (Nat.pow_le_pow_right (by decide) hk)), Nat.mod_eq_of_lt hsum]

theorem rotateLeft_eq_ofInt (x : BitVec w) {k : ℕ} (hk : k < w) :
    x.rotateLeft k = BitVec.ofInt w (readInt false x * 2 ^ k + readInt false x / 2 ^ (w - k)) := by
  have hcast : readInt false x * 2 ^ k + readInt false x / 2 ^ (w - k) =
      ((x.toNat * 2 ^ k + x.toNat / 2 ^ (w - k) : ℕ) : ℤ) := by push_cast; rfl
  apply BitVec.eq_of_toNat_eq
  rw [hcast, BitVec.ofInt_natCast, BitVec.toNat_ofNat, BitVec.toNat_rotateLeft, Nat.mod_eq_of_lt hk, rotate_eq hk.le x.isLt]

theorem rotateRight_eq_ofInt (x : BitVec w) {k : ℕ} (hk : k < w) :
    x.rotateRight k = BitVec.ofInt w (readInt false x / 2 ^ k + readInt false x * 2 ^ (w - k)) := by
  have hcast : readInt false x / 2 ^ k + readInt false x * 2 ^ (w - k) =
      ((x.toNat * 2 ^ (w - k) + x.toNat / 2 ^ (w - (w - k)) : ℕ) : ℤ) := by
    rw [Nat.sub_sub_self hk.le]
    push_cast
    rw [add_comm]
    rfl
  apply BitVec.eq_of_toNat_eq
  rw [hcast, BitVec.ofInt_natCast, BitVec.toNat_ofNat, BitVec.toNat_rotateRight, Nat.mod_eq_of_lt hk, Nat.or_comm,
    ← rotate_eq (Nat.sub_le w k) x.isLt, Nat.sub_sub_self hk.le]

/-! ## Counting bits -/

theorem toNat_clz_le (x : BitVec w) : x.clz.toNat ≤ w := by
  have hle := BitVec.clz_le (x := x)
  rwa [BitVec.le_def, BitVec.natCast_eq_ofNat, BitVec.toNat_ofNat, Nat.mod_eq_of_lt Nat.lt_two_pow_self] at hle

/-- Only zero has all its leading bits unset. -/
theorem ne_zero_of_clz_lt {x : BitVec w} (hlt : x.clz.toNat < w) : x ≠ 0#w := by
  rintro rfl
  have hzero : (0#w).clz = w := BitVec.clz_eq_iff_eq_zero.mpr rfl
  rw [hzero, BitVec.natCast_eq_ofNat, BitVec.toNat_ofNat, Nat.mod_eq_of_lt Nat.lt_two_pow_self] at hlt
  exact hlt.ne rfl

/-- The leading zeros are the most bits that can be cut off the top. -/
theorem toNat_clz (x : BitVec w) : x.clz.toNat = Nat.findGreatest (fun k => x.toNat < 2 ^ (w - k)) w := by
  rw [eq_comm, Nat.findGreatest_eq_iff]
  refine ⟨toNat_clz_le x, fun _ => BitVec.toNat_lt_two_pow_sub_clz, fun k hlt hk => not_lt.mpr ?_⟩
  have hx : x ≠ 0#w := ne_zero_of_clz_lt (hlt.trans_le hk)
  exact (Nat.pow_le_pow_right (by decide) (by omega)).trans (BitVec.two_pow_sub_clz_le_toNat_of_ne_zero (by omega) hx)

/-- A power of two divides a number whose low bits are unset. -/
theorem two_pow_dvd_toNat_iff (x : BitVec w) (k : ℕ) : 2 ^ k ∣ x.toNat ↔ ∀ i < k, x.getLsbD i = false := by
  rw [Nat.dvd_iff_mod_eq_zero]
  constructor
  · intro hmod i hi
    have hbit := Nat.testBit_mod_two_pow x.toNat k i
    rwa [hmod, Nat.zero_testBit, decide_eq_true hi, Bool.true_and, eq_comm] at hbit
  · intro hbits
    apply Nat.eq_of_testBit_eq
    intro i
    rw [Nat.testBit_mod_two_pow, Nat.zero_testBit]
    by_cases hi : i < k
    · rw [decide_eq_true hi, Bool.true_and]
      exact hbits i hi
    · rw [decide_eq_false hi, Bool.false_and]

/-- The trailing zeros are the exponent of the greatest power of two that divides a number. -/
theorem toNat_ctz (x : BitVec w) : x.ctz.toNat = Nat.findGreatest (fun k => 2 ^ k ∣ x.toNat) w := by
  have hclz : x.ctz = x.reverse.clz := BitVec.ctz_eq_reverse_clz
  rw [eq_comm, Nat.findGreatest_eq_iff]
  refine ⟨hclz ▸ toNat_clz_le x.reverse,
    fun _ => (two_pow_dvd_toNat_iff x _).mpr fun i hi => BitVec.getLsbD_false_of_lt_ctz hi, fun k hlt hk hdvd => ?_⟩
  have hx : x ≠ 0#w := by
    rintro rfl
    exact ne_zero_of_clz_lt (hclz ▸ hlt.trans_le hk) (BitVec.reverse_eq_zero_iff.mpr rfl)
  have hfalse := (two_pow_dvd_toNat_iff x k).mp hdvd _ hlt
  rw [BitVec.getLsbD_true_ctz_of_ne_zero hx] at hfalse
  cases hfalse

/-- The sum of the binary digits. -/
theorem toNat_cpop (x : BitVec w) : x.cpop.toNat = ((List.range w).map fun i => x.toNat / 2 ^ i % 2).sum := by
  have hrec (n acc : ℕ) : x.cpopNatRec n acc = acc + ((List.range n).map fun i => x.toNat / 2 ^ i % 2).sum := by
    induction n generalizing acc with
    | zero => rfl
    | succ n ih =>
      have hbit : (x.getLsbD n).toNat = x.toNat / 2 ^ n % 2 := by
        rw [BitVec.getLsbD, Nat.testBit_eq_decide_div_mod_eq]
        rcases Nat.mod_two_eq_zero_or_one (x.toNat / 2 ^ n) with h | h <;> rw [h] <;> rfl
      rw [BitVec.cpopNatRec_succ, ih, List.range_succ, List.map_append, List.sum_append, hbit, List.map_singleton,
        List.sum_singleton]
      omega
  rw [BitVec.toNat_cpop, hrec, Nat.zero_add]

end MachineInt
