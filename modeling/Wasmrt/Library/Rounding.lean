import Mathlib.Algebra.Order.Archimedean.Basic
import Mathlib.Algebra.Order.Field.Power
import Mathlib.Algebra.Order.Group.Unbundled.Abs
import Mathlib.Data.BitVec
import Mathlib.Data.FinEnum
import Mathlib.Tactic.Common
import Mathlib.Tactic.FieldSimp
import Mathlib.Tactic.Linarith
import Mathlib.Tactic.Positivity

/-!
# Rounding to nearest, ties to even

Rounding to the nearest entry of an increasing sequence, and to the nearest number of a binary format. The numbers of a
format that are not negative are the increasing sequence of what its bit patterns stand for, so that a number rounds to
a place in this sequence. The patterns go on beyond the largest finite one with exponents without a bound, so that a
number overflows when it rounds to a pattern that is too large.

## Main definitions

* `Nearest v x b`: the place `b` of the entry of `v` to which `x` rounds.
* `binaryValue m u`: the numbers of the format with `m` stored bits whose smallest subnormal is `2 ^ u`.
* `shiftRound`: shifting to the right with a guard bit and a sticky bit.

## Main results

* `Nearest.unique`, `Nearest.mono`, `exists_nearest`: rounding is a monotone function.
* `nearest_shiftRound`: shifting with a guard bit and a sticky bit rounds to nearest.
-/

namespace Rounding

variable {K : Type*} [Field K] [LinearOrder K] [IsStrictOrderedRing K]

/-! ## The nearest entry of a sequence -/

section Nearest

variable {v : ℕ → K} {x x' : K} {b b' : ℕ}

/-- No entry is nearer to `x`, and one that is as near leaves the even place to this one. -/
def Nearest (v : ℕ → K) (x : K) (b : ℕ) : Prop :=
  ∀ c ≠ b, |x - v b| < |x - v c| ∨ |x - v b| = |x - v c| ∧ Even b

/-- The nearest entry is the one below. -/
theorem nearest_of_le (hv : StrictMono v) (hle : v b ≤ x)
    (hnear : x - v b < v (b + 1) - x ∨ x - v b = v (b + 1) - x ∧ Even b) : Nearest v x b := by
  intro c hc
  have hb : |x - v b| = x - v b := abs_of_nonneg (by linarith)
  rcases lt_or_gt_of_ne hc with hlt | hgt
  · have hvc := hv hlt
    rw [hb, abs_of_nonneg (by linarith : 0 ≤ x - v c)]
    exact .inl (by linarith)
  · have hvc : v (b + 1) ≤ v c := hv.monotone hgt
    have habs : v c - x ≤ |x - v c| := by
      rw [abs_sub_comm]
      exact le_abs_self _
    rw [hb]
    rcases hnear with hnear | ⟨hnear, heven⟩
    · exact .inl (by linarith)
    · rcases (show x - v b ≤ |x - v c| by linarith).lt_or_eq with h | h
      · exact .inl h
      · exact .inr ⟨h, heven⟩

/-- The nearest entry is the one above. -/
theorem nearest_of_ge (hv : StrictMono v) (hle : x ≤ v (b + 1))
    (hnear : v (b + 1) - x < x - v b ∨ v (b + 1) - x = x - v b ∧ Even (b + 1)) : Nearest v x (b + 1) := by
  intro c hc
  have hb : |x - v (b + 1)| = v (b + 1) - x := by
    rw [abs_sub_comm]
    exact abs_of_nonneg (by linarith)
  rcases lt_or_gt_of_ne hc with hlt | hgt
  · have hvc : v c ≤ v b := hv.monotone (Nat.lt_succ_iff.mp hlt)
    have habs : x - v c ≤ |x - v c| := le_abs_self _
    rw [hb]
    rcases hnear with hnear | ⟨hnear, heven⟩
    · exact .inl (by linarith)
    · rcases (show v (b + 1) - x ≤ |x - v c| by linarith).lt_or_eq with h | h
      · exact .inl h
      · exact .inr ⟨h, heven⟩
  · have hvc := hv hgt
    rw [hb, abs_sub_comm x (v c), abs_of_nonneg (by linarith : 0 ≤ v c - x)]
    exact .inl (by linarith)

theorem nearest_self (hv : StrictMono v) (b : ℕ) : Nearest v (v b) b := by
  refine nearest_of_le hv le_rfl (.inl ?_)
  have hlt := hv (Nat.lt_succ_self b)
  simpa using hlt

/-- What is between two entries rounds to one of them. -/
theorem exists_nearest (hv : StrictMono v) (hle : v 0 ≤ x) (habove : ∃ c, x < v c) : ∃ b, Nearest v x b := by
  classical
  obtain ⟨b, hb⟩ := Nat.exists_eq_succ_of_ne_zero (n := Nat.find habove) fun hzero => by
    have hlt := Nat.find_spec habove
    rw [hzero] at hlt
    exact absurd hlt (not_lt.mpr hle)
  have hlt := Nat.find_spec habove
  rw [hb] at hlt
  have hbelow : v b ≤ x := not_lt.mp (Nat.find_min habove (by omega))
  rcases lt_trichotomy (x - v b) (v (b + 1) - x) with h | h | h
  · exact ⟨b, nearest_of_le hv hbelow (.inl h)⟩
  · rcases Nat.even_or_odd b with heven | hodd
    · exact ⟨b, nearest_of_le hv hbelow (.inr ⟨h, heven⟩)⟩
    · exact ⟨b + 1, nearest_of_ge hv hlt.le (.inr ⟨h.symm, hodd.add_one⟩)⟩
  · exact ⟨b + 1, nearest_of_ge hv hlt.le (.inl h)⟩

omit [IsStrictOrderedRing K] in
theorem Nearest.le_of (h : Nearest v x b) (c : ℕ) : |x - v b| ≤ |x - v c| := by
  by_cases hc : c = b
  · rw [hc]
  · exact (h c hc).elim le_of_lt fun heq => heq.1.le

/-- What is not nearer to the smaller of two numbers is at least halfway. -/
private theorem add_le_two_mul {a c : K} (hlt : a < c) (h : |x - c| ≤ |x - a|) : a + c ≤ 2 * x := by
  rcases abs_cases (x - c) with ⟨hc, hc'⟩ | ⟨hc, hc'⟩ <;> rcases abs_cases (x - a) with ⟨ha, ha'⟩ | ⟨ha, ha'⟩ <;>
    linarith

private theorem two_mul_le_add {a c : K} (hlt : a < c) (h : |x - a| ≤ |x - c|) : 2 * x ≤ a + c := by
  rcases abs_cases (x - c) with ⟨hc, hc'⟩ | ⟨hc, hc'⟩ <;> rcases abs_cases (x - a) with ⟨ha, ha'⟩ | ⟨ha, ha'⟩ <;>
    linarith

/-- Rounding is monotone. -/
theorem Nearest.mono (hv : StrictMono v) (h : Nearest v x b) (h' : Nearest v x' b') (hle : x ≤ x') : b ≤ b' := by
  by_contra hlt
  push Not at hlt
  have hvb := hv hlt
  -- both numbers would be halfway between the two entries
  have hmid := add_le_two_mul hvb (h.le_of b')
  have hmid' := two_mul_le_add hvb (h'.le_of b)
  obtain rfl : x = x' := by linarith
  have hb : |x - v b| = v b - x := by rw [abs_sub_comm, abs_of_nonneg (by linarith)]
  have hb' : |x - v b'| = x - v b' := abs_of_nonneg (by linarith)
  have heven : Even b := ((h b' hlt.ne).resolve_left (by rw [hb, hb']; linarith)).2
  have heven' : Even b' := ((h' b hlt.ne').resolve_left (by rw [hb, hb']; linarith)).2
  -- and the odd place between them would be nearer
  have hnext : b' + 1 < b := by
    rcases heven with ⟨k, rfl⟩
    rcases heven' with ⟨l, rfl⟩
    omega
  have hbelow := hv (Nat.lt_succ_self b')
  have habove := hv hnext
  have hnear := h.le_of (b' + 1)
  rw [hb] at hnear
  rcases abs_cases (x - v (b' + 1)) with ⟨hc, -⟩ | ⟨hc, -⟩ <;> linarith

theorem Nearest.unique (hv : StrictMono v) (h : Nearest v x b) (h' : Nearest v x b') : b = b' :=
  le_antisymm (h.mono hv h' le_rfl) (h'.mono hv h le_rfl)

end Nearest

/-! ## Binary formats -/

/-- The numbers of the format with `m` stored bits whose smallest subnormal is `2 ^ u`, by their patterns. -/
def binaryValue (m : ℕ) (u : ℤ) (b : ℕ) : K :=
  if b < 2 ^ m then b * 2 ^ u else (2 ^ m + b % 2 ^ m : ℕ) * 2 ^ (u + (b / 2 ^ m - 1 : ℕ))

section Binary

variable (m : ℕ) (u : ℤ)

/-- A significand at an exponent. One that is too large by one is the smallest of the next exponent. -/
theorem binaryValue_eq {j q : ℕ} (hq : q ≤ 2 ^ (m + 1)) (hj : j = 0 ∨ 2 ^ m ≤ q) :
    binaryValue m u (j * 2 ^ m + q) = (q * 2 ^ (u + j) : K) := by
  have hpos := Nat.two_pow_pos m
  rw [pow_succ] at hq
  rcases lt_or_ge q (2 ^ m) with hsub | hnormal
  · obtain rfl := hj.resolve_right (by omega)
    simp [binaryValue, hsub]
  obtain ⟨r, rfl⟩ := Nat.exists_eq_add_of_le hnormal
  rcases lt_or_ge r (2 ^ m) with hr | hr
  · have hb : j * 2 ^ m + (2 ^ m + r) = r + (j + 1) * 2 ^ m := by ring
    rw [binaryValue, if_neg (by omega), hb, Nat.add_mul_div_right _ _ hpos, Nat.add_mul_mod_self_right,
      Nat.div_eq_of_lt hr, Nat.mod_eq_of_lt hr, Nat.zero_add, Nat.add_sub_cancel]
  · obtain rfl : r = 2 ^ m := by omega
    have hb : j * 2 ^ m + (2 ^ m + 2 ^ m) = (j + 1 + 1) * 2 ^ m := by ring
    rw [binaryValue, if_neg (by omega), hb, Nat.mul_div_cancel _ hpos, Nat.mul_mod_left, Nat.add_sub_cancel]
    have hpow : (2 : K) ^ (u + (j + 1 : ℕ)) = 2 ^ (u + j) * 2 := by
      rw [← zpow_add_one₀ two_ne_zero, Nat.cast_add_one, add_assoc]
    rw [hpow]
    push_cast
    ring

theorem exists_significand (b : ℕ) :
    ∃ j q, b = j * 2 ^ m + q ∧ q < 2 ^ (m + 1) ∧ (j = 0 ∨ 2 ^ m ≤ q) := by
  have hpos := Nat.two_pow_pos m
  rcases lt_or_ge b (2 ^ m) with hsub | hnormal
  · exact ⟨0, b, by simp, hsub.trans (Nat.pow_lt_pow_succ one_lt_two), .inl rfl⟩
  · have hmod := Nat.mod_lt b hpos
    have hdiv : 1 ≤ b / 2 ^ m := (Nat.one_le_div_iff hpos).mpr hnormal
    refine ⟨b / 2 ^ m - 1, 2 ^ m + b % 2 ^ m, ?_, by rw [pow_succ]; omega, .inr (Nat.le_add_right _ _)⟩
    calc b = b / 2 ^ m * 2 ^ m + b % 2 ^ m := (Nat.div_add_mod' b (2 ^ m)).symm
      _ = (b / 2 ^ m - 1 + 1) * 2 ^ m + b % 2 ^ m := by rw [Nat.sub_add_cancel hdiv]
      _ = (b / 2 ^ m - 1) * 2 ^ m + (2 ^ m + b % 2 ^ m) := by ring

theorem binaryValue_strictMono : StrictMono (binaryValue m u : ℕ → K) := by
  refine strictMono_nat_of_lt_succ fun b => ?_
  obtain ⟨j, q, rfl, hq, hj⟩ := exists_significand m b
  rw [add_assoc, binaryValue_eq m u hq.le hj, binaryValue_eq m u hq (hj.imp_right fun h => h.trans (Nat.le_succ q))]
  have hpow : (0 : K) < 2 ^ (u + j) := by positivity
  push_cast
  linarith [mul_pos one_pos hpow]

/-- The numbers of a format go beyond every number. -/
theorem exists_lt_binaryValue [Archimedean K] (x : K) : ∃ b, x < binaryValue m u b := by
  obtain ⟨n, hn⟩ := pow_unbounded_of_one_lt x (one_lt_two (α := K))
  refine ⟨(n - u).toNat * 2 ^ m + 2 ^ m, hn.trans_le ?_⟩
  rw [binaryValue_eq m u (Nat.pow_le_pow_right two_pos (Nat.le_succ m)) (.inr le_rfl)]
  have hle : (2 : K) ^ (n : ℤ) ≤ 2 ^ (u + (n - u).toNat) := zpow_le_zpow_right₀ one_le_two (by omega)
  have hone : (1 : K) ≤ (2 ^ m : ℕ) := by exact_mod_cast Nat.one_le_two_pow
  calc (2 : K) ^ n = 2 ^ (n : ℤ) := (zpow_natCast 2 n).symm
    _ ≤ 2 ^ (u + (n - u).toNat) := hle
    _ ≤ (2 ^ m : ℕ) * 2 ^ (u + (n - u).toNat) := le_mul_of_one_le_left (by positivity) hone

/-- Rounding between two significands of an exponent. -/
theorem nearest_binaryValue {m : ℕ} {u : ℤ} (hm : 0 < m) {j q : ℕ} {x y : K} (hx : x = y * 2 ^ (u + j)) (hle : q ≤ y)
    (hlt : y < q + 1) (hq : q < 2 ^ (m + 1)) (hj : j = 0 ∨ 2 ^ m ≤ q) {up : Bool}
    (hup : up = true ↔ 1 < 2 * (y - q) ∨ 1 = 2 * (y - q) ∧ Odd q) :
    Nearest (binaryValue m u) x (j * 2 ^ m + (q + up.toNat)) := by
  have hv := binaryValue_strictMono (K := K) m u
  have hpow : (0 : K) < 2 ^ (u + j) := by positivity
  have hbelow : binaryValue m u (j * 2 ^ m + q) = (q * 2 ^ (u + j) : K) := binaryValue_eq m u hq.le hj
  have habove : binaryValue m u (j * 2 ^ m + q + 1) = ((q + 1) * 2 ^ (u + j) : K) := by
    rw [add_assoc, binaryValue_eq m u hq (hj.imp_right fun h => h.trans (Nat.le_succ q))]
    push_cast
    rfl
  have hparity : Even (j * 2 ^ m + q) ↔ Even q := by
    have heven : Even (j * 2 ^ m) := (Nat.even_pow.mpr ⟨even_two, hm.ne'⟩).mul_left j
    rw [Nat.even_add]
    exact iff_true_left heven
  subst hx
  cases up with
  | true =>
    change Nearest _ _ (j * 2 ^ m + q + 1)
    refine nearest_of_ge hv ?_ ?_
    · rw [habove]
      exact mul_le_mul_of_nonneg_right hlt.le hpow.le
    · rw [hbelow, habove, ← sub_mul, ← sub_mul, mul_lt_mul_iff_left₀ hpow, mul_left_inj' hpow.ne', Nat.even_add_one,
        hparity, Nat.not_even_iff_odd]
      exact (hup.mp rfl).imp (fun h => by linarith) fun h => ⟨by linarith, h.2⟩
  | false =>
    change Nearest _ _ (j * 2 ^ m + q)
    refine nearest_of_le hv ?_ ?_
    · rw [hbelow]
      exact mul_le_mul_of_nonneg_right hle hpow.le
    · have hnot : ¬ (1 < 2 * (y - q) ∨ 1 = 2 * (y - q) ∧ Odd q) := fun h => nomatch hup.mpr h
      rw [hbelow, habove, ← sub_mul, ← sub_mul, mul_lt_mul_iff_left₀ hpow, mul_left_inj' hpow.ne',
        hparity, ← Nat.not_odd_iff_even]
      push Not at hnot
      rcases hnot.1.lt_or_eq with h | h
      · exact .inl (by linarith)
      · exact .inr ⟨by linarith, hnot.2 h.symm⟩

end Binary

/-! ## Guard and sticky bits -/

/-- Shift to the right and round, ties to even. The sticky bit tells whether something was lost before. -/
def shiftRound (n k : ℕ) (sticky : Bool) : ℕ :=
  n / 2 ^ k + (n.testBit (k - 1) && (sticky || n % 2 ^ (k - 1) ≠ 0 || n.testBit k)).toNat

section ShiftRound

variable {n k : ℕ} {sticky : Bool} {d : K}

/-- What the guard bit and the sticky bit say of the fraction. -/
theorem guard_sticky_iff (hk : 0 < k) (hd : 0 ≤ d) (hd₁ : d < 1) (hsticky : sticky = true ↔ 0 < d) :
    (n.testBit (k - 1) && (sticky || n % 2 ^ (k - 1) ≠ 0 || n.testBit k)) = true ↔
      1 < 2 * ((n + d) / 2 ^ k - (n / 2 ^ k : ℕ)) ∨ 1 = 2 * ((n + d) / 2 ^ k - (n / 2 ^ k : ℕ)) ∧ Odd (n / 2 ^ k) := by
  obtain ⟨k, rfl⟩ := Nat.exists_eq_succ_of_ne_zero hk.ne'
  have hpos : (0 : K) < 2 ^ k := by positivity
  have hlow : n % 2 ^ k + 1 ≤ 2 ^ k := Nat.mod_lt n (Nat.two_pow_pos k)
  -- the rest is the guard bit, the bits below it and what was lost before
  have hdecomp : n / 2 ^ (k + 1) * 2 ^ (k + 1) + n / 2 ^ k % 2 * 2 ^ k + n % 2 ^ k = n := by
    have hmod : n % 2 ^ (k + 1) = n % 2 ^ k + 2 ^ k * (n / 2 ^ k % 2) := Nat.mod_pow_succ
    have hdiv := Nat.div_add_mod' n (2 ^ (k + 1))
    rw [hmod] at hdiv
    linarith
  have hfrac : 2 * ((n + d) / 2 ^ (k + 1) - (n / 2 ^ (k + 1) : ℕ)) =
      (n / 2 ^ k % 2 : ℕ) + ((n % 2 ^ k : ℕ) + d) / 2 ^ k := by
    have hcast := congrArg (Nat.cast (R := K)) hdecomp
    rw [Nat.cast_add, Nat.cast_add, Nat.cast_mul, Nat.cast_mul, Nat.cast_pow, Nat.cast_pow, Nat.cast_ofNat] at hcast
    rw [eq_comm, ← mul_right_inj' hpos.ne', mul_add, mul_div_cancel₀ _ hpos.ne', mul_sub, mul_sub, pow_succ (2 : K)]
    rw [pow_succ (2 : K)] at hcast
    have hdouble : (2 : K) ^ k * (2 * ((n + d) / (2 ^ k * 2))) = n + d := by
      field_simp
    rw [hdouble]
    linarith
  have hfrac_lt : ((n % 2 ^ k : ℕ) + d) / 2 ^ k < (1 : K) := by
    rw [div_lt_one hpos]
    have hlow' : ((n % 2 ^ k : ℕ) : K) + 1 ≤ 2 ^ k := by exact_mod_cast hlow
    linarith
  have hfrac_pos : (0 : K) < ((n % 2 ^ k : ℕ) + d) / 2 ^ k ↔ 0 < d ∨ n % 2 ^ k ≠ 0 := by
    rw [div_pos_iff_of_pos_right hpos]
    rcases Nat.eq_zero_or_pos (n % 2 ^ k) with hzero | hlow_pos
    · simp [hzero]
    · have hcast : (0 : K) < (n % 2 ^ k : ℕ) := by exact_mod_cast hlow_pos
      exact iff_of_true (by linarith) (.inr hlow_pos.ne')
  simp only [Nat.succ_eq_add_one, Nat.add_sub_cancel, hfrac, Nat.testBit_eq_decide_div_mod_eq, Bool.and_eq_true,
    Bool.or_eq_true, decide_eq_true_eq, hsticky, ← hfrac_pos, ← Nat.odd_iff]
  have hfrac_nonneg : (0 : K) ≤ ((n % 2 ^ k : ℕ) + d) / 2 ^ k := by positivity
  rcases Nat.mod_two_eq_zero_or_one (n / 2 ^ k) with hguard | hguard
  · rw [hguard, Nat.cast_zero, zero_add]
    refine iff_of_false (fun h => ?_) (fun h => ?_)
    · have hodd := Nat.odd_iff.mp h.1
      omega
    · exact h.elim (fun h => absurd h (by linarith)) fun h => absurd h.1 hfrac_lt.ne'
  · have hodd : Odd (n / 2 ^ k) := Nat.odd_iff.mpr hguard
    rw [hguard, Nat.cast_one, and_iff_right hodd, lt_add_iff_pos_right, left_eq_add]
    rcases hfrac_nonneg.eq_or_lt with hzero | hfpos
    · simp [← hzero]
    · exact iff_of_true (.inl hfpos) (.inl hfpos)

/-- Shifting with a guard bit and a sticky bit rounds to nearest. -/
theorem nearest_shiftRound {m : ℕ} {u : ℤ} (hm : 0 < m) {j : ℕ} (hk : 0 < k) (hd : 0 ≤ d) (hd₁ : d < 1)
    (hsticky : sticky = true ↔ 0 < d) (hq : n / 2 ^ k < 2 ^ (m + 1)) (hj : j = 0 ∨ 2 ^ m ≤ n / 2 ^ k) :
    Nearest (binaryValue m u) ((n + d) * 2 ^ (u + j - k)) (j * 2 ^ m + shiftRound n k sticky) := by
  have hpos : (0 : K) < 2 ^ k := by positivity
  refine nearest_binaryValue hm (y := (n + d) / 2 ^ k) ?_ ?_ ?_ hq hj (guard_sticky_iff hk hd hd₁ hsticky)
  · rw [zpow_sub₀ two_ne_zero, zpow_natCast]
    ring
  · rw [le_div_iff₀ hpos]
    have hle : n / 2 ^ k * 2 ^ k ≤ n := Nat.div_mul_le_self n (2 ^ k)
    have hcast : ((n / 2 ^ k : ℕ) : K) * 2 ^ k ≤ n := by exact_mod_cast hle
    linarith
  · rw [div_lt_iff₀ hpos]
    have hlt : n + 1 ≤ (n / 2 ^ k + 1) * 2 ^ k := by
      have := Nat.lt_div_mul_add (a := n) (Nat.two_pow_pos k)
      rw [Nat.succ_mul]
      exact this
    have hcast : (n : K) + 1 ≤ ((n / 2 ^ k : ℕ) + 1) * 2 ^ k := by exact_mod_cast hlt
    linarith

end ShiftRound

end Rounding
