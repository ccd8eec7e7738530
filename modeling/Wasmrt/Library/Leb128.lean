import Mathlib.Data.BitVec
import Mathlib.Data.FinEnum
import Mathlib.Tactic.Common
import Mathlib.Tactic.Ring

/-!
# LEB128

The variable-length encodings of integers in groups of seven bits, the lowest first: every byte but the last has its high
bit set. An encoding is of an integer of `N` bits, unsigned or in two's complement, and need not be the shortest one. The
last byte that fits has its unused bits zero or, for a signed integer, equal to the sign.

## Main definitions

* `Encodes signed N w v`: the bytes `w` encode `v` as an integer of `N` bits.
* `Chain w`: every byte of `w` but the last continues it.

## Main results

* `Encodes.inRange`: what is encoded has `N` bits.
* `Encodes.length_le`: an encoding has at most `⌈N / 7⌉` bytes.
* `Encodes.chain`: where an encoding ends does not depend on `N`.
-/

namespace Leb128

/-- The integers of `N` bits. -/
def InRange (signed : Bool) (N : ℕ) (v : ℤ) : Prop :=
  if signed then -2 ^ (N - 1) ≤ v ∧ v < 2 ^ (N - 1) else 0 ≤ v ∧ v < 2 ^ N

instance (signed : Bool) (N : ℕ) (v : ℤ) : Decidable (InRange signed N v) := by
  unfold InRange
  infer_instance

/-- The integer that a last byte stands for. -/
def payload (signed : Bool) (b : UInt8) : ℤ :=
  if signed ∧ 64 ≤ b.toNat then b.toNat - 128 else b.toNat

/-- The bytes encode an integer of `N` bits. -/
inductive Encodes (signed : Bool) : ℕ → List UInt8 → ℤ → Prop
  | last {N : ℕ} {b : UInt8} (hbyte : b.toNat < 128) (hfits : InRange signed N (payload signed b)) :
      Encodes signed N [b] (payload signed b)
  | more {N : ℕ} {b : UInt8} {w : List UInt8} {v : ℤ} (hbyte : 128 ≤ b.toNat) (hbits : 7 < N)
      (h : Encodes signed (N - 7) w v) : Encodes signed N (b :: w) (b.toNat - 128 + 128 * v)

/-- Every byte but the last has its high bit set. -/
inductive Chain : List UInt8 → Prop
  | last {b : UInt8} (hbyte : b.toNat < 128) : Chain [b]
  | more {b : UInt8} {w : List UInt8} (hbyte : 128 ≤ b.toNat) (h : Chain w) : Chain (b :: w)

variable {signed : Bool} {N : ℕ} {w : List UInt8} {v : ℤ}

theorem inRange_unsigned : InRange false N v ↔ 0 ≤ v ∧ v < 2 ^ N := Iff.rfl

theorem inRange_signed : InRange true N v ↔ -2 ^ (N - 1) ≤ v ∧ v < 2 ^ (N - 1) := Iff.rfl

/-- Seven bits have room for any last byte. -/
theorem inRange_payload {b : UInt8} (hbyte : b.toNat < 128) (hbits : 7 ≤ N) : InRange signed N (payload signed b) := by
  obtain ⟨n, rfl⟩ : ∃ n, N = n + 7 := ⟨N - 7, by omega⟩
  have hpow (k : ℕ) : (2 : ℤ) ^ k * 2 ^ n = 2 ^ (n + k) := by rw [mul_comm, pow_add]
  have hpos : (1 : ℤ) ≤ 2 ^ n := by exact_mod_cast Nat.one_le_two_pow
  cases signed with
  | true =>
    rw [inRange_signed, show n + 7 - 1 = n + 6 from by omega, ← hpow, payload]
    split_ifs with hneg
    · omega
    · have hlt : b.toNat < 64 := not_le.mp fun hle => hneg ⟨rfl, hle⟩
      omega
  | false =>
    rw [inRange_unsigned, ← hpow, payload, if_neg (by simp)]
    omega

/-- Seven more bits in front of an integer. -/
theorem inRange_more (hbits : 7 < N) {b : ℤ} (hb : 0 ≤ b ∧ b < 128) :
    InRange signed N (b + 128 * v) ↔ InRange signed (N - 7) v := by
  obtain ⟨n, rfl⟩ : ∃ n, N = n + 1 + 7 := ⟨N - 8, by omega⟩
  have hpow (k : ℕ) : (2 : ℤ) ^ (k + 7) = 128 * 2 ^ k := by rw [pow_add, mul_comm]; norm_num
  cases signed with
  | true =>
    rw [inRange_signed, inRange_signed, Nat.add_sub_cancel, Nat.add_sub_cancel,
      show n + 1 + 7 - 1 = n + 7 from by omega, hpow]
    omega
  | false =>
    rw [inRange_unsigned, inRange_unsigned, Nat.add_sub_cancel, hpow]
    omega

namespace Encodes

theorem inRange (h : Encodes signed N w v) : InRange signed N v := by
  induction h with
  | last _ hfits => exact hfits
  | @more N b w v hbyte hbits _ ih =>
    have hlt := b.toNat_lt
    exact (inRange_more hbits (by omega)).mpr ih

theorem length_le (h : Encodes signed N w v) (hN : 0 < N) : w.length ≤ (N + 6) / 7 := by
  induction h with
  | last =>
    rw [List.length_singleton]
    omega
  | more _ hbits _ ih =>
    have := ih (by omega)
    rw [List.length_cons]
    omega

theorem chain (h : Encodes signed N w v) : Chain w := by
  induction h with
  | last hbyte _ => exact .last hbyte
  | more hbyte _ _ ih => exact .more hbyte ih

theorem of_eq {v' : ℤ} (h : Encodes signed N w v) (hv : v = v') : Encodes signed N w v' := hv ▸ h

end Encodes

end Leb128
