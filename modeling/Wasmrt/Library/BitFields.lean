import Mathlib.Data.BitVec
import Mathlib.Data.FinEnum
import Mathlib.Tactic.Common

/-!
# A word with flags and one field

A word `flags ||| x &&& mask` keeps flags outside a mask and a field of `x` inside it.

## Main results

* `or_and_mask`, `or_and_flag`: the field and the flags are read back.
* `or_and_set`, `or_and_clear`: setting or clearing a flag leaves the field as it is.
-/

namespace BitFields

variable {w : ℕ} {flags mask bit x : BitVec w}

/-- A flag is read from the flags. -/
theorem or_and_flag (hbit : mask &&& bit = 0) : (flags ||| x &&& mask) &&& bit = flags &&& bit := by
  rw [BitVec.and_or_distrib_right, BitVec.and_assoc, hbit, BitVec.ofNat_eq_ofNat, BitVec.and_zero, BitVec.or_zero]

/-- The field is read from the field. -/
theorem or_and_mask (hflags : flags &&& mask = 0) : (flags ||| x &&& mask) &&& mask = x &&& mask := by
  rw [BitVec.and_or_distrib_right, hflags, BitVec.and_assoc, BitVec.and_self, BitVec.ofNat_eq_ofNat, BitVec.zero_or]

/-- Setting a bit adds it to the flags. -/
theorem or_and_set : (flags ||| x &&& mask) ||| bit = (flags ||| bit) ||| x &&& mask := by
  rw [BitVec.or_assoc, BitVec.or_comm (x &&& mask), BitVec.or_assoc]

/-- Clearing a flag takes it from the flags. -/
theorem or_and_clear (hbit : mask &&& ~~~bit = mask) :
    (flags ||| x &&& mask) &&& ~~~bit = (flags &&& ~~~bit) ||| x &&& mask := by
  rw [BitVec.and_or_distrib_right, BitVec.and_assoc x, hbit]

end BitFields
