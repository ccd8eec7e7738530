import Mathlib.Data.BitVec
import Mathlib.Data.FinEnum
import Mathlib.Tactic.Common

/-!
# Runtime values

A value slot is 128 bits wide: a numeric value in its low bits, a vector, or a reference. References
share the slot by tag bits: null is the low 64 bits set, an `i31` sets bit 63, a host address bit 64
and an `externref` wrapper bit 65. A `funcref` packs the index of its owning instance above the
function index; any other reference is an index into the GC heap.

## Main definitions

* `Value`: a slot.
* `nullRef`, `packFuncref`, `funcrefInstance`, `funcrefIndex`: the reference encodings.
* `externalize`, `internalize`: the bridge between `anyref` and `externref`.
-/

namespace Wasmrt

/-- A value slot. -/
abbrev Value := BitVec 128

/-- The null reference, also the content of an uninitialised table entry. -/
def nullRef : Value := 0xFFFFFFFFFFFFFFFF

/-- Marks an unboxed `i31`. -/
def i31Tag : Value := 0x8000000000000000

/-- Marks the low bits as a host address. -/
def hostTag : Value := 0x10000000000000000

/-- Marks an `externref` wrapper around the internal reference in the other bits. -/
def externTag : Value := 0x20000000000000000

/-- Wrap an internal reference as an `externref`; null stays null. -/
def externalize (v : Value) : Value := if v = nullRef then v else v ||| externTag

/-- Unwrap an `externref`; null stays null. -/
def internalize (v : Value) : Value := if v = nullRef then v else v &&& ~~~externTag

/-! ## Numbers -/

def i32Value (x : BitVec 32) : Value := x.setWidth 128
def asI32 (v : Value) : BitVec 32 := v.setWidth 32
def i64Value (x : BitVec 64) : Value := x.setWidth 128
def asI64 (v : Value) : BitVec 64 := v.setWidth 64

/-- An address or count popped for a memory or table: an `i64` under a 64-bit index type, otherwise
an `i32`, both unsigned. -/
def popMem (is64 : Bool) (v : Value) : ℕ := if is64 then (asI64 v).toNat else (asI32 v).toNat

/-- The low 64 bits hold the operand. -/
theorem popMem_ofNat {is64 : Bool} {n : ℕ} (h : n < 2 ^ 32) : popMem is64 (BitVec.ofNat 128 n) = n := by
  cases is64 <;> simp [popMem, asI32, asI64] <;> omega

/-! ## Function references -/

/-- Instances a `funcref` can address: 31 bits, since bit 63 marks an `i31`. -/
def maxInstances : ℕ := 2 ^ 31

/-- Pack an owning instance and a function index into a `funcref`. -/
def packFuncref (inst func : ℕ) : Value := BitVec.ofNat 128 inst <<< 32 ||| BitVec.ofNat 128 func

/-- The instance that produced a `funcref`. -/
def funcrefInstance (v : Value) : ℕ := ((v >>> 32) &&& 0x7fffffff).toNat

/-- The function index within the owning instance. -/
def funcrefIndex (v : Value) : ℕ := (v.setWidth 32).toNat

/-- A packed reference as a number. -/
theorem toNat_packFuncref {inst func : ℕ} (hi : inst < maxInstances) (hf : func < 2 ^ 32) :
    (packFuncref inst func).toNat = inst * 2 ^ 32 + func := by
  have hi : inst < 2 ^ 31 := hi
  have hshl : (BitVec.ofNat 128 inst <<< 32).toNat = inst <<< 32 := by
    simp only [BitVec.toNat_shiftLeft, BitVec.toNat_ofNat, Nat.shiftLeft_eq]
    omega
  rw [packFuncref, BitVec.toNat_or, hshl, BitVec.toNat_ofNat, Nat.mod_eq_of_lt (by omega),
    ← Nat.shiftLeft_add_eq_or_of_lt hf, Nat.shiftLeft_eq]

/-- A packed reference reads back the instance and the function. -/
theorem funcref_packFuncref {inst func : ℕ} (hi : inst < maxInstances) (hf : func < 2 ^ 32) :
    funcrefInstance (packFuncref inst func) = inst ∧ funcrefIndex (packFuncref inst func) = func := by
  have hpack := toNat_packFuncref hi hf
  have hi : inst < 2 ^ 31 := hi
  constructor
  · rw [funcrefInstance, BitVec.toNat_and, BitVec.toNat_ushiftRight, hpack, Nat.shiftRight_eq_div_pow]
    have hmask : (0x7fffffff : Value).toNat = 2 ^ 31 - 1 := rfl
    rw [hmask, Nat.and_two_pow_sub_one_eq_mod]
    omega
  · rw [funcrefIndex, BitVec.toNat_setWidth, hpack]
    omega

end Wasmrt
