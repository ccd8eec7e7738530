import Wasmrt.Interp.Vectors

/-!
# Lanes of vectors

A lane read through its bytes is a run of bits of the vector, and packing lanes undoes it. What the macros compute
lane by lane is the vector of the results.

## Main definitions

* `Shape.lane`: the integer in a lane.
* `Shape.vector`: the vector of given integers, each reduced to the width of a lane.

## Main results

* `unpack_eq`, `packed_eq`: the views through bytes.
* `packed_fromFn`: an array computed index by index makes a vector.
-/

namespace Wasmrt

open MachineInt Lanes

variable {sh : Shape}

namespace Shape

/-- The integer in lane `i`. -/
def lane (sh : Shape) (sg : Bool) (v : Value) (i : ℕ) : ℤ := readInt sg (Lanes.lane sh.width v i)

/-- The vector of the given integers. -/
def vector (sh : Shape) (f : ℕ → ℤ) : Value :=
  Lanes.pack 128 ((List.range sh.count).map fun i => BitVec.ofInt sh.width (f i))

variable (sh)

theorem width_mul_count : sh.width * sh.count = 128 := by cases sh <;> rfl

theorem pow_bytes : 256 ^ sh.bytes = 2 ^ sh.width := by cases sh <;> rfl

theorem width_pos : 0 < sh.width := by cases sh <;> decide

end Shape

/-! ## Bytes -/

theorem leValue_eq (l : List UInt8) : leValue l = Nat.ofDigits 256 (l.map UInt8.toNat) := by
  induction l with
  | nil => rfl
  | cons b l ih => rw [List.map_cons, Nat.ofDigits_cons, ← ih]; rfl

theorem toNat_leBytes (n : ℕ) (v : Value) :
    (leBytes n v).map UInt8.toNat = (List.range n).map fun i => v.toNat / 256 ^ i % 256 := by
  rw [leBytes, List.map_map]
  refine List.map_congr_left fun i _ => ?_
  simp only [Function.comp_apply, BitVec.toNat_ushiftRight, Nat.shiftRight_eq_div_pow, UInt8.toNat_ofNat', Nat.mod_mod,
    pow_mul]
  rfl

/-- A lane through its bytes. -/
theorem leValue_lane (v : Value) {i : ℕ} (hi : i < sh.count) :
    leValue (((leBytes 16 v).drop (i * sh.bytes)).take sh.bytes) = (Lanes.lane sh.width v i).toNat := by
  have hroom : i * sh.bytes + sh.bytes ≤ 16 := by
    cases sh <;> simp only [Shape.count, Shape.bytes] at hi ⊢ <;> omega
  have hindices : ((List.range 16).drop (i * sh.bytes)).take sh.bytes =
      (List.range sh.bytes).map (i * sh.bytes + ·) := by
    apply List.ext_getElem
    · simp only [List.length_take, List.length_drop, List.length_range, List.length_map]
      omega
    · intro k _ _
      simp only [List.getElem_take, List.getElem_drop, List.getElem_range, List.getElem_map]
  have hdigit (k : ℕ) : v.toNat / 256 ^ (i * sh.bytes + k) % 256 = v.toNat / 256 ^ (i * sh.bytes) / 256 ^ k % 256 := by
    rw [pow_add, Nat.div_div_eq_div_mul]
  rw [leValue_eq, List.map_take, List.map_drop, toNat_leBytes, ← List.map_drop, ← List.map_take, hindices, List.map_map,
    Function.comp_def]
  simp only [hdigit]
  rw [ofDigits_digit, toNat_lane, Nat.mul_comm, pow_mul, sh.pow_bytes]

theorem unpack_eq (v : Value) : unpack sh v = (List.range sh.count).map (Lanes.lane sh.width v) := by
  refine List.map_congr_left fun i hi => ?_
  rw [leValue_lane v (List.mem_range.mp hi), BitVec.ofNat_toNat, BitVec.setWidth_eq]

theorem getElem?_unpack (v : Value) {i : ℕ} (hi : i < sh.count) :
    (unpack sh v)[i]? = some (Lanes.lane sh.width v i) := by
  rw [unpack_eq, List.getElem?_map, List.getElem?_range hi]
  rfl

theorem length_unpack (v : Value) : (unpack sh v).length = sh.count := by
  rw [unpack_eq, List.length_map, List.length_range]

theorem packed_eq (l : List (BitVec sh.width)) : packed sh l = Lanes.pack 128 l := by
  have hbytes (x : BitVec sh.width) :
      Nat.ofDigits 256 ((leBytes sh.bytes (x.setWidth 128)).map UInt8.toNat) = x.toNat := by
    have hlt : x.toNat < 256 ^ sh.bytes := sh.pow_bytes ▸ x.isLt
    have hlt' : x.toNat < 2 ^ 128 := x.isLt.trans_le (Nat.pow_le_pow_right (by decide) (by cases sh <;> decide))
    rw [toNat_leBytes, ofDigits_digit, BitVec.toNat_setWidth, Nat.mod_eq_of_lt hlt', Nat.mod_eq_of_lt hlt]
  have hlen (x : BitVec sh.width) : ((leBytes sh.bytes (x.setWidth 128)).map UInt8.toNat).length = sh.bytes := by
    rw [List.length_map, leBytes, List.length_map, List.length_range]
  rw [packed, Lanes.pack, leValue_eq, List.map_flatMap, ofDigits_flatMap 256 sh.bytes _ l fun x _ => hlen x, sh.pow_bytes]
  simp only [hbytes]

/-! ## Vectors -/

theorem fromFn_eq_some {α : Type} {n : ℕ} {f : ℕ → Option α} {g : ℕ → α} (h : ∀ i < n, f i = some (g i)) :
    fromFn n f = some ((List.range n).map g) := by
  have hmapM (l : List ℕ) (hl : ∀ i ∈ l, f i = some (g i)) : l.mapM f = some (l.map g) := by
    induction l with
    | nil => rfl
    | cons i l ih =>
      rw [List.mapM_cons, hl i List.mem_cons_self, ih fun j hj => hl j (.tail _ hj)]
      rfl
  exact hmapM _ fun i hi => h i (List.mem_range.mp hi)

/-- Lanes that are the words of integers make their vector. -/
theorem packed_fromFn (sh : Shape) {f : ℕ → Option (BitVec sh.width)} {g : ℕ → ℤ}
    (h : ∀ i < sh.count, f i = some (BitVec.ofInt sh.width (g i))) :
    (do let r ← fromFn sh.count f; pure (packed sh r)) = some (sh.vector g) := by
  rw [fromFn_eq_some h]
  exact congrArg some (packed_eq _)

end Wasmrt
