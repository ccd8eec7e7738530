import Wasmrt.Interp.Arithmetic
import Wasmrt.Interp.Lanes

/-!
# The arithmetic of vectors

What a vector instruction computes, on the exact integers in the lanes of its operands: every lane of the result is an
integer reduced to the width of a lane. No instruction overflows a word of the host.

## Main definitions

* `VUnOp`, `VBinOp`, `VTernOp`, `VTestOp`, `VShiftOp`: the instructions, by their operands.
* `VUnOp.sub?`, …: the sub-opcode of an instruction; none where a shape lacks it.
* `VUnOp.result`, …: what it computes.

## Main results

* `execLanes_un`, `execLanes_bin`, …: an instruction computes its result.
-/

namespace Wasmrt

open MachineInt

/-! ## The instructions -/

namespace Shape

/-- What a shape picks of four. -/
def pick (sh : Shape) (a b c d : ℕ) : ℕ :=
  match sh with
  | i8x16 => a
  | i16x8 => b
  | i32x4 => c
  | i64x2 => d

/-- The number that goes into a lane. -/
def number : Shape → Width
  | i64x2 => .w64
  | _ => .w32

/-- The shape of half as many lanes. -/
def wider : Shape → Shape
  | i8x16 => i16x8
  | i16x8 => i32x4
  | i32x4 | i64x2 => i64x2

end Shape

/-- Instructions of one vector. -/
inductive VUnOp
  | not | abs (sh : Shape) | neg (sh : Shape) | popcnt
  | extadd (sh : Shape) (sg : Bool)
  | extend (sh : Shape) (high sg : Bool)
  deriving DecidableEq, Repr

/-- Instructions of two vectors. -/
inductive VBinOp
  | and | andnot | or | xor
  | rel (sh : Shape) (op : IRelOp)
  | add (sh : Shape) | sub (sh : Shape) | mul (sh : Shape)
  | addSat (sh : Shape) (sg : Bool) | subSat (sh : Shape) (sg : Bool)
  | min (sh : Shape) (sg : Bool) | max (sh : Shape) (sg : Bool)
  | avgr (sh : Shape)
  | narrow (sh : Shape) (sg : Bool)
  | extmul (sh : Shape) (high sg : Bool)
  | q15mulr | relaxedQ15mulr
  | dot | relaxedDot
  | shuffle | swizzle | relaxedSwizzle
  deriving DecidableEq, Repr

/-- Instructions of three vectors. -/
inductive VTernOp
  | bitselect | laneselect (sh : Shape) | relaxedDotAdd
  deriving DecidableEq, Repr

/-- Instructions from a vector to a number. -/
inductive VTestOp
  | anyTrue | allTrue (sh : Shape) | bitmask (sh : Shape)
  deriving DecidableEq, Repr

/-- Shifts. -/
inductive VShiftOp
  | shl | shrS | shrU
  deriving DecidableEq, Repr

/-! ## Their sub-opcodes -/

/-- The sub-opcode of an instruction on lanes of `sh`, the first of its group for `i8x16` and so on. -/
def VUnOp.sub? : VUnOp → Option ℕ
  | not => some 0x4d
  | abs sh => some (sh.pick 0x60 0x80 0xa0 0xc0)
  | neg sh => some (sh.pick 0x61 0x81 0xa1 0xc1)
  | popcnt => some 0x62
  | extadd .i8x16 sg => some (if sg then 0x7c else 0x7d)
  | extadd .i16x8 sg => some (if sg then 0x7e else 0x7f)
  | extadd _ _ => none
  | extend .i64x2 _ _ => none
  | extend sh false true => some (sh.pick 0x87 0xa7 0xc7 0)
  | extend sh true true => some (sh.pick 0x88 0xa8 0xc8 0)
  | extend sh false false => some (sh.pick 0x89 0xa9 0xc9 0)
  | extend sh true false => some (sh.pick 0x8a 0xaa 0xca 0)

/-- The sub-opcode of a comparison; lanes of 64 bits are not compared as unsigned. -/
def relSub? : Shape → IRelOp → Option ℕ
  | .i64x2, .ltU | .i64x2, .gtU | .i64x2, .leU | .i64x2, .geU => none
  | sh, .eq => some (sh.pick 0x23 0x2d 0x37 0xd6)
  | sh, .ne => some (sh.pick 0x24 0x2e 0x38 0xd7)
  | sh, .ltS => some (sh.pick 0x25 0x2f 0x39 0xd8)
  | sh, .ltU => some (sh.pick 0x26 0x30 0x3a 0)
  | sh, .gtS => some (sh.pick 0x27 0x31 0x3b 0xd9)
  | sh, .gtU => some (sh.pick 0x28 0x32 0x3c 0)
  | sh, .leS => some (sh.pick 0x29 0x33 0x3d 0xda)
  | sh, .leU => some (sh.pick 0x2a 0x34 0x3e 0)
  | sh, .geS => some (sh.pick 0x2b 0x35 0x3f 0xdb)
  | sh, .geU => some (sh.pick 0x2c 0x36 0x40 0)

/-- The sub-opcode of an instruction of two vectors; `narrow` names the shape of the result, `extmul` that of the operands. -/
def VBinOp.sub? : VBinOp → Option ℕ
  | and => some 0x4e
  | andnot => some 0x4f
  | or => some 0x50
  | xor => some 0x51
  | rel sh op => relSub? sh op
  | add sh => some (sh.pick 0x6e 0x8e 0xae 0xce)
  | sub sh => some (sh.pick 0x71 0x91 0xb1 0xd1)
  | mul .i8x16 => none
  | mul sh => some (sh.pick 0 0x95 0xb5 0xd5)
  | addSat .i8x16 sg => some (if sg then 0x6f else 0x70)
  | addSat .i16x8 sg => some (if sg then 0x8f else 0x90)
  | addSat _ _ => none
  | subSat .i8x16 sg => some (if sg then 0x72 else 0x73)
  | subSat .i16x8 sg => some (if sg then 0x92 else 0x93)
  | subSat _ _ => none
  | min .i64x2 _ | max .i64x2 _ => none
  | min sh sg => some (if sg then sh.pick 0x76 0x96 0xb6 0 else sh.pick 0x77 0x97 0xb7 0)
  | max sh sg => some (if sg then sh.pick 0x78 0x98 0xb8 0 else sh.pick 0x79 0x99 0xb9 0)
  | avgr .i8x16 => some 0x7b
  | avgr .i16x8 => some 0x9b
  | avgr _ => none
  | narrow .i8x16 sg => some (if sg then 0x65 else 0x66)
  | narrow .i16x8 sg => some (if sg then 0x85 else 0x86)
  | narrow _ _ => none
  | extmul .i64x2 _ _ => none
  | extmul sh false true => some (sh.pick 0x9c 0xbc 0xdc 0)
  | extmul sh true true => some (sh.pick 0x9d 0xbd 0xdd 0)
  | extmul sh false false => some (sh.pick 0x9e 0xbe 0xde 0)
  | extmul sh true false => some (sh.pick 0x9f 0xbf 0xdf 0)
  | q15mulr => some 0x82
  | relaxedQ15mulr => some 0x111
  | dot => some 0xba
  | relaxedDot => some 0x112
  | shuffle => some 0x0d
  | swizzle => some 0x0e
  | relaxedSwizzle => some 0x100

def VTernOp.sub? : VTernOp → Option ℕ
  | bitselect => some 0x52
  | laneselect sh => some (sh.pick 0x109 0x10a 0x10b 0x10c)
  | relaxedDotAdd => some 0x113

def VTestOp.sub? : VTestOp → Option ℕ
  | anyTrue => some 0x53
  | allTrue sh => some (sh.pick 0x63 0x83 0xa3 0xc3)
  | bitmask sh => some (sh.pick 0x64 0x84 0xa4 0xc4)

def VShiftOp.sub (sh : Shape) : VShiftOp → ℕ
  | shl => sh.pick 0x6b 0x8b 0xab 0xcb
  | shrS => sh.pick 0x6c 0x8c 0xac 0xcc
  | shrU => sh.pick 0x6d 0x8d 0xad 0xcd

def Shape.splatSub (sh : Shape) : ℕ := sh.pick 0x0f 0x10 0x11 0x12

def Shape.extractSub (sh : Shape) (sg : Bool) : ℕ :=
  sh.pick (if sg then 0x15 else 0x16) (if sg then 0x18 else 0x19) 0x1b 0x1d

def Shape.replaceSub (sh : Shape) : ℕ := sh.pick 0x17 0x1a 0x1c 0x1e

/-! ## What they compute -/

section
variable (a b c : Value)

/-- An instruction of one vector. -/
def VUnOp.result : VUnOp → Value
  | not => ~~~a
  | abs sh => sh.vector fun i => |sh.lane true a i|
  | neg sh => sh.vector fun i => -sh.lane true a i
  | popcnt => Shape.vector .i8x16 fun i => IUnOp.popcnt.result (Lanes.lane 8 a i)
  | extadd sh sg => sh.wider.vector fun i => sh.lane sg a (2 * i) + sh.lane sg a (2 * i + 1)
  | extend sh high sg => sh.wider.vector fun i => sh.lane sg a ((if high then sh.wider.count else 0) + i)

/-- The byte a number picks from two vectors, or from one. -/
def pickByte (a b : Value) (j : ℤ) : ℤ :=
  if j < 16 then Shape.i8x16.lane false a j.toNat else if j < 32 then Shape.i8x16.lane false b (j - 16).toNat else 0

/-- The rounded product of two fractions of 15 bits. -/
def q15 (x y : ℤ) : ℤ := saturate true 16 ((x * y + 2 ^ 14) / 2 ^ 15)

/-- An instruction of two vectors; `bytes` is the immediate of a shuffle. -/
def VBinOp.result (bytes : Value) : VBinOp → Value
  | and => a &&& b
  | andnot => a &&& ~~~b
  | or => a ||| b
  | xor => a ^^^ b
  | rel sh op => sh.vector fun i => if op.Holds (Lanes.lane sh.width a i) (Lanes.lane sh.width b i) then -1 else 0
  | add sh => sh.vector fun i => sh.lane false a i + sh.lane false b i
  | sub sh => sh.vector fun i => sh.lane false a i - sh.lane false b i
  | mul sh => sh.vector fun i => sh.lane false a i * sh.lane false b i
  | addSat sh sg => sh.vector fun i => saturate sg sh.width (sh.lane sg a i + sh.lane sg b i)
  | subSat sh sg => sh.vector fun i => saturate sg sh.width (sh.lane sg a i - sh.lane sg b i)
  | min sh sg => sh.vector fun i => Min.min (sh.lane sg a i) (sh.lane sg b i)
  | max sh sg => sh.vector fun i => Max.max (sh.lane sg a i) (sh.lane sg b i)
  | avgr sh => sh.vector fun i => (sh.lane false a i + sh.lane false b i + 1) / 2
  | narrow sh sg => sh.vector fun i => saturate sg sh.width
      (if i < sh.wider.count then sh.wider.lane true a i else sh.wider.lane true b (i - sh.wider.count))
  | extmul sh high sg => sh.wider.vector fun i =>
      sh.lane sg a ((if high then sh.wider.count else 0) + i) * sh.lane sg b ((if high then sh.wider.count else 0) + i)
  | q15mulr | relaxedQ15mulr => Shape.vector .i16x8 fun i => q15 (Shape.i16x8.lane true a i) (Shape.i16x8.lane true b i)
  | dot => Shape.vector .i32x4 fun i =>
      Shape.i16x8.lane true a (2 * i) * Shape.i16x8.lane true b (2 * i) +
        Shape.i16x8.lane true a (2 * i + 1) * Shape.i16x8.lane true b (2 * i + 1)
  | relaxedDot => Shape.vector .i16x8 fun i => saturate true 16
      (Shape.i8x16.lane true a (2 * i) * Shape.i8x16.lane true b (2 * i) +
        Shape.i8x16.lane true a (2 * i + 1) * Shape.i8x16.lane true b (2 * i + 1))
  | shuffle => Shape.vector .i8x16 fun i => pickByte a b (Shape.i8x16.lane false bytes i)
  | swizzle | relaxedSwizzle => Shape.vector .i8x16 fun i =>
      if Shape.i8x16.lane false b i < 16 then Shape.i8x16.lane false a (Shape.i8x16.lane false b i).toNat else 0

/-- An instruction of three vectors. -/
def VTernOp.result : VTernOp → Value
  | bitselect | laneselect _ => (a &&& c) ||| (b &&& ~~~c)
  | relaxedDotAdd => Shape.vector .i32x4 fun i =>
      ((List.range 4).map fun k => Shape.i8x16.lane true a (4 * i + k) * Shape.i8x16.lane true b (4 * i + k)).sum +
        Shape.i32x4.lane true c i

/-- An instruction from a vector to a number. -/
def VTestOp.result : VTestOp → ℤ
  | anyTrue => if a.toNat = 0 then 0 else 1
  | allTrue sh => if ∀ i < sh.count, sh.lane false a i ≠ 0 then 1 else 0
  | bitmask sh => ((List.range sh.count).map fun i => if sh.lane true a i < 0 then (2 : ℤ) ^ i else 0).sum

/-- A shift by a number modulo the width of a lane. -/
def VShiftOp.result (sh : Shape) (amount : BitVec 32) (op : VShiftOp) : Value :=
  let k := amount.toNat % sh.width
  match op with
  | shl => sh.vector fun i => sh.lane false a i * 2 ^ k
  | shrS => sh.vector fun i => sh.lane true a i / 2 ^ k
  | shrU => sh.vector fun i => sh.lane false a i / 2 ^ k

end

/-! ## The macros compute lane by lane -/

section
variable {sh : Shape} {sg : Bool} {a b : Value}

theorem simdUn_eq (sh : Shape) {f : BitVec sh.width → Option (BitVec sh.width)} {g : BitVec sh.width → ℤ}
    (h : ∀ x, f x = some (BitVec.ofInt sh.width (g x))) :
    simdUn sh f a = some (sh.vector fun i => g (Lanes.lane sh.width a i)) :=
  packed_fromFn _ fun i hi => by
    rw [getElem?_unpack a hi]
    exact h _

theorem simdBin_eq (sh : Shape) {f : BitVec sh.width → BitVec sh.width → Option (BitVec sh.width)}
    {g : BitVec sh.width → BitVec sh.width → ℤ} (h : ∀ x y, f x y = some (BitVec.ofInt sh.width (g x y))) :
    simdBin sh f b a = some (sh.vector fun i => g (Lanes.lane sh.width a i) (Lanes.lane sh.width b i)) :=
  packed_fromFn _ fun i hi => by
    rw [getElem?_unpack a hi, getElem?_unpack b hi]
    exact h _ _

theorem simdCmp_eq (op : IRelOp) : simdCmp sh op.place b a = some (sh.vector fun i =>
    if op.Holds (Lanes.lane sh.width a i) (Lanes.lane sh.width b i) then -1 else 0) := by
  refine simdBin_eq sh (g := fun x y => if op.Holds x y then -1 else 0) fun x y => congrArg some ?_
  rw [cmpInt_place]
  by_cases h : op.Holds x y
  · rw [decide_eq_true h, if_pos rfl, if_pos h, BitVec.ofInt_neg]
    exact (BitVec.neg_one_eq_allOnes).symm.trans (congrArg _ (BitVec.ofInt_ofNat _ 1).symm)
  · rw [decide_eq_false h, if_neg Bool.false_ne_true, if_neg h]
    exact (BitVec.ofInt_ofNat _ 0).symm

theorem simdShift_eq {shift : BitVec sh.width → ℕ → Option (BitVec sh.width)} {g : BitVec sh.width → ℕ → ℤ}
    (h : ∀ x, ∀ k < sh.width, shift x k = some (BitVec.ofInt sh.width (g x k))) (amount : Value) :
    simdShift sh shift amount a =
      some (sh.vector fun i => g (Lanes.lane sh.width a i) ((asI32 amount).toNat % sh.width)) :=
  simdUn_eq sh (g := fun x => g x ((asI32 amount).toNat % sh.width)) fun x => h x _ (Nat.mod_lt _ sh.width_pos)

/-! ### Lanes of twice the width -/

theorem Shape.count_eq_two_mul (h : sh ≠ .i64x2) : sh.count = 2 * sh.wider.count := by
  cases sh <;> first | rfl | exact absurd rfl h

theorem Shape.wider_width (h : sh ≠ .i64x2) : sh.wider.width = 2 * sh.width := by
  cases sh <;> first | rfl | exact absurd rfl h

/-- A half of the lanes. -/
theorem half_lt (h : sh ≠ .i64x2) (high : Bool) {i : ℕ} (hi : i < sh.wider.count) :
    (if high then sh.wider.count else 0) + i < sh.count := by
  rw [sh.count_eq_two_mul h]
  split <;> omega

theorem simdExtend_eq (h : sh ≠ .i64x2) (high : Bool) : simdExtend sh sh.wider sg sh.wider.count high a =
    some (sh.wider.vector fun i => sh.lane sg a ((if high then sh.wider.count else 0) + i)) :=
  packed_fromFn _ fun i hi => by
    rw [getElem?_unpack a (half_lt h high hi)]
    rfl

/-- Widened lanes stand for the same integers. -/
theorem readInt_wider (h : sh ≠ .i64x2) (x : BitVec sh.width) :
    readInt sg (castInt sg sh.wider.width x) = readInt sg x :=
  readInt_castInt sh.width_pos (by rw [sh.wider_width h]; omega) x

theorem simdExtmul_eq (h : sh ≠ .i64x2) (high : Bool) : simdExtmul sh sh.wider sg sh.wider.count high b a =
    some (sh.wider.vector fun i => sh.lane sg a ((if high then sh.wider.count else 0) + i) *
      sh.lane sg b ((if high then sh.wider.count else 0) + i)) :=
  packed_fromFn _ fun i hi => by
    have hlt := half_lt h high hi
    obtain ⟨hmin, hmax⟩ := mul_mem (s := sg) sh.width_pos
      (Lanes.lane sh.width a ((if high then sh.wider.count else 0) + i))
      (Lanes.lane sh.width b ((if high then sh.wider.count else 0) + i))
    rw [← sh.wider_width h] at hmin hmax
    rw [getElem?_unpack a hlt, getElem?_unpack b hlt]
    simp only [bind, Option.bind_some, readInt_wider h]
    exact fitInt_of_mem hmin hmax

theorem simdExtadd_eq (h : sh ≠ .i64x2) : simdExtadd sh sh.wider sg a =
    some (sh.wider.vector fun i => sh.lane sg a (2 * i) + sh.lane sg a (2 * i + 1)) :=
  packed_fromFn _ fun i hi => by
    have hcount := sh.count_eq_two_mul h
    obtain ⟨hmin, hmax⟩ := add_mem (s := sg) sh.width_pos (Lanes.lane sh.width a (2 * i))
      (Lanes.lane sh.width a (2 * i + 1))
    rw [← sh.wider_width h] at hmin hmax
    rw [getElem?_unpack a (by omega), getElem?_unpack a (by omega)]
    simp only [bind, Option.bind_some, readInt_wider h]
    exact fitInt_of_mem hmin hmax

/-- A word narrowed is the word of the nearest integer. -/
theorem narrowTo_eq (sg : Bool) {w w' : ℕ} (hlt : w' < w) (x : BitVec w) :
    narrowTo sg w' x = some (BitVec.ofInt w' (saturate sg w' (readInt true x))) := by
  obtain ⟨hmin, hmax⟩ := range_of_lt (s := sg) hlt
  have hle : minInt sg w' ≤ maxInt sg w' := minInt_le_maxInt
  have hread : readInt true (BitVec.ofInt w (minInt sg w')) = minInt sg w' :=
    readInt_ofInt (by omega) hmin (hle.trans hmax)
  have hread' : readInt true (BitVec.ofInt w (maxInt sg w')) = maxInt sg w' :=
    readInt_ofInt (by omega) (hmin.trans hle) hmax
  rw [narrowTo, clampInt, hread, hread', if_neg (not_lt.mpr hle)]
  refine congrArg (fun z => some (BitVec.ofInt w' z)) ?_
  unfold saturate
  split
  · omega
  · split <;> omega

theorem simdNarrow_eq (h : sh ≠ .i64x2) : simdNarrow sh.wider sh sg b a = some (sh.vector fun i => saturate sg sh.width
    (if i < sh.wider.count then sh.wider.lane true a i else sh.wider.lane true b (i - sh.wider.count))) :=
  packed_fromFn _ fun i hi => by
    have hwidth : sh.width < sh.wider.width := by
      rw [sh.wider_width h]
      have := sh.width_pos
      omega
    have hcount := sh.count_eq_two_mul h
    rw [length_unpack]
    by_cases hlt : i < sh.wider.count
    · rw [if_pos hlt, if_pos hlt, getElem?_unpack a hlt]
      exact narrowTo_eq sg hwidth _
    · rw [if_neg hlt, if_neg hlt, getElem?_unpack b (by omega)]
      exact narrowTo_eq sg hwidth _

/-! ### Operations on lanes -/

section
variable {w : ℕ} (x y : BitVec w)

theorem minLane_eq : minLane sg x y = BitVec.ofInt w (min (readInt sg x) (readInt sg y)) := by
  unfold minLane
  split
  · rw [min_eq_left (by assumption), ofInt_readInt]
  · rw [min_eq_right (by omega), ofInt_readInt]

theorem maxLane_eq : maxLane sg x y = BitVec.ofInt w (max (readInt sg x) (readInt sg y)) := by
  unfold maxLane
  split
  · rw [max_eq_right (by assumption), ofInt_readInt]
  · rw [max_eq_left (by omega), ofInt_readInt]

theorem abs_eq : x.abs = BitVec.ofInt w |readInt true x| := by
  rw [BitVec.abs, readInt_true]
  cases hmsb : x.msb with
  | true =>
    have hneg : x.toInt < 0 := BitVec.toInt_neg_of_msb_true hmsb
    rw [if_pos rfl, abs_of_neg hneg]
    exact neg_eq_ofInt (s := true) x
  | false =>
    have hnonneg : 0 ≤ x.toInt := BitVec.toInt_nonneg_of_msb_false hmsb
    rw [if_neg Bool.false_ne_true, abs_of_nonneg hnonneg, BitVec.ofInt_toInt]

theorem shlChecked_eq {k : ℕ} (hk : k < w) : shlChecked x k = some (BitVec.ofInt w (readInt false x * 2 ^ k)) := by
  rw [shlChecked, if_pos hk, shiftLeft_eq_ofInt]

theorem shrChecked_eq (sg : Bool) {k : ℕ} (hk : k < w) :
    shrChecked sg x k = some (BitVec.ofInt w (readInt sg x / 2 ^ k)) := by
  rw [shrChecked, if_pos hk, shiftRight_eq_ofInt]

theorem averageLane_eq (hw : 0 < w) :
    averageLane x y = some (BitVec.ofInt w ((readInt false x + readInt false y + 1) / 2)) := by
  have hx : readInt false (castInt false (2 * w) x) = readInt false x := readInt_castInt hw (by omega) x
  have hy : readInt false (castInt false (2 * w) y) = readInt false y := readInt_castInt hw (by omega) y
  obtain ⟨hmin, hmax⟩ := add_mem (s := false) hw x y
  have hpow : (2 : ℤ) * 2 ^ w ≤ 2 ^ (2 * w) := by
    rw [← pow_succ']
    exact pow_le_pow_right₀ (by decide) (by omega)
  have hlt := readInt_le_maxInt (s := false) x
  have hlt' := readInt_le_maxInt (s := false) y
  generalize hr : readInt false x = r at *
  generalize hr' : readInt false y = r' at *
  have hsum : readInt false (BitVec.ofInt (2 * w) (r + r')) = r + r' := readInt_ofInt (by omega) hmin hmax
  have hfits := fitInt_of_mem hmin hmax
  -- the rounding bit still fits
  have hmin' : minInt false (2 * w) ≤ r + r' + 1 := hmin.trans (by omega)
  have hmax' : r + r' + 1 ≤ maxInt false (2 * w) := by
    simp only [maxInt, Bool.false_eq_true, if_false] at hlt hlt' ⊢
    omega
  have hfits' := fitInt_of_mem hmin' hmax'
  have hhalf : minInt false (2 * w) ≤ (r + r' + 1) / 2 ∧ (r + r' + 1) / 2 ≤ maxInt false (2 * w) := by
    simp only [minInt, Bool.false_eq_true, if_false] at hmin' ⊢
    omega
  have hshift := shrChecked_eq (BitVec.ofInt (2 * w) (r + r' + 1)) false (show 1 < 2 * w by omega)
  rw [readInt_ofInt (by omega) hmin' hmax', pow_one] at hshift
  simp only [averageLane, hx, hy, hfits, bind, Option.bind_some, hsum, hfits', hshift]
  exact congrArg (fun z => some (BitVec.ofInt w z)) (readInt_ofInt (by omega) hhalf.1 hhalf.2)

theorem abs_mul_le : |readInt true x * readInt true y| ≤ 2 ^ (2 * w - 2) := by
  rw [mul_comm 2 w]
  exact abs_le.mpr ⟨BitVec.le_toInt_mul_toInt, BitVec.toInt_mul_toInt_le⟩

theorem fitInt_of_abs {z : ℤ} (h : |z| < 2 ^ 31) : fitInt true 32 z = some (BitVec.ofInt 32 z) := by
  obtain ⟨hmin, hmax⟩ := abs_lt.mp h
  exact fitInt_of_mem (by simp only [minInt, if_pos]; omega) (by simp only [maxInt, if_pos]; omega)

theorem readInt_of_abs {z : ℤ} (h : |z| < 2 ^ 31) : readInt true (BitVec.ofInt 32 z) = z := by
  obtain ⟨hmin, hmax⟩ := abs_lt.mp h
  exact readInt_ofInt (by decide) (by simp only [minInt, if_pos]; omega) (by simp only [maxInt, if_pos]; omega)

/-- Products of lanes of 16 bits or fewer fit 32 bits. -/
theorem product_eq (hw : 0 < w) (hle : w ≤ 16) :
    product x y = some (BitVec.ofInt 32 (readInt true x * readInt true y)) := by
  have hlt : |readInt true x * readInt true y| < 2 ^ 31 :=
    (abs_mul_le x y).trans_lt (pow_lt_pow_right₀ (by decide) (by omega))
  rw [product, readInt_castInt hw (by omega), readInt_castInt hw (by omega), fitInt_of_abs hlt]

end

theorem sum32_eq {p q : ℤ} (hp : |p| < 2 ^ 31) (hq : |q| < 2 ^ 31) (h : |p + q| < 2 ^ 31) :
    sum32 (BitVec.ofInt 32 p) (BitVec.ofInt 32 q) = some (BitVec.ofInt 32 (p + q)) := by
  rw [sum32, readInt_of_abs hp, readInt_of_abs hq, fitInt_of_abs h]

/-- Two products of bytes. -/
theorem sum32_products {p q : ℤ} (hp : |p| ≤ 2 ^ 14) (hq : |q| ≤ 2 ^ 14) :
    sum32 (BitVec.ofInt 32 p) (BitVec.ofInt 32 q) = some (BitVec.ofInt 32 (p + q)) ∧ |p + q| < 2 ^ 31 := by
  have hbounds := abs_le.mp hp
  have hbounds' := abs_le.mp hq
  have hsum : |p + q| < 2 ^ 31 := abs_lt.mpr (by omega)
  exact ⟨sum32_eq (hp.trans_lt (by norm_num)) (hq.trans_lt (by norm_num)) hsum, hsum⟩

theorem q15mulr_eq (x y : BitVec 16) : q15mulr x y = some (BitVec.ofInt 16 (q15 (readInt true x) (readInt true y))) := by
  have hle : |readInt true x * readInt true y| ≤ 2 ^ 30 := abs_mul_le x y
  have hround : (0x4000 : BitVec 32) = BitVec.ofInt 32 (2 ^ 14) := by
    have hpow : (2 : ℤ) ^ 14 = 0x4000 := by norm_num
    rw [hpow]
    exact (BitVec.ofInt_ofNat 32 0x4000).symm
  have harm : q15mulr x y = (product x y).bind fun p => (sum32 p 0x4000).bind fun p => (shrChecked true p 15).bind fun p =>
      narrowTo true 16 p := rfl
  rw [harm, q15, product_eq x y (by decide) (by decide), Option.bind_some]
  generalize readInt true x * readInt true y = p at *
  have hbounds := abs_le.mp hle
  have hp : |p| < 2 ^ 31 := hle.trans_lt (by norm_num)
  have hbit : |(2 : ℤ) ^ 14| < 2 ^ 31 := by norm_num
  have hsum : |p + 2 ^ 14| < 2 ^ 31 := abs_lt.mpr (by omega)
  have hquot : |(p + 2 ^ 14) / 2 ^ 15| < 2 ^ 31 := abs_lt.mpr (by omega)
  have hsum32 : sum32 (BitVec.ofInt 32 p) 0x4000 = some (BitVec.ofInt 32 (p + 2 ^ 14)) := by
    rw [hround]
    exact sum32_eq hp hbit hsum
  have hshift := shrChecked_eq (BitVec.ofInt 32 (p + 2 ^ 14)) true (show 15 < 32 by decide)
  rw [readInt_of_abs hsum] at hshift
  have hnarrow := narrowTo_eq true (show 16 < 32 by decide) (BitVec.ofInt 32 ((p + 2 ^ 14) / 2 ^ 15))
  rw [readInt_of_abs hquot] at hnarrow
  rw [hsum32, Option.bind_some, hshift, Option.bind_some, hnarrow]

/-! ### Sums of products -/

theorem simdDot_eq : simdDot b a = some (VBinOp.dot.result a b 0) :=
  packed_fromFn .i32x4 fun i hi => by
    have hi : i < 4 := hi
    have hlt : 2 * i < Shape.i16x8.count ∧ 2 * i + 1 < Shape.i16x8.count := by
      simp only [Shape.count]
      omega
    simp only [getElem?_unpack _ hlt.1, getElem?_unpack _ hlt.2, bind, Option.bind_some,
      product_eq _ _ (show 0 < Shape.i16x8.width by decide) (show Shape.i16x8.width ≤ 16 by decide)]
    rw [← BitVec.ofInt_add]
    rfl

/-- Two products of bytes added. -/
theorem dotPair_eq {n : ℕ} (hn : n + 1 < 16) :
    dotPair b a n = some (BitVec.ofInt 32 (Shape.i8x16.lane true a n * Shape.i8x16.lane true b n +
      Shape.i8x16.lane true a (n + 1) * Shape.i8x16.lane true b (n + 1))) ∧
    |Shape.i8x16.lane true a n * Shape.i8x16.lane true b n +
      Shape.i8x16.lane true a (n + 1) * Shape.i8x16.lane true b (n + 1)| < 2 ^ 31 := by
  have hlt : n < Shape.i8x16.count := Nat.lt_of_succ_lt hn
  have hpos : 0 < Shape.i8x16.width := by decide
  have hwidth : Shape.i8x16.width ≤ 16 := by decide
  obtain ⟨hsum, hfits⟩ := sum32_products
    (abs_mul_le (Lanes.lane Shape.i8x16.width a n) (Lanes.lane Shape.i8x16.width b n))
    (abs_mul_le (Lanes.lane Shape.i8x16.width a (n + 1)) (Lanes.lane Shape.i8x16.width b (n + 1)))
  refine ⟨?_, hfits⟩
  rw [dotPair, getElem?_unpack a hlt, getElem?_unpack b hlt, getElem?_unpack a hn, getElem?_unpack b hn]
  change (product _ _).bind (fun p => (product _ _).bind fun q => sum32 p q) = _
  rw [product_eq _ _ hpos hwidth, Option.bind_some, product_eq _ _ hpos hwidth, Option.bind_some, hsum]
  rfl

theorem simdRelaxedDot_eq : simdRelaxedDot b a = some (VBinOp.relaxedDot.result a b 0) :=
  packed_fromFn .i16x8 fun i hi => by
    have hi : i < 8 := hi
    obtain ⟨hpair, hfits⟩ := dotPair_eq (a := a) (b := b) (show 2 * i + 1 < 16 by omega)
    rw [hpair, Option.bind_eq_bind, Option.bind_some, narrowTo_eq true (by decide), readInt_of_abs hfits]

theorem simdRelaxedDotAdd_eq (c : Value) : simdRelaxedDotAdd c b a = some (VTernOp.relaxedDotAdd.result a b c) :=
  packed_fromFn .i32x4 fun i hi => by
    have hi' : i < 4 := hi
    rw [(dotPair_eq (show 4 * i + 1 < 16 by omega)).1, (dotPair_eq (show 4 * i + 2 + 1 < 16 by omega)).1,
      getElem?_unpack c hi]
    refine congrArg some ?_
    rw [← BitVec.ofInt_add, ← ofInt_readInt (s := true) (Lanes.lane Shape.i32x4.width c i), ← BitVec.ofInt_add]
    refine congrArg (BitVec.ofInt 32) ?_
    have hrange : List.range 4 = [0, 1, 2, 3] := rfl
    simp only [hrange, List.map_cons, List.map_nil, List.sum_cons, List.sum_nil, add_assoc, add_zero]
    rfl

/-! ### Bytes picked -/

/-- The number in a byte. -/
theorem toNat_byte (v : Value) (i : ℕ) : ((Lanes.lane Shape.i8x16.width v i).toNat : ℤ) = Shape.i8x16.lane false v i := rfl

theorem simdSwizzle_eq : simdSwizzle b a = some (VBinOp.swizzle.result a b 0) :=
  packed_fromFn .i8x16 fun i hi => by
    rw [getElem?_unpack b hi, ← toNat_byte]
    simp only [bind, Option.bind_some, Int.toNat_natCast, Nat.cast_lt_ofNat]
    generalize (Lanes.lane Shape.i8x16.width b i).toNat = j
    split
    · rename_i hj
      rw [getElem?_unpack a hj]
      exact congrArg some (ofInt_readInt _).symm
    · rfl

theorem simdShuffle_eq (bytes : Value) : simdShuffle bytes b a = some (VBinOp.shuffle.result a b bytes) :=
  packed_fromFn .i8x16 fun i hi => by
    rw [getElem?_unpack bytes hi, pickByte, ← toNat_byte]
    simp only [bind, Option.bind_some, Int.toNat_natCast, Nat.cast_lt_ofNat]
    generalize (Lanes.lane Shape.i8x16.width bytes i).toNat = j
    split
    · rename_i hj
      rw [getElem?_unpack a hj]
      exact congrArg some (ofInt_readInt _).symm
    · split
      · rename_i hge hj
        have hback : ((j : ℤ) - 16).toNat = j - 16 := by omega
        rw [getElem?_unpack b (show j - 16 < Shape.i8x16.count by simp only [Shape.count]; omega), hback]
        exact congrArg some (ofInt_readInt _).symm
      · rfl

/-! ### Tests -/

theorem simdAllTrue_iff : simdAllTrue sh a = true ↔ ∀ i < sh.count, sh.lane false a i ≠ 0 := by
  rw [simdAllTrue, unpack_eq, List.all_eq_true]
  simp only [List.mem_map, List.mem_range, bne_iff_ne, forall_exists_index, and_imp, forall_apply_eq_imp_iff₂, Shape.lane,
    ne_eq, readInt_eq_zero]

/-- The sign bit of a lane. -/
theorem signBit_eq_zero_iff {w : ℕ} (hw : 0 < w) (hle : w ≤ 128) (x : BitVec w) :
    ((x.setWidth 128 : Value) >>> (w - 1)) &&& 1 = 0 ↔ ¬ x.toInt < 0 := by
  have hlt : x.toNat < 2 ^ w := x.isLt
  have hlt' : x.toNat < 2 ^ 128 := hlt.trans_le (Nat.pow_le_pow_right (by decide) hle)
  have hpow : 2 ^ w = 2 * 2 ^ (w - 1) := by rw [← pow_succ', Nat.sub_add_cancel hw]
  have hbit : (((x.setWidth 128 : Value) >>> (w - 1)) &&& 1).toNat = x.toNat / 2 ^ (w - 1) % 2 := by
    rw [BitVec.toNat_and, BitVec.toNat_ushiftRight, BitVec.toNat_setWidth, Nat.mod_eq_of_lt hlt',
      Nat.shiftRight_eq_div_pow]
    exact Nat.and_one_is_mod _
  have hzero : (((x.setWidth 128 : Value) >>> (w - 1)) &&& 1) = 0 ↔ x.toNat / 2 ^ (w - 1) % 2 = 0 := by
    rw [← hbit, ← BitVec.toNat_inj]
    rfl
  rw [hzero, BitVec.toInt_neg_iff, hpow]
  have hquot : x.toNat / 2 ^ (w - 1) < 2 := Nat.div_lt_of_lt_mul (by rw [mul_comm, ← hpow]; exact hlt)
  have hone : 2 ^ (w - 1) ≤ x.toNat ↔ 1 ≤ x.toNat / 2 ^ (w - 1) := by
    rw [Nat.le_div_iff_mul_le (Nat.two_pow_pos _), Nat.one_mul]
  generalize x.toNat / 2 ^ (w - 1) = q at *
  omega

/-- Bits set one by one, the lowest first. -/
theorem foldl_bits (p : ℕ → Prop) [DecidablePred p] {n : ℕ} (hn : n ≤ 32) :
    (List.range n).foldl (fun (m : BitVec 32) i => if p i then m ||| (1 : BitVec 32) <<< i else m) 0 =
      BitVec.ofInt 32 ((List.range n).map fun i => if p i then (2 : ℤ) ^ i else 0).sum := by
  -- the bits set so far lie below the next one
  have hbits : ∀ k ≤ n, ∃ m < 2 ^ k, ((List.range k).map fun i => if p i then (2 : ℤ) ^ i else 0).sum = (m : ℕ) ∧
      (List.range k).foldl (fun (m : BitVec 32) i => if p i then m ||| (1 : BitVec 32) <<< i else m) 0 = BitVec.ofNat 32 m := by
    intro k hk
    induction k with
    | zero => exact ⟨0, by decide, rfl, rfl⟩
    | succ k ih =>
      obtain ⟨m, hm, hsum, hfold⟩ := ih (by omega)
      rw [List.range_succ, List.map_append, List.sum_append, List.foldl_append, hsum, hfold, List.map_singleton,
        List.sum_singleton, List.foldl_cons, List.foldl_nil]
      by_cases hp : p k
      · refine ⟨m + 2 ^ k, by rw [pow_succ]; omega, by rw [if_pos hp]; push_cast; rfl, ?_⟩
        have hpow : 2 ^ k < 2 ^ 32 := Nat.pow_lt_pow_right (by decide) (by omega)
        have hpow' : 2 ^ (k + 1) ≤ 2 ^ 32 := Nat.pow_le_pow_right (by decide) (by omega)
        rw [pow_succ] at hpow'
        have hone : ((1 : BitVec 32) <<< k).toNat = 1 <<< k := by
          rw [BitVec.toNat_shiftLeft, Nat.mod_eq_of_lt]
          · rfl
          · rw [Nat.shiftLeft_eq]
            exact (Nat.one_mul _).trans_lt hpow
        apply BitVec.eq_of_toNat_eq
        rw [if_pos hp, BitVec.toNat_or, hone, BitVec.toNat_ofNat, BitVec.toNat_ofNat, Nat.mod_eq_of_lt (by omega),
          Nat.mod_eq_of_lt (by omega), Nat.or_comm, ← Nat.shiftLeft_add_eq_or_of_lt hm, Nat.shiftLeft_eq, Nat.one_mul,
          Nat.add_comm]
      · exact ⟨m, hm.trans_le (Nat.pow_le_pow_right (by decide) (by omega)), by rw [if_neg hp, add_zero], if_neg hp⟩
  obtain ⟨m, -, hsum, hfold⟩ := hbits n le_rfl
  rw [hsum, hfold, BitVec.ofInt_natCast]

theorem simdBitmask_eq : simdBitmask sh a = BitVec.ofInt 32 ((VTestOp.bitmask sh).result a) := by
  have hindexed : (unpack sh a).zipIdx = (List.range sh.count).map fun i => (Lanes.lane sh.width a i, i) := by
    apply List.ext_getElem
    · rw [List.length_zipIdx, length_unpack, List.length_map, List.length_range]
    · intro i hi hi'
      have hcount : i < sh.count := by
        rwa [List.length_map, List.length_range] at hi'
      have hlane : (unpack sh a)[i]? = some (Lanes.lane sh.width a i) := getElem?_unpack a hcount
      rw [List.getElem_zipIdx, List.getElem_map, List.getElem_range, Nat.zero_add]
      exact congrArg (·, i) (List.getElem?_eq_some_iff.mp hlane).2
  have hstep (m : BitVec 32) (i : ℕ) :
      (if (((Lanes.lane sh.width a i).setWidth 128 : Value) >>> (sh.width - 1)) &&& 1 = 0 then m else m ||| (1 : BitVec 32) <<< i) =
        if sh.lane true a i < 0 then m ||| (1 : BitVec 32) <<< i else m := by
    have hsign := signBit_eq_zero_iff sh.width_pos (by cases sh <;> decide) (Lanes.lane sh.width a i)
    by_cases hneg : sh.lane true a i < 0
    · rw [if_pos hneg, if_neg fun h => hsign.mp h hneg]
    · rw [if_neg hneg, if_pos (hsign.mpr hneg)]
  rw [simdBitmask, hindexed, List.foldl_map]
  simp only [hstep]
  exact foldl_bits _ (by cases sh <;> decide)

/-! ### Lanes moved -/

theorem simdSplat_eq (z : ℤ) : simdSplat sh (BitVec.ofInt sh.width z) = sh.vector fun _ => z := by
  rw [simdSplat, packed_eq, Shape.vector, List.map_const', List.length_range]

theorem simdReplace_eq {k : ℕ} (hk : k < sh.count) (z : ℤ) :
    simdReplace sh k (BitVec.ofInt sh.width z) a =
      some (sh.vector fun i => if i = k then z else sh.lane false a i) := by
  rw [simdReplace, length_unpack, if_pos hk, packed_eq, unpack_eq, Shape.vector]
  refine congrArg (fun l => some (Lanes.pack 128 l)) ?_
  apply List.ext_getElem
  · simp only [List.length_set, List.length_map]
  · intro i hi hi'
    rw [List.getElem_set, List.getElem_map, List.getElem_map, List.getElem_range]
    by_cases h : k = i
    · rw [if_pos h, if_pos h.symm]
    · rw [if_neg h, if_neg (Ne.symm h)]
      exact (ofInt_readInt _).symm

end

/-! ## The arms -/

/-- What the arm of an instruction does. -/
def VUnOp.compute : VUnOp → Value → Option Value
  | not => fun v => some (~~~v)
  | abs sh => simdUn sh fun x => some x.abs
  | neg sh => simdUn sh fun x => some (-x)
  | popcnt => simdUn .i8x16 fun x => some x.cpop
  | extadd sh sg => simdExtadd sh sh.wider sg
  | extend sh high sg => simdExtend sh sh.wider sg sh.wider.count high

def VBinOp.compute (bytes : Value) : VBinOp → Value → Value → Option Value
  | and => fun b a => some (a &&& b)
  | andnot => fun b a => some (a &&& ~~~b)
  | or => fun b a => some (a ||| b)
  | xor => fun b a => some (a ^^^ b)
  | rel sh op => simdCmp sh op.place
  | add sh => simdBin sh fun x y => some (x + y)
  | sub sh => simdBin sh fun x y => some (x - y)
  | mul sh => simdBin sh fun x y => some (x * y)
  | addSat sh sg => simdBin sh fun x y => some (Wasmrt.addSat sg x y)
  | subSat sh sg => simdBin sh fun x y => some (Wasmrt.subSat sg x y)
  | min sh sg => simdBin sh fun x y => some (minLane sg x y)
  | max sh sg => simdBin sh fun x y => some (maxLane sg x y)
  | avgr sh => simdBin sh averageLane
  | narrow sh sg => simdNarrow sh.wider sh sg
  | extmul sh high sg => simdExtmul sh sh.wider sg sh.wider.count high
  | q15mulr | relaxedQ15mulr => simdBin .i16x8 Wasmrt.q15mulr
  | dot => simdDot
  | relaxedDot => simdRelaxedDot
  | shuffle => simdShuffle bytes
  | swizzle | relaxedSwizzle => simdSwizzle

def VTernOp.compute : VTernOp → Value → Value → Value → Option Value
  | bitselect | laneselect _ => fun c b a => some ((a &&& c) ||| (b &&& ~~~c))
  | relaxedDotAdd => simdRelaxedDotAdd

def VTestOp.compute : VTestOp → Value → Option Value
  | anyTrue => fun v => some (boolValue (v != 0))
  | allTrue sh => fun v => some (boolValue (simdAllTrue sh v))
  | bitmask sh => fun v => some (i32Value (simdBitmask sh v))

def VShiftOp.compute (sh : Shape) : VShiftOp → Value → Value → Option Value
  | shl => simdShift sh shlChecked
  | shrS => simdShift sh (shrChecked true)
  | shrU => simdShift sh (shrChecked false)

section
variable {s : Simd}

theorem arm_un {op : VUnOp} (h : op.sub? = some s.sub) : (simdArms s).lookup s.sub = some (.un op.compute) := by
  obtain ⟨sub, mem, lane, bytes⟩ := s
  cases op with
  | not | popcnt => cases h; rfl
  | abs sh | neg sh => cases sh <;> cases h <;> rfl
  | extadd sh sg => cases sh <;> cases sg <;> cases h <;> rfl
  | extend sh high sg => cases sh <;> cases high <;> cases sg <;> cases h <;> rfl

theorem arm_bin {op : VBinOp} (h : op.sub? = some s.sub) :
    (simdArms s).lookup s.sub = some (.bin (op.compute s.bytes)) := by
  obtain ⟨sub, mem, lane, bytes⟩ := s
  cases op with
  | and | andnot | or | xor | q15mulr | relaxedQ15mulr | dot | relaxedDot | shuffle | swizzle | relaxedSwizzle =>
    cases h; rfl
  | rel sh op => cases sh <;> cases op <;> cases h <;> rfl
  | add sh | sub sh | mul sh | avgr sh => cases sh <;> cases h <;> rfl
  | addSat sh sg | subSat sh sg | min sh sg | max sh sg | narrow sh sg => cases sh <;> cases sg <;> cases h <;> rfl
  | extmul sh high sg => cases sh <;> cases high <;> cases sg <;> cases h <;> rfl

theorem arm_tern {op : VTernOp} (h : op.sub? = some s.sub) : (simdArms s).lookup s.sub = some (.tern op.compute) := by
  obtain ⟨sub, mem, lane, bytes⟩ := s
  cases op with
  | bitselect | relaxedDotAdd => cases h; rfl
  | laneselect sh => cases sh <;> cases h <;> rfl

theorem arm_test {op : VTestOp} (h : op.sub? = some s.sub) : (simdArms s).lookup s.sub = some (.un op.compute) := by
  obtain ⟨sub, mem, lane, bytes⟩ := s
  cases op with
  | anyTrue => cases h; rfl
  | allTrue sh | bitmask sh => cases sh <;> cases h <;> rfl

theorem arm_shift {op : VShiftOp} {sh : Shape} (h : op.sub sh = s.sub) :
    (simdArms s).lookup s.sub = some (.bin (op.compute sh)) := by
  obtain ⟨sub, mem, lane, bytes⟩ := s
  cases op <;> cases sh <;> cases h <;> rfl

theorem compute_un {op : VUnOp} (h : op.sub? = some s.sub) (a : Value) : op.compute a = some (op.result a) := by
  cases op with
  | not => rfl
  | abs sh => exact simdUn_eq sh (g := fun x => |readInt true x|) fun x => congrArg some (abs_eq x)
  | neg sh => exact simdUn_eq sh (g := fun x => -readInt true x) fun x => congrArg some (neg_eq_ofInt (s := true) x)
  | popcnt => exact simdUn_eq .i8x16 (g := fun x => IUnOp.popcnt.result x) fun x => congrArg some (compute_eq x .popcnt)
  | extadd sh sg =>
    have hsh : sh ≠ .i64x2 := by
      rintro rfl
      cases h
    exact simdExtadd_eq hsh
  | extend sh high sg =>
    have hsh : sh ≠ .i64x2 := by
      rintro rfl
      cases h
    exact simdExtend_eq hsh high

theorem compute_bin {op : VBinOp} (h : op.sub? = some s.sub) (a b : Value) :
    op.compute s.bytes b a = some (op.result a b s.bytes) := by
  cases op with
  | and | andnot | or | xor => rfl
  | rel sh op => exact simdCmp_eq op
  | add sh =>
    exact simdBin_eq sh (g := fun x y => readInt false x + readInt false y) fun x y => congrArg some (add_eq_ofInt x y)
  | sub sh =>
    exact simdBin_eq sh (g := fun x y => readInt false x - readInt false y) fun x y => congrArg some (sub_eq_ofInt x y)
  | mul sh =>
    exact simdBin_eq sh (g := fun x y => readInt false x * readInt false y) fun x y => congrArg some (mul_eq_ofInt x y)
  | addSat sh sg =>
    exact simdBin_eq sh (g := fun x y => saturate sg sh.width (readInt sg x + readInt sg y)) fun x y => rfl
  | subSat sh sg =>
    exact simdBin_eq sh (g := fun x y => saturate sg sh.width (readInt sg x - readInt sg y)) fun x y => rfl
  | min sh sg =>
    exact simdBin_eq sh (g := fun x y => Min.min (readInt sg x) (readInt sg y)) fun x y => congrArg some (minLane_eq x y)
  | max sh sg =>
    exact simdBin_eq sh (g := fun x y => Max.max (readInt sg x) (readInt sg y)) fun x y => congrArg some (maxLane_eq x y)
  | avgr sh => exact simdBin_eq sh fun x y => averageLane_eq x y sh.width_pos
  | narrow sh sg =>
    have hsh : sh ≠ .i64x2 := by
      rintro rfl
      cases h
    exact simdNarrow_eq hsh
  | extmul sh high sg =>
    have hsh : sh ≠ .i64x2 := by
      rintro rfl
      cases h
    exact simdExtmul_eq hsh high
  | q15mulr | relaxedQ15mulr => exact simdBin_eq .i16x8 (g := fun x y => q15 (readInt true x) (readInt true y)) q15mulr_eq
  | dot => exact simdDot_eq
  | relaxedDot => exact simdRelaxedDot_eq
  | shuffle => exact simdShuffle_eq s.bytes
  | swizzle | relaxedSwizzle => exact simdSwizzle_eq

theorem compute_tern (op : VTernOp) (a b c : Value) : op.compute c b a = some (op.result a b c) := by
  cases op with
  | bitselect | laneselect sh => rfl
  | relaxedDotAdd => exact simdRelaxedDotAdd_eq c

theorem compute_test (op : VTestOp) (a : Value) : op.compute a = some (i32Value (BitVec.ofInt 32 (op.result a))) := by
  cases op with
  | anyTrue =>
    have hzero : a = 0 ↔ a.toNat = 0 := BitVec.toNat_inj.symm
    refine congrArg some ?_
    rw [VTestOp.result, boolValue]
    by_cases h : a.toNat = 0
    · rw [if_pos h, hzero.mpr h]
      rfl
    · rw [if_neg h, if_pos (bne_iff_ne.mpr (mt hzero.mp h))]
      rfl
  | allTrue sh =>
    refine congrArg some ?_
    rw [VTestOp.result, boolValue]
    by_cases h : ∀ i < sh.count, sh.lane false a i ≠ 0
    · rw [if_pos h, if_pos (simdAllTrue_iff.mpr h)]
      rfl
    · rw [if_neg h, if_neg fun htrue => h (simdAllTrue_iff.mp htrue)]
      rfl
  | bitmask sh => exact congrArg (fun x => some (i32Value x)) simdBitmask_eq

theorem compute_shift (op : VShiftOp) (sh : Shape) (amount : BitVec 32) (a : Value) :
    op.compute sh (i32Value amount) a = some (op.result a sh amount) := by
  have hread : asI32 (i32Value amount) = amount := Width.w32.read_value amount
  cases op with
  | shl =>
    refine (simdShift_eq (g := fun x k => readInt false x * 2 ^ k) (fun x k hk => shlChecked_eq x hk) _).trans ?_
    rw [hread]
    rfl
  | shrS =>
    refine (simdShift_eq (g := fun x k => readInt true x / 2 ^ k) (fun x k hk => shrChecked_eq x true hk) _).trans ?_
    rw [hread]
    rfl
  | shrU =>
    refine (simdShift_eq (g := fun x k => readInt false x / 2 ^ k) (fun x k hk => shrChecked_eq x false hk) _).trans ?_
    rw [hread]
    rfl

/-! ## Instructions -/

variable (float : Simd → List Value → Except Fault (List Value)) (a b c : Value) (st : List Value)

theorem execLanes_of_arm {arm : Arm} (h : (simdArms s).lookup s.sub = some arm) :
    execLanes float s st = orPanic (arm.run st) := by
  rw [execLanes, h]

theorem execLanes_un {op : VUnOp} (h : op.sub? = some s.sub) : execLanes float s (a :: st) = .ok (op.result a :: st) := by
  rw [execLanes_of_arm float _ (arm_un h)]
  simp only [Arm.run, List.drop_zero, List.headD_cons, compute_un h]
  rfl

theorem execLanes_bin {op : VBinOp} (h : op.sub? = some s.sub) :
    execLanes float s (b :: a :: st) = .ok (op.result a b s.bytes :: st) := by
  rw [execLanes_of_arm float _ (arm_bin h)]
  simp only [Arm.run, List.drop_zero, List.drop_succ_cons, List.headD_cons, compute_bin h]
  rfl

theorem execLanes_tern {op : VTernOp} (h : op.sub? = some s.sub) :
    execLanes float s (c :: b :: a :: st) = .ok (op.result a b c :: st) := by
  rw [execLanes_of_arm float _ (arm_tern h)]
  simp only [Arm.run, List.drop_zero, List.drop_succ_cons, List.headD_cons, compute_tern]
  rfl

theorem execLanes_test {op : VTestOp} (h : op.sub? = some s.sub) :
    execLanes float s (a :: st) = .ok (i32Value (BitVec.ofInt 32 (op.result a)) :: st) := by
  rw [execLanes_of_arm float _ (arm_test h)]
  simp only [Arm.run, List.drop_zero, List.headD_cons, compute_test]
  rfl

theorem execLanes_shift {op : VShiftOp} {sh : Shape} (h : op.sub sh = s.sub) (amount : BitVec 32) :
    execLanes float s (i32Value amount :: a :: st) = .ok (op.result a sh amount :: st) := by
  rw [execLanes_of_arm float _ (arm_shift h)]
  simp only [Arm.run, List.drop_zero, List.drop_succ_cons, List.headD_cons, compute_shift]
  rfl

/-- Every lane of a splat is the number given. -/
theorem execLanes_splat {sh : Shape} (h : sh.splatSub = s.sub) (x : BitVec sh.number.size) :
    execLanes float s (sh.number.value x :: st) = .ok (sh.vector (fun _ => readInt false x) :: st) := by
  have harm : (simdArms s).lookup s.sub =
      some (.un fun v => some (simdSplat sh ((sh.number.read v).setWidth sh.width))) := by
    obtain ⟨sub, mem, lane, bytes⟩ := s
    cases sh <;> cases h <;> rfl
  have hcut : x.setWidth sh.width = BitVec.ofInt sh.width (readInt false x) := by
    rw [readInt_false, BitVec.ofInt_natCast, BitVec.ofNat_toNat]
  rw [execLanes_of_arm float _ harm]
  simp only [Arm.run, List.drop_zero, List.headD_cons, Width.read_value, hcut, simdSplat_eq]
  rfl

/-- The integer in a lane, as a number of its own. -/
theorem execLanes_extract {sh : Shape} {sg : Bool}
    (h : sh.extractSub sg = s.sub) (hlane : s.lane < sh.count) :
    execLanes float s (a :: st) =
      .ok (sh.number.value (BitVec.ofInt sh.number.size (sh.lane sg a s.lane)) :: st) := by
  have harm : (simdArms s).lookup s.sub = some (.un fun v => (unpack sh v)[s.lane]?.map fun x =>
      sh.number.value (BitVec.ofInt sh.number.size (readInt sg x))) := by
    obtain ⟨sub, mem, lane, bytes⟩ := s
    have hread {w : ℕ} (x : BitVec w) : BitVec.ofInt w (readInt sg x) = x := ofInt_readInt x
    cases sh with
    | i8x16 | i16x8 => cases sg <;> cases h <;> rfl
    | i32x4 | i64x2 =>
      cases h
      simp only [Shape.number, Width.size, hread]
      rfl
  rw [execLanes_of_arm float _ harm]
  simp only [Arm.run, List.drop_zero, List.headD_cons, getElem?_unpack a hlane]
  rfl

/-- A lane is replaced and the others stay. -/
theorem execLanes_replace {sh : Shape} (h : sh.replaceSub = s.sub) (hlane : s.lane < sh.count)
    (x : BitVec sh.number.size) :
    execLanes float s (sh.number.value x :: a :: st) =
      .ok (sh.vector (fun i => if i = s.lane then readInt false x else sh.lane false a i) :: st) := by
  have harm : (simdArms s).lookup s.sub =
      some (.bin fun v a => simdReplace sh s.lane ((sh.number.read v).setWidth sh.width) a) := by
    obtain ⟨sub, mem, lane, bytes⟩ := s
    cases sh <;> cases h <;> rfl
  have hcut : x.setWidth sh.width = BitVec.ofInt sh.width (readInt false x) := by
    rw [readInt_false, BitVec.ofInt_natCast, BitVec.ofNat_toNat]
  rw [execLanes_of_arm float _ harm]
  simp only [Arm.run, List.drop_zero, List.drop_succ_cons, List.headD_cons, Width.read_value, hcut,
    simdReplace_eq hlane]
  rfl

end

end Wasmrt
