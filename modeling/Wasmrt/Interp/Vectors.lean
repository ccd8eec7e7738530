import Wasmrt.Interp.Numeric
import Wasmrt.Library.Lanes

/-!
# Vector instructions

The arms of `exec_simd` on the lanes of integers. An arm views its operands as lanes, through their bytes, and packs the
lanes it computes; the macros of the source are functions here, and an arm is one of them applied to its view, its
conversion and its operation. What overflows or reads past the end of an array is a panic, which has no result.

Shifts, splats and lane replacements take a number beside a vector. Memory accesses and lanes of floats are elsewhere.

## Main definitions

* `Shape`: how a vector is cut into lanes.
* `unpack`, `packed`: the lanes of a vector and the vector of lanes.
* `simdArms`, `execLanes`: the arm of every sub-opcode.
-/

namespace Wasmrt

open MachineInt

/-- The ways to cut a vector into lanes. -/
inductive Shape
  | i8x16 | i16x8 | i32x4 | i64x2
  deriving DecidableEq, Repr

namespace Shape

/-- The number of lanes. -/
def count : Shape → ℕ
  | i8x16 => 16
  | i16x8 => 8
  | i32x4 => 4
  | i64x2 => 2

/-- The bytes of a lane. -/
def bytes : Shape → ℕ
  | i8x16 => 1
  | i16x8 => 2
  | i32x4 => 4
  | i64x2 => 8

/-- The bits of a lane. -/
@[reducible]
def width : Shape → ℕ
  | i8x16 => 8
  | i16x8 => 16
  | i32x4 => 32
  | i64x2 => 64

end Shape

variable (sh dst : Shape) (sg : Bool)

/-- The lanes of a vector, each read from its bytes. -/
def unpack (v : Value) : List (BitVec sh.width) :=
  (List.range sh.count).map fun i =>
    BitVec.ofNat sh.width (leValue (((leBytes 16 v).drop (i * sh.bytes)).take sh.bytes))

/-- The vector of lanes, each written as its bytes. -/
def packed (l : List (BitVec sh.width)) : Value :=
  BitVec.ofNat 128 (leValue (l.flatMap fun x => leBytes sh.bytes (x.setWidth 128)))

/-- An array of `n` entries, each computed from its index. -/
def fromFn {α : Type} (n : ℕ) (f : ℕ → Option α) : Option (List α) := (List.range n).mapM f

/-! ## The macros -/

/-- A binary operation on the lanes. -/
def simdBin (f : BitVec sh.width → BitVec sh.width → Option (BitVec sh.width)) (b a : Value) : Option Value := do
  let r ← fromFn sh.count fun i => do
    let x ← (unpack sh a)[i]?
    let y ← (unpack sh b)[i]?
    f x y
  pure (packed sh r)

/-- A unary operation on the lanes. -/
def simdUn (f : BitVec sh.width → Option (BitVec sh.width)) (a : Value) : Option Value := do
  let r ← fromFn sh.count fun i => do
    let x ← (unpack sh a)[i]?
    f x
  pure (packed sh r)

/-- A comparison of the lanes: all bits of a lane are set, or none. -/
def simdCmp (place : ℕ) (b a : Value) : Option Value :=
  simdBin sh (fun x y => some (if cmpInt place x y then BitVec.allOnes sh.width else 0)) b a

/-- A shift of the lanes by a number modulo their width. -/
def simdShift (shift : BitVec sh.width → ℕ → Option (BitVec sh.width)) (amount a : Value) : Option Value :=
  simdUn sh (fun x => shift x ((asI32 amount).toNat % sh.width)) a

/-- The low or the high half of the lanes, widened. -/
def simdExtend (half : ℕ) (high : Bool) (a : Value) : Option Value := do
  let base := if high then half else 0
  let r ← fromFn dst.count fun i => do
    let x ← (unpack sh a)[base + i]?
    some (castInt sg dst.width x)
  pure (packed dst r)

/-- A word within bounds. -/
def clampInt {w : ℕ} (sg : Bool) (x lo hi : BitVec w) : Option (BitVec w) :=
  if readInt sg hi < readInt sg lo then none
  else some (if readInt sg x < readInt sg lo then lo else if readInt sg hi < readInt sg x then hi else x)

/-- A signed word narrowed to the nearest one of another type. -/
def narrowTo {w : ℕ} (sg : Bool) (w' : ℕ) (x : BitVec w) : Option (BitVec w') := do
  let y ← clampInt true x (BitVec.ofInt w (minInt sg w')) (BitVec.ofInt w (maxInt sg w'))
  some (castInt true w' y)

/-- The lanes of two vectors, narrowed. -/
def simdNarrow (b a : Value) : Option Value := do
  let half := (unpack sh a).length
  let r ← fromFn dst.count fun i => do
    let x ← if i < half then (unpack sh a)[i]? else (unpack sh b)[i - half]?
    narrowTo sg dst.width x
  pure (packed dst r)

/-- The products of the low or the high halves, as wide as they need. -/
def simdExtmul (n : ℕ) (high : Bool) (b a : Value) : Option Value := do
  let base := if high then n else 0
  let r ← fromFn dst.count fun i => do
    let x ← (unpack sh a)[base + i]?
    let y ← (unpack sh b)[base + i]?
    fitInt sg dst.width (readInt sg (castInt sg dst.width x) * readInt sg (castInt sg dst.width y))
  pure (packed dst r)

/-- The sums of neighbouring lanes. -/
def simdExtadd (a : Value) : Option Value := do
  let r ← fromFn dst.count fun i => do
    let x ← (unpack sh a)[2 * i]?
    let y ← (unpack sh a)[2 * i + 1]?
    fitInt sg dst.width (readInt sg (castInt sg dst.width x) + readInt sg (castInt sg dst.width y))
  pure (packed dst r)

/-! ## Operations on lanes -/

section
variable {w : ℕ}

/-- A saturating addition. -/
def addSat (sg : Bool) (x y : BitVec w) : BitVec w := BitVec.ofInt w (saturate sg w (readInt sg x + readInt sg y))

/-- A saturating subtraction. -/
def subSat (sg : Bool) (x y : BitVec w) : BitVec w := BitVec.ofInt w (saturate sg w (readInt sg x - readInt sg y))

def minLane (sg : Bool) (x y : BitVec w) : BitVec w := if readInt sg x ≤ readInt sg y then x else y
def maxLane (sg : Bool) (x y : BitVec w) : BitVec w := if readInt sg x ≤ readInt sg y then y else x

/-- The average rounded up, computed in a word of twice the width. -/
def averageLane (x y : BitVec w) : Option (BitVec w) := do
  let s ← fitInt false (2 * w) (readInt false (castInt false (2 * w) x) + readInt false (castInt false (2 * w) y))
  let s ← fitInt false (2 * w) (readInt false s + 1)
  let s ← shrChecked false s 1
  some (castInt false w s)

/-- The product of two lanes in 32 bits. -/
def product (x y : BitVec w) : Option (BitVec 32) :=
  fitInt true 32 (readInt true (castInt true 32 x) * readInt true (castInt true 32 y))

/-- A sum in 32 bits. -/
def sum32 (x y : BitVec 32) : Option (BitVec 32) := fitInt true 32 (readInt true x + readInt true y)

end

/-- The rounded product of two fractions of 15 bits. -/
def q15mulr (x y : BitVec 16) : Option (BitVec 16) := do
  let p ← product x y
  let p ← sum32 p 0x4000
  let p ← shrChecked true p 15
  narrowTo true 16 p

/-- The sums of the products of neighbouring lanes. -/
def simdDot (b a : Value) : Option Value := do
  let r ← fromFn 4 fun i => do
    let p ← product (← (unpack .i16x8 a)[2 * i]?) (← (unpack .i16x8 b)[2 * i]?)
    let q ← product (← (unpack .i16x8 a)[2 * i + 1]?) (← (unpack .i16x8 b)[2 * i + 1]?)
    some (p + q)
  pure (packed .i32x4 r)

/-- The products of the bytes at `n` and the next, added. -/
def dotPair (b a : Value) (n : ℕ) : Option (BitVec 32) := do
  let p ← product (← (unpack .i8x16 a)[n]?) (← (unpack .i8x16 b)[n]?)
  let q ← product (← (unpack .i8x16 a)[n + 1]?) (← (unpack .i8x16 b)[n + 1]?)
  sum32 p q

/-- The saturated sums of the products of neighbouring bytes. -/
def simdRelaxedDot (b a : Value) : Option Value := do
  let r ← fromFn 8 fun i => do
    let s ← dotPair b a (2 * i)
    narrowTo true 16 s
  pure (packed .i16x8 r)

/-- The sums of the products of four bytes, added to a third operand. -/
def simdRelaxedDotAdd (c b a : Value) : Option Value := do
  let r ← fromFn 4 fun i => do
    let p₀ ← dotPair b a (4 * i)
    let p₁ ← dotPair b a (4 * i + 2)
    let z ← (unpack .i32x4 c)[i]?
    some (p₀ + p₁ + z)
  pure (packed .i32x4 r)

/-- The bytes an immediate picks from two vectors. -/
def simdShuffle (bytes b a : Value) : Option Value := do
  let r ← fromFn 16 fun i => do
    let j := (← (unpack .i8x16 bytes)[i]?).toNat
    if j < 16 then (unpack .i8x16 a)[j]? else if j < 32 then (unpack .i8x16 b)[j - 16]? else some 0
  pure (packed .i8x16 r)

/-- The bytes a vector picks from another. -/
def simdSwizzle (b a : Value) : Option Value := do
  let r ← fromFn 16 fun i => do
    let j := (← (unpack .i8x16 b)[i]?).toNat
    if j < 16 then (unpack .i8x16 a)[j]? else some 0
  pure (packed .i8x16 r)

/-- The sign bits of the lanes, the lowest first. -/
def simdBitmask (v : Value) : BitVec 32 :=
  let bits := sh.width
  ((unpack sh v).zipIdx).foldl
    (fun m x => if (((x.1.setWidth 128 : Value) >>> (bits - 1)) &&& 1) = 0 then m else m ||| (1 : BitVec 32) <<< x.2) 0

/-- Is no lane zero? -/
def simdAllTrue (v : Value) : Bool := (unpack sh v).all (· != 0)

/-- A vector of equal lanes. -/
def simdSplat (x : BitVec sh.width) : Value := packed sh (List.replicate sh.count x)

/-- A lane replaced. -/
def simdReplace (lane : ℕ) (x : BitVec sh.width) (a : Value) : Option Value :=
  if lane < (unpack sh a).length then some (packed sh ((unpack sh a).set lane x)) else none

/-! ## The arms -/

/-- What an arm does with the operands it pops, the top one first. -/
inductive Arm
  | un (f : Value → Option Value)
  | bin (f : Value → Value → Option Value)
  | tern (f : Value → Value → Value → Option Value)

/-- Run an arm; popping an empty stack yields 0. -/
def Arm.run (arm : Arm) (st : List Value) : Option (List Value) :=
  let operand (n : ℕ) : Value := (st.drop n).headD 0
  match arm with
  | un f => (f (operand 0)).map (· :: st.drop 1)
  | bin f => (f (operand 0) (operand 1)).map (· :: st.drop 2)
  | tern f => (f (operand 0) (operand 1) (operand 2)).map (· :: st.drop 3)

/-- Moving lanes. -/
def laneArms (s : Simd) : List (ℕ × Arm) :=
  [(0x0d, .bin (simdShuffle s.bytes)),
   (0x0e, .bin simdSwizzle),
   (0x100, .bin simdSwizzle),
   (0x0f, .un fun x => some (simdSplat .i8x16 ((asI32 x).setWidth 8))),
   (0x10, .un fun x => some (simdSplat .i16x8 ((asI32 x).setWidth 16))),
   (0x11, .un fun x => some (simdSplat .i32x4 (asI32 x))),
   (0x12, .un fun x => some (simdSplat .i64x2 (asI64 x))),
   (0x15, .un fun v => (unpack .i8x16 v)[s.lane]?.map fun x => i32Value (castInt true 32 x)),
   (0x16, .un fun v => (unpack .i8x16 v)[s.lane]?.map fun x => i32Value (castInt false 32 x)),
   (0x18, .un fun v => (unpack .i16x8 v)[s.lane]?.map fun x => i32Value (castInt true 32 x)),
   (0x19, .un fun v => (unpack .i16x8 v)[s.lane]?.map fun x => i32Value (castInt false 32 x)),
   (0x1b, .un fun v => (unpack .i32x4 v)[s.lane]?.map i32Value),
   (0x1d, .un fun v => (unpack .i64x2 v)[s.lane]?.map i64Value),
   (0x17, .bin fun x a => simdReplace .i8x16 s.lane ((asI32 x).setWidth 8) a),
   (0x1a, .bin fun x a => simdReplace .i16x8 s.lane ((asI32 x).setWidth 16) a),
   (0x1c, .bin fun x a => simdReplace .i32x4 s.lane (asI32 x) a),
   (0x1e, .bin fun x a => simdReplace .i64x2 s.lane (asI64 x) a)]

/-- Comparing lanes: `eq`, `ne`, `lt_s`, `lt_u`, `gt_s`, `gt_u`, `le_s`, `le_u`, `ge_s`, `ge_u`. -/
def compareArms : List (ℕ × Arm) :=
  [(0x23, .bin (simdCmp .i8x16 0)), (0x24, .bin (simdCmp .i8x16 1)), (0x25, .bin (simdCmp .i8x16 2)),
   (0x26, .bin (simdCmp .i8x16 3)), (0x27, .bin (simdCmp .i8x16 4)), (0x28, .bin (simdCmp .i8x16 5)),
   (0x29, .bin (simdCmp .i8x16 6)), (0x2a, .bin (simdCmp .i8x16 7)), (0x2b, .bin (simdCmp .i8x16 8)),
   (0x2c, .bin (simdCmp .i8x16 9)), (0x2d, .bin (simdCmp .i16x8 0)), (0x2e, .bin (simdCmp .i16x8 1)),
   (0x2f, .bin (simdCmp .i16x8 2)), (0x30, .bin (simdCmp .i16x8 3)), (0x31, .bin (simdCmp .i16x8 4)),
   (0x32, .bin (simdCmp .i16x8 5)), (0x33, .bin (simdCmp .i16x8 6)), (0x34, .bin (simdCmp .i16x8 7)),
   (0x35, .bin (simdCmp .i16x8 8)), (0x36, .bin (simdCmp .i16x8 9)), (0x37, .bin (simdCmp .i32x4 0)),
   (0x38, .bin (simdCmp .i32x4 1)), (0x39, .bin (simdCmp .i32x4 2)), (0x3a, .bin (simdCmp .i32x4 3)),
   (0x3b, .bin (simdCmp .i32x4 4)), (0x3c, .bin (simdCmp .i32x4 5)), (0x3d, .bin (simdCmp .i32x4 6)),
   (0x3e, .bin (simdCmp .i32x4 7)), (0x3f, .bin (simdCmp .i32x4 8)), (0x40, .bin (simdCmp .i32x4 9)),
   (0xd6, .bin (simdCmp .i64x2 0)), (0xd7, .bin (simdCmp .i64x2 1)), (0xd8, .bin (simdCmp .i64x2 2)),
   (0xd9, .bin (simdCmp .i64x2 4)), (0xda, .bin (simdCmp .i64x2 6)), (0xdb, .bin (simdCmp .i64x2 8))]

/-- The whole vector at once. -/
def bitwiseArms : List (ℕ × Arm) :=
  [(0x4d, .un fun v => some (~~~v)),
   (0x4e, .bin fun b a => some (a &&& b)),
   (0x4f, .bin fun b a => some (a &&& ~~~b)),
   (0x50, .bin fun b a => some (a ||| b)),
   (0x51, .bin fun b a => some (a ^^^ b)),
   (0x52, .tern fun c b a => some ((a &&& c) ||| (b &&& ~~~c))),
   (0x53, .un fun v => some (boolValue (v != 0))),
   (0x109, .tern fun m b a => some ((a &&& m) ||| (b &&& ~~~m))),
   (0x10a, .tern fun m b a => some ((a &&& m) ||| (b &&& ~~~m))),
   (0x10b, .tern fun m b a => some ((a &&& m) ||| (b &&& ~~~m))),
   (0x10c, .tern fun m b a => some ((a &&& m) ||| (b &&& ~~~m)))]

/-- Lanes of 8 bits. -/
def i8x16Arms : List (ℕ × Arm) :=
  [(0x60, .un (simdUn .i8x16 fun x => some x.abs)),
   (0x61, .un (simdUn .i8x16 fun x => some (-x))),
   (0x62, .un (simdUn .i8x16 fun x => some x.cpop)),
   (0x63, .un fun v => some (boolValue (simdAllTrue .i8x16 v))),
   (0x64, .un fun v => some (i32Value (simdBitmask .i8x16 v))),
   (0x65, .bin (simdNarrow .i16x8 .i8x16 true)),
   (0x66, .bin (simdNarrow .i16x8 .i8x16 false)),
   (0x6b, .bin (simdShift .i8x16 shlChecked)),
   (0x6c, .bin (simdShift .i8x16 (shrChecked true))),
   (0x6d, .bin (simdShift .i8x16 (shrChecked false))),
   (0x6e, .bin (simdBin .i8x16 fun x y => some (x + y))),
   (0x6f, .bin (simdBin .i8x16 fun x y => some (addSat true x y))),
   (0x70, .bin (simdBin .i8x16 fun x y => some (addSat false x y))),
   (0x71, .bin (simdBin .i8x16 fun x y => some (x - y))),
   (0x72, .bin (simdBin .i8x16 fun x y => some (subSat true x y))),
   (0x73, .bin (simdBin .i8x16 fun x y => some (subSat false x y))),
   (0x76, .bin (simdBin .i8x16 fun x y => some (minLane true x y))),
   (0x77, .bin (simdBin .i8x16 fun x y => some (minLane false x y))),
   (0x78, .bin (simdBin .i8x16 fun x y => some (maxLane true x y))),
   (0x79, .bin (simdBin .i8x16 fun x y => some (maxLane false x y))),
   (0x7b, .bin (simdBin .i8x16 fun x y => averageLane x y))]

/-- Lanes of 16 bits. -/
def i16x8Arms : List (ℕ × Arm) :=
  [(0x7c, .un (simdExtadd .i8x16 .i16x8 true)),
   (0x7d, .un (simdExtadd .i8x16 .i16x8 false)),
   (0x80, .un (simdUn .i16x8 fun x => some x.abs)),
   (0x81, .un (simdUn .i16x8 fun x => some (-x))),
   (0x82, .bin (simdBin .i16x8 fun x y => q15mulr x y)),
   (0x111, .bin (simdBin .i16x8 fun x y => q15mulr x y)),
   (0x112, .bin simdRelaxedDot),
   (0x83, .un fun v => some (boolValue (simdAllTrue .i16x8 v))),
   (0x84, .un fun v => some (i32Value (simdBitmask .i16x8 v))),
   (0x85, .bin (simdNarrow .i32x4 .i16x8 true)),
   (0x86, .bin (simdNarrow .i32x4 .i16x8 false)),
   (0x87, .un (simdExtend .i8x16 .i16x8 true 8 false)),
   (0x88, .un (simdExtend .i8x16 .i16x8 true 8 true)),
   (0x89, .un (simdExtend .i8x16 .i16x8 false 8 false)),
   (0x8a, .un (simdExtend .i8x16 .i16x8 false 8 true)),
   (0x8b, .bin (simdShift .i16x8 shlChecked)),
   (0x8c, .bin (simdShift .i16x8 (shrChecked true))),
   (0x8d, .bin (simdShift .i16x8 (shrChecked false))),
   (0x8e, .bin (simdBin .i16x8 fun x y => some (x + y))),
   (0x8f, .bin (simdBin .i16x8 fun x y => some (addSat true x y))),
   (0x90, .bin (simdBin .i16x8 fun x y => some (addSat false x y))),
   (0x91, .bin (simdBin .i16x8 fun x y => some (x - y))),
   (0x92, .bin (simdBin .i16x8 fun x y => some (subSat true x y))),
   (0x93, .bin (simdBin .i16x8 fun x y => some (subSat false x y))),
   (0x95, .bin (simdBin .i16x8 fun x y => some (x * y))),
   (0x96, .bin (simdBin .i16x8 fun x y => some (minLane true x y))),
   (0x97, .bin (simdBin .i16x8 fun x y => some (minLane false x y))),
   (0x98, .bin (simdBin .i16x8 fun x y => some (maxLane true x y))),
   (0x99, .bin (simdBin .i16x8 fun x y => some (maxLane false x y))),
   (0x9b, .bin (simdBin .i16x8 fun x y => averageLane x y)),
   (0x9c, .bin (simdExtmul .i8x16 .i16x8 true 8 false)),
   (0x9d, .bin (simdExtmul .i8x16 .i16x8 true 8 true)),
   (0x9e, .bin (simdExtmul .i8x16 .i16x8 false 8 false)),
   (0x9f, .bin (simdExtmul .i8x16 .i16x8 false 8 true))]

/-- Lanes of 32 bits. -/
def i32x4Arms : List (ℕ × Arm) :=
  [(0x7e, .un (simdExtadd .i16x8 .i32x4 true)),
   (0x7f, .un (simdExtadd .i16x8 .i32x4 false)),
   (0xa0, .un (simdUn .i32x4 fun x => some x.abs)),
   (0xa1, .un (simdUn .i32x4 fun x => some (-x))),
   (0xa3, .un fun v => some (boolValue (simdAllTrue .i32x4 v))),
   (0xa4, .un fun v => some (i32Value (simdBitmask .i32x4 v))),
   (0xa7, .un (simdExtend .i16x8 .i32x4 true 4 false)),
   (0xa8, .un (simdExtend .i16x8 .i32x4 true 4 true)),
   (0xa9, .un (simdExtend .i16x8 .i32x4 false 4 false)),
   (0xaa, .un (simdExtend .i16x8 .i32x4 false 4 true)),
   (0xab, .bin (simdShift .i32x4 shlChecked)),
   (0xac, .bin (simdShift .i32x4 (shrChecked true))),
   (0xad, .bin (simdShift .i32x4 (shrChecked false))),
   (0xae, .bin (simdBin .i32x4 fun x y => some (x + y))),
   (0xb1, .bin (simdBin .i32x4 fun x y => some (x - y))),
   (0xb5, .bin (simdBin .i32x4 fun x y => some (x * y))),
   (0xb6, .bin (simdBin .i32x4 fun x y => some (minLane true x y))),
   (0xb7, .bin (simdBin .i32x4 fun x y => some (minLane false x y))),
   (0xb8, .bin (simdBin .i32x4 fun x y => some (maxLane true x y))),
   (0xb9, .bin (simdBin .i32x4 fun x y => some (maxLane false x y))),
   (0xba, .bin simdDot),
   (0x113, .tern simdRelaxedDotAdd),
   (0xbc, .bin (simdExtmul .i16x8 .i32x4 true 4 false)),
   (0xbd, .bin (simdExtmul .i16x8 .i32x4 true 4 true)),
   (0xbe, .bin (simdExtmul .i16x8 .i32x4 false 4 false)),
   (0xbf, .bin (simdExtmul .i16x8 .i32x4 false 4 true))]

/-- Lanes of 64 bits. -/
def i64x2Arms : List (ℕ × Arm) :=
  [(0xc0, .un (simdUn .i64x2 fun x => some x.abs)),
   (0xc1, .un (simdUn .i64x2 fun x => some (-x))),
   (0xc3, .un fun v => some (boolValue (simdAllTrue .i64x2 v))),
   (0xc4, .un fun v => some (i32Value (simdBitmask .i64x2 v))),
   (0xc7, .un (simdExtend .i32x4 .i64x2 true 2 false)),
   (0xc8, .un (simdExtend .i32x4 .i64x2 true 2 true)),
   (0xc9, .un (simdExtend .i32x4 .i64x2 false 2 false)),
   (0xca, .un (simdExtend .i32x4 .i64x2 false 2 true)),
   (0xcb, .bin (simdShift .i64x2 shlChecked)),
   (0xcc, .bin (simdShift .i64x2 (shrChecked true))),
   (0xcd, .bin (simdShift .i64x2 (shrChecked false))),
   (0xce, .bin (simdBin .i64x2 fun x y => some (x + y))),
   (0xd1, .bin (simdBin .i64x2 fun x y => some (x - y))),
   (0xd5, .bin (simdBin .i64x2 fun x y => some (x * y))),
   (0xdc, .bin (simdExtmul .i32x4 .i64x2 true 2 false)),
   (0xdd, .bin (simdExtmul .i32x4 .i64x2 true 2 true)),
   (0xde, .bin (simdExtmul .i32x4 .i64x2 false 2 false)),
   (0xdf, .bin (simdExtmul .i32x4 .i64x2 false 2 true))]

/-- The arms on integers. -/
def simdArms (s : Simd) : List (ℕ × Arm) :=
  laneArms s ++ compareArms ++ bitwiseArms ++ i8x16Arms ++ i16x8Arms ++ i32x4Arms ++ i64x2Arms

/-- An instruction on lanes; `float` runs what is none on integers. -/
def execLanes (float : Simd → List Value → Except Fault (List Value)) (s : Simd) (st : List Value) :
    Except Fault (List Value) :=
  match (simdArms s).lookup s.sub with
  | some arm => orPanic (arm.run st)
  | none => float s st

end Wasmrt
