import Wasmrt.Opcode

/-!
# Signatures of the plain instructions

The tables of `validate.rs` and `opcode.rs` that give the operands and results of the instructions
without a typing rule of their own, and the natural alignments of memory accesses. A signature lists
its operands deepest first; of a memory access the first is the address, stated as an `i32`.

## Main definitions

* `simpleSig`, `simdSig`, `atomicValType`: the signatures.
* `naturalAlignLog2`, `simdNaturalAlignLog2`, `atomicNaturalAlignLog2`: the alignments.
-/

namespace Wasmrt

/-- Operands and results of an instruction. -/
structure Sig where
  pop : List ValType
  push : List ValType
  deriving DecidableEq, Repr

/-- The value type a load produces. -/
def LoadOp.valType : LoadOp → ValType
  | i32 | i32Load8 _ | i32Load16 _ => .i32
  | i64 | i64Load8 _ | i64Load16 _ | i64Load32 _ => .i64
  | f32 => .f32
  | f64 => .f64

/-- The value type a store consumes. -/
def StoreOp.valType : StoreOp → ValType
  | i32 | i32Store8 | i32Store16 => .i32
  | i64 | i64Store8 | i64Store16 | i64Store32 => .i64
  | f32 => .f32
  | f64 => .f64

/-- The signature of a conversion. -/
def CvtOp.sig : CvtOp → Sig
  | i32WrapI64 => ⟨[.i64], [.i32]⟩
  | i64ExtendI32S | i64ExtendI32U => ⟨[.i32], [.i64]⟩
  | i64Extend32S => ⟨[.i64], [.i64]⟩
  | trunc f i _ | truncSat f i _ => ⟨[f.float], [i.int]⟩
  | convert i f _ => ⟨[i.int], [f.float]⟩
  | f32DemoteF64 => ⟨[.f64], [.f32]⟩
  | f64PromoteF32 => ⟨[.f32], [.f64]⟩
  | reinterpretFloat w => ⟨[w.float], [w.int]⟩
  | reinterpretInt w => ⟨[w.int], [w.float]⟩

/-- The signature of a numeric, constant, load, store or memory-size instruction; `none` for one
with a typing rule of its own. -/
def simpleSig : Instr → Option Sig
  | .wide .add128 | .wide .sub128 => some ⟨[.i64, .i64, .i64, .i64], [.i64, .i64]⟩
  | .wide .mulWideS | .wide .mulWideU => some ⟨[.i64, .i64], [.i64, .i64]⟩
  | .iEqz w => some ⟨[w.int], [.i32]⟩
  | .iRel w _ => some ⟨[w.int, w.int], [.i32]⟩
  | .fRel w _ => some ⟨[w.float, w.float], [.i32]⟩
  | .iUn w _ => some ⟨[w.int], [w.int]⟩
  | .iBin w _ => some ⟨[w.int, w.int], [w.int]⟩
  | .fUn w _ => some ⟨[w.float], [w.float]⟩
  | .fBin w _ => some ⟨[w.float, w.float], [w.float]⟩
  | .cvt op => some op.sig
  | .i32Const _ => some ⟨[], [.i32]⟩
  | .i64Const _ => some ⟨[], [.i64]⟩
  | .f32Const _ => some ⟨[], [.f32]⟩
  | .f64Const _ => some ⟨[], [.f64]⟩
  | .load op _ => some ⟨[.i32], [op.valType]⟩
  | .store op _ => some ⟨[.i32, op.valType], []⟩
  | .memorySize _ => some ⟨[], [.i32]⟩
  | .memoryGrow _ => some ⟨[.i32], [.i32]⟩
  | _ => none

/-- The signature of a `0xFD` sub-opcode. -/
def simdSig (sub : ℕ) : Sig :=
  let within (ranges : List (ℕ × ℕ)) : Bool := ranges.any fun r => r.1 ≤ sub && sub ≤ r.2
  if within [(0x00, 0x0a), (0x5c, 0x5d)] then ⟨[.i32], [.v128]⟩
  else if within [(0x0b, 0x0b)] then ⟨[.i32, .v128], []⟩
  else if within [(0x54, 0x57)] then ⟨[.i32, .v128], [.v128]⟩
  else if within [(0x58, 0x5b)] then ⟨[.i32, .v128], []⟩
  else if within [(0x0c, 0x0c)] then ⟨[], [.v128]⟩
  else if within [(0x0d, 0x0e)] then ⟨[.v128, .v128], [.v128]⟩
  else if within [(0x0f, 0x11)] then ⟨[.i32], [.v128]⟩
  else if within [(0x12, 0x12)] then ⟨[.i64], [.v128]⟩
  else if within [(0x13, 0x13)] then ⟨[.f32], [.v128]⟩
  else if within [(0x14, 0x14)] then ⟨[.f64], [.v128]⟩
  else if within [(0x15, 0x16), (0x18, 0x19), (0x1b, 0x1b)] then ⟨[.v128], [.i32]⟩
  else if within [(0x1d, 0x1d)] then ⟨[.v128], [.i64]⟩
  else if within [(0x1f, 0x1f)] then ⟨[.v128], [.f32]⟩
  else if within [(0x21, 0x21)] then ⟨[.v128], [.f64]⟩
  else if within [(0x17, 0x17), (0x1a, 0x1a), (0x1c, 0x1c)] then ⟨[.v128, .i32], [.v128]⟩
  else if within [(0x1e, 0x1e)] then ⟨[.v128, .i64], [.v128]⟩
  else if within [(0x20, 0x20)] then ⟨[.v128, .f32], [.v128]⟩
  else if within [(0x22, 0x22)] then ⟨[.v128, .f64], [.v128]⟩
  else if within [(0x23, 0x4c)] then ⟨[.v128, .v128], [.v128]⟩
  else if within [(0x4d, 0x4d)] then ⟨[.v128], [.v128]⟩
  else if within [(0x4e, 0x51)] then ⟨[.v128, .v128], [.v128]⟩
  else if within [(0x52, 0x52), (0x105, 0x10c), (0x113, 0x113)] then
    ⟨[.v128, .v128, .v128], [.v128]⟩
  else if within [(0x53, 0x53), (0x63, 0x63), (0x83, 0x83), (0xa3, 0xa3), (0xc3, 0xc3)] then
    ⟨[.v128], [.i32]⟩
  else if within [(0x64, 0x64), (0x84, 0x84), (0xa4, 0xa4), (0xc4, 0xc4)] then ⟨[.v128], [.i32]⟩
  else if within [(0x6b, 0x6d), (0x8b, 0x8d), (0xab, 0xad), (0xcb, 0xcd)] then
    ⟨[.v128, .i32], [.v128]⟩
  else if within [(0x60, 0x62), (0x67, 0x6a), (0x74, 0x75), (0x7a, 0x7a), (0x7c, 0x81),
      (0x87, 0x8a), (0x94, 0x94), (0xa0, 0xa1), (0xa7, 0xaa), (0xc0, 0xc1), (0xc7, 0xca),
      (0x5e, 0x5f), (0xe0, 0xe1), (0xe3, 0xe3), (0xec, 0xed), (0xef, 0xef), (0xf8, 0xff),
      (0x101, 0x104)] then
    ⟨[.v128], [.v128]⟩
  else ⟨[.v128, .v128], [.v128]⟩

/-- The value type a `0xFE` sub-opcode loads, stores or exchanges. The read-modify-writes come in
groups of seven: `i32`, `i64`, `i32.8`, `i32.16`, `i64.8`, `i64.16`, `i64.32`. -/
def atomicValType (sub : ℕ) : ValType :=
  if sub ∈ [0x10, 0x12, 0x13, 0x17, 0x19, 0x1a] then .i32
  else if sub ∈ [0x11, 0x14, 0x15, 0x16, 0x18, 0x1b, 0x1c, 0x1d] then .i64
  else if (sub + 2 ^ 32 - 0x1e) % 2 ^ 32 % 7 ∈ [0, 2, 3] then .i32
  else .i64

/-! ## Alignments -/

/-- The natural alignment of a load, as an exponent. -/
def LoadOp.naturalAlignLog2 : LoadOp → ℕ
  | i32Load8 _ | i64Load8 _ => 0
  | i32Load16 _ | i64Load16 _ => 1
  | i32 | f32 | i64Load32 _ => 2
  | i64 | f64 => 3

/-- The natural alignment of a store, as an exponent. -/
def StoreOp.naturalAlignLog2 : StoreOp → ℕ
  | i32Store8 | i64Store8 => 0
  | i32Store16 | i64Store16 => 1
  | i32 | f32 | i64Store32 => 2
  | i64 | f64 => 3

/-- The natural alignment of a `0xFD` memory access. -/
def simdNaturalAlignLog2 (sub : ℕ) : ℕ :=
  if sub ∈ [0x07, 0x54, 0x58] then 0
  else if sub ∈ [0x08, 0x55, 0x59] then 1
  else if sub ∈ [0x09, 0x5c, 0x56, 0x5a] then 2
  else if sub ∈ [0x01, 0x02, 0x03, 0x04, 0x05, 0x06, 0x0a, 0x5d, 0x57, 0x5b] then 3
  else 4

/-- Does a `0xFD` sub-opcode touch memory? -/
def simdIsMemoryOp (sub : ℕ) : Bool :=
  sub ≤ 0x0b || sub == 0x5c || sub == 0x5d || (0x54 ≤ sub && sub ≤ 0x5b)

/-- The alignment a `0xFE` memory access must have. -/
def atomicNaturalAlignLog2 (sub : ℕ) : ℕ :=
  if sub ∈ [0x00, 0x01] then 2
  else if sub = 0x02 then 3
  else if sub = 0x03 then 0
  else if sub ∈ [0x10, 0x17] then 2
  else if sub ∈ [0x11, 0x18] then 3
  else if sub ∈ [0x12, 0x19] then 0
  else if sub ∈ [0x13, 0x1a] then 1
  else if sub ∈ [0x14, 0x1b] then 0
  else if sub ∈ [0x15, 0x1c] then 1
  else if sub ∈ [0x16, 0x1d] then 2
  else if 0x1e ≤ sub ∧ sub ≤ 0x4e then ([2, 3, 0, 1, 0, 1, 2] : List ℕ).getD ((sub - 0x1e) % 7) 0
  else 0

end Wasmrt
