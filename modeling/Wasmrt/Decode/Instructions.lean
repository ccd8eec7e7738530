import Wasmrt.Decode.Immediates
import Wasmrt.Interp.ExpressionEnds

/-!
# Decoding instructions

`decode_expr` of `opcode.rs`, the one reader of instructions: function bodies and constant expressions both come by it. An
opcode is one byte, or a prefix and a number after it, and says what immediate follows. The source reads the immediate and
then pairs it with the opcode; here a table gives, for an opcode, the kind of its immediate and the instruction it makes.

## Main definitions

* `ImmKind`, `immediateKind`, `gcKind`, `bulkKind`: the immediates of the opcodes of one byte, and of two prefixes.
* `decodeSimd`, `decodeAtomic`: the instructions of the other two.
* `decodeInstr`, `decodeExpr`, `decodeBody`: an instruction, an expression, and a body that is one expression.
* `InstrBytes`, `ExprBytes`: the bytes of an instruction and of an expression.

## Main results

* `reads_decodeInstr`, `reads_decodeExpr`: the decoder reads exactly the bytes of an instruction and of an expression.
* `decodeExpr_exact`: so it does from any place in any bytes, in one way, and it never goes on forever.
-/

namespace Wasmrt

open Leb128 Recognizer

variable {bytes : List UInt8}

/-! ## The tables -/

/-- The kind of an immediate, with the instruction it makes. The source has one kind for each index space that a number may
point into. -/
inductive ImmKind
  | none (i : Instr)
  | blockType (make : BlockType → Instr)
  | index (make : ℕ → Instr)
  | indices (make : ℕ → ℕ → Instr)
  | brTable | i32c | i64c | f32c | f64c | selectTypes | tryTable
  | mem (make : MemArg → Instr)
  | refType (make : HeapType → Instr)
  | brCast (make : ℕ → RefType → RefType → Instr)

def iRelOps : List IRelOp := [.eq, .ne, .ltS, .ltU, .gtS, .gtU, .leS, .leU, .geS, .geU]
def fRelOps : List FRelOp := [.eq, .ne, .lt, .gt, .le, .ge]
def iUnOps : List IUnOp := [.clz, .ctz, .popcnt]
def iBinOps : List IBinOp :=
  [.add, .sub, .mul, .divS, .divU, .remS, .remU, .and, .or, .xor, .shl, .shrS, .shrU, .rotl, .rotr]
def fUnOps : List FUnOp := [.abs, .neg, .ceil, .floor, .trunc, .nearest, .sqrt]
def fBinOps : List FBinOp := [.add, .sub, .mul, .div, .min, .max, .copysign]

/-- The conversions `0xa7` to `0xbf`. -/
def cvtOps : List CvtOp :=
  [.i32WrapI64,
   .trunc .w32 .w32 true, .trunc .w32 .w32 false, .trunc .w64 .w32 true, .trunc .w64 .w32 false,
   .i64ExtendI32S, .i64ExtendI32U,
   .trunc .w32 .w64 true, .trunc .w32 .w64 false, .trunc .w64 .w64 true, .trunc .w64 .w64 false,
   .convert .w32 .w32 true, .convert .w32 .w32 false, .convert .w64 .w32 true, .convert .w64 .w32 false,
   .f32DemoteF64,
   .convert .w32 .w64 true, .convert .w32 .w64 false, .convert .w64 .w64 true, .convert .w64 .w64 false,
   .f64PromoteF32,
   .reinterpretFloat .w32, .reinterpretFloat .w64, .reinterpretInt .w32, .reinterpretInt .w64]

/-- The sign extensions `0xc0` to `0xc4`. -/
def extendOps : List Instr :=
  [.iUn .w32 .extend8S, .iUn .w32 .extend16S, .iUn .w64 .extend8S, .iUn .w64 .extend16S, .cvt .i64Extend32S]

/-- The numeric instructions `0x45` to `0xc4`, which have no immediate. -/
def numericOps : List Instr :=
  .iEqz .w32 :: iRelOps.map (.iRel .w32) ++ .iEqz .w64 :: iRelOps.map (.iRel .w64) ++
    fRelOps.map (.fRel .w32) ++ fRelOps.map (.fRel .w64) ++
    iUnOps.map (.iUn .w32) ++ iBinOps.map (.iBin .w32) ++ iUnOps.map (.iUn .w64) ++ iBinOps.map (.iBin .w64) ++
    fUnOps.map (.fUn .w32) ++ fBinOps.map (.fBin .w32) ++ fUnOps.map (.fUn .w64) ++ fBinOps.map (.fBin .w64) ++
    cvtOps.map .cvt ++ extendOps

def loadOps : List LoadOp :=
  [.i32, .i64, .f32, .f64, .i32Load8 true, .i32Load8 false, .i32Load16 true, .i32Load16 false,
   .i64Load8 true, .i64Load8 false, .i64Load16 true, .i64Load16 false, .i64Load32 true, .i64Load32 false]

def storeOps : List StoreOp :=
  [.i32, .i64, .f32, .f64, .i32Store8, .i32Store16, .i64Store8, .i64Store16, .i64Store32]

/-- The accesses `0x28` to `0x3e`. -/
def accessOps : List (MemArg → Instr) := loadOps.map .load ++ storeOps.map .store

example : numericOps.length = 0xc5 - 0x45 ∧ accessOps.length = 0x3f - 0x28 := ⟨rfl, rfl⟩

/-- The other opcodes of one byte. -/
def plainKinds : List (ℕ × ImmKind) :=
  [(0x00, .none .unreachable), (0x01, .none .nop), (0x02, .blockType .block), (0x03, .blockType .loop),
   (0x04, .blockType .if_), (0x05, .none .else_), (0x06, .blockType .tryLegacy), (0x07, .index .catchLegacy),
   (0x08, .index .throw), (0x09, .index .rethrow), (0x0a, .none .throwRef), (0x0b, .none .end_), (0x0c, .index .br),
   (0x0d, .index .brIf), (0x0e, .brTable), (0x0f, .none .return_), (0x10, .index .call),
   (0x11, .indices .callIndirect), (0x12, .index .returnCall), (0x13, .indices .returnCallIndirect),
   (0x14, .index .callRef), (0x15, .index .returnCallRef), (0x18, .index .delegate), (0x19, .none .catchAll),
   (0x1a, .none .drop), (0x1b, .none .select), (0x1c, .selectTypes), (0x1f, .tryTable),
   (0x20, .index .localGet), (0x21, .index .localSet), (0x22, .index .localTee), (0x23, .index .globalGet),
   (0x24, .index .globalSet), (0x25, .index .tableGet), (0x26, .index .tableSet), (0x3f, .index .memorySize),
   (0x40, .index .memoryGrow), (0x41, .i32c), (0x42, .i64c), (0x43, .f32c), (0x44, .f64c), (0xd0, .refType .refNull),
   (0xd1, .none .refIsNull), (0xd2, .index .refFunc), (0xd3, .none .refEq), (0xd4, .none .refAsNonNull),
   (0xd5, .index .brOnNull), (0xd6, .index .brOnNonNull)]

/-- The immediate of an opcode of one byte. -/
def immediateKind (b : UInt8) : Option ImmKind :=
  if 0x28 ≤ b.toNat ∧ b.toNat ≤ 0x3e then (accessOps[b.toNat - 0x28]?).map .mem
  else if 0x45 ≤ b.toNat ∧ b.toNat ≤ 0xc4 then (numericOps[b.toNat - 0x45]?).map .none
  else plainKinds.lookup b.toNat

/-- The instructions of the prefix `0xfb`. -/
def gcKinds : List (ℕ × ImmKind) :=
  [(0x00, .index .structNew), (0x01, .index .structNewDefault), (0x02, .indices (.structGet .plain)),
   (0x03, .indices (.structGet .signed)), (0x04, .indices (.structGet .unsigned)), (0x05, .indices .structSet),
   (0x06, .index .arrayNew), (0x07, .index .arrayNewDefault), (0x08, .indices .arrayNewFixed),
   (0x09, .indices .arrayNewData), (0x0a, .indices .arrayNewElem), (0x0b, .index (.arrayGet .plain)),
   (0x0c, .index (.arrayGet .signed)), (0x0d, .index (.arrayGet .unsigned)), (0x0e, .index .arraySet),
   (0x0f, .none .arrayLen), (0x10, .index .arrayFill), (0x11, .indices .arrayCopy), (0x12, .indices .arrayInitData),
   (0x13, .indices .arrayInitElem), (0x14, .refType fun ht => .refTest ⟨false, ht⟩),
   (0x15, .refType fun ht => .refTest ⟨true, ht⟩), (0x16, .refType fun ht => .refCast ⟨false, ht⟩),
   (0x17, .refType fun ht => .refCast ⟨true, ht⟩), (0x18, .brCast .brOnCast), (0x19, .brCast .brOnCastFail),
   (0x1a, .none .anyConvertExtern), (0x1b, .none .externConvertAny), (0x1c, .none .refI31),
   (0x1d, .none (.i31Get true)), (0x1e, .none (.i31Get false)), (0x20, .index .structNewDesc),
   (0x21, .index .structNewDefaultDesc), (0x22, .index .refGetDesc), (0x23, .refType fun ht => .refCastDescEq ⟨false, ht⟩),
   (0x24, .refType fun ht => .refCastDescEq ⟨true, ht⟩), (0x25, .brCast .brOnCastDescEq),
   (0x26, .brCast .brOnCastDescEqFail)]

def gcKind (sub : ℕ) : Option ImmKind := gcKinds.lookup sub

/-- The instructions of the prefix `0xfc`. -/
def bulkKinds : List (ℕ × ImmKind) :=
  [(0x00, .none (.cvt (.truncSat .w32 .w32 true))), (0x01, .none (.cvt (.truncSat .w32 .w32 false))),
   (0x02, .none (.cvt (.truncSat .w64 .w32 true))), (0x03, .none (.cvt (.truncSat .w64 .w32 false))),
   (0x04, .none (.cvt (.truncSat .w32 .w64 true))), (0x05, .none (.cvt (.truncSat .w32 .w64 false))),
   (0x06, .none (.cvt (.truncSat .w64 .w64 true))), (0x07, .none (.cvt (.truncSat .w64 .w64 false))),
   (0x08, .indices .memoryInit), (0x09, .index .dataDrop), (0x0a, .indices .memoryCopy), (0x0b, .index .memoryFill),
   (0x0c, .indices .tableInit), (0x0d, .index .elemDrop), (0x0e, .indices .tableCopy), (0x0f, .index .tableGrow),
   (0x10, .index .tableSize), (0x11, .index .tableFill), (0x13, .none (.wide .add128)), (0x14, .none (.wide .sub128)),
   (0x15, .none (.wide .mulWideS)), (0x16, .none (.wide .mulWideU))]

def bulkKind (sub : ℕ) : Option ImmKind := bulkKinds.lookup sub

/-! ## The readers -/

/-- Read an immediate, and make the instruction. -/
def ImmKind.read : ImmKind → Decoding bytes Instr
  | .none i => pure i
  | .blockType make => make <$> readBlockType
  | .index make => make <$> readU32
  | .indices make => do
    let n ← readU32
    let m ← readU32
    pure (make n m)
  | .brTable => (fun p => .brTable p.1 p.2) <$> readBrTable
  | .i32c => .i32Const <$> readVarI32
  | .i64c => .i64Const <$> readVarI64
  | .f32c => .f32Const <$> readF32Bits
  | .f64c => .f64Const <$> readF64Bits
  | .selectTypes => .selectT <$> readVec readValueType
  | .tryTable => (fun p => .tryTable p.1 p.2) <$> readTryTable
  | .mem make => make <$> readMemArg
  | .refType make => make <$> readHeapType
  | .brCast make => (fun c => make c.label c.src c.dst) <$> readBrCast

/-- How many lanes an instruction on one lane has to choose from. -/
def simdLaneCount (sub : ℕ) : ℕ :=
  if sub ∈ [0x15, 0x16, 0x17, 0x54, 0x58] then 16
  else if sub ∈ [0x18, 0x19, 0x1a, 0x55, 0x59] then 8
  else if sub ∈ [0x1b, 0x1c, 0x1f, 0x20, 0x56, 0x5a] then 4
  else if sub ∈ [0x1d, 0x1e, 0x21, 0x22, 0x57, 0x5b] then 2
  else 255

/-- The highest number of a vector instruction. -/
def maxSimdSub : ℕ := 0x113

/-- The numbers below it that no proposal assigns. -/
def unassignedSimd : List ℕ :=
  [0x9a, 0xa2, 0xa5, 0xa6, 0xaf, 0xb0, 0xb2, 0xb3, 0xb4, 0xbb, 0xc2, 0xc5, 0xc6, 0xcf, 0xd0, 0xd2, 0xd3, 0xd4, 0xe2,
   0xee]

/-- The highest number of an atomic instruction. -/
def maxAtomicSub : ℕ := 0x4e

/-- Read the index of a lane. -/
def readLane (sub : ℕ) : Decoding bytes ℕ := do
  let b ← readByte
  checked (ensure (decide (b.toNat < simdLaneCount sub)) .unsupportedOpcode)
  pure b.toNat

/-- Read one of the sixteen bytes of `v128.const`, or of `i8x16.shuffle`, where it is the index of a lane of two vectors. -/
def readVectorByte (sub : ℕ) : Decoding bytes UInt8 := do
  let b ← readByte
  checked (ensure (decide ¬ (sub = 0x0d ∧ 32 ≤ b.toNat)) .unsupportedOpcode)
  pure b

/-- What an access has where none is read. -/
def noMemArg : MemArg := ⟨0, 0, 0⟩

/-- Read the immediates of a vector instruction. -/
def decodeSimd (sub : ℕ) : Decoding bytes Simd :=
  if sub ≤ 0x0b ∨ sub = 0x5c ∨ sub = 0x5d then do
    let mem ← readMemArg
    pure ⟨sub, mem, 0, 0⟩
  else if 0x54 ≤ sub ∧ sub ≤ 0x5b then do
    let mem ← readMemArg
    let lane ← readLane sub
    pure ⟨sub, mem, lane, 0⟩
  else if sub = 0x0c ∨ sub = 0x0d then do
    let bs ← readMany (readVectorByte sub) 16
    pure ⟨sub, noMemArg, 0, ofBytesLe 128 bs⟩
  else if 0x15 ≤ sub ∧ sub ≤ 0x22 then do
    let lane ← readLane sub
    pure ⟨sub, noMemArg, lane, 0⟩
  else do
    checked (ensure (decide (sub ≤ maxSimdSub ∧ sub ∉ unassignedSimd)) .unsupportedOpcode)
    pure ⟨sub, noMemArg, 0, 0⟩

/-- Read the immediate of an atomic instruction. That of `atomic.fence` is a reserved byte. -/
def decodeAtomic (sub : ℕ) : Decoding bytes Atomic :=
  if sub = 0x03 then do
    let b ← readByte
    checked (ensure (decide (b = 0x00)) .malformedFlag)
    pure ⟨sub, noMemArg⟩
  else if sub ≤ 0x02 ∨ (0x10 ≤ sub ∧ sub ≤ maxAtomicSub) then do
    let mem ← readMemArg
    pure ⟨sub, mem⟩
  else failWith .unsupportedOpcode

/-- Read the immediate that a table gives. -/
def readImmediate (kind : Option ImmKind) : Decoding bytes Instr := do
  let k ← checked (orError .unsupportedOpcode kind)
  k.read

/-- Decode an instruction. -/
def decodeInstr : Decoding bytes Instr := do
  let b ← readByte
  if b = 0xfb then do
    let sub ← readU32
    readImmediate (gcKind sub)
  else if b = 0xfc then do
    let sub ← readU32
    readImmediate (bulkKind sub)
  else if b = 0xfd then do
    let sub ← readU32
    .simd <$> decodeSimd sub
  else if b = 0xfe then do
    let sub ← readU32
    .atomic <$> decodeAtomic sub
  else readImmediate (immediateKind b)

/-- One round of the decoder of expressions, with the depth and the instructions so far. Only opcodes of one byte change the
depth. -/
def exprStep (s : ℕ × List Instr) : Decoding bytes ((ℕ × List Instr) ⊕ List Instr) :=
  if s.1 = 0 then pure (.inr s.2)
  else do
    let r ← cursor
    checked (ensure (!r.atEnd) .missingEnd)
    let i ← decodeInstr
    let depth ← checked (orError .unbalancedEnd (controlDepth s.1 i))
    pure (.inl (depth, s.2 ++ [i]))

/-- Decode an expression, up to the `end` that closes it. -/
def decodeExpr : Decoding bytes (List Instr) := loopM Reader.rest none exprStep (1, [])

/-- Decode a body: the whole of it is one expression. -/
def decodeBody (body : List UInt8) : Except (Option DecodeError) (List Instr) :=
  match decodeExpr (Reader.new body) with
  | .ok (ir, r) => if r.atEnd then .ok ir else .error (some .unbalancedEnd)
  | .error e => .error e

/-! ## The bytes of an instruction -/

/-- The bytes of an immediate of a kind, with the instruction it makes. -/
def ImmKind.Spells : ImmKind → Instr → List UInt8 → Prop
  | .none i => fun x w => x = i ∧ w = []
  | .blockType make => fun x w => ∃ bt, x = make bt ∧ BlockTypeBytes bt w
  | .index make => fun x w => ∃ n, x = make n ∧ IndexBytes n w
  | .indices make => fun x w => ∃ n m, x = make n m ∧ IndicesBytes n m w
  | .brTable => fun x w => ∃ p, x = .brTable p.1 p.2 ∧ BrTableBytes p w
  | .i32c => fun x w => ∃ n, x = .i32Const n ∧ Encodes true 32 w n.toInt
  | .i64c => fun x w => ∃ n, x = .i64Const n ∧ Encodes true 64 w n.toInt
  | .f32c => fun x w => x = .f32Const (ofBytesLe 32 w) ∧ w.length = 4
  | .f64c => fun x w => x = .f64Const (ofBytesLe 64 w) ∧ w.length = 8
  | .selectTypes => fun x w => ∃ ts, x = .selectT ts ∧ VecBytes ValueTypeBytes ts w
  | .tryTable => fun x w => ∃ p, x = .tryTable p.1 p.2 ∧ TryTableBytes p w
  | .mem make => fun x w => ∃ m, x = make m ∧ MemArgBytes m w
  | .refType make => fun x w => ∃ ht, x = make ht ∧ HeapTypeBytes ht w
  | .brCast make => fun x w => ∃ c, x = make c.label c.src c.dst ∧ CastBytes c w

/-- The bytes of the immediates of a vector instruction. -/
inductive SimdBytes (sub : ℕ) : Simd → List UInt8 → Prop
  | access {m w} : sub ≤ 0x0b ∨ sub = 0x5c ∨ sub = 0x5d → MemArgBytes m w → SimdBytes sub ⟨sub, m, 0, 0⟩ w
  | laneAccess {m w} {b : UInt8} : 0x54 ≤ sub ∧ sub ≤ 0x5b → MemArgBytes m w → b.toNat < simdLaneCount sub →
      SimdBytes sub ⟨sub, m, b.toNat, 0⟩ (w ++ [b])
  | vector {bs : List UInt8} : sub = 0x0c ∨ sub = 0x0d → bs.length = 16 → (sub = 0x0d → ∀ b ∈ bs, b.toNat < 32) →
      SimdBytes sub ⟨sub, noMemArg, 0, ofBytesLe 128 bs⟩ bs
  | lane {b : UInt8} : 0x15 ≤ sub ∧ sub ≤ 0x22 → b.toNat < simdLaneCount sub →
      SimdBytes sub ⟨sub, noMemArg, b.toNat, 0⟩ [b]
  | plain : (0x0e ≤ sub ∧ sub ≤ 0x14) ∨ (0x23 ≤ sub ∧ sub ≤ 0x53) ∨ 0x5e ≤ sub → sub ≤ maxSimdSub →
      sub ∉ unassignedSimd → SimdBytes sub ⟨sub, noMemArg, 0, 0⟩ []

/-- The bytes of the immediate of an atomic instruction. -/
inductive AtomicBytes (sub : ℕ) : Atomic → List UInt8 → Prop
  | fence : sub = 0x03 → AtomicBytes sub ⟨sub, noMemArg⟩ [0x00]
  | access {m w} : sub ≤ 0x02 ∨ (0x10 ≤ sub ∧ sub ≤ maxAtomicSub) → MemArgBytes m w → AtomicBytes sub ⟨sub, m⟩ w

/-- The bytes of an instruction. -/
inductive InstrBytes : Instr → List UInt8 → Prop
  | byte {b k i w} : immediateKind b = some k → k.Spells i w → InstrBytes i (b :: w)
  | gc {sub k i w w'} : IndexBytes sub w → gcKind sub = some k → k.Spells i w' → InstrBytes i (0xfb :: (w ++ w'))
  | bulk {sub k i w w'} : IndexBytes sub w → bulkKind sub = some k → k.Spells i w' → InstrBytes i (0xfc :: (w ++ w'))
  | simd {sub s w w'} : IndexBytes sub w → SimdBytes sub s w' → InstrBytes (.simd s) (0xfd :: (w ++ w'))
  | atomic {sub a w w'} : IndexBytes sub w → AtomicBytes sub a w' → InstrBytes (.atomic a) (0xfe :: (w ++ w'))

theorem InstrBytes.ne_nil {i : Instr} {w : List UInt8} (h : InstrBytes i w) : w ≠ [] := by
  rcases h with _ | _ | _ | _ | _ <;> exact List.cons_ne_nil _ _

/-- The bytes of an expression: instructions that close what they open, and the `end` of the expression. -/
def ExprBytes (ir : List Instr) (w : List UInt8) : Prop := Words InstrBytes ir w ∧ endsAtDepth 1 ir = true

/-! ## What the readers read -/

theorem reads_readBytes (n : ℕ) : ReadsAs (@readBytes bytes n) fun bs w => w = bs ∧ bs.length = n := exact_readBytes n

theorem reads_map_readBytes {α : Type} {n : ℕ} (f : List UInt8 → α) :
    ReadsAs (f <$> @readBytes bytes n) fun x w => x = f w ∧ w.length = n := by
  refine (reads_readBytes n).map.congr fun x w => ?_
  constructor
  · rintro ⟨bs, rfl, rfl, h⟩
    exact ⟨rfl, h⟩
  · rintro ⟨rfl, h⟩
    exact ⟨w, rfl, rfl, h⟩

theorem ImmKind.reads_read (k : ImmKind) : ReadsAs (@ImmKind.read bytes k) k.Spells := by
  cases k with
  | none i => exact .pure i
  | blockType make => exact reads_readBlockType.map
  | index make => exact reads_readU32.map
  | indices make => exact reads_indices
  | brTable => exact reads_readBrTable.map
  | i32c => exact Consumes.map exact_readVarI32
  | i64c => exact Consumes.map exact_readVarI64
  | f32c =>
    rw [ImmKind.read, readF32Bits, ← comp_map]
    exact reads_map_readBytes _
  | f64c =>
    rw [ImmKind.read, readF64Bits, ← comp_map]
    exact reads_map_readBytes _
  | selectTypes =>
    refine (reads_readVec reads_readValueType ?_).map
    rintro _ _ ⟨⟩
    exact List.cons_ne_nil _ _
  | tryTable => exact reads_readTryTable.map
  | mem make => exact reads_readMemArg.map
  | refType make => exact reads_readHeapType.map
  | brCast make => exact reads_readBrCast.map

theorem reads_readLane (sub : ℕ) : ReadsAs (@readLane bytes sub) fun lane w =>
    ∃ b : UInt8, lane = b.toNat ∧ w = [b] ∧ b.toNat < simdLaneCount sub := by
  refine (reads_readByte.bind fun b => reads_ensure fun _ => .pure b.toNat).congr fun lane w => ?_
  constructor
  · rintro ⟨b, w₁, w₂, rfl, rfl, hlane, rfl, rfl⟩
    exact ⟨b, rfl, rfl, of_decide_eq_true hlane⟩
  · rintro ⟨b, rfl, rfl, hlane⟩
    exact ⟨b, [b], [], rfl, rfl, decide_eq_true hlane, rfl, rfl⟩

theorem reads_readVectorByte (sub : ℕ) : ReadsAs (@readVectorByte bytes sub) fun b w =>
    w = [b] ∧ (sub = 0x0d → b.toNat < 32) := by
  refine (reads_readByte.bind fun b => reads_ensure fun _ => .pure b).congr fun b w => ?_
  constructor
  · rintro ⟨b, w₁, w₂, rfl, rfl, hb, rfl, rfl⟩
    have hlane := of_decide_eq_true hb
    exact ⟨rfl, fun hsub => by simpa [hsub] using hlane⟩
  · rintro ⟨rfl, hb⟩
    exact ⟨b, [b], [], rfl, rfl, decide_eq_true fun h => Nat.not_le.mpr (hb h.1) h.2, rfl, rfl⟩

/-- One word of one byte for each entry of a list of bytes. -/
theorem words_bytes {P : UInt8 → Prop} {bs w : List UInt8} :
    Words (fun b w => w = [b] ∧ P b) bs w ↔ w = bs ∧ ∀ b ∈ bs, P b := by
  induction bs generalizing w with
  | nil => simp [Words.nil_iff]
  | cons b bs ih =>
    rw [Words.cons_iff, List.forall_mem_cons]
    constructor
    · rintro ⟨_, _, rfl, ⟨rfl, hb⟩, h⟩
      obtain ⟨rfl, hbs⟩ := ih.mp h
      exact ⟨rfl, hb, hbs⟩
    · rintro ⟨rfl, hb, hbs⟩
      exact ⟨[b], bs, rfl, ⟨rfl, hb⟩, ih.mpr ⟨rfl, hbs⟩⟩

theorem reads_decodeSimd (sub : ℕ) : ReadsAs (@decodeSimd bytes sub) (SimdBytes sub) := by
  rw [decodeSimd]
  by_cases haccess : sub ≤ 0x0b ∨ sub = 0x5c ∨ sub = 0x5d
  · rw [if_pos haccess]
    refine reads_readMemArg.bind_pure.congr fun s w => ?_
    constructor
    · rintro ⟨m, rfl, hm⟩
      exact .access haccess hm
    · rintro (⟨-, hm⟩ | h | h | h | h)
      · exact ⟨_, rfl, hm⟩
      all_goals omega
  rw [if_neg haccess]
  by_cases hlaneAccess : 0x54 ≤ sub ∧ sub ≤ 0x5b
  · rw [if_pos hlaneAccess]
    refine (reads_readMemArg.bind fun m => (reads_readLane sub).bind_pure).congr fun s w => ?_
    constructor
    · rintro ⟨m, w₁, w₂, rfl, hm, _, rfl, b, rfl, rfl, hb⟩
      exact .laneAccess hlaneAccess hm hb
    · rintro (h | ⟨-, hm, hb⟩ | h | h | h)
      · exact absurd h haccess
      · exact ⟨_, _, _, rfl, hm, _, rfl, _, rfl, rfl, hb⟩
      all_goals omega
  rw [if_neg hlaneAccess]
  by_cases hvector : sub = 0x0c ∨ sub = 0x0d
  · rw [if_pos hvector]
    refine (reads_readMany (reads_readVectorByte sub) 16).bind_pure.congr fun s w => ?_
    constructor
    · rintro ⟨bs, rfl, hlength, hw⟩
      obtain ⟨rfl, hbs⟩ := words_bytes.mp hw
      exact .vector hvector hlength fun hsub b hb => hbs b hb hsub
    · rintro (h | h | ⟨-, hlength, hbs⟩ | h | h)
      · exact absurd h haccess
      · exact absurd h hlaneAccess
      · exact ⟨w, rfl, hlength, words_bytes.mpr ⟨rfl, fun b hb hsub => hbs hsub b hb⟩⟩
      all_goals omega
  rw [if_neg hvector]
  by_cases hlane : 0x15 ≤ sub ∧ sub ≤ 0x22
  · rw [if_pos hlane]
    refine (reads_readLane sub).bind_pure.congr fun s w => ?_
    constructor
    · rintro ⟨_, rfl, b, rfl, rfl, hb⟩
      exact .lane hlane hb
    · rintro (h | h | h | ⟨-, hb⟩ | h)
      · exact absurd h haccess
      · exact absurd h hlaneAccess
      · exact absurd h hvector
      · exact ⟨_, rfl, _, rfl, rfl, hb⟩
      · omega
  · -- what is left has no immediate
    rw [if_neg hlane]
    refine (reads_ensure fun _ => .pure _).congr fun s w => ?_
    rw [decide_eq_true_iff]
    constructor
    · rintro ⟨⟨hmax, hassigned⟩, rfl, rfl⟩
      exact .plain (by omega) hmax hassigned
    · rintro (h | h | h | h | ⟨-, hmax, hassigned⟩)
      · exact absurd h haccess
      · exact absurd h hlaneAccess
      · exact absurd h hvector
      · exact absurd h hlane
      · exact ⟨⟨hmax, hassigned⟩, rfl, rfl⟩

theorem reads_decodeAtomic (sub : ℕ) : ReadsAs (@decodeAtomic bytes sub) (AtomicBytes sub) := by
  rw [decodeAtomic]
  by_cases hfence : sub = 0x03
  · rw [if_pos hfence]
    refine (reads_readByte.bind fun b => reads_ensure fun _ => .pure _).congr fun a w => ?_
    constructor
    · rintro ⟨b, w₁, w₂, rfl, rfl, hb, rfl, rfl⟩
      obtain rfl := of_decide_eq_true hb
      exact .fence hfence
    · rintro (_ | ⟨h, -⟩)
      · exact ⟨0x00, [0x00], [], rfl, rfl, rfl, rfl, rfl⟩
      · omega
  · rw [if_neg hfence]
    by_cases haccess : sub ≤ 0x02 ∨ (0x10 ≤ sub ∧ sub ≤ maxAtomicSub)
    · rw [if_pos haccess]
      refine reads_readMemArg.bind_pure.congr fun a w => ?_
      constructor
      · rintro ⟨m, rfl, hm⟩
        exact .access haccess hm
      · rintro (h | ⟨-, hm⟩)
        · exact absurd h hfence
        · exact ⟨_, rfl, hm⟩
    · rw [if_neg haccess]
      refine (reads_failWith _).congr fun a w => iff_of_false not_false ?_
      rintro (h | ⟨h, -⟩)
      · exact hfence h
      · exact haccess h

theorem reads_readImmediate (kind : Option ImmKind) :
    ReadsAs (@readImmediate bytes kind) fun i w => ∃ k, kind = some k ∧ k.Spells i w := by
  refine ((reads_checked _).bind fun k => k.reads_read).congr fun i w => ?_
  constructor
  · rintro ⟨k, w₁, w₂, rfl, ⟨rfl, hk⟩, hi⟩
    exact ⟨k, orError_eq_ok.mp hk, hi⟩
  · rintro ⟨k, hk, hi⟩
    exact ⟨k, [], w, rfl, ⟨rfl, orError_eq_ok.mpr hk⟩, hi⟩

/-- A prefix, a number after it, and what the number says. -/
theorem reads_prefixed {α : Type} {p : ℕ → Decoding bytes α} {L : ℕ → α → List UInt8 → Prop}
    (hp : ∀ sub, ReadsAs (p sub) (L sub)) (f : α → Instr) :
    ReadsAs (readU32 >>= fun sub => f <$> p sub) fun i w =>
      ∃ sub x w₁ w₂, w = w₁ ++ w₂ ∧ i = f x ∧ IndexBytes sub w₁ ∧ L sub x w₂ := by
  refine (reads_readU32.bind fun sub => (hp sub).map).congr fun i w => ?_
  constructor
  · rintro ⟨sub, w₁, w₂, rfl, hsub, x, rfl, hx⟩
    exact ⟨sub, x, w₁, w₂, rfl, rfl, hsub, hx⟩
  · rintro ⟨sub, x, w₁, w₂, rfl, rfl, hsub, hx⟩
    exact ⟨sub, w₁, w₂, rfl, hsub, x, rfl, hx⟩

/-- The prefixes are not opcodes of one byte. -/
theorem immediateKind_prefix {b : UInt8} {k : ImmKind} (h : immediateKind b = some k) :
    b ≠ 0xfb ∧ b ≠ 0xfc ∧ b ≠ 0xfd ∧ b ≠ 0xfe := by
  refine ⟨?_, ?_, ?_, ?_⟩ <;> rintro rfl <;> cases h

theorem reads_decodeInstr : ReadsAs (@decodeInstr bytes) InstrBytes := by
  -- after the first byte, one relation for each prefix and one for the opcodes of one byte
  refine (reads_readByte.bind fun b => .ite (reads_readU32.bind fun sub => reads_readImmediate (gcKind sub))
    (.ite (reads_readU32.bind fun sub => reads_readImmediate (bulkKind sub))
      (.ite (reads_prefixed reads_decodeSimd .simd)
        (.ite (reads_prefixed reads_decodeAtomic .atomic) (reads_readImmediate (immediateKind b)))))).congr fun i w => ?_
  constructor
  · rintro ⟨b, w₁, w, rfl, rfl, h⟩
    rw [List.singleton_append]
    split_ifs at h with hgc hbulk hsimd hatomic
    · obtain ⟨sub, w₁, w₂, rfl, hsub, k, hk, hi⟩ := h
      exact hgc ▸ .gc hsub hk hi
    · obtain ⟨sub, w₁, w₂, rfl, hsub, k, hk, hi⟩ := h
      exact hbulk ▸ .bulk hsub hk hi
    · obtain ⟨sub, x, w₁, w₂, rfl, rfl, hsub, hx⟩ := h
      exact hsimd ▸ .simd hsub hx
    · obtain ⟨sub, x, w₁, w₂, rfl, rfl, hsub, hx⟩ := h
      exact hatomic ▸ .atomic hsub hx
    · obtain ⟨k, hk, hi⟩ := h
      exact .byte hk hi
  · rintro (⟨hk, hi⟩ | ⟨hsub, hk, hi⟩ | ⟨hsub, hk, hi⟩ | ⟨hsub, hx⟩ | ⟨hsub, hx⟩)
    · obtain ⟨hgc, hbulk, hsimd, hatomic⟩ := immediateKind_prefix hk
      refine ⟨_, [_], _, rfl, rfl, ?_⟩
      beta_reduce
      rw [if_neg hgc, if_neg hbulk, if_neg hsimd, if_neg hatomic]
      exact ⟨_, hk, hi⟩
    · exact ⟨0xfb, [0xfb], _, rfl, rfl, _, _, _, rfl, hsub, _, hk, hi⟩
    · exact ⟨0xfc, [0xfc], _, rfl, rfl, _, _, _, rfl, hsub, _, hk, hi⟩
    · exact ⟨0xfd, [0xfd], _, rfl, rfl, _, _, _, _, rfl, rfl, hsub, hx⟩
    · exact ⟨0xfe, [0xfe], _, rfl, rfl, _, _, _, _, rfl, rfl, hsub, hx⟩

/-! ## Expressions -/

/-- What a round reads: nothing at the end, and an instruction before. -/
def StepBytes (s : ℕ × List Instr) (x : (ℕ × List Instr) ⊕ List Instr) (w : List UInt8) : Prop :=
  (s.1 = 0 ∧ x = .inr s.2 ∧ w = []) ∨
    s.1 ≠ 0 ∧ ∃ i depth, x = .inl (depth, s.2 ++ [i]) ∧ InstrBytes i w ∧ controlDepth s.1 i = some depth

theorem exact_exprStep (s : ℕ × List Instr) : ReadsAs (@exprStep bytes s) (StepBytes s) := by
  rw [exprStep]
  by_cases hzero : s.1 = 0
  · rw [if_pos hzero]
    refine (Consumes.pure _).congr fun x w => ?_
    constructor
    · rintro ⟨rfl, rfl⟩
      exact .inl ⟨hzero, rfl, rfl⟩
    · rintro (⟨-, rfl, rfl⟩ | ⟨hne, -⟩)
      · exact ⟨rfl, rfl⟩
      · exact absurd hzero hne
  · rw [if_neg hzero]
    intro r
    have hrest := @reads_ensure bytes _ (!r.atEnd) .missingEnd _ _ fun _ => reads_decodeInstr.bind
      fun i => (reads_checked (orError .unbalancedEnd (controlDepth s.1 i))).bind_pure
        (f := fun depth => Sum.inl (β := List Instr) (depth, s.2 ++ [i]))
    refine (exactAt_cursor (hrest r)).congr fun x w t hinput => ?_
    constructor
    · rintro ⟨-, i, w₁, w₂, rfl, hi, depth, rfl, rfl, hdepth⟩
      rw [List.append_nil]
      exact .inr ⟨hzero, i, depth, rfl, hi, orError_eq_ok.mp hdepth⟩
    · rintro (⟨heq, -⟩ | ⟨-, i, depth, rfl, hi, hdepth⟩)
      · exact absurd heq hzero
      · -- an instruction takes up some room, so that the check before it passes
        have hmore : (!r.atEnd) = true := by
          rw [Bool.not_eq_true', Bool.eq_false_iff, ne_eq, Reader.atEnd_iff, hinput]
          exact List.append_ne_nil_of_left_ne_nil hi.ne_nil t
        exact ⟨hmore, i, w, [], (List.append_nil w).symm, hi, depth, rfl, rfl, orError_eq_ok.mpr hdepth⟩

theorem StepBytes.ne_nil {s s' : ℕ × List Instr} {w : List UInt8} (h : StepBytes s (.inl s') w) : w ≠ [] := by
  rcases h with ⟨-, ⟨⟩, -⟩ | ⟨-, i, depth, -, hi, -⟩
  exact hi.ne_nil

/-- What the rest of an expression reads. -/
def RestBytes (s : ℕ × List Instr) (ir : List Instr) (w : List UInt8) : Prop :=
  ∃ ir', ir = s.2 ++ ir' ∧ Words InstrBytes ir' w ∧ endsAtDepth s.1 ir' = true

/-- The rest of an expression is nothing, or an instruction and the rest after it. -/
theorem restBytes_unroll (s : ℕ × List Instr) (ir : List Instr) (w : List UInt8) :
    RestBytes s ir w ↔ StepBytes s (.inr ir) w ∨
      ∃ s' w₁ w₂, w = w₁ ++ w₂ ∧ StepBytes s (.inl s') w₁ ∧ RestBytes s' ir w₂ := by
  obtain ⟨depth, acc⟩ := s
  constructor
  · rintro ⟨ir', rfl, hw, hends⟩
    cases depth with
    | zero =>
      change endsAtDepth 0 ir' = true at hends
      rw [endsAtDepth, List.isEmpty_iff] at hends
      obtain rfl := hends
      exact .inl (.inl ⟨rfl, by rw [List.append_nil], Words.nil_iff.mp hw⟩)
    | succ depth =>
      rcases hw with _ | ⟨hi, hw⟩
      · cases hends
      · obtain ⟨depth', hdepth, hends⟩ := (Option.any_eq_true _ _).mp hends
        exact .inr ⟨_, _, _, rfl, .inr ⟨Nat.succ_ne_zero _, _, depth', rfl, hi, hdepth⟩, _,
          (List.append_assoc acc [_] _).symm, hw, hends⟩
  · rintro ((⟨rfl, heq, rfl⟩ | ⟨-, _, _, ⟨⟩, -⟩) | ⟨s', w₁, w₂, rfl, ⟨-, ⟨⟩, -⟩ | ⟨hne, i, depth', heq, hi, hdepth⟩, h⟩)
    · obtain rfl := Sum.inr.inj heq
      exact ⟨[], (List.append_nil _).symm, .nil, rfl⟩
    · obtain rfl := Sum.inl.inj heq
      obtain ⟨ir', rfl, hw, hends⟩ := h
      obtain ⟨depth, rfl⟩ := Nat.exists_eq_succ_of_ne_zero hne
      refine ⟨i :: ir', List.append_assoc acc [i] ir', .cons hi hw, ?_⟩
      exact (Option.any_eq_true _ _).mpr ⟨depth', hdepth, hends⟩

theorem reads_decodeExpr : ReadsAs (@decodeExpr bytes) ExprBytes := by
  refine Consumes.congr (exact_loopM_of_unroll exact_exprStep (fun _ _ _ _ => StepBytes.ne_nil)
    (fun s ir w _ => restBytes_unroll s ir w) (1, [])) fun ir w => ?_
  constructor
  · rintro ⟨ir', rfl, h⟩
    exact h
  · intro h
    exact ⟨ir, rfl, h⟩

/-- Expressions are not empty. -/
theorem ExprBytes.ne_nil {ir : List Instr} {w : List UInt8} (h : ExprBytes ir w) : w ≠ [] := by
  obtain ⟨hw, hends⟩ := h
  rcases hw with _ | ⟨hi, -⟩
  · cases hends
  · exact List.append_ne_nil_of_left_ne_nil hi.ne_nil _

/-- A body decodes to an expression just in case it is the bytes of one. -/
theorem decodeBody_eq_ok {body : List UInt8} {ir : List Instr} : decodeBody body = .ok ir ↔ ExprBytes ir body := by
  have hexact := reads_decodeExpr (Reader.new body)
  constructor
  · intro h
    rw [decodeBody] at h
    split at h
    · next ir' r hok =>
      split_ifs at h with hend
      cases h
      obtain ⟨w, hinput, hir⟩ := hexact.sound _ _ hok
      rw [Reader.rest_new, Reader.atEnd_iff.mp hend, List.append_nil] at hinput
      rwa [hinput]
    · cases h
  · intro h
    obtain ⟨r, hok, hrest⟩ := hexact.complete ir body [] (by rw [Reader.rest_new, List.append_nil]) h
    rw [decodeBody, hok]
    exact if_pos (Reader.atEnd_iff.mpr hrest)

theorem decodeBody_ne_none (body : List UInt8) : decodeBody body ≠ .error none := by
  intro h
  rw [decodeBody] at h
  split at h
  · split_ifs at h
    cases h
  · next e hfail =>
    cases h
    exact (reads_decodeExpr _).ends hfail

/-- The decoder of expressions, from any place in any bytes: it returns an expression just in case the bytes there begin with
the bytes of one, and stops right behind them, whatever follows; no other beginning of the same bytes is an expression; and
where there is none it fails, with an error of the source. A body decodes just in case the whole of it is an expression. -/
theorem decodeExpr_exact (bytes : List UInt8) (r : Reader bytes) :
    (∀ ir w t, r.rest = w ++ t → ExprBytes ir w →
      ∃ r', decodeExpr r = .ok (ir, r') ∧ r'.rest = t ∧ r'.pos = r.pos + w.length) ∧
    (∀ ir r', decodeExpr r = .ok (ir, r') → ∃ w, r.rest = w ++ r'.rest ∧ r'.pos = r.pos + w.length ∧ ExprBytes ir w) ∧
    (∀ ir ir' w w' t t', r.rest = w ++ t → ExprBytes ir w → r.rest = w' ++ t' → ExprBytes ir' w' →
      ir = ir' ∧ w = w') ∧
    decodeExpr r ≠ .error none ∧
    (∀ ir, decodeBody bytes = .ok ir ↔ ExprBytes ir bytes) ∧ decodeBody bytes ≠ .error none := by
  have hexact : ReadsAs (@decodeExpr bytes) ExprBytes := reads_decodeExpr
  refine ⟨?_, ?_, ?_, (hexact r).ends, fun ir => decodeBody_eq_ok, decodeBody_ne_none bytes⟩
  · intro ir w t hinput hir
    obtain ⟨r', hok, rfl⟩ := (hexact r).complete ir w t hinput hir
    exact ⟨r', hok, rfl, Reader.pos_eq_of_rest hinput⟩
  · intro ir r' hok
    obtain ⟨w, hinput, hir⟩ := (hexact r).sound ir r' hok
    exact ⟨w, hinput, Reader.pos_eq_of_rest hinput, hir⟩
  · intro ir ir' w w' t t' hinput hir hinput' hir'
    obtain ⟨rfl, rfl, -⟩ := hexact.prefix_unique hinput hir hinput' hir'
    exact ⟨rfl, rfl⟩

end Wasmrt
