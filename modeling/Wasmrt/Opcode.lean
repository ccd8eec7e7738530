import Wasmrt.Types

/-!
# Instructions

The instruction set of `opcode.rs` after decoding. The source keeps an opcode and its immediate side
by side; here each instruction carries its own immediate, so that an opcode with an immediate of
another shape cannot be written. Numeric instructions are grouped by signature.

Byte offsets, which only trap backtraces read, are left out.

## Main definitions

* `HeapType`, `RefType`, `BlockType`: the type immediates.
* `Instr`: a decoded instruction.
-/

namespace Wasmrt

/-- A GC heap type: an abstract head, a concrete type index, or an exact one. -/
inductive HeapType
  | func | external | any | eq | i31 | struct | array | none | noFunc | noExternal | exn | noExn
  | concrete (ti : ℕ)
  | exact (ti : ℕ)
  deriving DecidableEq, Repr

/-- A reference type: a heap type and its nullability. -/
structure RefType where
  nullable : Bool
  heap : HeapType
  deriving DecidableEq, Repr

/-- A block signature. A concrete result stays unresolved until the validator, which holds the type
section, maps its index to a family. -/
inductive BlockType
  | empty
  | value (v : ValType)
  | typeIndex (ti : ℕ)
  | concreteRef (nullable : Bool) (ti : ℕ)
  | exactRef (nullable : Bool) (ti : ℕ)
  deriving DecidableEq, Repr

/-- A load or store immediate. -/
structure MemArg where
  alignment : ℕ
  offset : ℕ
  memory : ℕ
  deriving DecidableEq, Repr

/-- The four `try_table` clause kinds. -/
inductive CatchKind
  | catchTag | catchRef | catchAll | catchAllRef
  deriving DecidableEq, Repr

/-- A `try_table` clause. -/
structure Catch where
  kind : CatchKind
  tag : ℕ
  label : ℕ
  deriving DecidableEq, Repr

/-- A `0xFD` instruction: its sub-opcode and every immediate a member of the family may carry. -/
structure Simd where
  sub : ℕ
  mem : MemArg
  lane : ℕ
  bytes : BitVec 128
  deriving DecidableEq, Repr

/-- A `0xFE` instruction. -/
structure Atomic where
  sub : ℕ
  mem : MemArg
  deriving DecidableEq, Repr

/-- The width of an integer or float instruction. -/
inductive Width
  | w32 | w64
  deriving DecidableEq, Repr

/-- The integer type of a width. -/
def Width.int : Width → ValType
  | w32 => .i32
  | w64 => .i64

/-- The float type of a width. -/
def Width.float : Width → ValType
  | w32 => .f32
  | w64 => .f64

/-- Integer comparisons. -/
inductive IRelOp
  | eq | ne | ltS | ltU | gtS | gtU | leS | leU | geS | geU
  deriving DecidableEq, Repr

/-- Unary integer operations. -/
inductive IUnOp
  | clz | ctz | popcnt | extend8S | extend16S
  deriving DecidableEq, Repr

/-- Binary integer operations. -/
inductive IBinOp
  | add | sub | mul | divS | divU | remS | remU | and | or | xor | shl | shrS | shrU | rotl | rotr
  deriving DecidableEq, Repr

/-- Float comparisons. -/
inductive FRelOp
  | eq | ne | lt | gt | le | ge
  deriving DecidableEq, Repr

/-- Unary float operations. -/
inductive FUnOp
  | abs | neg | ceil | floor | trunc | nearest | sqrt
  deriving DecidableEq, Repr

/-- Binary float operations. -/
inductive FBinOp
  | add | sub | mul | div | min | max | copysign
  deriving DecidableEq, Repr

/-- Conversions, the saturating truncations among them. -/
inductive CvtOp
  | i32WrapI64 | i64ExtendI32S | i64ExtendI32U | i64Extend32S
  | trunc (float int : Width) (signed : Bool)
  | truncSat (float int : Width) (signed : Bool)
  | convert (int float : Width) (signed : Bool)
  | f32DemoteF64 | f64PromoteF32
  | reinterpretFloat (w : Width)
  | reinterpretInt (w : Width)
  deriving DecidableEq, Repr

/-- Scalar loads. -/
inductive LoadOp
  | i32 | i64 | f32 | f64
  | i32Load8 (signed : Bool) | i32Load16 (signed : Bool)
  | i64Load8 (signed : Bool) | i64Load16 (signed : Bool) | i64Load32 (signed : Bool)
  deriving DecidableEq, Repr

/-- Scalar stores. -/
inductive StoreOp
  | i32 | i64 | f32 | f64 | i32Store8 | i32Store16 | i64Store8 | i64Store16 | i64Store32
  deriving DecidableEq, Repr

/-- The four wide-arithmetic instructions, each returning two `i64` halves. -/
inductive WideOp
  | add128 | sub128 | mulWideS | mulWideU
  deriving DecidableEq, Repr

/-- How a packed field is widened when it is read: not at all, signed, or unsigned. -/
inductive Extension
  | plain | signed | unsigned
  deriving DecidableEq, Repr

/-- A decoded instruction with its immediate. -/
inductive Instr
  -- control
  | unreachable | nop
  | block (bt : BlockType) | loop (bt : BlockType) | if_ (bt : BlockType) | else_
  | tryLegacy (bt : BlockType) | catchLegacy (tag : ℕ) | catchAll | delegate (label : ℕ)
  | throw (tag : ℕ) | rethrow (label : ℕ) | throwRef
  | tryTable (bt : BlockType) (catches : List Catch)
  | end_
  | br (label : ℕ) | brIf (label : ℕ) | brTable (labels : List ℕ) (default : ℕ) | return_
  | call (func : ℕ) | callIndirect (typeIndex table : ℕ)
  | returnCall (func : ℕ) | returnCallIndirect (typeIndex table : ℕ)
  | callRef (ti : ℕ) | returnCallRef (ti : ℕ)
  -- parametric and variable
  | drop | select | selectT (types : List BlockType)
  | localGet (x : ℕ) | localSet (x : ℕ) | localTee (x : ℕ)
  | globalGet (x : ℕ) | globalSet (x : ℕ)
  -- tables
  | tableGet (x : ℕ) | tableSet (x : ℕ) | tableInit (elem table : ℕ) | elemDrop (elem : ℕ)
  | tableCopy (dst src : ℕ) | tableGrow (x : ℕ) | tableSize (x : ℕ) | tableFill (x : ℕ)
  -- memories
  | load (op : LoadOp) (mem : MemArg) | store (op : StoreOp) (mem : MemArg)
  | memorySize (mem : ℕ) | memoryGrow (mem : ℕ) | memoryInit (data mem : ℕ) | dataDrop (data : ℕ)
  | memoryCopy (dst src : ℕ) | memoryFill (mem : ℕ)
  -- numeric
  | i32Const (n : BitVec 32) | i64Const (n : BitVec 64)
  | f32Const (bits : BitVec 32) | f64Const (bits : BitVec 64)
  | iEqz (w : Width) | iRel (w : Width) (op : IRelOp) | iUn (w : Width) (op : IUnOp)
  | iBin (w : Width) (op : IBinOp)
  | fRel (w : Width) (op : FRelOp) | fUn (w : Width) (op : FUnOp) | fBin (w : Width) (op : FBinOp)
  | cvt (op : CvtOp) | wide (op : WideOp)
  | simd (s : Simd) | atomic (a : Atomic)
  -- references
  | refNull (ht : HeapType) | refIsNull | refFunc (func : ℕ) | refEq | refAsNonNull
  | brOnNull (label : ℕ) | brOnNonNull (label : ℕ)
  | refTest (rt : RefType) | refCast (rt : RefType)
  | brOnCast (label : ℕ) (src dst : RefType) | brOnCastFail (label : ℕ) (src dst : RefType)
  | refI31 | i31Get (signed : Bool)
  | anyConvertExtern | externConvertAny
  -- structs and arrays
  | structNew (ti : ℕ) | structNewDefault (ti : ℕ)
  | structGet (ext : Extension) (ti field : ℕ) | structSet (ti field : ℕ)
  | arrayNew (ti : ℕ) | arrayNewDefault (ti : ℕ) | arrayNewFixed (ti n : ℕ)
  | arrayNewData (ti seg : ℕ) | arrayNewElem (ti seg : ℕ)
  | arrayGet (ext : Extension) (ti : ℕ) | arraySet (ti : ℕ) | arrayLen
  | arrayFill (ti : ℕ) | arrayCopy (dst src : ℕ)
  | arrayInitData (ti seg : ℕ) | arrayInitElem (ti seg : ℕ)
  -- custom descriptors
  | structNewDesc (ti : ℕ) | structNewDefaultDesc (ti : ℕ) | refGetDesc (ti : ℕ)
  | refCastDescEq (rt : RefType)
  | brOnCastDescEq (label : ℕ) (src dst : RefType)
  | brOnCastDescEqFail (label : ℕ) (src dst : RefType)
  deriving DecidableEq, Repr

end Wasmrt
