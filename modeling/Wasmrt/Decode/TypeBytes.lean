import Wasmrt.Decode.Leb128
import Wasmrt.Decode.TypeSection

/-!
# The bytes of types

The readers of `module.rs` and `opcode.rs` for heap types, value types and the type section. A value type is read as the
binary spells it, and then resolved against the kinds of the types of the section.

## Main definitions

* `readHeapType`, `readRawValType`, `Binary.readValType`: the types of values.
* `Binary.decodeSubType`, `Binary.decodeRecGroup`, `Binary.decodeTypeSection`: the type section.
* `scanSubType`, `scanRecGroup`, `prescanTypeKinds`: the pass before, which records the kinds alone.
-/

namespace Wasmrt

variable {bytes : List UInt8}

/-! ## Numbers and vectors -/

/-- Read a `u32` that counts or points at something. -/
def readU32 : Decoding bytes ℕ := BitVec.toNat <$> readVarU32

/-- Read the length of a vector: every entry takes a byte, so that it is no more than the bytes left. -/
def readVecLen : Decoding bytes ℕ := do
  let n ← readU32
  let r ← cursor
  checked (ensure (decide (n ≤ r.remaining)) .unexpectedEof)
  pure n

/-- Read something `n` times over. -/
def readMany {α : Type} (p : Decoding bytes α) : ℕ → Decoding bytes (List α)
  | 0 => pure []
  | n + 1 => do
    let a ← p
    let as ← readMany p n
    pure (a :: as)

/-- Take a step `n` times. -/
def times {σ : Type} (step : σ → Decoding bytes σ) : ℕ → σ → Decoding bytes σ
  | 0, s => pure s
  | n + 1, s => do
    let s ← step s
    times step n s

/-! ## Value types -/

/-- The abstract heap type of a negative code. -/
def abstractHeapType (v : ℤ) : Option HeapType :=
  if v = -0x10 then some .func
  else if v = -0x11 then some .external
  else if v = -0x12 then some .any
  else if v = -0x13 then some .eq
  else if v = -0x14 then some .i31
  else if v = -0x15 then some .struct
  else if v = -0x16 then some .array
  else if v = -0x0f then some .none
  else if v = -0x0d then some .noFunc
  else if v = -0x0e then some .noExternal
  else if v = -0x0c then some .noExn
  else if v = -0x17 then some .exn
  else none

/-- Read a heap type. -/
def readHeapType : Decoding bytes HeapType := do
  let v ← BitVec.toInt <$> readVarS33
  if 0 ≤ v then do
    checked (ensure (decide (v ≤ ValType.maxConcreteIndex)) .indexOutOfRange)
    pure (.concrete v.toNat)
  else if v = -0x1e then do
    let ti ← readU32
    checked (ensure (decide (ti ≤ ValType.maxConcreteIndex)) .indexOutOfRange)
    pure (.exact ti)
  else checked (orError .unsupportedOpcode (abstractHeapType v))

/-- In a value type, an unknown heap type is a bad value type. -/
def asValType {α : Type} (p : Decoding bytes α) : Decoding bytes α := fun r =>
  match p r with
  | .error (some .unsupportedOpcode) => .error (some .badValType)
  | x => x

/-- The value type of one byte. -/
def shortValType (b : UInt8) : Option RawValType :=
  if b = 0x7f then some .i32
  else if b = 0x7e then some .i64
  else if b = 0x7d then some .f32
  else if b = 0x7c then some .f64
  else if b = 0x7b then some .v128
  else if b = 0x70 then some (.ref true .func)
  else if b = 0x6f then some (.ref true .external)
  else if b = 0x73 then some (.ref true .noFunc)
  else if b = 0x72 then some (.ref true .noExternal)
  else if b = 0x6e then some (.ref true .any)
  else if b = 0x6d then some (.ref true .eq)
  else if b = 0x6c then some (.ref true .i31)
  else if b = 0x6b then some (.ref true .struct)
  else if b = 0x6a then some (.ref true .array)
  else if b = 0x71 then some (.ref true .none)
  else if b = 0x69 then some (.ref true .exn)
  else if b = 0x74 then some (.ref true .noExn)
  else none

/-- Read a value type as the binary spells it. -/
def readRawValType : Decoding bytes RawValType := do
  let b ← readByte
  if b = 0x63 then RawValType.ref true <$> asValType readHeapType
  else if b = 0x64 then RawValType.ref false <$> asValType readHeapType
  else checked (orError .badValType (shortValType b))

namespace Binary

variable (kinds : List CompKind)

/-- Read a value type. -/
def readValType : Decoding bytes ValType := do
  let raw ← readRawValType
  checked (Wasmrt.readValType kinds raw)

/-- Read a vector of value types. -/
def readValTypes : Decoding bytes (List ValType) := do
  let n ← readVecLen
  readMany (readValType kinds) n

/-- Read a storage type: packed, or a value type. -/
def readStorageType : Decoding bytes StorageType := do
  let b ← peekByte
  if b = 0x78 then do
    let _ ← readByte
    pure .i8
  else if b = 0x77 then do
    let _ ← readByte
    pure .i16
  else StorageType.val <$> readValType kinds

/-- Read the mutability of a field or a global. -/
def readMutability : Decoding bytes Bool := do
  let mutb ← readByte
  checked (ensure (decide (mutb ≤ 0x01)) .malformedFlag)
  pure (mutb != 0)

/-- Read a field. -/
def readFieldType : Decoding bytes FieldType := do
  let storage ← readStorageType kinds
  let mutable ← readMutability
  pure ⟨storage, mutable⟩

/-- Decode a composite type. -/
def decodeCompType : Decoding bytes CompType := do
  let b ← readByte
  if b = 0x60 then do
    let params ← readValTypes kinds
    let results ← readValTypes kinds
    pure (.func ⟨params, results⟩)
  else if b = 0x5f then do
    let n ← readVecLen
    let fs ← readMany (readFieldType kinds) n
    pure (.struct fs)
  else if b = 0x5e then do
    let f ← readFieldType kinds
    pure (.array f)
  else failWith .badType

end Binary

/-! ## The type section -/

/-- What a sub type states before its composite type. -/
structure SubPrefix where
  isFinal : Bool
  superIdx : Option ℕ
  links : TypeLinks
  deriving DecidableEq, Repr

/-- Read the supertype of a sub type, if one is listed. -/
def readSuper (tag : UInt8) : Decoding bytes (Option ℕ) := do
  if tag = 0x50 ∨ tag = 0x4f then do
    let _ ← readByte
    let ns ← readU32
    checked (ensure (decide (ns ≤ 1)) .badType)
    if ns = 1 then some <$> readU32 else pure none
  else pure none

/-- Read a link of a sub type, if its tag is there. -/
def readLink (tag : UInt8) : Decoding bytes (Option ℕ) := do
  let b ← peekByte
  if b = tag then do
    let _ ← readByte
    some <$> readU32
  else pure none

/-- Read what stands before the composite type of a sub type. -/
def readSubPrefix : Decoding bytes SubPrefix := do
  let tag ← peekByte
  let superIdx ← readSuper tag
  let describes ← readLink 0x4c
  let descriptor ← readLink 0x4d
  pure ⟨tag != 0x50, superIdx, ⟨describes, descriptor⟩⟩

namespace Binary

variable (kinds : List CompKind)

/-- Decode a sub type. A supertype must be a prior type. -/
def decodeSubType (ts : TypeSection) : Decoding bytes TypeSection := do
  let p ← readSubPrefix
  checked (ensure (p.superIdx.all fun s => decide (s < ts.compTypes.length)) .badType)
  let comp ← decodeCompType kinds
  pure { ts with
    compTypes := ts.compTypes ++ [comp]
    supertypes := ts.supertypes ++ [p.superIdx]
    typeFinals := ts.typeFinals ++ [p.isFinal]
    typeLinks := ts.typeLinks ++ [p.links] }

/-- Decode the types of a rec group, or the one type of a group of one. -/
def decodeGroupTypes (ts : TypeSection) : Decoding bytes TypeSection := do
  let b ← peekByte
  if b = 0x4e then do
    let _ ← readByte
    let k ← readU32
    times (decodeSubType kinds) k ts
  else decodeSubType kinds ts

/-- Decode a rec group. -/
def decodeRecGroup (ts : TypeSection) : Decoding bytes TypeSection := do
  let start := ts.compTypes.length
  let ts ← decodeGroupTypes kinds ts
  pure { ts with recGroups := ts.recGroups ++ [⟨start, ts.compTypes.length - start⟩] }

end Binary

/-! ## The pass before -/

/-- Skip a value type. -/
def skipValType : Decoding bytes Unit := do
  let b ← readByte
  if b = 0x63 ∨ b = 0x64 then do
    let _ ← asValType readHeapType
    pure ()
  else pure ()

/-- Skip a vector of value types. -/
def skipValTypeVec : Decoding bytes Unit := do
  let n ← readU32
  times (fun _ => skipValType) n ()

/-- Skip a storage type. -/
def skipStorageType : Decoding bytes Unit := do
  let b ← peekByte
  if b = 0x77 ∨ b = 0x78 then do
    let _ ← readByte
    pure ()
  else skipValType

/-- Skip a field. -/
def skipFieldType : Decoding bytes Unit := do
  skipStorageType
  let _ ← readByte
  pure ()

/-- Skip a composite type, and record its kind. -/
def scanCompType (kinds : List CompKind) : Decoding bytes (List CompKind) := do
  let b ← readByte
  if b = 0x60 then do
    skipValTypeVec
    skipValTypeVec
    pure (kinds ++ [.func])
  else if b = 0x5f then do
    let n ← readU32
    times (fun _ => skipFieldType) n ()
    pure (kinds ++ [.struct])
  else if b = 0x5e then do
    skipFieldType
    pure (kinds ++ [.array])
  else failWith .badType

/-- Skip a sub type, and record its kind. -/
def scanSubType (kinds : List CompKind) : Decoding bytes (List CompKind) := do
  let _ ← readSubPrefix
  scanCompType kinds

/-- Skip a rec group, or the one type of a group of one. -/
def scanRecGroup (kinds : List CompKind) : Decoding bytes (List CompKind) := do
  let b ← peekByte
  if b = 0x4e then do
    let _ ← readByte
    let k ← readU32
    times scanSubType k kinds
  else scanSubType kinds

/-- The kinds of the types of a section. -/
def prescanTypeKinds : Decoding bytes (List CompKind) := do
  let nrec ← readU32
  times scanRecGroup nrec []

/-- Read ahead, through a cursor of its own. -/
def readAhead {α : Type} (p : Decoding bytes α) : Decoding bytes α := fun r =>
  match p r with
  | .ok (a, _) => .ok (a, r)
  | .error e => .error e

/-- Decode the type section. -/
def Binary.decodeTypeSection : Decoding bytes TypeSection := do
  let kinds ← readAhead prescanTypeKinds
  let nrec ← readU32
  let ts ← times (decodeRecGroup kinds) nrec {}
  pure { ts with typeCanon := canonicalize ts }

end Wasmrt
