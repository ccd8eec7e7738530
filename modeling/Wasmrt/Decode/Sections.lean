import Wasmrt.Decode.Instructions
import Wasmrt.Linker
import Wasmrt.Sexpr.Parser

/-!
# Decoding the sections of a module

The decoders of `module.rs` for the sections behind the type section. As in the source, a constant expression is kept as its
bytes, which a reader of its own decodes where it is used; `Binary.Module` is a module in that form. Left out are the name
section and the byte offsets, which are read for messages alone.

## Main definitions

* `Binary.Module`: a module as it is decoded, with its constant expressions as bytes.
* `Binary.Decoder`: the index spaces, imports first, as far as they have been read.
* `Binary.decodeImport`, `Binary.decodeTable`, `Binary.decodeElement` and the other entries of the sections.
* `Binary.Module.toModule`: the module with its constant expressions decoded.
-/

namespace Wasmrt

variable {bytes : List UInt8} {α : Type}

namespace Binary

/-! ## Modules with their constant expressions as bytes -/

/-- The bytes of a constant expression, up to its `end`. -/
abbrev ConstBytes := List UInt8

structure TableType where
  element : ValType
  limits : Limits
  init : Option ConstBytes := none
  deriving DecidableEq, Repr

inductive Extern
  | func (ft : FuncType)
  | table (tt : TableType)
  | memory (mt : MemoryType)
  | global (gt : GlobalType)
  | tag (ft : FuncType)
  deriving DecidableEq, Repr

structure Import where
  module : String
  name : String
  ty : Extern
  funcTypeIndex : Option ℕ := none
  exact : Bool := false
  deriving DecidableEq, Repr

structure Export where
  name : String
  index : ℕ
  ty : Extern
  deriving DecidableEq, Repr

structure DataSegment where
  active : Bool
  memIndex : ℕ
  offsetExpr : ConstBytes
  bytes : List UInt8
  deriving DecidableEq, Repr

structure Element where
  mode : ElementMode
  tableIndex : ℕ
  offsetExpr : ConstBytes
  funcs : List ℕ
  exprs : List ConstBytes
  elemType : ValType
  deriving DecidableEq, Repr

structure Module extends TypeSection where
  functions : List ℕ := []
  tags : List ℕ := []
  imports : List Import := []
  exports : List Export := []
  code : List Code := []
  globals : List GlobalType := []
  globalInits : List ConstBytes := []
  memories : List MemoryType := []
  tables : List TableType := []
  data : List DataSegment := []
  elements : List Element := []
  start : Option ℕ := none
  deriving DecidableEq, Repr

/-! ## The index spaces -/

/-- What the decoders of the sections share: the types, and the index spaces as far as they have been read. -/
structure Decoder where
  types : TypeSection := {}
  typeKinds : List CompKind := []
  funcSpace : List FuncType := []
  tableSpace : List TableType := []
  memSpace : List MemoryType := []
  globalSpace : List GlobalType := []
  tagSpace : List FuncType := []
  globalInitSpace : List ConstBytes := []
  deriving DecidableEq, Repr

namespace Decoder

variable (d : Decoder)

/-- The signature at a type index. -/
def funcTypeAt (ti : ℕ) : Except DecodeError FuncType :=
  match d.types.compTypes[ti]? with
  | none => .error .indexOutOfRange
  | some (.func f) => .ok f
  | some _ => .error .badType

/-- An entry of an index space. -/
def spaceAt (space : List α) (index : ℕ) : Except DecodeError α := orError .indexOutOfRange space[index]?

/-- What an export names. -/
def externAt (index : ℕ) : ExternKind → Except DecodeError Extern
  | .func => .func <$> spaceAt d.funcSpace index
  | .table => .table <$> spaceAt d.tableSpace index
  | .memory => .memory <$> spaceAt d.memSpace index
  | .global => .global <$> spaceAt d.globalSpace index
  | .tag => .tag <$> spaceAt d.tagSpace index

/-- An import stands in the index space of its kind. -/
def addImport (i : Import) : Decoder :=
  match i.ty with
  | .func ft => { d with funcSpace := d.funcSpace ++ [ft] }
  | .table tt => { d with tableSpace := d.tableSpace ++ [tt] }
  | .memory mt => { d with memSpace := d.memSpace ++ [mt] }
  | .global gt => { d with globalSpace := d.globalSpace ++ [gt] }
  | .tag ft => { d with tagSpace := d.tagSpace ++ [ft] }

end Decoder

/-! ## Names, limits and types -/

/-- The text that some bytes stand for. -/
def fromUtf8 (src : List UInt8) : Option String := String.fromUTF8? ⟨src.toArray⟩

/-- Read some bytes, with their number in front. -/
def readByteVec : Decoding bytes (List UInt8) := do
  let n ← readU32
  readBytes n

/-- Read a name. -/
def readName : Decoding bytes String := do
  let src ← readByteVec
  checked (orError .invalidUtf8 (fromUtf8 src))

/-- Read something that a flag says is there. -/
def readIf (there : Bool) (p : Decoding bytes α) : Decoding bytes (Option α) := if there then some <$> p else pure none

/-- Read the exponent of a page size. -/
def readPageSize : Decoding bytes ℕ := do
  let e ← readU32
  checked (ensure (decide (e < 64)) .invalidPageSize)
  pure e

/-- Read limits, and the exponent of a page size if there is one. The bits of the first byte say what is there. -/
def readLimitsFlagged : Decoding bytes (Limits × Option ℕ) := do
  let flag ← readByte
  checked (ensure (decide (flag ≤ 0x0f)) .malformedFlag)
  let min ← BitVec.toNat <$> readVarU64
  let max ← readIf (decide (flag &&& 0x01 ≠ 0)) (BitVec.toNat <$> readVarU64)
  let page ← readIf (decide (flag &&& 0x08 ≠ 0)) readPageSize
  pure (⟨min, max, decide (flag &&& 0x02 ≠ 0), decide (flag &&& 0x04 ≠ 0)⟩, page)

/-- Read the limits of a table, which has no page size. -/
def readLimits : Decoding bytes Limits := do
  let p ← readLimitsFlagged
  checked (ensure p.2.isNone .malformedFlag)
  pure p.1

def readMemoryType : Decoding bytes MemoryType := do
  let p ← readLimitsFlagged
  pure ⟨p.1, p.2⟩

/-- Read a table type: a reference type and limits, which are not shared. -/
def readTableType (kinds : List CompKind) : Decoding bytes TableType := do
  let element ← readValType kinds
  checked (ensure element.isRef .badValType)
  let limits ← readLimits
  checked (ensure (!limits.shared) .malformedFlag)
  pure { element, limits }

def readGlobalType (kinds : List CompKind) : Decoding bytes GlobalType := do
  let content ← readValType kinds
  let mutable ← readMutability
  pure ⟨content, mutable⟩

/-- Read the bytes of a constant expression. The decoder of expressions finds its end. -/
def readConstExprBytes : Decoding bytes ConstBytes := do
  let start ← cursor
  let _ ← decodeExpr
  let r ← cursor
  pure (start.rest.take (r.pos - start.pos))

/-- Read something as often as a number in front says. -/
def readCounted (p : Decoding bytes α) : Decoding bytes (List α) := do
  let n ← readU32
  readMany p n

/-! ## Imports and exports -/

/-- The kind of an import or an export. -/
def externKind (b : UInt8) : Option ExternKind :=
  if b = 0x00 then some .func
  else if b = 0x01 then some .table
  else if b = 0x02 then some .memory
  else if b = 0x03 then some .global
  else if b = 0x04 then some .tag
  else none

/-- Read a type index that must name a signature, with the signature. -/
def readFuncIndex (d : Decoder) : Decoding bytes (ℕ × FuncType) := do
  let ti ← readU32
  let ft ← checked (d.funcTypeAt ti)
  pure (ti, ft)

/-- Read the type of a tag: a reserved byte, and a type index. -/
def readTagIndex (d : Decoder) : Decoding bytes (ℕ × FuncType) := do
  let attr ← readByte
  checked (ensure (decide (attr = 0x00)) .malformedFlag)
  readFuncIndex d

/-- Read the type of an import, and the type index of a function or a tag. -/
def readImportType (d : Decoder) : ExternKind → Decoding bytes (Extern × Option ℕ)
  | .func => (fun p => (.func p.2, some p.1)) <$> readFuncIndex d
  | .table => (fun tt => (.table tt, none)) <$> readTableType d.typeKinds
  | .memory => (fun mt => (.memory mt, none)) <$> readMemoryType
  | .global => (fun gt => (.global gt, none)) <$> readGlobalType d.typeKinds
  | .tag => (fun p => (.tag p.2, some p.1)) <$> readTagIndex d

/-- The byte of an exact function import. -/
def exactFunc : UInt8 := 0x20

/-- Read an import. -/
def decodeImport (d : Decoder) : Decoding bytes Import := do
  let module ← readName
  let name ← readName
  let byte ← readByte
  let kind ← checked (orError .unknownExternKind (if byte = exactFunc then some .func else externKind byte))
  let ty ← readImportType d kind
  pure ⟨module, name, ty.1, ty.2, decide (byte = exactFunc)⟩

/-- Read an export. -/
def decodeExport (d : Decoder) : Decoding bytes Export := do
  let name ← readName
  let byte ← readByte
  let kind ← checked (orError .unknownExternKind (externKind byte))
  let index ← readU32
  let ty ← checked (d.externAt index kind)
  pure ⟨name, index, ty⟩

/-! ## Tables, globals and segments -/

/-- Read the type of a table, with an initialiser behind it or without one. -/
def readTable (kinds : List CompKind) : Decoding bytes TableType := do
  let b ← peekByte
  if b = 0x40 then do
    let _ ← readByte
    let reserved ← readByte
    checked (ensure (decide (reserved = 0x00)) .malformedFlag)
    let tt ← readTableType kinds
    let init ← readConstExprBytes
    pure { tt with init := some init }
  else readTableType kinds

/-- Read a table. One of a type without a default value must have an initialiser. -/
def decodeTable (kinds : List CompKind) : Decoding bytes TableType := do
  let tt ← readTable kinds
  checked (ensure (decide ¬ (tt.init = none ∧ tt.element.isNonNullRef = true)) .malformedFlag)
  pure { tt with limits := { tt.limits with shared := false } }

/-- Read a global. -/
def decodeGlobal (kinds : List CompKind) : Decoding bytes (GlobalType × ConstBytes) := do
  let gt ← readGlobalType kinds
  let init ← readConstExprBytes
  pure (gt, init)

/-- The mode of an element segment. -/
def elementMode (flags : ℕ) : ElementMode :=
  if flags &&& 0b001 = 0 then .active
  else if flags &&& 0b010 = 0 then .passive
  else .declarative

/-- Read the type of the elements of a segment that lists functions. Only functions may be listed. -/
def readElemKind (flags : ℕ) : Decoding bytes Unit :=
  if flags ≠ 0 then do
    let b ← readByte
    checked (ensure (decide (b = 0x00)) .malformedFlag)
    pure ()
  else pure ()

/-- Read the type of the elements of a segment of expressions. -/
def readElemType (kinds : List CompKind) (flags : ℕ) : Decoding bytes ValType :=
  if flags ≠ 4 then do
    let v ← readValType kinds
    checked (ensure v.isRef .badValType)
    pure v
  else pure (.ref .func true)

/-- Read an element segment, in one of its eight forms. -/
def decodeElement (kinds : List CompKind) : Decoding bytes Element := do
  let flags ← readU32
  checked (ensure (decide (flags ≤ 7)) .malformedFlag)
  let mode := elementMode flags
  let table ← readIf (decide (mode = .active ∧ flags &&& 0b010 ≠ 0)) readU32
  let offset ← readIf (decide (mode = .active)) readConstExprBytes
  if flags &&& 0b100 = 0 then do
    readElemKind flags
    let funcs ← readVec readU32
    pure ⟨mode, table.getD 0, offset.getD [], funcs, [], .ref .func false⟩
  else do
    let elemType ← readElemType kinds flags
    let exprs ← readVec readConstExprBytes
    pure ⟨mode, table.getD 0, offset.getD [], [], exprs, elemType⟩

/-- Read a data segment, in one of its three forms. -/
def decodeDataSegment : Decoding bytes DataSegment := do
  let flags ← readU32
  if flags = 0 then do
    let offset ← readConstExprBytes
    let init ← readByteVec
    pure ⟨true, 0, offset, init⟩
  else if flags = 1 then do
    let init ← readByteVec
    pure ⟨false, 0, [], init⟩
  else if flags = 2 then do
    let mem ← readU32
    let offset ← readConstExprBytes
    let init ← readByteVec
    pure ⟨true, mem, offset, init⟩
  else failWith .unsupportedOpcode

/-! ## Code -/

/-- Read a run of locals. -/
def readLocal (kinds : List CompKind) : Decoding bytes Local := do
  let count ← readU32
  let ty ← readValType kinds
  pure ⟨count, ty⟩

/-- The most locals a function may declare. -/
def maxDeclaredLocals : ℕ := 2 ^ 32 - 1

/-- Decode a function's locals and body, which take up the whole of its entry. -/
def decodeEntry (kinds : List CompKind) (entry : List UInt8) : Except (Option DecodeError) Code :=
  match readVec (readLocal kinds) (Reader.new entry) with
  | .error e => .error e
  | .ok (locals, r) =>
    if (locals.map (·.count)).sum ≤ maxDeclaredLocals then
      match decodeBody r.rest with
      | .ok ir => .ok ⟨locals, ir⟩
      | .error e => .error e
    else .error (some .tooManyLocals)

/-- What reads bytes of its own, inside a read. -/
def lifted (x : Except (Option DecodeError) α) : Decoding bytes α := fun r => x.map fun a => (a, r)

/-- Read an entry of the code section: its size, and as many bytes. -/
def decodeCode (kinds : List CompKind) : Decoding bytes Code := do
  let entry ← readByteVec
  lifted (decodeEntry kinds entry)

/-! ## Modules with their constant expressions decoded -/

/-- The instructions of a constant expression, without its `end`. -/
def constExpr (e : ConstBytes) : ConstExpr :=
  match decodeBody e with
  | .ok ir => ir.dropLast
  | .error _ => []

def TableType.toTableType (tt : TableType) : Wasmrt.TableType := ⟨tt.element, tt.limits, tt.init.map constExpr⟩

def Extern.toExtern : Extern → Wasmrt.Extern
  | func ft => .func ft
  | table tt => .table tt.toTableType
  | memory mt => .memory mt
  | global gt => .global gt
  | tag ft => .tag ft

def Import.toImport (i : Import) : Wasmrt.Import := ⟨i.module, i.name, i.ty.toExtern, i.funcTypeIndex, i.exact⟩

def Export.toExport (e : Export) : Wasmrt.Export := ⟨e.name, e.index, e.ty.toExtern⟩

def DataSegment.toDataSegment (seg : DataSegment) : Wasmrt.DataSegment :=
  ⟨seg.active, seg.memIndex, constExpr seg.offsetExpr, seg.bytes⟩

def Element.toElement (e : Element) : Wasmrt.Element :=
  ⟨e.mode, e.tableIndex, constExpr e.offsetExpr, e.funcs, e.exprs.map constExpr, e.elemType⟩

/-- The module with its constant expressions decoded. -/
def Module.toModule (m : Module) : Wasmrt.Module :=
  { m.toTypeSection with
    functions := m.functions
    tags := m.tags
    imports := m.imports.map Import.toImport
    exports := m.exports.map Export.toExport
    code := m.code
    globals := m.globals
    globalInits := m.globalInits.map constExpr
    memories := m.memories
    tables := m.tables.map TableType.toTableType
    data := m.data.map DataSegment.toDataSegment
    elements := m.elements.map Element.toElement
    start := m.start }

end Binary

end Wasmrt
