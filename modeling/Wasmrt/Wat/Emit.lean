import Wasmrt.Decode.Leb128
import Wasmrt.Decode.Reader
import Wasmrt.Library.Writing
import Wasmrt.Types
import Wasmrt.Wat.Integers

/-!
# Writing a module

The writers of `wat.rs`: the pieces of a module, its sections, and `emit_module`. What the assembler collects from the text is
a `ModuleBuild`; the instructions in it are bytes already, as the writer of instructions leaves them, without the `end` behind
them.

## Main definitions

* `emitValType`, `emitLimits`, `emitMemoryType`, `emitSubType`: the pieces.
* `emitTypes`, `emitImports`, `emitRest`, `emitModule`: the sections.
* `emitElemSegment`, `encodeBody`: what is written before the sections are.
* `assembleParts`: the pieces, and the sections around them.
-/

namespace Wasmrt.Wat

open Recognizer

/-! ## Writers -/

/-- The errors of the assembler. -/
inductive AsmError
  | literal (e : Error)
  | badForm | badValType | badModuleField | unknownIdentifier
  deriving DecidableEq, Repr

/-- What is written, an error of the source, or `none` where the source panics. -/
abbrev Emission := Except (Option AsmError) (List UInt8)

def emitByte (b : UInt8) : Emission := .ok [b]

/-- Write a `u32`. -/
def emitU32 (v : BitVec 32) : Emission := .ok (uleb (v.setWidth 64))

/-- Write a `u64`. -/
def emitU64 (v : BitVec 64) : Emission := .ok (uleb v)

/-- Write how many there are of something. -/
def emitLen (n : ℕ) : Emission := .ok (uleb (BitVec.ofNat 64 n))

def nameBytes (name : List UInt8) : Emission := inTurn [emitLen name.length, .ok name]

/-- Write some entries, with their number in front. -/
def emitVec {α : Type} (write : α → Emission) (as : List α) : Emission :=
  inTurn [emitLen as.length, inTurn (as.map write)]

/-- A heap type: a code, or an exact type index. -/
inductive Heap
  | code (c : BitVec 64)
  | exact (ti : BitVec 32)

def emitHeap : Heap → Emission
  | .code c => .ok (sleb c)
  | .exact ti => inTurn [emitByte 0x62, emitU32 ti]

/-- The prefix of a reference. -/
def refPrefix (v : ValType) : UInt8 := if v.isNonNullRef then 0x64 else 0x63

/-- Write a type of one byte. -/
def emitShort (bits : BitVec 32) : Emission :=
  if 0xff < bits.toNat then .error (some .badValType) else .ok [UInt8.ofNat bits.toNat]

/-- Write a value type. -/
def emitValType (v : ValType) : Emission :=
  if v.isExact then inTurn [emitByte (refPrefix v), emitHeap (.exact (BitVec.ofNat 32 v.concreteIndex))]
  else if v.isConcrete then inTurn [emitByte (refPrefix v), .ok (sleb (BitVec.ofNat 64 v.concreteIndex))]
  else if v.isNonNullRef then
    -- behind the prefix stands the byte of the nullable reference
    inTurn [emitByte 0x64, emitShort (v.refHeap.valType true).bits]
  else emitShort v.bits

def valTypeVec (vts : List ValType) : Emission := emitVec emitValType vts

/-- Write limits. The bits of the first byte say what is there. -/
def emitLimits (min : BitVec 64) (max : Option (BitVec 64)) (shared is64 : Bool) : Emission :=
  inTurn [emitByte (max.isSome.toUInt8 ||| (shared.toUInt8 <<< 1) ||| (is64.toUInt8 <<< 2)), emitU64 min,
    max.elim (.ok []) emitU64]

/-! ## What the assembler has collected -/

/-- The storage of a field. -/
inductive Storage
  | val (v : ValType)
  | i8 | i16
  deriving DecidableEq, Repr

structure GcField where
  storage : Storage
  mutable : Bool
  deriving DecidableEq, Repr

structure Sig where
  params : List ValType
  results : List ValType
  deriving DecidableEq, Repr

/-- An entry of the type section. -/
inductive TypeDef
  | func (s : Sig)
  | struct (fields : List GcField)
  | array (f : GcField)
  deriving DecidableEq, Repr

structure MemoryDef where
  min : BitVec 64
  max : Option (BitVec 64)
  shared : Bool
  is64 : Bool
  pageSizeLog2 : Option (BitVec 32)
  deriving DecidableEq, Repr

structure TableDef where
  min : BitVec 64
  max : Option (BitVec 64)
  is64 : Bool
  elem : ValType
  init : Option (List UInt8)
  deriving DecidableEq, Repr

structure GlobalDef where
  valtype : ValType
  mutable : Bool
  init : List UInt8
  deriving DecidableEq, Repr

structure ImportRef where
  module : List UInt8
  name : List UInt8
  deriving DecidableEq, Repr

structure ImportedFunc where
  r : ImportRef
  typeIndex : BitVec 32
  exact : Bool

structure ImportedTable where
  r : ImportRef
  t : TableDef

structure ImportedMemory where
  r : ImportRef
  m : MemoryDef

structure ImportedGlobal where
  r : ImportRef
  valtype : ValType
  mutable : Bool

structure ImportedTag where
  r : ImportRef
  typeIndex : BitVec 32

/-- The kind of an import. -/
inductive ImportKind
  | func | table | mem | global | tag

structure ExportDef where
  name : List UInt8
  kind : UInt8
  index : BitVec 32

/-- A function: its type index, its locals, and its instructions. -/
structure Func where
  typeIndex : BitVec 32
  locals : List ValType
  body : List UInt8

structure DataSeg where
  memIndex : BitVec 32
  offset : Option (List UInt8)
  bytes : List UInt8

/-- The entries of an element segment: the functions it names, or instructions. -/
inductive ElemItems
  | funcs (names : List Sexpr)
  | exprs (es : List (List UInt8))

structure ElemDef where
  tableIndex : BitVec 32
  offset : Option (List UInt8)
  elemType : ValType
  items : ElemItems
  declarative : Bool

/-- The imports, by kind. -/
structure ImportLists where
  funcImports : List ImportedFunc := []
  tableImports : List ImportedTable := []
  memImports : List ImportedMemory := []
  globalImports : List ImportedGlobal := []
  tagImports : List ImportedTag := []

/-- What has been collected from the fields of a module. -/
structure ModuleBuild extends ImportLists where
  types : List TypeDef := []
  supers : List (Option (BitVec 32)) := []
  recGroups : List (ℕ × ℕ) := []
  typeFinals : List Bool := []
  typeLinks : List (Option (BitVec 32) × Option (BitVec 32)) := []
  importOrder : List ImportKind := []
  funcs : List Func := []
  funcNames : List (Option (List UInt8)) := []
  tables : List TableDef := []
  memories : List MemoryDef := []
  globals : List GlobalDef := []
  tags : List (BitVec 32) := []
  elems : List ElemDef := []
  datas : List DataSeg := []
  exports : List ExportDef := []
  start : Option Sexpr := none
  needsDataCount : Bool := false

/-! ## Names -/

/-- The index of a function, by a name or a number. -/
def resolveByName (names : List (Option (List UInt8))) : Sexpr → Except (Option AsmError) (BitVec 32)
  | .atom a =>
    if a.head? = some Sexpr.dollar then
      match names.findIdx? (· = some a) with
      | some i => if i < 2 ^ 32 then .ok (BitVec.ofNat 32 i) else .error (some (.literal .badImmediate))
      | none => .error (some .unknownIdentifier)
    else
      match parseIndex a with
      | .ok n => .ok (BitVec.ofNat 32 n)
      | .error e => .error (some (.literal e))
  | _ => .error (some (.literal .badImmediate))

/-- Write the index of a name. -/
def emitNamed (names : List (Option (List UInt8))) (s : Sexpr) : Emission := do
  let i ← resolveByName names s
  emitU32 i

/-! ## Types -/

def emitGcField (f : GcField) : Emission :=
  inTurn [match f.storage with
    | .val v => emitValType v
    | .i8 => emitByte 0x78
    | .i16 => emitByte 0x77, emitByte f.mutable.toUInt8]

def emitTypeDef : TypeDef → Emission
  | .func s => inTurn [emitByte 0x60, valTypeVec s.params, valTypeVec s.results]
  | .struct fields => inTurn [emitByte 0x5f, emitVec emitGcField fields]
  | .array f => inTurn [emitByte 0x5e, emitGcField f]

/-- Write a link of a type, if there is one. -/
def emitLink (tag : UInt8) (link : Option (BitVec 32)) : Emission :=
  match link with
  | some x => inTurn [emitByte tag, emitU32 x]
  | none => .ok []

namespace ModuleBuild

variable (b : ModuleBuild)

/-- The supertype of a type. -/
def superOf (i : ℕ) : Option (BitVec 32) := (b.supers[i]?).getD none

/-- A type is final unless it has been opened. -/
def isFinal (i : ℕ) : Bool := (b.typeFinals[i]?).getD true

/-- The descriptor links of a type. -/
def linksOf (i : ℕ) : Option (BitVec 32) × Option (BitVec 32) := (b.typeLinks[i]?).getD (none, none)

/-- Write a type. Only a final type without a supertype is written as its definition alone. -/
def emitSubType (i : ℕ) : Emission :=
  inTurn [if !b.isFinal i || (b.superOf i).isSome then
      inTurn [emitByte (if b.isFinal i then 0x4f else 0x50), match b.superOf i with
        | some s => inTurn [emitLen 1, emitU32 s]
        | none => emitLen 0]
    else .ok [],
    emitLink 0x4c (b.linksOf i).1, emitLink 0x4d (b.linksOf i).2, match b.types[i]? with
      | some t => emitTypeDef t
      | none => .error none]

/-- An entry of the type section: where it starts, how many types it has, and whether they are written as a group. -/
structure TypeEntry where
  start : ℕ
  len : ℕ
  explicit : Bool
  deriving DecidableEq, Repr

/-- The entries from a type on, in at most so many steps: a group where one starts, and a single type elsewhere. -/
def entriesFrom : ℕ → ℕ → List TypeEntry
  | 0, _ => []
  | steps + 1, i =>
    if i < b.types.length then
      match b.recGroups.find? (·.1 = i) with
      | some (s, len) => if 0 < len then ⟨s, len, true⟩ :: entriesFrom steps (i + len) else ⟨i, 1, false⟩ :: entriesFrom steps (i + 1)
      | none => ⟨i, 1, false⟩ :: entriesFrom steps (i + 1)
    else []

/-- The entries of the type section. -/
def entries : List TypeEntry := b.entriesFrom b.types.length 0

/-- Write an entry of the type section. -/
def emitEntry (e : TypeEntry) : Emission :=
  inTurn [if e.explicit then inTurn [emitByte 0x4e, emitLen e.len] else .ok [],
    inTurn ((List.range' e.start e.len).map b.emitSubType)]

end ModuleBuild

/-! ## Sections -/

/-- A section around its content. One without a content is left out. -/
def pushSection (id : UInt8) (content : List UInt8) : List UInt8 :=
  if content.isEmpty then [] else id :: (uleb (BitVec.ofNat 64 content.length) ++ content)

/-- Write a section around what is written. -/
def emitSection (id : UInt8) (content : Emission) : Emission := pushSection id <$> content

/-- Write a section of so many entries, if there are any. -/
def emitCounted (id : UInt8) (n : ℕ) (entries : List Emission) : Emission :=
  if n = 0 then .ok [] else emitSection id (inTurn [emitLen n, inTurn entries])

def emitTypes (b : ModuleBuild) : Emission :=
  if b.types.isEmpty then .ok []
  else emitSection 1 (emitVec b.emitEntry b.entries)

/-! ### Imports -/

def emitMemoryType (m : MemoryDef) : Emission := do
  let w ← emitLimits m.min m.max m.shared m.is64
  match m.pageSizeLog2 with
  -- the flag of a page size is set after the limits have been written
  | some e => inTurn [.ok (w.modifyHead (· ||| 0x08)), emitU32 e]
  | none => pure w

/-- Write a table type. -/
def emitTableType (t : TableDef) : Emission := inTurn [emitValType t.elem, emitLimits t.min t.max false t.is64]

/-- Write a global type. -/
def emitGlobalType (valtype : ValType) (mutable : Bool) : Emission :=
  inTurn [emitValType valtype, emitByte mutable.toUInt8]

/-- An import, of any kind. -/
inductive ImportItem
  | func (i : ImportedFunc)
  | table (i : ImportedTable)
  | mem (i : ImportedMemory)
  | global (i : ImportedGlobal)
  | tag (i : ImportedTag)

/-- The imports in the order of their kinds. The source panics where there are not enough of a kind. -/
def ImportLists.inOrder : ImportLists → List ImportKind → Except (Option AsmError) (List ImportItem)
  | _, [] => .ok []
  | ls, .func :: order =>
    match ls.funcImports with
    | i :: rest => (ImportItem.func i :: ·) <$> inOrder { ls with funcImports := rest } order
    | [] => .error none
  | ls, .table :: order =>
    match ls.tableImports with
    | i :: rest => (ImportItem.table i :: ·) <$> inOrder { ls with tableImports := rest } order
    | [] => .error none
  | ls, .mem :: order =>
    match ls.memImports with
    | i :: rest => (ImportItem.mem i :: ·) <$> inOrder { ls with memImports := rest } order
    | [] => .error none
  | ls, .global :: order =>
    match ls.globalImports with
    | i :: rest => (ImportItem.global i :: ·) <$> inOrder { ls with globalImports := rest } order
    | [] => .error none
  | ls, .tag :: order =>
    match ls.tagImports with
    | i :: rest => (ImportItem.tag i :: ·) <$> inOrder { ls with tagImports := rest } order
    | [] => .error none

/-- The names of an import. -/
def ImportItem.ref : ImportItem → ImportRef
  | func i => i.r
  | table i => i.r
  | mem i => i.r
  | global i => i.r
  | tag i => i.r

/-- Write an import behind its names. -/
def ImportItem.emitType : ImportItem → Emission
  | func i => inTurn [emitByte (if i.exact then 0x20 else 0x00), emitU32 i.typeIndex]
  | table i => inTurn [emitByte 0x01, emitTableType i.t]
  | mem i => inTurn [emitByte 0x02, emitMemoryType i.m]
  | global i => inTurn [emitByte 0x03, emitGlobalType i.valtype i.mutable]
  | tag i => inTurn [emitByte 0x04, emitByte 0x00, emitU32 i.typeIndex]

def ImportItem.emit (i : ImportItem) : Emission := inTurn [nameBytes i.ref.module, nameBytes i.ref.name, i.emitType]

def emitImports (b : ModuleBuild) : Emission := do
  let items ← b.toImportLists.inOrder b.importOrder
  emitCounted 2 b.importOrder.length (items.map ImportItem.emit)

/-! ### The other sections -/

/-- What is written before the sections: the signatures, bodies and constant expressions. -/
structure Encoded where
  funcSigs : List (BitVec 32)
  bodies : List (List UInt8)
  globals : List GlobalDef
  globalInits : List (List UInt8)
  tableInits : List (Option (List UInt8))
  elems : List (List UInt8)
  datas : List DataSeg
  dataOffsets : List (Option (List UInt8))

/-- Write a table, with its initialiser if it has one. -/
def emitTable (t : TableDef) : Option (List UInt8) → Emission
  | some init => inTurn [emitByte 0x40, emitByte 0x00, emitTableType t, .ok init]
  | none => emitTableType t

def emitTag (ti : BitVec 32) : Emission := inTurn [emitByte 0x00, emitU32 ti]

def emitGlobal (g : GlobalDef) (init : List UInt8) : Emission :=
  inTurn [emitGlobalType g.valtype g.mutable, .ok init]

def emitExport (e : ExportDef) : Emission := inTurn [nameBytes e.name, emitByte e.kind, emitU32 e.index]

/-- Write the body of a function, with its length in front. -/
def emitCode (body : List UInt8) : Emission := inTurn [emitLen body.length, .ok body]

def emitData (d : DataSeg) (offset : Option (List UInt8)) : Emission :=
  inTurn [match offset with
    | some bytes => if d.memIndex = 0 then inTurn [emitLen 0, .ok bytes] else inTurn [emitLen 2, emitU32 d.memIndex, .ok bytes]
    | none => emitLen 1, emitLen d.bytes.length, .ok d.bytes]

def emitStart (b : ModuleBuild) : Emission :=
  match b.start with
  | some s => emitSection 8 (emitNamed b.funcNames s)
  | none => .ok []

/-- Write the sections behind the imports. -/
def emitRest (b : ModuleBuild) (e : Encoded) : Emission :=
  inTurn [emitCounted 3 e.funcSigs.length (e.funcSigs.map emitU32),
    emitCounted 4 b.tables.length (b.tables.zipIdx.map fun (t, i) => emitTable t (e.tableInits[i]?).join),
    emitCounted 5 b.memories.length (b.memories.map emitMemoryType),
    emitCounted 13 b.tags.length (b.tags.map emitTag),
    emitCounted 6 e.globals.length ((e.globals.zip e.globalInits).map fun (g, init) => emitGlobal g init),
    emitCounted 7 b.exports.length (b.exports.map emitExport),
    emitStart b,
    emitCounted 9 e.elems.length (e.elems.map .ok),
    if !e.datas.isEmpty && b.needsDataCount then emitSection 12 (emitLen e.datas.length) else .ok [],
    emitCounted 10 e.bodies.length (e.bodies.map emitCode),
    emitCounted 11 e.datas.length ((e.datas.zip e.dataOffsets).map fun (d, off) => emitData d off)]

/-- The first bytes of a module. -/
def header : List UInt8 := [0x00, 0x61, 0x73, 0x6d, 0x01, 0x00, 0x00, 0x00]

/-- Write a module: the header, and the sections in their order. -/
def emitModule (b : ModuleBuild) (e : Encoded) : Emission :=
  inTurn [.ok header, emitTypes b, emitImports b, emitRest b e]

/-! ## What is written before the sections -/

/-- The end of an expression. -/
def endByte : UInt8 := 0x0b

/-- A constant expression: its instructions, and the end. -/
def emitConstExpr (instrs : List UInt8) : List UInt8 := instrs ++ [endByte]

/-- The body of a function: one group for each local, the instructions, and the end. -/
def encodeBody (f : Func) : Emission :=
  inTurn [emitVec (fun t => inTurn [emitLen 1, emitValType t]) f.locals, .ok f.body, emitByte endByte]

/-- Is a segment of expressions? -/
def ElemItems.useExprs : ElemItems → Bool
  | funcs _ => false
  | exprs _ => true

namespace ElemDef

variable (e : ElemDef)

/-- Must the form name a table, and then a type? The forms that do not are for functions in the first table. -/
def explicitTable : Bool := e.tableIndex != 0 || (e.items.useExprs && e.elemType != .ref .func true)

/-- The form of an element segment. -/
def flag : ℕ :=
  match e.offset, e.declarative, e.items.useExprs with
  | some _, _, false => e.explicitTable.toNat * 2
  | some _, _, true => 4 + e.explicitTable.toNat * 2
  | none, false, false => 1
  | none, true, false => 3
  | none, false, true => 5
  | none, true, true => 7

/-- Write the type of the elements: a reference type, or the byte that stands for functions. -/
def emitSelector : Emission := if e.items.useExprs then emitValType e.elemType else emitByte 0x00

/-- Write an element segment in one of its eight forms. -/
def emit (names : List (Option (List UInt8))) : Emission :=
  if !e.items.useExprs && e.elemType != .ref .func true then .error (some .badModuleField)
  else
    inTurn [emitLen e.flag, match e.offset with
      | some off => inTurn [if e.explicitTable then emitU32 e.tableIndex else .ok [], .ok (emitConstExpr off),
          if e.explicitTable then e.emitSelector else .ok []]
      | none => e.emitSelector,
      match e.items with
      | .funcs fs => emitVec (emitNamed names) fs
      | .exprs es => emitVec (fun expr => .ok (emitConstExpr expr)) es]

end ElemDef

/-- Write the pieces, and then the sections around them. -/
def assembleParts (b : ModuleBuild) : Emission := do
  let bodies ← b.funcs.mapM encodeBody
  let elems ← b.elems.mapM (·.emit b.funcNames)
  emitModule b
    { funcSigs := b.funcs.map (·.typeIndex)
      bodies
      globals := b.globals
      globalInits := b.globals.map fun g => emitConstExpr g.init
      tableInits := b.tables.map fun t => t.init.map emitConstExpr
      elems
      datas := b.datas
      dataOffsets := b.datas.map fun d => d.offset.map emitConstExpr }

end Wasmrt.Wat
