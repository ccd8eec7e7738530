import Wasmrt.Library.ParentSearch
import Wasmrt.Opcode

/-!
# Modules

The decoded module of `module.rs`. The type section is a structure of its own, since type identity
and subtyping read nothing else. Constant expressions are kept as instructions: the source keeps
their bytes and decodes them at each use.

Left out are the fields no modelled function reads: the version and section directory, the name
section, byte offsets.

## Main definitions

* `FuncType`, `StorageType`, `FieldType`, `CompType`, `TypeLinks`: the entries of a type section.
* `TypeSection`: the parallel vectors the type section decodes to.
* `TypeSection.isSubtype`, `TypeSection.typesEqual`, `TypeSection.valTypesEqual`,
  `TypeSection.funcTypesEqual`: the module-level type relations.
* `Module`: a decoded module, with the accessors over its index spaces.
-/

namespace Wasmrt

/-! ## Types -/

/-- A function signature (§5.3.3). -/
structure FuncType where
  params : List ValType
  results : List ValType
  deriving DecidableEq, Repr

/-- The storage type of a struct field or array element. -/
inductive StorageType
  | val (v : ValType)
  | i8
  | i16
  deriving DecidableEq, Repr

namespace StorageType

/-- The value type a field projects onto the operand stack. -/
def unpacked : StorageType → ValType
  | val v => v
  | i8 | i16 => .i32

def isPacked : StorageType → Bool
  | val _ => false
  | _ => true

end StorageType

/-- A struct field or array element: storage type and mutability. -/
structure FieldType where
  storage : StorageType
  mutable : Bool
  deriving DecidableEq, Repr

/-- A composite type (§5.3). -/
inductive CompType
  | func (ft : FuncType)
  | struct (fields : List FieldType)
  | array (elem : FieldType)
  deriving DecidableEq, Repr

/-- The family of a composite type. -/
def CompType.kind : CompType → CompKind
  | func _ => .func
  | struct _ => .struct
  | array _ => .array

/-- The value types a composite type mentions, packed fields read as `i32`. -/
def CompType.valTypes : CompType → List ValType
  | func ft => ft.params ++ ft.results
  | struct fs => fs.map (·.storage.unpacked)
  | array f => [f.storage.unpacked]

/-- Resizable-range limits, in pages or elements. -/
structure Limits where
  min : ℕ
  max : Option ℕ
  shared : Bool := false
  is64 : Bool := false
  deriving DecidableEq, Repr

/-- A constant expression, its terminating `end` left implicit. -/
abbrev ConstExpr := List Instr

/-- A table type; `init` is the initialiser expression of a defined table that states one. -/
structure TableType where
  element : ValType
  limits : Limits
  init : Option ConstExpr := none
  deriving DecidableEq, Repr

/-- The custom-descriptors links of a type: the type it describes and its descriptor. -/
structure TypeLinks where
  describes : Option ℕ := none
  descriptor : Option ℕ := none
  deriving DecidableEq, Repr, Inhabited

/-- A memory type; `pageSizeLog2` is the stated page-size exponent. -/
structure MemoryType where
  limits : Limits
  statedPageSizeLog2 : Option ℕ := none
  deriving DecidableEq, Repr

/-- The exponent of the default page size, 64 KiB. -/
def defaultPageSizeLog2 : ℕ := 16

/-- The page-size exponent of a memory. -/
def MemoryType.pageSizeLog2 (mt : MemoryType) : ℕ :=
  mt.statedPageSizeLog2.getD defaultPageSizeLog2

/-- The largest page count a memory may have, for its index type and page size. -/
def maxPages (is64 : Bool) (pageSizeLog2 : ℕ) : ℕ :=
  let bits := if is64 then 64 else 32
  if pageSizeLog2 = 0 then
    if is64 then 2 ^ 64 - 1 else 2 ^ 32 - 1
  else if bits ≤ pageSizeLog2 then 1
  else 2 ^ (bits - pageSizeLog2)

/-- A global's type. -/
structure GlobalType where
  content : ValType
  mutable : Bool
  deriving DecidableEq, Repr

/-- The resolved type of an import or export. -/
inductive Extern
  | func (ft : FuncType)
  | table (tt : TableType)
  | memory (mt : MemoryType)
  | global (gt : GlobalType)
  | tag (ft : FuncType)
  deriving DecidableEq, Repr

/-- An import. `funcTypeIndex` is the type index a function or tag import was declared with. -/
structure Import where
  module : String
  name : String
  ty : Extern
  funcTypeIndex : Option ℕ := none
  exact : Bool := false
  deriving DecidableEq, Repr

/-- An export: an index into the module's index space for its kind. -/
structure Export where
  name : String
  index : ℕ
  ty : Extern
  deriving DecidableEq, Repr

/-- A data segment. -/
structure DataSegment where
  active : Bool
  memIndex : ℕ
  offsetExpr : ConstExpr
  bytes : List UInt8
  deriving DecidableEq, Repr

/-- The mode of an element segment. -/
inductive ElementMode
  | active | passive | declarative
  deriving DecidableEq, Repr

/-- An element segment: function indices or constant expressions. -/
structure Element where
  mode : ElementMode
  tableIndex : ℕ
  offsetExpr : ConstExpr
  funcs : List ℕ
  exprs : List ConstExpr
  elemType : ValType
  deriving DecidableEq, Repr

/-- A run of locals of one type. -/
structure Local where
  count : ℕ
  ty : ValType
  deriving DecidableEq, Repr

/-- A defined function's body. -/
structure Code where
  locals : List Local
  ir : List Instr
  deriving DecidableEq, Repr

/-! ## The type section -/

/-- A rec group: its first type index and its length. -/
structure RecGroup where
  start : ℕ
  len : ℕ
  deriving DecidableEq, Repr

/-- Is type index `t` a member of the group? -/
def RecGroup.contains (g : RecGroup) (t : ℕ) : Bool :=
  g.start ≤ t && t < g.start + g.len

/-- The type index space of a module: composite types in declaration order, rec groups flattened,
with the parallel vectors of supertypes, finality and descriptor links. -/
structure TypeSection where
  compTypes : List CompType := []
  supertypes : List (Option ℕ) := []
  recGroups : List RecGroup := []
  typeCanon : List ℕ := []
  typeFinals : List Bool := []
  typeLinks : List TypeLinks := []
  deriving DecidableEq, Repr

namespace TypeSection

variable (ts : TypeSection)

/-- The declared supertype of a type. -/
def supertype (t : ℕ) : Option ℕ := (ts.supertypes[t]?).join

/-- The descriptor links of a type. -/
def links (t : ℕ) : TypeLinks := (ts.typeLinks[t]?).getD {}

/-- Is a type closed to further subtyping? A type with no record counts as final. -/
def isFinal (t : ℕ) : Bool := (ts.typeFinals[t]?).getD true

/-- The canonical identity of a type: the lowest index structurally equal to it. -/
def canonId (t : ℕ) : ℕ := (ts.typeCanon[t]?).getD t

/-- Are two type indices the same type? -/
def typesEqual (a b : ℕ) : Bool := ts.canonId a == ts.canonId b

/-- Is type `a` a declared subtype of `b`? The walk up the supertypes compares canonically. The
decoder makes every supertype a lower index, so `a + 1` steps reach the root. -/
def isSubtype (a b : ℕ) : Bool :=
  ParentSearch.search ts.supertype (fun c => ts.canonId c == ts.canonId b) (a + 1) a

/-- Are two value types the same, concrete references decided canonically? -/
def valTypesEqual (a b : ValType) : Bool :=
  a == b ||
    (a.isConcrete && b.isConcrete && a.isNonNullRef == b.isNonNullRef &&
      a.isExact == b.isExact && ts.typesEqual a.concreteIndex b.concreteIndex)

/-- Do two signatures denote the same type? -/
def funcTypesEqual (a b : FuncType) : Bool :=
  (a.params == b.params && a.results == b.results) ||
    (a.params.length == b.params.length && a.results.length == b.results.length &&
      (a.params.zip b.params).all (fun p => ts.valTypesEqual p.1 p.2) &&
      (a.results.zip b.results).all (fun p => ts.valTypesEqual p.1 p.2))

/-- The signature at a type index. -/
def funcSig (ti : ℕ) : Option FuncType :=
  match ts.compTypes[ti]? with
  | some (.func f) => some f
  | _ => none

theorem funcSig_eq_some {ts : TypeSection} {ti : ℕ} {ft : FuncType} :
    ts.funcSig ti = some ft ↔ ts.compTypes[ti]? = some (.func ft) := by
  unfold funcSig
  split
  · next h => simp [h]
  · next h => simpa using fun heq => h ft heq

/-- The fields of the struct at a type index. -/
def structFields (ti : ℕ) : Option (List FieldType) :=
  match ts.compTypes[ti]? with
  | some (.struct fs) => some fs
  | _ => none

/-- The element field of the array at a type index. -/
def arrayField (ti : ℕ) : Option FieldType :=
  match ts.compTypes[ti]? with
  | some (.array f) => some f
  | _ => none

/-- Resolve a heap type to a head; `none` when a concrete index is out of range. -/
def refHead : HeapType → Option RefHeap
  | .func => some .func
  | .external => some .external
  | .noFunc => some .noFunc
  | .noExternal => some .noExternal
  | .noExn => some .noExn
  | .any => some .any
  | .eq => some .eq
  | .i31 => some .i31
  | .struct => some .struct
  | .array => some .array
  | .none => some .none
  | .exn => some .exn
  | .concrete ti | .exact ti => (ts.compTypes[ti]?).map (·.kind.head)

/-- The groups type identity is computed over. A section with no recorded extents is all
singletons. -/
def groups : List RecGroup :=
  if ts.recGroups.isEmpty then (List.range ts.compTypes.length).map (fun i => ⟨i, 1⟩)
  else ts.recGroups

end TypeSection

/-! ## Modules -/

/-- A decoded module. -/
structure Module extends TypeSection where
  functions : List ℕ := []
  tags : List ℕ := []
  imports : List Import := []
  exports : List Export := []
  code : List Code := []
  globals : List GlobalType := []
  globalInits : List ConstExpr := []
  memories : List MemoryType := []
  tables : List TableType := []
  data : List DataSegment := []
  elements : List Element := []
  start : Option ℕ := none
  deriving DecidableEq, Repr

namespace Import

def isFunc (i : Import) : Bool := i.ty matches .func _
def isTable (i : Import) : Bool := i.ty matches .table _
def isMemory (i : Import) : Bool := i.ty matches .memory _
def isGlobal (i : Import) : Bool := i.ty matches .global _
def isTag (i : Import) : Bool := i.ty matches .tag _

end Import

namespace Module

variable (m : Module)

def importedFuncCount : ℕ := m.imports.countP Import.isFunc
def importedTagCount : ℕ := m.imports.countP Import.isTag
def importedTableCount : ℕ := m.imports.countP Import.isTable
def importedMemoryCount : ℕ := m.imports.countP Import.isMemory

/-- The function imports, in index order. -/
def funcImports : List Import := m.imports.filter Import.isFunc

/-- The tag imports, in index order. -/
def tagImports : List Import := m.imports.filter Import.isTag

/-- The signature of a function, imports first. -/
def funcType (index : ℕ) : Option FuncType :=
  match m.funcImports[index]? with
  | some { ty := .func ft, .. } => some ft
  | _ => (m.functions[index - m.importedFuncCount]?).bind m.funcSig

/-- The type index of a defined function; `none` for an import, whose actual type is its
exporter's. -/
def funcTypeIndex (funcIndex : ℕ) : Option ℕ :=
  if funcIndex < m.importedFuncCount then none
  else m.functions[funcIndex - m.importedFuncCount]?

/-- The static type index of a function: its definition's, or the one an import was declared
with. -/
def declaredFuncTypeIndex (funcIndex : ℕ) : Option ℕ :=
  if m.importedFuncCount ≤ funcIndex then m.funcTypeIndex funcIndex
  else (m.funcImports[funcIndex]?).bind (·.funcTypeIndex)

/-- Is a reference to the function exact? Only an inexact import may stand for a strict subtype. -/
def funcRefIsExact (funcIndex : ℕ) : Bool :=
  if m.importedFuncCount ≤ funcIndex then true
  else (m.funcImports[funcIndex]?).any (·.exact)

/-- The type index a tag names. -/
def tagTypeIndex (tagIndex : ℕ) : Option ℕ :=
  match m.tagImports[tagIndex]? with
  | some i => i.funcTypeIndex
  | none => m.tags[tagIndex - m.importedTagCount]?

/-- The function type a tag names. -/
def tagType (tagIndex : ℕ) : Option FuncType :=
  match m.tagImports[tagIndex]? with
  | some { ty := .tag ft, .. } => some ft
  | _ => (m.tags[tagIndex - m.importedTagCount]?).bind m.funcSig

end Module

end Wasmrt
