import Wasmrt.Decode.Decoded
import Wasmrt.Wat.EmitTypes

/-!
# What has been collected

What the fields of a module say can be told without any of its bytes: the value types get the families of their types, the names
are texts, and the expressions are expressions. The writers of the entries of sections write the bytes of just that.

## Main definitions

* `Described`: what has been collected, with its value types, names and expressions as the decoder has them.
* `ModuleBuild.Describes`: what a build describes.

## Main results

* `writes_import`, `writes_table`, `writes_export`, `writes_elem`, `writes_body`, `writes_data`: the writers of the entries.
-/

namespace Wasmrt.Wat

open Leb128 Recognizer Binary

/-! ## The module that has been collected -/

/-- A constant expression, if its instructions are instructions. -/
def describeExpr (instrs : List UInt8) : Option ConstBytes :=
  match decodeBody (emitConstExpr instrs) with
  | .ok _ => some (emitConstExpr instrs)
  | .error _ => none

/-- Something that may be missing, and is what it says if it is not. -/
def describeOption {α β : Type} (f : α → Option β) : Option α → Option (Option β)
  | none => some none
  | some a => (f a).map some

/-- Limits, of which the page size is a power of two that a `u64` can hold. -/
def describeMemory (m : MemoryDef) : Option MemoryType := do
  guard ((m.pageSizeLog2.all fun e => decide (e.toNat < 64)) = true)
  some ⟨⟨m.min.toNat, m.max.map (·.toNat), m.shared, m.is64⟩, m.pageSizeLog2.map (·.toNat)⟩

section Kinds

variable (types : TypeSection) (kinds : List CompKind)

def describeTableType (t : TableDef) : Option Binary.TableType := do
  let element ← resolve kinds t.elem
  guard (element.isRef = true)
  some { element, limits := ⟨t.min.toNat, t.max.map (·.toNat), false, t.is64⟩ }

/-- A table. One of a type without a default value has an initialiser. -/
def describeTable (t : TableDef) : Option Binary.TableType := do
  let tt ← describeTableType kinds t
  let init ← describeOption describeExpr t.init
  guard (init = none → tt.element.isNonNullRef = false)
  some { tt with init }

def describeGlobalType (valtype : ValType) (mutable : Bool) : Option GlobalType :=
  (resolve kinds valtype).map fun content => ⟨content, mutable⟩

def describeGlobal (g : GlobalDef) : Option (GlobalType × ConstBytes) := do
  let gt ← describeGlobalType kinds g.valtype g.mutable
  let init ← describeExpr g.init
  some (gt, init)

/-- A type index, with the signature that it names. -/
def describeSig (ti : BitVec 32) : Option (ℕ × FuncType) := (types.funcSig ti.toNat).map fun ft => (ti.toNat, ft)

def describeItem : ImportItem → Option (Binary.Extern × Option ℕ)
  | .func i => (describeSig types i.typeIndex).map fun p => (.func p.2, some p.1)
  | .table i => (describeTableType kinds i.t).map fun tt => (.table tt, none)
  | .mem i => (describeMemory i.m).map fun mt => (.memory mt, none)
  | .global i => (describeGlobalType kinds i.valtype i.mutable).map fun gt => (.global gt, none)
  | .tag i => (describeSig types i.typeIndex).map fun p => (.tag p.2, some p.1)

/-- Must the type of an import be met exactly? -/
def ImportItem.exact : ImportItem → Bool
  | func i => i.exact
  | _ => false

def describeImport (i : ImportItem) : Option Binary.Import := do
  let module ← fromUtf8 i.ref.module
  let name ← fromUtf8 i.ref.name
  let ty ← describeItem types kinds i
  some ⟨module, name, ty.1, ty.2, i.exact⟩

/-- A function: as many locals as it declares, and its instructions. -/
def describeCode (f : Func) : Option Code := do
  let locals ← f.locals.mapM (resolve kinds)
  guard (locals.length ≤ maxDeclaredLocals)
  match decodeBody (f.body ++ [endByte]) with
  | .ok ir => some ⟨locals.map (⟨1, ·⟩), ir⟩
  | .error _ => none

/-- The entries of an element segment. A segment that lists functions is one of functions. -/
def describeItems (names : List (Option (List UInt8))) (elemType : ValType) :
    ElemItems → Option (List ℕ × List ConstBytes × ValType)
  | .funcs fs => do
    guard (elemType = .ref .func true)
    let funcs ← fs.mapM fun f => (resolveByName names f).toOption
    some (funcs.map (·.toNat), [], .ref .func false)
  | .exprs es => do
    let ty ← resolve kinds elemType
    guard (ty.isRef = true)
    let exprs ← es.mapM describeExpr
    some ([], exprs, ty)

/-- An element segment. Whether it is written in a form that names its table or not, it is the same. -/
def describeElem (names : List (Option (List UInt8))) (e : ElemDef) : Option Binary.Element := do
  let offset ← describeOption describeExpr e.offset
  let items ← describeItems kinds names e.elemType e.items
  some
    { mode := if offset.isSome then .active else if e.declarative then .declarative else .passive
      tableIndex := if offset.isSome then e.tableIndex.toNat else 0
      offsetExpr := offset.getD []
      funcs := items.1
      exprs := items.2.1
      elemType := items.2.2 }

end Kinds

def describeData (d : DataSeg) : Option Binary.DataSegment := do
  let offset ← describeOption describeExpr d.offset
  some ⟨offset.isSome, if offset.isSome then d.memIndex.toNat else 0, offset.getD [], d.bytes⟩

def describeExport (d : Decoder) (e : ExportDef) : Option Binary.Export := do
  let name ← fromUtf8 e.name
  let kind ← externKind e.kind
  let ty ← (d.externAt e.index.toNat kind).toOption
  some ⟨name, e.index.toNat, ty⟩

/-- What has been collected, with its value types, names and expressions as the decoder has them. -/
structure Described where
  types : TypeSection
  imports : List Binary.Import
  functions : List (ℕ × FuncType)
  tables : List Binary.TableType
  memories : List MemoryType
  tags : List (ℕ × FuncType)
  globals : List (GlobalType × ConstBytes)
  exports : List Binary.Export
  start : Option ℕ
  elements : List Binary.Element
  code : List Code
  data : List Binary.DataSegment

namespace Described

variable (x : Described)

/-- The families of the types. -/
def kinds : List CompKind := x.types.compTypes.map CompType.kind

/-- The index spaces: the imports, and what is defined behind them. -/
def decoder : Decoder where
  types := x.types
  typeKinds := x.kinds
  funcSpace := x.imports.filterMap (·.ty.func?) ++ x.functions.map (·.2)
  tableSpace := x.imports.filterMap (·.ty.table?) ++ x.tables
  memSpace := x.imports.filterMap (·.ty.memory?) ++ x.memories
  globalSpace := x.imports.filterMap (·.ty.global?) ++ x.globals.map (·.1)
  tagSpace := x.imports.filterMap (·.ty.tag?) ++ x.tags.map (·.2)
  globalInitSpace := x.globals.map (·.2)

/-- The module. -/
def toModule : Binary.Module :=
  { x.types with
    functions := x.functions.map (·.1)
    tags := x.tags.map (·.1)
    imports := x.imports
    exports := x.exports
    code := x.code
    globals := x.decoder.globalSpace
    globalInits := x.decoder.globalInitSpace
    memories := x.decoder.memSpace
    tables := x.decoder.tableSpace
    data := x.data
    elements := x.elements
    start := x.start }

end Described

/-- The module that has been collected, if it can be told. Where the code names a data segment, the number of segments must be
written: the assembler does so if it has noted that they are named, and there are some. -/
structure ModuleBuild.Describes (b : ModuleBuild) (x : Described) : Prop where
  types : ∃ gs, b.groups = some gs ∧ decodeTypeSection gs = .ok x.types
  imports : ∃ items, b.toImportLists.inOrder b.importOrder = .ok items ∧
    items.mapM (describeImport x.types x.kinds) = some x.imports
  functions : b.funcs.mapM (fun f => describeSig x.types f.typeIndex) = some x.functions
  tables : b.tables.mapM (describeTable x.kinds) = some x.tables
  memories : b.memories.mapM describeMemory = some x.memories
  tags : b.tags.mapM (describeSig x.types) = some x.tags
  globals : b.globals.mapM (describeGlobal x.kinds) = some x.globals
  exports : b.exports.mapM (describeExport x.decoder) = some x.exports
  start : describeOption (fun s => ((resolveByName b.funcNames s).toOption).map (·.toNat)) b.start = some x.start
  elements : b.elems.mapM (describeElem x.kinds b.funcNames) = some x.elements
  code : b.funcs.mapM (describeCode x.kinds) = some x.code
  data : b.datas.mapM describeData = some x.data
  dataCount : (b.needsDataCount = true ∧ b.datas ≠ []) ∨ ∀ c ∈ x.code, ∀ i ∈ c.ir, Binary.Parts.namesData i = false

/-! ## The pieces -/

theorem constExprBytes_of_describe {instrs : List UInt8} {e : ConstBytes} (h : describeExpr instrs = some e) :
    ConstExprBytes e (emitConstExpr instrs) := by
  unfold describeExpr at h
  split at h
  · next ir hir =>
    obtain rfl := Option.some.inj h
    exact ⟨rfl, ir, decodeBody_eq_ok.mp hir⟩
  · cases h

theorem describeOption_eq_some {α β : Type} {f : α → Option β} {o : Option α} {o' : Option β}
    (h : describeOption f o = some o') : (o = none ∧ o' = none) ∨ ∃ a b, o = some a ∧ o' = some b ∧ f a = some b := by
  cases o with
  | none => exact .inl ⟨rfl, (Option.some.inj h).symm⟩
  | some a =>
    obtain ⟨b, hb, rfl⟩ := Option.map_eq_some_iff.mp h
    exact .inr ⟨a, b, rfl, rfl, hb⟩

theorem writes_name {src : List UInt8} {name : String} (h : fromUtf8 src = some name) :
    Emits (nameBytes src) (NameBytes name) := by
  obtain rfl := fromUtf8_eq_some.mp h
  exact emits_blob _

/-- The flags as the assembler sets them, the last one behind the others. -/
theorem flags_eq (max shared is64 : Bool) :
    (max.toUInt8 ||| (shared.toUInt8 <<< 1) ||| (is64.toUInt8 <<< 2)) = limitsFlag max shared is64 false ∧
      limitsFlag max shared is64 false ||| 0x08 = limitsFlag max shared is64 true := by
  revert max shared is64
  decide

theorem emits_limits {min : BitVec 64} {max : Option (BitVec 64)} {shared is64 : Bool} :
    Emits (emitLimits min max shared is64) fun w => ∃ w₁ w₂,
      w = limitsFlag max.isSome shared is64 false :: (w₁ ++ w₂) ∧ OffsetBytes min.toNat w₁ ∧
        OptBytes OffsetBytes (max.map (·.toNat)) w₂ := by
  have hmax : Emits (max.elim (.ok []) emitU64) (OptBytes OffsetBytes (max.map (·.toNat))) := by
    cases max with
    | none => exact emits_nothing
    | some v => exact emits_u64 v
  refine ((emits_byte _).cons ((emits_u64 min).cons hmax.singleton)).mono ?_
  rintro _ - ⟨_, _, rfl, rfl, w₁, w₂, rfl, hmin, hmax⟩
  refine ⟨w₁, w₂, ?_, hmin, hmax⟩
  rw [List.singleton_append, (flags_eq _ _ _).1]

theorem writes_limits {min : BitVec 64} {max : Option (BitVec 64)} {is64 : Bool} :
    Emits (emitLimits min max false is64) (LimitsBytes (⟨min.toNat, max.map (·.toNat), false, is64⟩, none)) := by
  refine emits_limits.mono ?_
  rintro _ - ⟨w₁, w₂, rfl, hmin, hmax⟩
  have hbytes : LimitsBytes (⟨min.toNat, max.map (·.toNat), false, is64⟩, none) (_ :: (w₁ ++ (w₂ ++ []))) :=
    .mk rfl hmin hmax rfl
  rw [List.append_nil, Option.isSome_map] at hbytes
  exact hbytes

theorem writes_memoryType {m : MemoryDef} {mt : MemoryType} (h : describeMemory m = some mt) :
    Emits (emitMemoryType m) (MemoryTypeBytes mt) := by
  obtain ⟨min, max, shared, is64, page⟩ := m
  simp only [describeMemory, Option.bind_eq_bind, Option.bind_eq_some_iff, Option.guard_eq_some'] at h
  obtain ⟨⟨⟩, hpage, h⟩ := h
  obtain rfl := Option.some.inj h
  obtain ⟨w, hw, hbytes⟩ := @emits_limits min max shared is64
  cases page with
  | none =>
    refine ⟨w, by rw [emitMemoryType, hw]; rfl, fun hroom => ?_⟩
    obtain ⟨w₁, w₂, rfl, hmin, hmax⟩ := hbytes hroom
    have hlimits : MemoryTypeBytes ⟨⟨min.toNat, max.map (·.toNat), shared, is64⟩, none⟩ (_ :: (w₁ ++ (w₂ ++ []))) :=
      .mk rfl hmin hmax rfl
    rw [List.append_nil, Option.isSome_map] at hlimits
    exact hlimits
  | some e =>
    refine ⟨w.modifyHead (· ||| 0x08) ++ (uleb (e.setWidth 64) ++ []), by rw [emitMemoryType, hw]; rfl, fun hroom => ?_⟩
    rw [List.length_append, List.length_modifyHead] at hroom
    obtain ⟨w₁, w₂, rfl, hmin, hmax⟩ := hbytes (by omega)
    obtain ⟨w₃, heq, hexp⟩ := emits_u32 e
    obtain rfl := Except.ok.inj heq
    have hlimits : MemoryTypeBytes ⟨⟨min.toNat, max.map (·.toNat), shared, is64⟩, some e.toNat⟩
        (_ :: (w₁ ++ (w₂ ++ uleb (e.setWidth 64)))) := .mk rfl hmin hmax ⟨hexp (by
          rw [List.length_append] at hroom
          omega), of_decide_eq_true hpage⟩
    rw [Option.isSome_map] at hlimits
    rw [List.modifyHead_cons, (flags_eq _ _ _).2, List.append_nil, List.cons_append, List.append_assoc]
    exact hlimits

variable {types : TypeSection} {kinds : List CompKind}

theorem writes_tableType {t : TableDef} {tt : Binary.TableType} (h : describeTableType kinds t = some tt) :
    Emits (emitTableType t) (TableTypeBytes kinds tt) := by
  simp only [describeTableType, Option.bind_eq_bind, Option.bind_eq_some_iff, Option.guard_eq_some'] at h
  obtain ⟨element, helement, ⟨⟩, href, h⟩ := h
  obtain rfl := Option.some.inj h
  refine ((writes_valType helement).cons writes_limits.singleton).mono ?_
  rintro _ - ⟨w, w', rfl, hw, hw'⟩
  exact .mk hw href hw' rfl

theorem writes_table {t : TableDef} {tt : Binary.TableType} (h : describeTable kinds t = some tt) :
    Emits (emitTable t (t.init.map emitConstExpr)) (TableBytes kinds tt) := by
  simp only [describeTable, Option.bind_eq_bind, Option.bind_eq_some_iff, Option.guard_eq_some'] at h
  obtain ⟨tt', htt, init, hinit, ⟨⟩, hdefault, h⟩ := h
  obtain rfl := Option.some.inj h
  rcases describeOption_eq_some hinit with ⟨hnone, rfl⟩ | ⟨instrs, e, hsome, rfl, he⟩
  · rw [hnone]
    refine (writes_tableType htt).mono fun w _ hw => ?_
    have hplain := TableBytes.plain hw (hdefault rfl)
    rwa [← (hw.head).1]
  · rw [hsome]
    refine ((emits_byte _).cons ((emits_byte _).cons ((writes_tableType htt).cons (emits_bytes _).singleton))).mono ?_
    rintro _ - ⟨_, _, rfl, rfl, _, _, rfl, rfl, w, _, rfl, hw, rfl⟩
    change TableBytes kinds _ (0x40 :: 0x00 :: (w ++ _))
    exact .init hw (constExprBytes_of_describe he)

theorem writes_globalType {v : ValType} {mutable : Bool} {gt : GlobalType} (h : describeGlobalType kinds v mutable = some gt) :
    Emits (emitGlobalType v mutable) (GlobalTypeBytes kinds gt) := by
  obtain ⟨content, hcontent, rfl⟩ := Option.map_eq_some_iff.mp h
  refine ((writes_valType hcontent).cons (emits_byte _).singleton).mono ?_
  rintro _ - ⟨w, _, rfl, hw, rfl⟩
  exact .mk hw

theorem writes_global {g : GlobalDef} {p : GlobalType × ConstBytes} (h : describeGlobal kinds g = some p) :
    Emits (emitGlobal g (emitConstExpr g.init)) (GlobalBytes kinds p) := by
  simp only [describeGlobal, Option.bind_eq_bind, Option.bind_eq_some_iff] at h
  obtain ⟨gt, hgt, e, he, h⟩ := h
  obtain rfl := Option.some.inj h
  refine ((writes_globalType hgt).cons (emits_bytes _).singleton).mono ?_
  rintro _ - ⟨w, _, rfl, hw, rfl⟩
  exact .mk hw (constExprBytes_of_describe he)

theorem writes_sig {d : Decoder} {ti : BitVec 32} {p : ℕ × FuncType} (h : describeSig d.types ti = some p) :
    Emits (emitU32 ti) (FuncIndexBytes d p) := by
  obtain ⟨ft, hft, rfl⟩ := Option.map_eq_some_iff.mp h
  exact (emits_u32 ti).mono fun _ _ hw => ⟨hw, Decoder.funcTypeAt_eq_ok.mpr hft⟩

theorem writes_tag {d : Decoder} {ti : BitVec 32} {p : ℕ × FuncType} (h : describeSig d.types ti = some p) :
    Emits (emitTag ti) (TagIndexBytes d p) := by
  refine ((emits_byte _).cons (writes_sig h).singleton).mono ?_
  rintro _ - ⟨_, w, rfl, rfl, hw⟩
  exact .mk hw

theorem writes_import {d : Decoder} {i : ImportItem} {imp : Binary.Import}
    (h : describeImport d.types d.typeKinds i = some imp) : Emits i.emit (ImportBytes d imp) := by
  simp only [describeImport, Option.bind_eq_bind, Option.bind_eq_some_iff] at h
  obtain ⟨module, hmodule, name, hname, ty, hty, h⟩ := h
  obtain rfl := Option.some.inj h
  suffices Emits i.emitType fun w => ∃ kind w', ImportTypeBytes d kind ty w' ∧
      ((i.exact = false ∧ w = externByte kind :: w') ∨ (i.exact = true ∧ kind = .func ∧ w = exactFunc :: w')) by
    refine ((writes_name hmodule).cons ((writes_name hname).cons this.singleton)).mono ?_
    rintro _ - ⟨w₁, _, rfl, hw₁, w₂, _, rfl, hw₂, kind, w₃, hw₃, ⟨hexact, rfl⟩ | ⟨hexact, rfl, rfl⟩⟩
    · rw [hexact]
      exact .mk hw₁ hw₂ hw₃
    · rw [hexact]
      exact .exact hw₁ hw₂ hw₃
  cases i with
  | func i =>
    obtain ⟨p, hp, rfl⟩ := Option.map_eq_some_iff.mp hty
    refine ((emits_byte _).cons (writes_sig hp).singleton).mono ?_
    rintro _ - ⟨_, w, rfl, rfl, hw⟩
    refine ⟨.func, w, .func hw, ?_⟩
    change (i.exact = false ∧ _) ∨ (i.exact = true ∧ _)
    cases i.exact
    · exact .inl ⟨rfl, rfl⟩
    · exact .inr ⟨rfl, rfl, rfl⟩
  | table i =>
    obtain ⟨tt, htt, rfl⟩ := Option.map_eq_some_iff.mp hty
    refine ((emits_byte _).cons (writes_tableType htt).singleton).mono ?_
    rintro _ - ⟨_, w, rfl, rfl, hw⟩
    exact ⟨.table, w, .table hw, .inl ⟨rfl, rfl⟩⟩
  | mem i =>
    obtain ⟨mt, hmt, rfl⟩ := Option.map_eq_some_iff.mp hty
    refine ((emits_byte _).cons (writes_memoryType hmt).singleton).mono ?_
    rintro _ - ⟨_, w, rfl, rfl, hw⟩
    exact ⟨.memory, w, .memory hw, .inl ⟨rfl, rfl⟩⟩
  | global i =>
    obtain ⟨gt, hgt, rfl⟩ := Option.map_eq_some_iff.mp hty
    refine ((emits_byte _).cons (writes_globalType hgt).singleton).mono ?_
    rintro _ - ⟨_, w, rfl, rfl, hw⟩
    exact ⟨.global, w, .global hw, .inl ⟨rfl, rfl⟩⟩
  | tag i =>
    obtain ⟨p, hp, rfl⟩ := Option.map_eq_some_iff.mp hty
    refine ((emits_byte _).cons (writes_tag hp)).mono ?_
    rintro _ - ⟨_, w, rfl, rfl, hw⟩
    exact ⟨.tag, w, .tag hw, .inl ⟨rfl, rfl⟩⟩

theorem writes_export {d : Decoder} {e : ExportDef} {ex : Binary.Export} (h : describeExport d e = some ex) :
    Emits (emitExport e) (ExportBytes d ex) := by
  simp only [describeExport, Option.bind_eq_bind, Option.bind_eq_some_iff] at h
  obtain ⟨name, hname, kind, hkind, ty, hty, h⟩ := h
  obtain rfl := Option.some.inj h
  refine ((writes_name hname).cons ((emits_byte _).cons (emits_u32 e.index).singleton)).mono ?_
  rintro _ - ⟨w₁, _, rfl, hw₁, _, w₂, rfl, rfl, hw₂⟩
  rw [externKind_eq_some.mp hkind]
  exact .mk hw₁ hw₂ (toOption_eq_some.mp hty)

theorem writes_data {d : DataSeg} {seg : Binary.DataSegment} (h : describeData d = some seg) :
    Emits (emitData d (d.offset.map emitConstExpr)) (DataBytes seg) := by
  simp only [describeData, Option.bind_eq_bind, Option.bind_eq_some_iff] at h
  obtain ⟨offset, hoffset, h⟩ := h
  obtain rfl := Option.some.inj h
  rcases describeOption_eq_some hoffset with ⟨hnone, rfl⟩ | ⟨instrs, e, hsome, rfl, he⟩
  · rw [hnone]
    refine ((emits_len (by decide)).cons (emits_blob d.bytes)).mono ?_
    rintro _ - ⟨w, w', rfl, hw, hw'⟩
    exact .passive hw hw'
  · rw [hsome]
    have hexpr := constExprBytes_of_describe he
    by_cases hzero : d.memIndex = 0
    · have hhead : Emits (inTurn [emitLen 0, .ok (emitConstExpr instrs)]) fun w => ∃ w₁, w = w₁ ++ emitConstExpr instrs ∧
          IndexBytes 0 w₁ := by
        refine ((emits_len (by decide)).cons (emits_bytes _).singleton).mono ?_
        rintro _ - ⟨w₁, _, rfl, hw₁, rfl⟩
        exact ⟨w₁, rfl, hw₁⟩
      simp only [emitData, Option.map_some, if_pos hzero]
      refine (hhead.cons (emits_blob d.bytes)).mono ?_
      rintro _ - ⟨_, w₂, rfl, ⟨w₁, rfl, hw₁⟩, hw₂⟩
      rw [List.append_assoc, hzero]
      exact .active hw₁ hexpr hw₂
    · have hhead : Emits (inTurn [emitLen 2, emitU32 d.memIndex, .ok (emitConstExpr instrs)]) fun w => ∃ w₁ w₂,
          w = w₁ ++ (w₂ ++ emitConstExpr instrs) ∧ IndexBytes 2 w₁ ∧ IndexBytes d.memIndex.toNat w₂ := by
        refine ((emits_len (by decide)).cons ((emits_u32 _).cons (emits_bytes _).singleton)).mono ?_
        rintro _ - ⟨w₁, _, rfl, hw₁, w₂, _, rfl, hw₂, rfl⟩
        exact ⟨w₁, w₂, rfl, hw₁, hw₂⟩
      simp only [emitData, Option.map_some, if_neg hzero]
      refine (hhead.cons (emits_blob d.bytes)).mono ?_
      rintro _ - ⟨_, w₃, rfl, ⟨w₁, w₂, rfl, hw₁, hw₂⟩, hw₃⟩
      rw [List.append_assoc, List.append_assoc]
      exact .explicit hw₁ hw₂ hexpr hw₃

/-! ### Element segments -/

theorem writes_named {names : List (Option (List UInt8))} {s : Sexpr} {i : BitVec 32}
    (h : (resolveByName names s).toOption = some i) : Emits (emitNamed names s) (IndexBytes i.toNat) := by
  rw [emitNamed, toOption_eq_some.mp h]
  exact emits_u32 i

theorem writes_funcs {names : List (Option (List UInt8))} {fs : List Sexpr} {funcs : List (BitVec 32)}
    (h : fs.mapM (fun f => (resolveByName names f).toOption) = some funcs) :
    Emits (emitVec (emitNamed names) fs) (VecBytes IndexBytes (funcs.map (·.toNat))) :=
  emits_vec (List.forall₂_map_right_iff.mpr ((mapM_eq_some.mp h).imp fun _ _ => writes_named)) fun _ _ => encodes_ne_nil

theorem writes_exprs {es : List (List UInt8)} {exprs : List ConstBytes} (h : es.mapM describeExpr = some exprs) :
    Emits (emitVec (fun expr => .ok (emitConstExpr expr)) es) (VecBytes ConstExprBytes exprs) :=
  emits_vec ((mapM_eq_some.mp h).imp fun _ _ he => .of_ok fun _ => constExprBytes_of_describe he)
    fun _ _ => ConstExprBytes.ne_nil

theorem writes_elemType {v ty : ValType} (h : resolve kinds v = some ty) (href : ty.isRef = true) :
    Emits (emitValType v) (ElemTypeBytes kinds ty) := (writes_valType h).mono fun _ _ hw => ⟨hw, href⟩

section Forms

variable {names : List (Option (List UInt8))} {table : BitVec 32} {offset : Option (List UInt8)}
  {offset' : Option ConstBytes} {declarative : Bool}

/-- The forms that list functions. The first does not name its table. -/
theorem writes_elem_funcs {fs : List Sexpr} {funcs : List (BitVec 32)} (hoffset : describeOption describeExpr offset = some offset')
    (hfuncs : fs.mapM (fun f => (resolveByName names f).toOption) = some funcs) :
    Emits (ElemDef.emit ⟨table, offset, .ref .func true, .funcs fs, declarative⟩ names) (ElementBytes kinds
      { mode := if offset'.isSome then .active else if declarative then .declarative else .passive
        tableIndex := if offset'.isSome then table.toNat else 0
        offsetExpr := offset'.getD []
        funcs := funcs.map (·.toNat)
        exprs := []
        elemType := .ref .func false }) := by
  have hvec := writes_funcs hfuncs
  rcases describeOption_eq_some hoffset with ⟨rfl, rfl⟩ | ⟨instrs, expr, rfl, rfl, hexpr⟩
  · cases declarative
    · refine ((emits_len (show 1 < 2 ^ 32 by decide)).cons ((emits_byte 0x00).cons hvec.singleton)).mono ?_
      rintro _ - ⟨w, _, rfl, hw, _, w', rfl, rfl, hw'⟩
      exact .passive hw hw'
    · refine ((emits_len (show 3 < 2 ^ 32 by decide)).cons ((emits_byte 0x00).cons hvec.singleton)).mono ?_
      rintro _ - ⟨w, _, rfl, hw, _, w', rfl, rfl, hw'⟩
      exact .declarative hw hw'
  · replace hexpr := constExprBytes_of_describe hexpr
    generalize hx : ElemDef.explicitTable ⟨table, some instrs, .ref .func true, .funcs fs, declarative⟩ = x
    have hform : ElemDef.emit ⟨table, some instrs, .ref .func true, .funcs fs, declarative⟩ names =
        inTurn [emitLen (x.toNat * 2), inTurn [if x then emitU32 table else .ok [], .ok (emitConstExpr instrs),
          if x then emitByte 0x00 else .ok []], emitVec (emitNamed names) fs] := by
      rw [← hx]
      rfl
    rw [hform]
    cases x
    · -- the first table is not named
      have hzero : table = 0 := by simpa [ElemDef.explicitTable, ElemItems.useExprs] using hx
      refine ((emits_len (by decide)).cons ((emits_nothing.cons ((emits_bytes _).cons
        emits_nothing.singleton)).cons hvec.singleton)).mono ?_
      rintro _ - ⟨w, _, rfl, hw, _, w', rfl, ⟨_, _, rfl, rfl, _, _, rfl, rfl, rfl⟩, hw'⟩
      rw [List.nil_append, List.append_nil, hzero]
      exact .active hw hexpr hw'
    · refine ((emits_len (by decide)).cons (((emits_u32 table).cons ((emits_bytes _).cons
        (emits_byte 0x00).singleton)).cons hvec.singleton)).mono ?_
      rintro _ - ⟨w, _, rfl, hw, _, w', rfl, ⟨w₁, _, rfl, hw₁, _, _, rfl, rfl, rfl⟩, hw'⟩
      rw [List.append_assoc, List.append_assoc]
      exact .explicit hw hw₁ hexpr hw'

/-- The forms of expressions. The first does not name its table, nor its type, which is that of functions. -/
theorem writes_elem_exprs {elemType ty : ValType} {es : List (List UInt8)} {exprs : List ConstBytes}
    (hoffset : describeOption describeExpr offset = some offset') (hty : resolve kinds elemType = some ty)
    (href : ty.isRef = true) (hexprs : es.mapM describeExpr = some exprs) :
    Emits (ElemDef.emit ⟨table, offset, elemType, .exprs es, declarative⟩ names) (ElementBytes kinds
      { mode := if offset'.isSome then .active else if declarative then .declarative else .passive
        tableIndex := if offset'.isSome then table.toNat else 0
        offsetExpr := offset'.getD []
        funcs := []
        exprs
        elemType := ty }) := by
  have hvec := writes_exprs hexprs
  have htype := writes_elemType hty href
  rcases describeOption_eq_some hoffset with ⟨rfl, rfl⟩ | ⟨instrs, expr, rfl, rfl, hexpr⟩
  · cases declarative
    · refine ((emits_len (show 5 < 2 ^ 32 by decide)).cons (htype.cons hvec.singleton)).mono ?_
      rintro _ - ⟨w, _, rfl, hw, w₁, w', rfl, hw₁, hw'⟩
      exact .passiveExprs hw hw₁ hw'
    · refine ((emits_len (show 7 < 2 ^ 32 by decide)).cons (htype.cons hvec.singleton)).mono ?_
      rintro _ - ⟨w, _, rfl, hw, w₁, w', rfl, hw₁, hw'⟩
      exact .declarativeExprs hw hw₁ hw'
  · replace hexpr := constExprBytes_of_describe hexpr
    generalize hx : ElemDef.explicitTable ⟨table, some instrs, elemType, .exprs es, declarative⟩ = x
    have hform : ElemDef.emit ⟨table, some instrs, elemType, .exprs es, declarative⟩ names =
        inTurn [emitLen (4 + x.toNat * 2), inTurn [if x then emitU32 table else .ok [], .ok (emitConstExpr instrs),
          if x then emitValType elemType else .ok []], emitVec (fun expr => .ok (emitConstExpr expr)) es] := by
      rw [← hx]
      rfl
    rw [hform]
    cases x
    · -- the first table is not named, nor are functions
      obtain ⟨hzero, rfl⟩ : table = 0 ∧ elemType = .ref .func true := by
        simpa [ElemDef.explicitTable, ElemItems.useExprs] using hx
      obtain rfl := Option.some.inj hty
      refine ((emits_len (by decide)).cons ((emits_nothing.cons ((emits_bytes _).cons
        emits_nothing.singleton)).cons hvec.singleton)).mono ?_
      rintro _ - ⟨w, _, rfl, hw, _, w', rfl, ⟨_, _, rfl, rfl, _, _, rfl, rfl, rfl⟩, hw'⟩
      rw [List.nil_append, List.append_nil, hzero]
      exact .activeExprs hw hexpr hw'
    · refine ((emits_len (by decide)).cons (((emits_u32 table).cons ((emits_bytes _).cons
        htype.singleton)).cons hvec.singleton)).mono ?_
      rintro _ - ⟨w, _, rfl, hw, _, w', rfl, ⟨w₁, _, rfl, hw₁, _, w₂, rfl, rfl, hw₂⟩, hw'⟩
      rw [List.append_assoc, List.append_assoc]
      exact .explicitExprs hw hw₁ hexpr hw₂ hw'

/-- Each of the eight forms is read back as the segment it is a form of. -/
theorem writes_elem {e : ElemDef} {el : Binary.Element} (h : describeElem kinds names e = some el) :
    Emits (e.emit names) (ElementBytes kinds el) := by
  obtain ⟨table, offset, elemType, items, declarative⟩ := e
  simp only [describeElem, Option.bind_eq_bind, Option.bind_eq_some_iff] at h
  obtain ⟨offset', hoffset, items', hitems, h⟩ := h
  obtain rfl := Option.some.inj h
  cases items with
  | funcs fs =>
    simp only [describeItems, Option.bind_eq_bind, Option.bind_eq_some_iff, Option.guard_eq_some'] at hitems
    obtain ⟨⟨⟩, rfl, funcs, hfuncs, hitems⟩ := hitems
    obtain rfl := Option.some.inj hitems
    exact writes_elem_funcs hoffset hfuncs
  | exprs es =>
    simp only [describeItems, Option.bind_eq_bind, Option.bind_eq_some_iff, Option.guard_eq_some'] at hitems
    obtain ⟨ty, hty, ⟨⟩, href, exprs, hexprs, hitems⟩ := hitems
    obtain rfl := Option.some.inj hitems
    exact writes_elem_exprs hoffset hty href hexprs

end Forms

/-! ### Code -/

/-- The body of a function is read back with a run for each of its locals. -/
theorem writes_body {f : Func} {c : Code} (h : describeCode kinds f = some c) :
    Emits (encodeBody f) (EntryBytes kinds c) := by
  simp only [describeCode, Option.bind_eq_bind, Option.bind_eq_some_iff, Option.guard_eq_some'] at h
  obtain ⟨locals, hlocals, ⟨⟩, hcount, h⟩ := h
  split at h
  · next ir hir =>
    obtain rfl := Option.some.inj h
    have hrun : List.Forall₂ (fun t l => Emits (inTurn [emitLen 1, emitValType t]) (LocalBytes kinds l)) f.locals
        (locals.map (⟨1, ·⟩)) := by
      refine List.forall₂_map_right_iff.mpr ((mapM_eq_some.mp hlocals).imp fun t ty hty => ?_)
      refine ((emits_len (by decide)).cons (writes_valType hty).singleton).mono ?_
      rintro _ - ⟨w, w', rfl, hw, hw'⟩
      exact .mk hw hw'
    refine ((emits_vec hrun fun _ _ => LocalBytes.ne_nil kinds).cons ((emits_bytes _).cons (emits_byte _).singleton)).mono ?_
    rintro _ - ⟨w, _, rfl, hw, _, _, rfl, rfl, rfl⟩
    refine .mk hw ?_ (decodeBody_eq_ok.mp hir)
    -- every run is of one local
    simpa [Function.comp_def] using hcount
  · cases h

end Wasmrt.Wat
