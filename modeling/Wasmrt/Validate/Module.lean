import Wasmrt.Decode.TypeSection
import Wasmrt.Validate.ConstExpr

/-!
# Modules

Validation of a whole module: the proposals its declarations use, the type section, constant
expressions and segments, limits, and last the function bodies, which may reference the functions that
something outside the code section names.

The byte length of a constant expression, which bounds the operands of its checker, is a parameter.

## Main definitions

* `checkModuleFeatures`: the proposals of the declarations.
* `validateWithFeatures`: a whole module.
-/

namespace Wasmrt

/-! ## The proposals of declarations -/

/-- The proposals of a composite type; the types it mentions are gated one by one. -/
def gateCompType (ct : CompType) (features : Features) : ValidateResult Unit := do
  match ct with
  | .func ft => if 1 < ft.results.length then gate (some .multiValue) features
  | .struct _ | .array _ => gate (some .gc) features
  ct.valTypes.forM fun t => gateValType t features

/-- The proposals of a memory type. -/
def gateMemoryType (mt : MemoryType) (features : Features) : ValidateResult Unit := do
  if mt.limits.is64 then gate (some .memory64) features
  if mt.limits.shared then gate (some .threads) features
  if mt.statedPageSizeLog2.isSome then gate (some .customPageSizes) features

/-- The proposals of a table type. -/
def gateTableType (tt : TableType) (features : Features) : ValidateResult Unit := do
  gate (tableElementFeature tt.element) features
  if tt.limits.is64 then gate (some .memory64) features
  if tt.init.isSome then gate (some .functionReferences) features

/-- The proposals of an element segment. -/
def gateElement (elem : Element) (features : Features) : ValidateResult Unit := do
  if elem.mode != .active then gate (some .bulkMemory) features
  if !elem.exprs.isEmpty then gate (some .referenceTypes) features
  gate (tableElementFeature elem.elemType) features

/-- Does a type have a link of the custom-descriptors proposal? -/
def TypeLinks.isLinked (l : TypeLinks) : Bool := l.describes.isSome || l.descriptor.isSome

/-- Every proposal a module names through its declarations. -/
def checkModuleFeatures (m : Module) (features : Features) : ValidateResult Unit := do
  if features = .all then return
  m.compTypes.zipIdx.forM fun p => do
    if (m.supertype p.2).isSome then gate (some .gc) features
    gateCompType p.1 features
  if 1 < m.memories.length then gate (some .multiMemory) features
  m.memories.forM fun mt => gateMemoryType mt features
  if m.typeLinks.any TypeLinks.isLinked then gate (some .customDescriptors) features
  if m.imports.any (·.exact) then gate (some .customDescriptors) features
  if 1 < m.tables.length then gate (some .referenceTypes) features
  m.tables.forM fun tt => gateTableType tt features
  m.globals.forM fun g => gateValType g.content features
  if !m.tags.isEmpty then gate (some .exceptions) features
  m.imports.forM fun imp => if imp.isTag then gate (some .exceptions) features else pure ()
  m.data.forM fun seg => if !seg.active then gate (some .bulkMemory) features else pure ()
  m.elements.forM fun elem => gateElement elem features

/-! ## Declarations -/

section Declarations

variable (m : Module) (exprLen : ConstExpr → ℕ) (features : Features)

/-- Check a constant expression that declares the functions it references. -/
def validateDeclaring (expected : ValType) (selfIndex : ℕ) (refs : List Bool) (expr : ConstExpr) :
    ValidateResult (List Bool) := do
  let r ← validateConstExpr m expr (exprLen expr) expected selfIndex (some refs) features
  pure (r.getD refs)

/-- Check an offset expression, which declares nothing. -/
def validateOffset (is64 : Bool) (expr : ConstExpr) : ValidateResult Unit := do
  let _ ← validateConstExpr m expr (exprLen expr) (if is64 then .i64 else .i32) m.globals.length none
    features

/-- The imported globals; the defined ones follow, with their initialisers. -/
def Module.importedGlobalCount (m : Module) : ℕ := m.globals.length - m.globalInits.length

/-- A global's initialiser may read the globals before it. -/
def validateGlobalInit (refs : List Bool) (entry : ConstExpr × ℕ) : ValidateResult (List Bool) := do
  let selfIndex := m.importedGlobalCount + entry.2
  let g ← orError .undefinedGlobal m.globals[selfIndex]?
  validateDeclaring m exprLen features g.content selfIndex refs entry.1

/-- An element segment declares its functions, and an active one fits its table. -/
def validateElement (refs : List Bool) (elem : Element) : ValidateResult (List Bool) := do
  elem.funcs.forM fun f => ensure (m.funcType f).isSome .undefinedFunc
  let refs := elem.funcs.foldl (fun refs f => refs.set f true) refs
  let refs ← elem.exprs.foldlM (validateDeclaring m exprLen features elem.elemType m.globals.length) refs
  if elem.mode = .active then
    let tt ← orError .undefinedTable m.tables[elem.tableIndex]?
    ensure (subtypeOf m.toTypeSection elem.elemType tt.element) .typeMismatch
    validateOffset m exprLen features tt.limits.is64 elem.offsetExpr
  pure refs

/-- An active data segment targets a memory. -/
def validateData (seg : DataSegment) : ValidateResult Unit := do
  if seg.active then
    let mt ← orError .missingMemory m.memories[seg.memIndex]?
    validateOffset m exprLen features mt.limits.is64 seg.offsetExpr

/-- The limits of a memory, under the ceiling of its index type and page size. -/
def checkMemoryType (mt : MemoryType) : ValidateResult Unit := do
  let e := mt.pageSizeLog2
  ensure (e == 0 || e == defaultPageSizeLog2) .invalidPageSize
  let ceiling := maxPages mt.limits.is64 e
  ensure (decide (mt.limits.min ≤ ceiling)) .invalidLimits
  match mt.limits.max with
  | some mx => ensure (decide (mx ≤ ceiling ∧ mt.limits.min ≤ mx)) .invalidLimits
  | none => ensure (!mt.limits.shared) .invalidLimits

/-- A table's element type and limits, and its initialiser, which may read imported globals only. -/
def validateTable (refs : List Bool) (tt : TableType) : ValidateResult (List Bool) := do
  ensure tt.element.isRef .typeMismatch
  let ceiling := if tt.limits.is64 then 2 ^ 64 - 1 else 2 ^ 32 - 1
  ensure (decide (tt.limits.min ≤ ceiling) && tt.limits.max.all (decide <| · ≤ ceiling)) .invalidLimits
  ensure (tt.limits.max.all fun mx => decide (tt.limits.min ≤ mx)) .invalidLimits
  match tt.init with
  | some expr => validateDeclaring m exprLen features tt.element m.importedGlobalCount refs expr
  | none => pure refs

/-- A tag has no results. -/
def checkTag (tag : ℕ) : ValidateResult Unit := do
  let ft ← orError .undefinedType (m.tagType tag)
  ensure ft.results.isEmpty .invalidTag

/-- The start function takes and returns nothing. -/
def checkStart : ValidateResult Unit :=
  match m.start with
  | some f => do
    let ft ← orError .undefinedFunc (m.funcType f)
    ensure (ft.params.isEmpty && ft.results.isEmpty) .invalidStartFunction
  | none => pure ()

/-- The functions that exports make referenceable. -/
def exportedRefs : List Bool :=
  m.exports.foldl (fun refs e => if e.ty matches .func _ then refs.set e.index true else refs)
    (List.replicate (m.importedFuncCount + m.functions.length) false)

/-- Everything outside the code section. The result are the functions a body may reference. -/
def validateDeclarations : ValidateResult (List Bool) := do
  let refs ← m.globalInits.zipIdx.foldlM (validateGlobalInit m exprLen features) (exportedRefs m)
  let refs ← m.elements.foldlM (validateElement m exprLen features) refs
  m.data.forM (validateData m exprLen features)
  m.memories.forM checkMemoryType
  let refs ← m.tables.foldlM (validateTable m exprLen features) refs
  (List.range (m.importedTagCount + m.tags.length)).forM (checkTag m)
  ensure (decide (m.exports.map (·.name)).Nodup) .duplicateExport
  checkStart m
  pure refs

/-- One defined function. -/
def validateDefined (refs : List Bool) (entry : ℕ × Code) : ValidateResult Unit := do
  let ft ← orError .undefinedType (m.funcSig entry.1)
  validateFunction m ft entry.2 (some refs) features

/-- The reference types a cast names. -/
def Instr.castTypes : Instr → List RefType
  | .refTest rt | .refCast rt | .refCastDescEq rt => [rt]
  | .brOnCast _ src dst | .brOnCastFail _ src dst | .brOnCastDescEq _ src dst
  | .brOnCastDescEqFail _ src dst => [src, dst]
  | _ => []

/-- A stated type index fits the value types. -/
def HeapType.Fits : HeapType → Prop
  | .concrete t | .exact t => t ≤ ValType.maxConcreteIndex
  | _ => True

/-- Validate a module, rejecting every proposal that is not accepted. -/
def validateWithFeatures : ValidateResult Unit := do
  ensure (m.functions.length == m.code.length) .countMismatch
  checkModuleFeatures m features
  checkTypeIndexScope m.toTypeSection
  checkDescriptorLinks m.toTypeSection
  checkDeclaredSubtyping m.toTypeSection
  let refs ← validateDeclarations m exprLen features
  (m.functions.zip m.code).forM (validateDefined m features refs)

end Declarations

/-- What decoding ensures of a module: its type section is built from the groups that were read, and
the types its instructions state fit the value types. -/
structure Module.Decoded (m : Module) : Prop where
  types : ∃ rts : List (List SubType), rts.flatten.length < 2 ^ 32 ∧
    (∀ g ∈ rts, ∀ st ∈ g, st.comp.LengthsFit) ∧ decodeTypeSection rts = .ok m.toTypeSection
  fits : ∀ code ∈ m.code, ∀ i ∈ code.ir, ∀ rt ∈ i.castTypes, rt.heap.Fits

/-- The type section of a decoded module that passes the checks on it is well formed. -/
theorem Module.Decoded.wellFormed {m : Module} (hm : m.Decoded)
    (hscope : checkTypeIndexScope m.toTypeSection = .ok ())
    (hlinks : checkDescriptorLinks m.toTypeSection = .ok ()) : m.toTypeSection.WellFormed := by
  obtain ⟨rts, hcount, hlengths, hdecode⟩ := hm.types
  exact wellFormed_of_decode rts hcount hlengths hdecode hscope hlinks

end Wasmrt
