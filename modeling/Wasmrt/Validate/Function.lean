import Wasmrt.Library.StateChecks
import Wasmrt.Validate.Declarations
import Wasmrt.Validate.Signatures

/-!
# Function bodies

The type checker of function bodies: an abstract operand stack, a control stack, and the locals
initialised so far. Both stacks are lists with the top first; the state is lost with the first error.

Diagnostics (the offset and the types of a failure) are left out.

## Main definitions

* `StackType`, `Frame`, `FuncValidator`, `FuncContext`: the state of the checker and what it reads.
* `step`: one instruction.
* `validateFunction`: a whole body.
-/

namespace Wasmrt

open MonadExcept (ofExcept)

/-- Deepest nesting of control constructs. -/
def maxCtrlDepth : ℕ := 1024

/-- Most locals of a function, parameters included. -/
def maxLocals : ℕ := 50000

/-! ## The state of the checker -/

/-- An operand: a value type, or anything at all below the operands of unreachable code. -/
inductive StackType
  | val (t : ValType)
  | unknown
  deriving DecidableEq, Repr

/-- Is the operand known to be a reference? -/
def StackType.isRef : StackType → Bool
  | val t => t.isRef
  | unknown => false

/-- What opened a control frame. -/
inductive FrameKind
  | block | loop | if_ | else_ | tryTable | tryLegacy | catchLegacy
  deriving DecidableEq, Repr

/-- A control frame: its block type, the height of the operand stack below it, and the locals
initialised where it was opened. -/
structure Frame where
  kind : FrameKind
  start : List ValType
  end_ : List ValType
  height : ℕ
  isUnreachable : Bool := false
  initSnapshot : List Bool
  deriving DecidableEq, Repr

/-- The mutable state of the checker. -/
structure FuncValidator where
  localInit : List Bool
  vals : List StackType := []
  ctrls : List Frame := []
  deriving DecidableEq, Repr

/-- What a body is checked against. `refs` are the functions a body may reference, absent where any
may be; `bodyLen` is the number of instructions. -/
structure FuncContext where
  module : Module
  features : Features
  refs : Option (List Bool)
  locals : List ValType
  results : List ValType
  bodyLen : ℕ

/-- May a function be referenced? -/
def declaresRef (refs : Option (List Bool)) (f : ℕ) : Bool :=
  refs.all fun set => (set[f]?).getD false

/-- A check of a body. -/
abbrev Validation (α : Type) := EStateM ValidateError FuncValidator α

/-- Refuse the body unless a test holds. -/
def require (ok : Bool) (e : ValidateError) : Validation Unit := ofExcept (ensure ok e)

/-! ## The operand stack -/

/-- Push an operand. -/
def pushVal (v : StackType) : Validation Unit := modify fun s => { s with vals := v :: s.vals }

/-- Push an operand of a known type. -/
def pushValT (t : ValType) : Validation Unit := pushVal (.val t)

/-- Push operands, the last on top. -/
def pushVals (ts : List ValType) : Validation Unit := ts.forM pushValT

/-- Pop an operand. At the height of the frame there is none, unless the code is unreachable. -/
def popVal : Validation StackType := do
  let s ← get
  let top ← ofExcept (orError .controlUnderflow s.ctrls.head?)
  if s.vals.length = top.height then
    if top.isUnreachable then pure .unknown else throw .stackUnderflow
  else match s.vals with
    | v :: vals => do
      set { s with vals }
      pure v
    | [] => throw .stackUnderflow

variable (cx : FuncContext)

/-- Operand matching in the module of the body. -/
def FuncContext.subtype (sub sup : ValType) : Bool := subtypeOf cx.module.toTypeSection sub sup

/-- Pop an operand of an expected type. -/
def popExpect (expect : ValType) : Validation StackType := do
  let actual ← popVal
  match actual with
  | .val t => require (cx.subtype t expect) .typeMismatch
  | .unknown => pure ()
  pure actual

/-- Pop operands of expected types, the last from the top. -/
def popVals (ts : List ValType) : Validation Unit :=
  ts.reverse.forM fun t => do
    let _ ← popExpect cx t

/-- Pop a reference. -/
def popRef : Validation StackType := do
  let actual ← popVal
  match actual with
  | .val t => require t.isRef .typeMismatch
  | .unknown => pure ()
  pure actual

/-- Pop the operands of a signature and push its results. -/
def applySig (s : Sig) : Validation Unit := do
  popVals cx s.pop
  pushVals s.push

/-! ## The control stack -/

/-- Open a frame. -/
def pushCtrl (kind : FrameKind) (start end_ : List ValType) : Validation Unit := do
  let s ← get
  require (decide (s.ctrls.length < maxCtrlDepth)) .nestingTooDeep
  pushVals start
  modify fun s' => { s' with
    ctrls := { kind, start, end_, height := s.vals.length, initSnapshot := s.localInit } :: s'.ctrls }

/-- Close the innermost frame: its results are on the stack and nothing else. -/
def popCtrl : Validation Frame := do
  let top ← ofExcept (orError .controlUnderflow (← get).ctrls.head?)
  popVals cx top.end_
  let s ← get
  require (s.vals.length == top.height) .stackHeightMismatch
  set { s with ctrls := s.ctrls.tail }
  pure top

/-- The rest of the innermost frame cannot be reached. -/
def setUnreachable : Validation Unit :=
  modify fun s => match s.ctrls with
    | top :: rest => { s with
        vals := s.vals.drop (s.vals.length - top.height)
        ctrls := { top with isUnreachable := true } :: rest }
    | [] => s

/-- The frame a label names. -/
def frameAt (label : ℕ) : Validation Frame := do
  ofExcept (orError .unknownLabel (← get).ctrls[label]?)

/-- The operands a branch to a frame carries. -/
def Frame.labelTypes (f : Frame) : List ValType := if f.kind = .loop then f.start else f.end_

/-- The operands a branch to a label carries. -/
def labelTypesAt (label : ℕ) : Validation (List ValType) := do
  pure (← frameAt label).labelTypes

/-- Take the initialised locals back to where a frame was opened. -/
def restoreInit (f : Frame) : Validation Unit :=
  modify fun s => { s with localInit := f.initSnapshot }

/-! ## What an instruction names -/

/-- The type of a local. -/
def localAt (x : ℕ) : Validation ValType := ofExcept (orError .undefinedLocal cx.locals[x]?)

/-- The type of a global. -/
def globalAt (x : ℕ) : Validation GlobalType :=
  ofExcept (orError .undefinedGlobal cx.module.globals[x]?)

/-- The type of a function. -/
def funcAt (f : ℕ) : Validation FuncType := ofExcept (orError .undefinedFunc (cx.module.funcType f))

/-- The signature at a type index. -/
def sigAt (ti : ℕ) : Validation FuncType := ofExcept (orError .undefinedType (cx.module.funcSig ti))

/-- The type of a tag. -/
def tagAt (tag : ℕ) : Validation FuncType := ofExcept (orError .undefinedTag (cx.module.tagType tag))

/-- The element type of a table. -/
def tableElemType (x : ℕ) : Validation ValType := do
  pure (← ofExcept (orError .undefinedTable cx.module.tables[x]?)).element

/-- The index type of a table. -/
def FuncContext.tableAddrTy (x : ℕ) : ValType :=
  if (cx.module.tables[x]?).any (·.limits.is64) then .i64 else .i32

/-- A memory must exist. -/
def requireMemory (x : ℕ) : Validation Unit :=
  require (decide (x < cx.module.memories.length)) .missingMemory

/-- The index type of a memory. -/
def FuncContext.memAddrTy (x : ℕ) : ValType :=
  if (cx.module.memories[x]?).any (·.limits.is64) then .i64 else .i32

/-- A static offset fits the index type. -/
def checkMemOffset (x offset : ℕ) : Validation Unit :=
  require ((cx.module.memories[x]?).any (·.limits.is64) || decide (offset < 2 ^ 32))
    .invalidMemArgOffset

/-- An element segment of the module. -/
def elemAt (seg : ℕ) : Validation Element :=
  ofExcept (orError .undefinedElem cx.module.elements[seg]?)

/-- A data segment must exist. -/
def requireData (seg : ℕ) : Validation Unit :=
  require (decide (seg < cx.module.data.length)) .undefinedData

/-- The fields of a struct type. -/
def structFieldsAt (ti : ℕ) : Validation (List FieldType) :=
  ofExcept (orError .undefinedType (cx.module.structFields ti))

/-- A field of a struct type. -/
def structField (ti field : ℕ) : Validation FieldType := do
  ofExcept (orError .undefinedField (← structFieldsAt cx ti)[field]?)

/-- The element of an array type. -/
def arrayFieldAt (ti : ℕ) : Validation FieldType :=
  ofExcept (orError .undefinedType (cx.module.arrayField ti))

/-- A packed field is read with a sign, an unpacked one without. -/
def requirePacking (ext : Extension) (storage : StorageType) : Validation Unit :=
  require ((ext == .plain) != storage.isPacked) .typeMismatch

/-- The value type of a block result or of a typed `select`. -/
def resolveValueType (bt : BlockType) : ValidateResult ValType := do
  let t ← match bt with
    | .value t => pure t
    | .concreteRef n ti => refTypeValType cx.module.toTypeSection ⟨n, .concrete ti⟩
    | .exactRef n ti => refTypeValType cx.module.toTypeSection ⟨n, .exact ti⟩
    | .empty | .typeIndex _ => .error .typeMismatch
  gateValType t cx.features
  pure t

/-- The operands and results of a block. -/
def blockSig : BlockType → ValidateResult Sig
  | .empty => pure ⟨[], []⟩
  | .typeIndex i => do
    let ft ← orError .undefinedType (cx.module.funcSig i)
    if !ft.params.isEmpty || 1 < ft.results.length then gate (some .multiValue) cx.features
    pure ⟨ft.params, ft.results⟩
  | bt => do
    let t ← resolveValueType cx bt
    pure ⟨[], [t]⟩

/-- Are the types pairwise subtypes? -/
def FuncContext.matchTypes (want got : List ValType) : Bool :=
  want.length == got.length && (want.zip got).all fun p => cx.subtype p.1 p.2

/-- A callee in tail position returns to our caller, so its results match ours. -/
def checkTailResults (callee : List ValType) : Validation Unit :=
  require (cx.matchTypes callee cx.results) .typeMismatch

/-! ## Control instructions -/

/-- `block`, `loop`, `if` and the legacy `try`. -/
def openBlock (kind : FrameKind) (bt : BlockType) : Validation Unit := do
  let s ← ofExcept (blockSig cx bt)
  popVals cx s.pop
  pushCtrl kind s.pop s.push

/-- A `try_table` clause: its label accepts the tag's operands, and the exception for a `_ref`
clause. -/
def checkCatch (c : Catch) (lt : List ValType) : ValidateResult Unit :=
  let exn := RefHeap.exn.valType false
  match c.kind with
  | .catchTag => do
    let ft ← orError .undefinedTag (cx.module.tagType c.tag)
    ensure (cx.matchTypes ft.params lt) .typeMismatch
  | .catchRef => do
    let ft ← orError .undefinedTag (cx.module.tagType c.tag)
    ensure (lt.length == ft.params.length + 1) .typeMismatch
    ensure (cx.matchTypes ft.params (lt.take ft.params.length)) .typeMismatch
    ensure (lt.getLast?.any (cx.subtype exn)) .typeMismatch
  | .catchAll => ensure lt.isEmpty .typeMismatch
  | .catchAllRef => ensure (lt.length == 1 && lt.head?.any (cx.subtype exn)) .typeMismatch

/-- `try_table`: the clauses are checked outside the block. -/
def tryTable (bt : BlockType) (catches : List Catch) : Validation Unit := do
  let s ← ofExcept (blockSig cx bt)
  popVals cx s.pop
  catches.forM fun c => do
    let lt ← labelTypesAt c.label
    ofExcept (checkCatch cx c lt)
  pushCtrl .tryTable s.pop s.push

/-- `else` closes the first branch of an `if`. -/
def else_ : Validation Unit := do
  let frame ← popCtrl cx
  require (frame.kind == .if_) .mismatchedElse
  restoreInit frame
  pushCtrl .else_ frame.start frame.end_

/-- A legacy `catch` of a tag, or `catch_all` without one. -/
def catchLegacy (tag : Option ℕ) : Validation Unit := do
  let frame ← popCtrl cx
  require (frame.kind == .tryLegacy || frame.kind == .catchLegacy) .mismatchedCatch
  restoreInit frame
  match tag with
  | some t => do
    let ft ← tagAt cx t
    require ft.results.isEmpty .invalidTag
    pushCtrl .catchLegacy ft.params frame.end_
  | none => pushCtrl .catchLegacy [] frame.end_

/-- `delegate` closes a legacy `try`; its label is outside the block. -/
def delegate (label : ℕ) : Validation Unit := do
  let frame ← popCtrl cx
  require (frame.kind == .tryLegacy) .mismatchedCatch
  let _ ← labelTypesAt label
  restoreInit frame
  pushVals frame.end_

/-- `end`. An `if` without `else` has the identity as its second branch. -/
def end_ : Validation Unit := do
  let frame ← popCtrl cx
  require (!(frame.kind == .if_ && frame.start != frame.end_)) .typeMismatch
  restoreInit frame
  pushVals frame.end_

/-- `throw`. -/
def throw_ (tag : ℕ) : Validation Unit := do
  let ft ← tagAt cx tag
  require ft.results.isEmpty .invalidTag
  popVals cx ft.params
  setUnreachable

/-- `rethrow` names a handler. -/
def rethrow (label : ℕ) : Validation Unit := do
  let frame ← frameAt label
  require (frame.kind == .catchLegacy) .mismatchedCatch
  setUnreachable

/-- Pop operands and push back what was popped. -/
def popAndRestore (ts : List ValType) : Validation Unit := do
  let actual ← ts.reverse.mapM (popExpect cx)
  actual.reverse.forM pushVal

/-- `br_table`: the operands fit every label. -/
def brTable (labels : List ℕ) (default : ℕ) : Validation Unit := do
  let _ ← popExpect cx .i32
  let defaultTypes ← labelTypesAt default
  labels.forM fun l => do
    let lt ← labelTypesAt l
    require (lt.length == defaultTypes.length) .typeMismatch
    popAndRestore cx lt
  popVals cx defaultTypes
  setUnreachable

/-- What an indirect call pops besides the arguments, and the signature it calls. -/
def indirectCallee (typeIndex table : ℕ) : Validation FuncType := do
  let element ← tableElemType cx table
  require (cx.subtype element (RefHeap.func.valType true)) .typeMismatch
  let ft ← sigAt cx typeIndex
  let _ ← popExpect cx (cx.tableAddrTy table)
  pure ft

/-- The signature `call_ref` calls, its function reference popped. -/
def refCallee (ti : ℕ) : Validation FuncType := do
  let ft ← sigAt cx ti
  let _ ← popExpect cx (ValType.concreteRef true .func ti)
  pure ft

/-- A call: the arguments give way to the results. -/
def callSig (ft : FuncType) : Validation Unit := applySig cx ⟨ft.params, ft.results⟩

/-- A tail call: the arguments are popped and the rest is unreachable. -/
def tailCallSig (ft : FuncType) : Validation Unit := do
  popVals cx ft.params
  checkTailResults cx ft.results
  setUnreachable

/-! ## References and casts -/

/-- The type of a conversion's result: nullable unless the operand is known not to be null. -/
def convertRef (operand result : RefHeap) : Validation Unit := do
  match ← popExpect cx (operand.valType true) with
  | .val v => pushValT (result.valType (!v.isNonNullRef))
  | .unknown => pushVal .unknown

/-- `ref.func` of a function that may be referenced. -/
def refFunc (f : ℕ) : Validation Unit := do
  let _ ← funcAt cx f
  require (declaresRef cx.refs f) .undeclaredFuncRef
  pushValT (refFuncValType cx.module f)

/-- The operand pushed back non-null. -/
def pushNonNull : StackType → Validation Unit
  | .val v => pushValT v.nonNull
  | .unknown => pushVal .unknown

/-- `br_on_null`. -/
def brOnNull (label : ℕ) : Validation Unit := do
  let r ← popRef
  let lt ← labelTypesAt label
  popVals cx lt
  pushVals lt
  pushNonNull r

/-- `br_on_non_null`: the operand is the nullable form of the label's last type. -/
def brOnNonNull (label : ℕ) : Validation Unit := do
  let lt ← labelTypesAt label
  let last ← ofExcept (orError .typeMismatch lt.getLast?)
  require last.isRef .typeMismatch
  let _ ← popExpect cx last.nullable
  popVals cx lt.dropLast
  pushVals lt.dropLast

/-- The value type of a cast target. -/
def castTarget (rt : RefType) : Validation ValType :=
  ofExcept (refTypeValType cx.module.toTypeSection rt)

/-- Pop the descriptor operand of a cast. -/
def popDescriptor (rt : RefType) : Validation Unit := do
  let _ ← popExpect cx (← ofExcept (descOperandType cx.module.toTypeSection rt))

/-- Pop the operand of a cast to `target`: any reference of its hierarchy. -/
def popCastOperand (target : ValType) : Validation Unit := do
  let _ ← popExpect cx (target.refHeap.top.valType true)

/-- The four casting branches. `onMatch` tells the ones that branch on a match, `desc` the ones that
compare descriptors; the edge not taken on a match carries the difference of the two types. -/
def brOnCast (onMatch desc : Bool) (label : ℕ) (src dst : RefType) : Validation Unit := do
  if desc then popDescriptor cx dst
  let srcVt ← castTarget cx src
  let dstVt ← castTarget cx dst
  -- custom descriptors relax the downcast to two types of one hierarchy
  let relaxed := cx.features.has .customDescriptors || desc
  require (if relaxed then dstVt.refHeap.top == srcVt.refHeap.top else cx.subtype dstVt srcVt)
    .typeMismatch
  let lt ← labelTypesAt label
  let last ← ofExcept (orError .typeMismatch lt.getLast?)
  let diff := if dstVt.isNonNullRef then srcVt else srcVt.nonNull
  require (cx.subtype (if onMatch then dstVt else diff) last) .typeMismatch
  let _ ← popExpect cx srcVt
  popVals cx lt.dropLast
  pushVals lt.dropLast
  pushValT (if onMatch then diff else dstVt)

/-- `ref.get_desc`: exact for an exact operand of the type itself, or a bottom. -/
def refGetDesc (ti : ℕ) : Validation Unit := do
  let d ← ofExcept (descriptorOf cx.module.toTypeSection ti)
  let exact ← match ← popVal with
    | .unknown => pure true
    | .val v => do
      require (cx.subtype v (.concreteRef true .struct ti)) .typeMismatch
      pure ((v.isExact && cx.module.typesEqual v.concreteIndex ti) || !v.isConcrete)
  pushValT (if exact then .exactRef false .struct d else .concreteRef false .struct d)

/-! ## Structs and arrays -/

/-- A value type with a default. -/
def FieldType.isDefaultable (f : FieldType) : Bool := !f.storage.unpacked.isNonNullRef

/-- Allocate a struct: with its fields as operands, or defaulted. -/
def structNew (ti : ℕ) (fromOperands : Bool) : Validation Unit := do
  let fields ← structFieldsAt cx ti
  if fromOperands then popVals cx (fields.map (·.storage.unpacked))
  else require (fields.all FieldType.isDefaultable) .typeMismatch
  pushValT (.exactRef false .struct ti)

/-- Allocate a struct of a type without a descriptor. -/
def structNewPlain (ti : ℕ) (fromOperands : Bool) : Validation Unit := do
  ofExcept (checkPlainlyAllocatable cx.module.toTypeSection ti)
  structNew cx ti fromOperands

/-- Allocate a struct with its descriptor, the top operand. -/
def structNewWithDesc (ti : ℕ) (fromOperands : Bool) : Validation Unit := do
  let d ← ofExcept (descriptorOf cx.module.toTypeSection ti)
  let _ ← popExpect cx (.exactRef true .struct d)
  structNew cx ti fromOperands

/-- `struct.get`. -/
def structGet (ext : Extension) (ti field : ℕ) : Validation Unit := do
  let f ← structField cx ti field
  requirePacking ext f.storage
  let _ ← popExpect cx (.concreteRef true .struct ti)
  pushValT f.storage.unpacked

/-- `struct.set`. -/
def structSet (ti field : ℕ) : Validation Unit := do
  let f ← structField cx ti field
  require f.mutable .immutableField
  popVals cx [.concreteRef true .struct ti, f.storage.unpacked]

/-- `array.new`. -/
def arrayNew (ti : ℕ) : Validation Unit := do
  let f ← arrayFieldAt cx ti
  popVals cx [f.storage.unpacked, .i32]
  pushValT (.exactRef false .array ti)

/-- `array.new_default`. -/
def arrayNewDefault (ti : ℕ) : Validation Unit := do
  let f ← arrayFieldAt cx ti
  require f.isDefaultable .typeMismatch
  let _ ← popExpect cx .i32
  pushValT (.exactRef false .array ti)

/-- `array.new_fixed`: no body produces more operands than it has instructions. -/
def arrayNewFixed (ti n : ℕ) : Validation Unit := do
  let f ← arrayFieldAt cx ti
  require (decide (n ≤ cx.bodyLen)) .stackUnderflow
  popVals cx (List.replicate n f.storage.unpacked)
  pushValT (.exactRef false .array ti)

/-- `array.get`. -/
def arrayGet (ext : Extension) (ti : ℕ) : Validation Unit := do
  let f ← arrayFieldAt cx ti
  requirePacking ext f.storage
  popVals cx [.concreteRef true .array ti, .i32]
  pushValT f.storage.unpacked

/-- The element of an array that may be written. -/
def mutableArrayFieldAt (ti : ℕ) : Validation FieldType := do
  let f ← arrayFieldAt cx ti
  require f.mutable .immutableField
  pure f

/-- A data segment can fill an array of numbers or vectors. -/
def checkDataSegment (f : FieldType) (seg : ℕ) : Validation Unit := do
  require (!f.storage.unpacked.isRef) .typeMismatch
  requireData cx seg

/-- An element segment can fill an array of a supertype. -/
def checkElemSegment (f : FieldType) (seg : ℕ) : Validation Unit := do
  let elem ← elemAt cx seg
  require (cx.subtype elem.elemType f.storage.unpacked) .typeMismatch

/-- `array.new_data` and `array.new_elem`, by the check of their segment. -/
def arrayNewSeg (check : FieldType → ℕ → Validation Unit) (ti seg : ℕ) : Validation Unit := do
  check (← arrayFieldAt cx ti) seg
  popVals cx [.i32, .i32]
  pushValT (.exactRef false .array ti)

/-- `array.init_data` and `array.init_elem`, by the check of their segment. -/
def arrayInitSeg (check : FieldType → ℕ → Validation Unit) (ti seg : ℕ) : Validation Unit := do
  check (← mutableArrayFieldAt cx ti) seg
  popVals cx [.concreteRef true .array ti, .i32, .i32, .i32]

/-- May elements of one storage type be copied to another? -/
def FuncContext.copyable : StorageType → StorageType → Bool
  | .i8, .i8 | .i16, .i16 => true
  | .val s, .val d => cx.subtype s d
  | _, _ => false

/-- `array.copy`. -/
def arrayCopy (dst src : ℕ) : Validation Unit := do
  let df ← arrayFieldAt cx dst
  let sf ← arrayFieldAt cx src
  require df.mutable .immutableField
  require (cx.copyable sf.storage df.storage) .typeMismatch
  popVals cx [.concreteRef true .array dst, .i32, .concreteRef true .array src, .i32, .i32]

/-! ## Tables and memories -/

/-- The narrower of two index types. -/
def narrowerAddr (a b : ValType) : ValType := if a == .i64 && b == .i64 then .i64 else .i32

/-- `table.init`. -/
def tableInit (elem table : ℕ) : Validation Unit := do
  let element ← tableElemType cx table
  let seg ← elemAt cx elem
  require (cx.subtype seg.elemType element) .typeMismatch
  popVals cx [cx.tableAddrTy table, .i32, .i32]

/-- `table.copy`. -/
def tableCopy (dst src : ℕ) : Validation Unit := do
  let dstElement ← tableElemType cx dst
  let srcElement ← tableElemType cx src
  require (cx.subtype srcElement dstElement) .typeMismatch
  let dt := cx.tableAddrTy dst
  let st := cx.tableAddrTy src
  popVals cx [dt, st, narrowerAddr dt st]

/-- `memory.copy`. -/
def memoryCopy (dst src : ℕ) : Validation Unit := do
  requireMemory cx dst
  requireMemory cx src
  let dt := cx.memAddrTy dst
  let st := cx.memAddrTy src
  popVals cx [dt, st, narrowerAddr dt st]

/-- `memory.init`. -/
def memoryInit (data mem : ℕ) : Validation Unit := do
  requireMemory cx mem
  requireData cx data
  popVals cx [cx.memAddrTy mem, .i32, .i32]

/-- A memory access: the address, first of the operands, has the index type of the memory. -/
def memAccess (naturalAlign : ℕ) (mem : MemArg) (s : Sig) : Validation Unit := do
  requireMemory cx mem.memory
  require (decide (mem.alignment ≤ naturalAlign)) .invalidAlignment
  checkMemOffset cx mem.memory mem.offset
  popVals cx (cx.memAddrTy mem.memory :: s.pop.drop 1)
  pushVals s.push

/-- A `0xFD` instruction. -/
def simdOp (s : Simd) : Validation Unit :=
  if simdIsMemoryOp s.sub then memAccess cx (simdNaturalAlignLog2 s.sub) s.mem (simdSig s.sub)
  else applySig cx (simdSig s.sub)

/-- A `0xFE` instruction: its alignment is exact. -/
def atomicOp (a : Atomic) : Validation Unit := do
  if a.sub = 0x03 then return
  requireMemory cx a.mem.memory
  require (a.mem.alignment == atomicNaturalAlignLog2 a.sub) .invalidAlignment
  checkMemOffset cx a.mem.memory a.mem.offset
  let addr := cx.memAddrTy a.mem.memory
  let t := atomicValType a.sub
  if a.sub = 0x00 then applySig cx ⟨[addr, .i32], [.i32]⟩
  else if a.sub = 0x01 then applySig cx ⟨[addr, .i32, .i64], [.i32]⟩
  else if a.sub = 0x02 then applySig cx ⟨[addr, .i64, .i64], [.i32]⟩
  else if 0x10 ≤ a.sub ∧ a.sub ≤ 0x16 then applySig cx ⟨[addr], [t]⟩
  else if 0x17 ≤ a.sub ∧ a.sub ≤ 0x1d then applySig cx ⟨[addr, t], []⟩
  else if 0x1e ≤ a.sub ∧ a.sub ≤ 0x47 then applySig cx ⟨[addr, t], [t]⟩
  else if 0x48 ≤ a.sub ∧ a.sub ≤ 0x4e then applySig cx ⟨[addr, t, t], [t]⟩
  else throw .unsupportedValidation

/-! ## Parametric and variable instructions -/

/-- `select` without a type: two operands of one type that is no reference. -/
def select : Validation Unit := do
  let _ ← popExpect cx .i32
  let t1 ← popVal
  let t2 ← popVal
  require (!(t1.isRef || t2.isRef)) .typeMismatch
  match t1, t2 with
  | .unknown, _ => pushVal t2
  | _, .unknown => pushVal t1
  | .val a, .val b => do
    require (a == b) .typeMismatch
    pushVal t1

/-- `select` with its one result type. -/
def selectT : List BlockType → Validation Unit
  | [bt] => do
    let t ← ofExcept (resolveValueType cx bt)
    popVals cx [t, t, .i32]
    pushValT t
  | _ => throw .typeMismatch

/-- `local.get` of a local that is set, or has a default. -/
def localGet (x : ℕ) : Validation Unit := do
  let t ← localAt cx x
  require (!t.isNonNullRef || ((← get).localInit[x]?).getD false) .uninitializedLocal
  pushValT t

/-- `local.set`. -/
def localSet (x : ℕ) : Validation Unit := do
  let t ← localAt cx x
  let _ ← popExpect cx t
  modify fun s => { s with localInit := s.localInit.set x true }

/-- `global.set`. -/
def globalSet (x : ℕ) : Validation Unit := do
  let g ← globalAt cx x
  require g.mutable .immutableGlobal
  let _ ← popExpect cx g.content

/-! ## Instructions -/

/-- The rule of an instruction. -/
def stepInstr (i : Instr) : Validation Unit :=
  match i with
  | .unreachable => setUnreachable
  | .nop => pure ()
  | .block bt => openBlock cx .block bt
  | .loop bt => openBlock cx .loop bt
  | .if_ bt => do
    let _ ← popExpect cx .i32
    openBlock cx .if_ bt
  | .else_ => else_ cx
  | .tryTable bt catches => tryTable cx bt catches
  | .throw tag => throw_ cx tag
  | .throwRef => do
    let _ ← popExpect cx (RefHeap.exn.valType true)
    setUnreachable
  | .tryLegacy bt => openBlock cx .tryLegacy bt
  | .catchLegacy tag => catchLegacy cx (some tag)
  | .catchAll => catchLegacy cx none
  | .delegate label => delegate cx label
  | .rethrow label => rethrow label
  | .end_ => end_ cx
  | .br label => do
    popVals cx (← labelTypesAt label)
    setUnreachable
  | .brIf label => do
    let _ ← popExpect cx .i32
    let lt ← labelTypesAt label
    applySig cx ⟨lt, lt⟩
  | .brTable labels default => brTable cx labels default
  | .return_ => do
    popVals cx cx.results
    setUnreachable
  | .call f => do callSig cx (← funcAt cx f)
  | .callIndirect ti table => do callSig cx (← indirectCallee cx ti table)
  | .returnCall f => do tailCallSig cx (← funcAt cx f)
  | .returnCallIndirect ti table => do tailCallSig cx (← indirectCallee cx ti table)
  | .callRef ti => do callSig cx (← refCallee cx ti)
  | .returnCallRef ti => do tailCallSig cx (← refCallee cx ti)
  | .drop => do
    let _ ← popVal
  | .select => select cx
  | .selectT types => selectT cx types
  | .tableGet x => do
    let element ← tableElemType cx x
    applySig cx ⟨[cx.tableAddrTy x], [element]⟩
  | .tableSet x => do
    let element ← tableElemType cx x
    popVals cx [cx.tableAddrTy x, element]
  | .tableSize x => do
    let _ ← tableElemType cx x
    pushValT (cx.tableAddrTy x)
  | .tableGrow x => do
    let element ← tableElemType cx x
    applySig cx ⟨[element, cx.tableAddrTy x], [cx.tableAddrTy x]⟩
  | .tableFill x => do
    let element ← tableElemType cx x
    popVals cx [cx.tableAddrTy x, element, cx.tableAddrTy x]
  | .tableInit elem table => tableInit cx elem table
  | .tableCopy dst src => tableCopy cx dst src
  | .elemDrop elem => do
    let _ ← elemAt cx elem
  | .memoryFill x => do
    requireMemory cx x
    popVals cx [cx.memAddrTy x, .i32, cx.memAddrTy x]
  | .memoryCopy dst src => memoryCopy cx dst src
  | .memoryInit data mem => memoryInit cx data mem
  | .dataDrop data => requireData cx data
  | .refNull ht => do
    let t ← castTarget cx ⟨true, ht⟩
    ofExcept (gateValType t cx.features)
    pushValT t
  | .refIsNull => do
    let _ ← popRef
    pushValT .i32
  | .refFunc f => refFunc cx f
  | .refEq => applySig cx ⟨[RefHeap.eq.valType true, RefHeap.eq.valType true], [.i32]⟩
  | .refI31 => applySig cx ⟨[.i32], [RefHeap.i31.valType false]⟩
  | .anyConvertExtern => convertRef cx .external .any
  | .externConvertAny => convertRef cx .any .external
  | .structNew ti => structNewPlain cx ti true
  | .structNewDefault ti => structNewPlain cx ti false
  | .structNewDesc ti => structNewWithDesc cx ti true
  | .structNewDefaultDesc ti => structNewWithDesc cx ti false
  | .refGetDesc ti => refGetDesc cx ti
  | .structGet ext ti field => structGet cx ext ti field
  | .structSet ti field => structSet cx ti field
  | .arrayNew ti => arrayNew cx ti
  | .arrayNewDefault ti => arrayNewDefault cx ti
  | .arrayNewFixed ti n => arrayNewFixed cx ti n
  | .arrayGet ext ti => arrayGet cx ext ti
  | .arraySet ti => do
    let f ← mutableArrayFieldAt cx ti
    popVals cx [.concreteRef true .array ti, .i32, f.storage.unpacked]
  | .arrayLen => applySig cx ⟨[RefHeap.array.valType true], [.i32]⟩
  | .arrayNewData ti seg => arrayNewSeg cx (checkDataSegment cx) ti seg
  | .arrayNewElem ti seg => arrayNewSeg cx (checkElemSegment cx) ti seg
  | .arrayFill ti => do
    let f ← mutableArrayFieldAt cx ti
    popVals cx [.concreteRef true .array ti, .i32, f.storage.unpacked, .i32]
  | .arrayCopy dst src => arrayCopy cx dst src
  | .arrayInitData ti seg => arrayInitSeg cx (checkDataSegment cx) ti seg
  | .arrayInitElem ti seg => arrayInitSeg cx (checkElemSegment cx) ti seg
  | .simd s => simdOp cx s
  | .atomic a => atomicOp cx a
  | .refCastDescEq rt => do
    let target ← castTarget cx rt
    popDescriptor cx rt
    popCastOperand cx target
    pushValT target
  | .refTest rt => do
    popCastOperand cx (← castTarget cx rt)
    pushValT .i32
  | .refCast rt => do
    let target ← castTarget cx rt
    popCastOperand cx target
    pushValT target
  | .brOnCast label src dst => brOnCast cx true false label src dst
  | .brOnCastFail label src dst => brOnCast cx false false label src dst
  | .brOnCastDescEq label src dst => brOnCast cx true true label src dst
  | .brOnCastDescEqFail label src dst => brOnCast cx false true label src dst
  | .i31Get _ => applySig cx ⟨[RefHeap.i31.valType true], [.i32]⟩
  | .refAsNonNull => do pushNonNull (← popRef)
  | .brOnNull label => brOnNull cx label
  | .brOnNonNull label => brOnNonNull cx label
  | .localGet x => localGet cx x
  | .localSet x => localSet cx x
  | .localTee x => do
    localSet cx x
    pushValT (← localAt cx x)
  | .globalGet x => do pushValT (← globalAt cx x).content
  | .globalSet x => globalSet cx x
  | .load op mem => memAccess cx op.naturalAlignLog2 mem ⟨[.i32], [op.valType]⟩
  | .store op mem => memAccess cx op.naturalAlignLog2 mem ⟨[.i32, op.valType], []⟩
  | .memorySize x => do
    requireMemory cx x
    pushValT (cx.memAddrTy x)
  | .memoryGrow x => do
    requireMemory cx x
    applySig cx ⟨[cx.memAddrTy x], [cx.memAddrTy x]⟩
  | i => do applySig cx (← ofExcept (orError .unsupportedValidation (simpleSig i)))

/-- The proposals of an instruction and, in the `0xFD` family, of its sub-opcode. -/
def gateInstr (i : Instr) (features : Features) : ValidateResult Unit := do
  gate (opFeature i) features
  match i with
  | .simd s => gate (some (simdSubFeature s.sub)) features
  | _ => pure ()

/-- One instruction of a body. No instruction follows the last `end`. -/
def step (i : Instr) : Validation Unit := do
  require (!(← get).ctrls.isEmpty) .controlUnderflow
  if cx.features ≠ .all then ofExcept (gateInstr i cx.features)
  stepInstr cx i

/-- An accepted instruction was inside some frame, passed its gate, unless everything is accepted, and
its rule. -/
theorem step_eq_ok {cx : FuncContext} {i : Instr} {s s' : FuncValidator} {u : Unit}
    (h : step cx i s = .ok u s') : s.ctrls ≠ [] ∧
      (cx.features = .all ∨ gateInstr i cx.features = .ok ()) ∧ stepInstr cx i s = .ok u s' := by
  obtain ⟨_, _, hs, h⟩ := estate_bind_eq_ok.mp h
  obtain ⟨rfl, rfl⟩ := estate_get_eq_ok.mp hs
  obtain ⟨_, _, hctrls, h⟩ := estate_bind_eq_ok.mp h
  obtain ⟨hopen, rfl⟩ := ofExcept_eq_ok.mp hctrls
  have hne : s.ctrls ≠ [] := by
    rw [ensure_eq_ok] at hopen
    simpa using hopen
  by_cases hall : cx.features = .all
  · rw [if_neg (not_not.mpr hall)] at h
    exact ⟨hne, .inl hall, h⟩
  · rw [if_pos hall] at h
    obtain ⟨_, _, hgate, h⟩ := estate_bind_eq_ok.mp h
    obtain ⟨hok, rfl⟩ := ofExcept_eq_ok.mp hgate
    exact ⟨hne, .inr hok, h⟩

/-! ## Bodies -/

/-- The types of the locals: the parameters, then the declared runs. -/
def localTypes (ft : FuncType) (code : Code) : List ValType :=
  ft.params ++ code.locals.flatMap fun l => List.replicate l.count l.ty

/-- A parameter starts initialised, and so does a declared local with a default. -/
def initialLocals (ft : FuncType) (locals : List ValType) : List Bool :=
  locals.mapIdx fun i t => decide (i < ft.params.length) || !t.isNonNullRef

/-- Check the body of a function of type `ft`. -/
def validateFunction (m : Module) (ft : FuncType) (code : Code) (refs : Option (List Bool))
    (features : Features) : ValidateResult Unit := do
  let declared := (code.locals.map (·.count)).sum
  ensure (decide (declared + ft.params.length ≤ maxLocals)) .tooManyLocals
  code.locals.forM fun l => gateValType l.ty features
  let locals := localTypes ft code
  let cx : FuncContext := {
    module := m, features, refs, locals, results := ft.results, bodyLen := code.ir.length }
  let check : Validation Unit := do
    pushCtrl .block [] ft.results
    code.ir.forM (step cx)
    require (← get).ctrls.isEmpty .controlUnderflow
  match check { localInit := initialLocals ft locals } with
  | .ok _ _ => .ok ()
  | .error e _ => .error e

/-- What the body of a function of type `ft` is checked against. -/
def bodyContext (m : Module) (ft : FuncType) (code : Code) (refs : Option (List Bool))
    (features : Features) : FuncContext where
  module := m
  features := features
  refs := refs
  locals := localTypes ft code
  results := ft.results
  bodyLen := code.ir.length

/-- The instructions of a body, inside the frame of the function and up to its `end`. -/
def checkBody (cx : FuncContext) (ir : List Instr) : Validation Unit := do
  pushCtrl .block [] cx.results
  ir.forM (step cx)
  require (← get).ctrls.isEmpty .controlUnderflow

theorem validateFunction_eq (m : Module) (ft : FuncType) (code : Code) (refs : Option (List Bool))
    (features : Features) :
    validateFunction m ft code refs features = (do
      ensure (decide ((code.locals.map (·.count)).sum + ft.params.length ≤ maxLocals)) .tooManyLocals
      code.locals.forM fun l => gateValType l.ty features
      match checkBody (bodyContext m ft code refs features) code.ir
          { localInit := initialLocals ft (localTypes ft code) } with
      | .ok _ _ => .ok ()
      | .error e _ => .error e) := rfl

end Wasmrt
