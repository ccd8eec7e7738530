import Wasmrt.Opcode

/-!
# Feature gating

The table of `features.rs`: which proposal an instruction or a value type belongs to. A construct of
no proposal is core WebAssembly and always accepted.

Feature names, which only the command line reads, are left out.

## Main definitions

* `Feature`, `Features`: the gated proposals and the set an engine accepts.
* `opFeature`, `simdSubFeature`, `valTypeFeature`, `tableElementFeature`: the proposal of a construct.
* `Features.checkCoherent`: a proposal is accepted only with those it rests on.
-/

namespace Wasmrt

/-- A gated proposal. -/
inductive Feature
  | signExtension | saturatingFloatToInt | multiValue | referenceTypes | bulkMemory | extendedConst
  | simd | relaxedSimd | threads | multiMemory | memory64 | functionReferences | gc | exceptions
  | tailCall | wideArithmetic | customPageSizes | customDescriptors
  deriving DecidableEq, Repr

/-- The proposals an engine accepts. -/
structure Features where
  signExtension : Bool
  saturatingFloatToInt : Bool
  multiValue : Bool
  referenceTypes : Bool
  bulkMemory : Bool
  extendedConst : Bool
  simd : Bool
  relaxedSimd : Bool
  threads : Bool
  multiMemory : Bool
  memory64 : Bool
  functionReferences : Bool
  gc : Bool
  exceptions : Bool
  tailCall : Bool
  wideArithmetic : Bool
  customPageSizes : Bool
  customDescriptors : Bool
  deriving DecidableEq, Repr

namespace Features

/-- The same answer for every proposal. -/
def const (on : Bool) : Features :=
  ⟨on, on, on, on, on, on, on, on, on, on, on, on, on, on, on, on, on, on⟩

/-- Every proposal, the default. -/
def all : Features := const true

/-- Core WebAssembly alone. -/
def mvp : Features := const false

/-- The proposals of the WebAssembly 3.0 standard. -/
def standard : Features :=
  { all with
    threads := false
    wideArithmetic := false
    customPageSizes := false
    customDescriptors := false }

/-- Is a proposal accepted? -/
def has (fs : Features) : Feature → Bool
  | .signExtension => fs.signExtension
  | .saturatingFloatToInt => fs.saturatingFloatToInt
  | .multiValue => fs.multiValue
  | .referenceTypes => fs.referenceTypes
  | .bulkMemory => fs.bulkMemory
  | .extendedConst => fs.extendedConst
  | .simd => fs.simd
  | .relaxedSimd => fs.relaxedSimd
  | .threads => fs.threads
  | .multiMemory => fs.multiMemory
  | .memory64 => fs.memory64
  | .functionReferences => fs.functionReferences
  | .gc => fs.gc
  | .exceptions => fs.exceptions
  | .tailCall => fs.tailCall
  | .wideArithmetic => fs.wideArithmetic
  | .customPageSizes => fs.customPageSizes
  | .customDescriptors => fs.customDescriptors

@[simp]
theorem has_const (on : Bool) (f : Feature) : (const on).has f = on := by
  cases f <;> rfl

@[simp]
theorem has_all (f : Feature) : all.has f = true := has_const true f

/-- A proposal accepted without one it rests on. -/
structure Incoherent where
  enabled : Feature
  requires : Feature
  deriving DecidableEq, Repr

/-- The dependencies between proposals, in the order they are checked. -/
def dependencies : List (Feature × Feature) :=
  [(.gc, .functionReferences), (.functionReferences, .referenceTypes), (.relaxedSimd, .simd),
    (.customDescriptors, .gc), (.exceptions, .referenceTypes)]

/-- A proposal is accepted only with those it rests on. -/
def checkCoherent (fs : Features) : Except Incoherent Unit :=
  dependencies.forM fun (enabled, requires) =>
    if fs.has enabled && !fs.has requires then .error ⟨enabled, requires⟩ else .ok ()

example : standard.checkCoherent = .ok () := by decide

end Features

/-- The proposal of an instruction; `none` is core. -/
def opFeature : Instr → Option Feature
  | .tryLegacy _ | .catchLegacy _ | .throw _ | .rethrow _ | .throwRef | .delegate _ | .catchAll
  | .tryTable .. => some .exceptions
  | .returnCall _ | .returnCallIndirect .. => some .tailCall
  | .callRef _ | .returnCallRef _ | .refAsNonNull | .brOnNull _ | .brOnNonNull _ =>
    some .functionReferences
  | .selectT _ | .tableGet _ | .tableSet _ | .refNull _ | .refIsNull | .refFunc _ | .tableGrow _
  | .tableSize _ | .tableFill _ => some .referenceTypes
  | .memoryInit .. | .dataDrop _ | .memoryCopy .. | .memoryFill _ | .tableInit .. | .elemDrop _
  | .tableCopy .. => some .bulkMemory
  | .simd _ => some .simd
  | .atomic _ => some .threads
  | .refEq | .arrayNew _ | .arrayNewDefault _ | .arrayNewFixed .. | .arrayGet .. | .arraySet _
  | .arrayLen | .refTest _ | .refCast _ | .refI31 | .i31Get _ | .structNew _ | .structNewDefault _
  | .structGet .. | .structSet .. | .brOnCast .. | .brOnCastFail .. | .anyConvertExtern
  | .externConvertAny => some .gc
  | .iUn _ .extend8S | .iUn _ .extend16S | .cvt .i64Extend32S => some .signExtension
  | .wide _ => some .wideArithmetic
  | .structNewDesc _ | .structNewDefaultDesc _ | .refGetDesc _ | .refCastDescEq _
  | .brOnCastDescEq .. | .brOnCastDescEqFail .. => some .customDescriptors
  | .cvt (.truncSat ..) => some .saturatingFloatToInt
  | _ => none

/-- The proposal of a `0xFD` sub-opcode. -/
def simdSubFeature (sub : ℕ) : Feature :=
  if 0x100 ≤ sub && sub ≤ 0x113 then .relaxedSimd else .simd

/-- The proposal of a value type; `none` is one of the four core number types. -/
def valTypeFeature (v : ValType) : Option Feature :=
  if v == .v128 then some .simd
  else if !v.isRef then none
  else if v.isExact then some .customDescriptors
  else if v.isConcrete then some .functionReferences
  else match v.refHeap with
    | .exn | .noExn => some .exceptions
    | .any | .eq | .i31 | .struct | .array | .none | .noFunc | .noExternal => some .gc
    | .func | .external =>
      if v.isNonNullRef then some .functionReferences else some .referenceTypes

/-- The proposal of a table's element type; a table of `funcref` is core. -/
def tableElementFeature (v : ValType) : Option Feature :=
  if v == RefHeap.func.valType true then none else valTypeFeature v

end Wasmrt
