import Wasmrt.Validate.Function

/-!
# Constant expressions

The checker of constant expressions is a second typing of the same instructions, over a stack of
value types alone. It checks the defaults of a struct that is allocated with its descriptor, and of no
other allocation.

The source bounds the stack by the byte length of the expression, a parameter here.

## Main definitions

* `constStep`: one instruction of a constant expression.
* `validateConstExpr`: a whole constant expression.
-/

namespace Wasmrt

open MonadExcept (ofExcept)

/-! ## The checker -/

/-- The state of the checker: the operands, top first, and the functions a body may reference. -/
structure ConstState where
  stack : List ValType := []
  refs : Option (List Bool)
  deriving DecidableEq, Repr

/-- What a constant expression is checked against. Globals from `selfIndex` on are out of reach. -/
structure ConstContext where
  module : Module
  features : Features
  selfIndex : ℕ
  ceiling : ℕ

/-- A check of a constant expression. -/
abbrev ConstCheck (α : Type) := EStateM ValidateError ConstState α

variable (cc : ConstContext)

/-- Push an operand, below the ceiling. -/
def constPush (t : ValType) : ConstCheck Unit := do
  let s ← get
  ofExcept (ensure (decide (s.stack.length < cc.ceiling)) .constantExpressionRequired)
  set { s with stack := t :: s.stack }

/-- Pop an operand. -/
def constPop : ConstCheck ValType := do
  let s ← get
  match s.stack with
  | t :: stack => do
    set { s with stack }
    pure t
  | [] => throw .stackUnderflow

/-- Pop an operand of an expected type. -/
def constPopExpect (expect : ValType) : ConstCheck ValType := do
  let got ← constPop
  ofExcept (ensure (subtypeOf cc.module.toTypeSection got expect) .typeMismatch)
  pure got

/-- Pop operands of expected types, the last from the top. -/
def constPopVals (ts : List ValType) : ConstCheck Unit :=
  ts.reverse.forM fun t => do
    let _ ← constPopExpect cc t

/-- Pop an `i32`. -/
def constPopI32 : ConstCheck Unit := do
  let got ← constPop
  ofExcept (ensure (got == .i32) .typeMismatch)

/-- Two operands of a number type give way to one. -/
def constBinary (t : ValType) : ConstCheck Unit := do
  ofExcept (gate (some .extendedConst) cc.features)
  let s ← get
  match s.stack with
  | a :: b :: stack => do
    ofExcept (ensure (a == t && b == t) .typeMismatch)
    set { s with stack := b :: stack }
  | _ => throw .typeMismatch

/-- Outside a body, `ref.func` declares the function. -/
def declareRef (f : ℕ) : ConstCheck Unit :=
  modify fun s => { s with refs := s.refs.map (·.set f true) }

/-- `struct.new` and `struct.new_default`: the second with no look at the fields. -/
def constStructNew (ti : ℕ) (fromOperands : Bool) : ConstCheck Unit := do
  ofExcept (gate (some .gc) cc.features)
  ofExcept (checkPlainlyAllocatable cc.module.toTypeSection ti)
  let fields ← ofExcept (orError .undefinedType (cc.module.structFields ti))
  if fromOperands then constPopVals cc (fields.map (·.storage.unpacked))
  constPush cc (.exactRef false .struct ti)

/-- `struct.new_desc` and `struct.new_default_desc`. -/
def constStructNewDesc (ti : ℕ) (fromOperands : Bool) : ConstCheck Unit := do
  ofExcept (gate (some .gc) cc.features)
  let d ← ofExcept (descriptorOf cc.module.toTypeSection ti)
  let _ ← constPopExpect cc (.exactRef true .struct d)
  let fields ← ofExcept (orError .undefinedType (cc.module.structFields ti))
  if fromOperands then constPopVals cc (fields.map (·.storage.unpacked))
  else ofExcept (ensure (fields.all FieldType.isDefaultable) .typeMismatch)
  constPush cc (.exactRef false .struct ti)

/-- `array.new` and `array.new_default`: the second with no look at the element. -/
def constArrayNew (ti : ℕ) (fromOperand : Bool) : ConstCheck Unit := do
  ofExcept (gate (some .gc) cc.features)
  let f ← ofExcept (orError .undefinedType (cc.module.arrayField ti))
  constPopI32
  if fromOperand then
    let _ ← constPopExpect cc f.storage.unpacked
  constPush cc (.exactRef false .array ti)

/-- `array.new_fixed`. -/
def constArrayNewFixed (ti n : ℕ) : ConstCheck Unit := do
  ofExcept (gate (some .gc) cc.features)
  let f ← ofExcept (orError .undefinedType (cc.module.arrayField ti))
  constPopVals cc (List.replicate n f.storage.unpacked)
  constPush cc (.exactRef false .array ti)

/-- The conversions between `anyref` and `externref`, which keep nullability. -/
def constConvertRef (operand result : RefHeap) : ConstCheck Unit := do
  ofExcept (gate (some .gc) cc.features)
  let got ← constPopExpect cc (operand.valType true)
  constPush cc (result.valType (!got.isNonNullRef))

/-- Is the instruction of the `0xFB` family? -/
def Instr.isGcFamily : Instr → Bool
  | .structGet .. | .structSet .. | .arrayNewData .. | .arrayNewElem .. | .arrayGet .. | .arraySet _
  | .arrayLen | .arrayFill _ | .arrayCopy .. | .arrayInitData .. | .arrayInitElem .. | .refTest _
  | .refCast _ | .brOnCast .. | .brOnCastFail .. | .i31Get _ | .refGetDesc _ | .refCastDescEq _
  | .brOnCastDescEq .. | .brOnCastDescEqFail .. => true
  | _ => false

/-- One instruction of a constant expression. -/
def constStep (i : Instr) : ConstCheck Unit :=
  match i with
  | .i32Const _ => constPush cc .i32
  | .i64Const _ => constPush cc .i64
  | .f32Const _ => constPush cc .f32
  | .f64Const _ => constPush cc .f64
  | .globalGet x => do
    ofExcept (ensure (decide (x < cc.selfIndex)) .undefinedGlobal)
    let g ← ofExcept (orError .undefinedGlobal cc.module.globals[x]?)
    ofExcept (ensure (!g.mutable) .constantExpressionRequired)
    constPush cc g.content
  | .refNull ht => do
    ofExcept (gate (some .referenceTypes) cc.features)
    let t ← ofExcept (refTypeValType cc.module.toTypeSection ⟨true, ht⟩)
    ofExcept (gateValType t cc.features)
    constPush cc t
  | .refFunc f => do
    ofExcept (gate (some .referenceTypes) cc.features)
    let _ ← ofExcept (orError .undefinedFunc (cc.module.funcType f))
    declareRef f
    constPush cc (refFuncValType cc.module f)
  | .structNew ti => constStructNew cc ti true
  | .structNewDefault ti => constStructNew cc ti false
  | .structNewDesc ti => constStructNewDesc cc ti true
  | .structNewDefaultDesc ti => constStructNewDesc cc ti false
  | .arrayNew ti => constArrayNew cc ti true
  | .arrayNewDefault ti => constArrayNew cc ti false
  | .arrayNewFixed ti n => constArrayNewFixed cc ti n
  | .anyConvertExtern => constConvertRef cc .external .any
  | .externConvertAny => constConvertRef cc .any .external
  | .refI31 => do
    ofExcept (gate (some .gc) cc.features)
    constPopI32
    constPush cc (RefHeap.i31.valType false)
  | .iBin w .add | .iBin w .sub | .iBin w .mul => constBinary cc w.int
  | .simd s => do
    ofExcept (gate (some .simd) cc.features)
    ofExcept (ensure (s.sub == 0x0c) .constantExpressionRequired)
    constPush cc .v128
  | i => do
    if i.isGcFamily then ofExcept (gate (some .gc) cc.features)
    throw .constantExpressionRequired

/-- Check that a constant expression of `byteLen` bytes produces one value of the expected type. The
result is the functions a body may reference, those it names among them. -/
def validateConstExpr (m : Module) (expr : ConstExpr) (byteLen : ℕ) (expected : ValType)
    (selfIndex : ℕ) (refs : Option (List Bool)) (features : Features) :
    ValidateResult (Option (List Bool)) :=
  match expr.forM (constStep ⟨m, features, selfIndex, byteLen⟩) { refs } with
  | .ok _ s => do
    ensure (s.stack.length == 1 && s.stack.head?.any (subtypeOf m.toTypeSection · expected))
      .typeMismatch
    pure s.refs
  | .error e _ => .error e

end Wasmrt
