import Wasmrt.Library.Checks
import Wasmrt.Module
import Wasmrt.Validate.Features

/-!
# Checks on type declarations

The part of `validate.rs` that looks at the type section alone: the scope of type indices, the
descriptor links, the declared supertypes, and the subtyping of value types.

## Main definitions

* `subtypeOf`: operand matching.
* `fieldMatches`, `compTypeMatches`, `checkDeclaredSubtyping`: a declared supertype must be one.
* `checkTypeIndexScope`, `checkDescriptorLinks`: what a type definition may name.
-/

namespace Wasmrt

/-- Why a module is refused. -/
inductive ValidateError
  | countMismatch | typeMismatch | stackUnderflow | stackHeightMismatch | controlUnderflow
  | unknownLabel | mismatchedElse | undefinedLocal | uninitializedLocal | nestingTooDeep
  | tooManyLocals | undefinedGlobal | immutableGlobal | undefinedFunc | undeclaredFuncRef
  | undefinedType | undefinedTag | invalidTag | mismatchedCatch | undefinedField | immutableField
  | invalidLimits | invalidDescriptor | invalidPageSize | duplicateExport | undefinedTable
  | undefinedElem | undefinedData | invalidStartFunction | constantExpressionRequired
  | invalidAlignment | missingMemory | invalidMemArgOffset | unsupportedValidation | subType
  /-- A decode error met during validation: an index out of range. -/
  | decodeIndexOutOfRange
  | featureDisabled (f : Feature)
  deriving DecidableEq, Repr

/-- A validation result. -/
abbrev ValidateResult (α : Type) := Except ValidateError α

/-- Refuse a construct of a proposal that is not accepted. -/
def gate (f : Option Feature) (features : Features) : ValidateResult Unit :=
  match f with
  | some x => if features.has x then .ok () else .error (.featureDisabled x)
  | none => .ok ()

/-- Gate a value type. -/
def gateValType (v : ValType) (features : Features) : ValidateResult Unit :=
  gate (valTypeFeature v) features

@[simp]
theorem gate_eq_ok {f : Option Feature} {features : Features} {u : Unit} :
    gate f features = .ok u ↔ ∀ x, f = some x → features.has x = true := by
  cases f with
  | none => simp [gate]
  | some x => by_cases h : features.has x <;> simp [gate, h]

variable (ts : TypeSection)

/-! ## Subtyping of value types -/

/-- Is `sub` a subtype of `sup`? Concrete types follow the declared supertypes, an exact target
admits its own type only, and the only abstract subtype of a concrete type is the bottom of its
hierarchy. -/
def subtypeOf (sub sup : ValType) : Bool :=
  if sub == sup then true
  else if !sub.isRef || !sup.isRef then false
  else if sup.isNonNullRef && !sub.isNonNullRef then false
  else if sub.isConcrete && sup.isConcrete then
    if sup.isExact then sub.isExact && ts.typesEqual sub.concreteIndex sup.concreteIndex
    else ts.isSubtype sub.concreteIndex sup.concreteIndex
  else if sub.isConcrete then sub.refHeap.isSubtypeOf sup.refHeap
  else if sup.isConcrete then
    (sub.refHeap == .none && sup.refHeap != .func) ||
      (sub.refHeap == .noFunc && sup.refHeap == .func)
  else sub.refHeap.isSubtypeOf sup.refHeap

/-- Does field `sub` match field `sup`? Mutability must agree; an immutable field is covariant and a
mutable one invariant. -/
def fieldMatches (sub sup : FieldType) : Bool :=
  if sub.mutable != sup.mutable then false
  else match sub.storage, sup.storage with
    | .i8, .i8 | .i16, .i16 => true
    | .val a, .val b =>
      if sup.mutable then
        a == b ||
          (a.isConcrete && b.isConcrete && a.isNonNullRef == b.isNonNullRef &&
            ts.typesEqual a.concreteIndex b.concreteIndex)
      else subtypeOf ts a b
    | _, _ => false

/-- Does composite type `sub` match `sup`? Parameters are contravariant, results covariant, a struct
may append fields. -/
def compTypeMatches : CompType → CompType → Bool
  | .func a, .func b =>
      a.params.length == b.params.length && a.results.length == b.results.length &&
        (b.params.zip a.params).all (fun p => subtypeOf ts p.1 p.2) &&
        (a.results.zip b.results).all (fun p => subtypeOf ts p.1 p.2)
  | .struct a, .struct b =>
      decide (b.length ≤ a.length) && (a.zip b).all (fun p => fieldMatches ts p.1 p.2)
  | .array a, .array b => fieldMatches ts a b
  | _, _ => false

/-- One declared supertype: it is open, matched structurally, and the descriptor relationships run
in parallel. -/
def checkDeclaredSupertype (i s : ℕ) : ValidateResult Unit := do
  let subCt ← orError .undefinedType ts.compTypes[i]?
  let supCt ← orError .undefinedType ts.compTypes[s]?
  ensure (!ts.isFinal s) .subType
  ensure (compTypeMatches ts subCt supCt) .subType
  let own := ts.links i
  let parent := ts.links s
  ensure (parent.descriptor.all fun pd => own.descriptor.any (ts.isSubtype · pd)) .subType
  ensure (parent.describes.all fun px => own.describes.any (ts.isSubtype · px)) .subType
  ensure (!(own.describes.isSome && parent.describes.isNone)) .subType

/-- Every declared supertype must be one. -/
def checkDeclaredSubtyping : ValidateResult Unit :=
  ts.supertypes.zipIdx.forM fun p =>
    match p.1 with
    | none => pure ()
    | some s => checkDeclaredSupertype ts p.2 s

/-! ## Scope of type indices and descriptor links -/

/-- One past the last type index each type may name: the end of its rec group. -/
def scopeLimits : List ℕ :=
  ts.recGroups.foldl
    (fun limit g => limit.mapIdx fun i e => if g.contains i then g.start + g.len else e)
    ((List.range ts.compTypes.length).map (· + 1))

/-- A type definition names only earlier types and members of its own group. -/
def checkTypeIndexScope : ValidateResult Unit :=
  (ts.compTypes.zip (scopeLimits ts)).forM fun p =>
    ensure (p.1.valTypes.all fun v => !v.isConcrete || decide (v.concreteIndex < p.2))
      .undefinedType

/-- The rec group of a type; a type outside every group is its own. -/
def groupOf (t : ℕ) : RecGroup := (ts.recGroups.find? (·.contains t)).getD ⟨t, 1⟩

def isStructType (t : ℕ) : Bool := (ts.structFields t).isSome

/-- The links of one type. -/
def checkTypeLinks (t : ℕ) (l : TypeLinks) : ValidateResult Unit := do
  ensure (l.descriptor.all fun d => groupOf ts d == groupOf ts t && isStructType ts t &&
    isStructType ts d && (ts.links d).describes == some t) .invalidDescriptor
  ensure (l.describes.all fun x => groupOf ts x == groupOf ts t && decide (x < t) &&
    isStructType ts t && isStructType ts x && (ts.links x).descriptor == some t) .invalidDescriptor

/-- Every link names a struct of the same rec group that links back, and a `describes` never points
forward. -/
def checkDescriptorLinks : ValidateResult Unit :=
  ts.typeLinks.zipIdx.forM fun p => checkTypeLinks ts p.2 p.1

/-! ## Descriptors -/

/-- The descriptor type of `ti`. -/
def descriptorOf (ti : ℕ) : ValidateResult ℕ := do
  let _ ← orError .undefinedType ts.compTypes[ti]?
  orError .invalidDescriptor (ts.links ti).descriptor

/-- A type with a descriptor is allocated with it, not by a plain allocation. -/
def checkPlainlyAllocatable (ti : ℕ) : ValidateResult Unit :=
  ensure (ts.links ti).descriptor.isNone .invalidDescriptor

/-- The type of a reference to a function: of its declared type, exact for one defined here. -/
def refFuncValType (m : Module) (f : ℕ) : ValType :=
  match m.declaredFuncTypeIndex f with
  | some ti => if m.funcRefIsExact f then .exactRef false .func ti else .concreteRef false .func ti
  | none => RefHeap.func.valType false

/-- The descriptor a cast to `rt` takes: exact for an exact target. -/
def descOperandType (rt : RefType) : ValidateResult ValType :=
  match rt.heap with
  | .concrete t => do
      let d ← descriptorOf ts t
      pure (ValType.concreteRef true .struct d)
  | .exact t => do
      let d ← descriptorOf ts t
      pure (ValType.exactRef true .struct d)
  | _ => .error .invalidDescriptor

/-- The value type of a cast target. -/
def refTypeValType (rt : RefType) : ValidateResult ValType :=
  match rt.heap with
  | .concrete ti => do
      let ct ← orError .decodeIndexOutOfRange ts.compTypes[ti]?
      pure (ValType.concreteRef rt.nullable ct.kind ti)
  | .exact ti => do
      let ct ← orError .decodeIndexOutOfRange ts.compTypes[ti]?
      pure (ValType.exactRef rt.nullable ct.kind ti)
  | ht => do
      let head ← orError .decodeIndexOutOfRange (ts.refHead ht)
      pure (head.valType rt.nullable)

/-! ## Families of types -/

section Families

variable {ts}

/-- A composite type that matches another belongs to its family. -/
theorem kind_eq_of_compTypeMatches {a b : CompType} (h : compTypeMatches ts a b = true) :
    a.kind = b.kind := by
  cases a <;> cases b <;> first | rfl | cases h

/-- The family of a type of the section. -/
def TypeSection.kindAt (ts : TypeSection) (t : ℕ) : Option CompKind :=
  (ts.compTypes[t]?).map CompType.kind

/-- A declared supertype belongs to the family of its subtype. -/
theorem kindAt_supertype (hchecked : checkDeclaredSubtyping ts = .ok ()) {t s : ℕ}
    (h : ts.supertype t = some s) : ts.kindAt t = ts.kindAt s := by
  rw [TypeSection.supertype, Option.join_eq_some_iff] at h
  have hmem : (some s, t) ∈ ts.supertypes.zipIdx := by
    rw [List.mem_zipIdx_iff_getElem?]
    exact h
  have hone := forM_eq_ok.mp hchecked _ hmem
  simp only [checkDeclaredSupertype, Except.bind_eq_ok, orError_eq_ok, ensure_eq_ok] at hone
  obtain ⟨sub, hsub, sup, hsup, -, -, -, hmatch, -⟩ := hone
  rw [TypeSection.kindAt, TypeSection.kindAt, hsub, hsup, Option.map_some, Option.map_some,
    kind_eq_of_compTypeMatches hmatch]

end Families

end Wasmrt
