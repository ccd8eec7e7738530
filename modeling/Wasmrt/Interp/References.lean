import Wasmrt.Store.FunctionImports

/-!
# Runtime type tests

`ref.test` and `ref.cast` ask for the dynamic type of a reference. A reference's type lives in the
module that created it: a GC object records its owner, a function reference the instance it was taken
in, from which the defining one is found. On types of one module the test is the module's own
subtyping, across modules that of the store-wide registry, and in a reachable store the two are one
relation.

## Main definitions

* `headMatches`, `concreteTarget`, `typeMatches`, `refMatches`: the test of the source.

## Main results

* `Store.Inv.typeMatches_eq`: comparing types of two instances is comparing their store-wide ids.
* `Store.Inv.refMatches_func`: the test of a function reference against a concrete function type.
-/

namespace Wasmrt

open TypeRegistry

/-! ## The test -/

/-- Match a head, with the type index of the value if it has one, against a target heap type. -/
def headMatches (ts : TypeSection) (actual : RefHeap) (actualTi : Option ℕ) : HeapType → Bool
  | .concrete t => actualTi.any (ts.isSubtype · t)
  | .exact t => actualTi.any (ts.typesEqual · t)
  | .noFunc | .noExternal | .noExn => false
  | target => (ts.refHead target).any actual.isSubtypeOf

/-- A concrete target as type index and exactness; `none` for an abstract one. -/
def concreteTarget : HeapType → Option (ℕ × Bool)
  | .concrete t => some (t, false)
  | .exact t => some (t, true)
  | _ => none

/-- Compare type `ti` of instance `owner` with type `t` of instance `inst`, whose module is `ts`: within
the module for one instance, by the store-wide ids across instances. -/
def typeMatches (ts : TypeSection) (reg : TypeRegistry) (inst owner ti t : ℕ) (exact : Bool)
    (gotId wantId : Option ℕ) : Bool :=
  if owner = inst then if exact then ts.typesEqual ti t else ts.isSubtype ti t
  else
    match gotId, wantId with
    | some got, some want => if exact then got == want else reg.isSubtype got want
    | _, _ => false

/-- The store-wide id of type `t` of instance `inst`. -/
def typeIdIn (code : List InstanceData) (inst t : ℕ) : Option ℕ :=
  (code[inst]?).bind (·.typeIds[t]?)

/-- Does a non-null value of the `any` hierarchy match the target? -/
def anyMatches (ts : TypeSection) (code : List InstanceData) (p : Pools) (inst : ℕ) (v : Value)
    (targetHead : RefHeap) (heap : HeapType) : Bool :=
  if v &&& hostTag ≠ 0 then targetHead == .any
  else if v &&& externTag ≠ 0 then false
  else if v &&& i31Tag ≠ 0 then headMatches ts .i31 none heap
  else
    match p.gcHeap[v.toNat]? with
    | none => false
    | some obj =>
      match code[obj.owner]? with
      | none => false
      | some d =>
        let kind : RefHeap := match (d.module.compTypes[obj.typeIndex]?).map CompType.kind with
          | some .struct => .struct
          | some .array => .array
          | _ => .func
        match concreteTarget heap with
        | none => headMatches ts kind none heap
        | some (t, exact) =>
          let gotId := (d.module.compTypes[obj.typeIndex]?).bind fun _ => d.typeIds[obj.typeIndex]?
          typeMatches ts p.types inst obj.owner obj.typeIndex t exact gotId (typeIdIn code inst t)

/-- Does a non-null function reference match the target? -/
def funcMatchesTarget (ts : TypeSection) (code : List InstanceData) (p : Pools) (inst : ℕ)
    (v : Value) (heap : HeapType) : Bool :=
  match concreteTarget heap with
  | none => headMatches ts .func none heap
  | some (t, exact) =>
    match definingFunc code (funcrefInstance v) (funcrefIndex v) with
    | none => false
    | some (owner, ti) =>
      typeMatches ts p.types inst owner ti t exact (typeIdIn code owner ti) (typeIdIn code inst t)

/-- Does a reference match a target type, both read by instance `inst`, whose module is `ts`? -/
def refMatches (ts : TypeSection) (code : List InstanceData) (p : Pools) (inst : ℕ) (v : Value)
    (rt : RefType) : Bool :=
  if v = nullRef then rt.nullable
  else
    match ts.refHead rt.heap with
    | none => false
    | some targetHead =>
      match targetHead.top with
      | .any => anyMatches ts code p inst v targetHead rt.heap
      | .func => funcMatchesTarget ts code p inst v rt.heap
      | top => headMatches ts top none rt.heap

/-- `ref.test`: 1 if the reference matches, 0 otherwise. -/
def refTest (ts : TypeSection) (code : List InstanceData) (p : Pools) (inst : ℕ) (v : Value)
    (rt : RefType) : Value :=
  i32Value (if refMatches ts code p inst v rt then 1 else 0)

@[simp]
theorem refTest_eq_one {ts : TypeSection} {code : List InstanceData} {p : Pools} {inst : ℕ}
    {v : Value} {rt : RefType} :
    refTest ts code p inst v rt = i32Value 1 ↔ refMatches ts code p inst v rt = true := by
  unfold refTest
  cases refMatches ts code p inst v rt <;> decide

/-! ## The test in a reachable store -/

section Reachable

variable {s : Store} {inst : ℕ} {d : InstanceData}

/-- On types of one instance subtyping in the module is subtyping of ids. -/
theorem Store.Inv.isSubtype_eq (hs : s.Inv) (hd : s.code[inst]? = some d) {a b ia ib : ℕ}
    (ha : d.typeIds[a]? = some ia) (hb : d.typeIds[b]? = some ib) :
    d.module.isSubtype a b = s.pools.types.isSubtype ia ib :=
  ((hs.linked hd).registered.isSubtype_eq hs.registry (hs.linked hd).wellFormed ha hb).symm

/-- On types of one instance equality in the module is equality of ids. -/
theorem Store.Inv.typesEqual_eq (hs : s.Inv) (hd : s.code[inst]? = some d) {a b ia ib : ℕ}
    (ha : d.typeIds[a]? = some ia) (hb : d.typeIds[b]? = some ib) :
    d.module.typesEqual a b = (ia == ib) := by
  have hlinked := hs.linked hd
  have hlt : ∀ {t c : ℕ}, d.typeIds[t]? = some c → t < d.module.compTypes.length := fun h =>
    hlinked.registered.length_eq ▸ (List.getElem?_eq_some_iff.mp h).1
  have hiff := hlinked.registered.id_eq_iff_canonId_eq hs.registry hlinked.wellFormed (hlt ha) (hlt hb)
  rw [ha, hb, Option.some_inj] at hiff
  rw [TypeSection.typesEqual, Bool.eq_iff_iff, beq_iff_eq, beq_iff_eq, hiff]

/-- Comparing types of two instances is comparing their ids, whether the instances are one or not. -/
theorem Store.Inv.typeMatches_eq (hs : s.Inv) (hd : s.code[inst]? = some d) {owner ti t got want : ℕ}
    (exact : Bool) (hgot : typeIdIn s.code owner ti = some got) (hwant : d.typeIds[t]? = some want) :
    typeMatches d.module.toTypeSection s.pools.types inst owner ti t exact (some got) (some want) =
      if exact then got == want else s.pools.types.isSubtype got want := by
  unfold typeMatches
  split
  · next heq =>
    subst heq
    have hti : d.typeIds[ti]? = some got := by simpa [typeIdIn, hd] using hgot
    rw [hs.typesEqual_eq hd hti hwant, hs.isSubtype_eq hd hti hwant]
  · rfl

/-- A function reference matches a concrete function type exactly when the id of the type it was
defined with is below the id of the target. -/
theorem Store.Inv.refMatches_func (hs : s.Inv) (hd : s.code[inst]? = some d) {v : Value}
    {owner ti t got want : ℕ} {ft : FuncType} (nullable : Bool) (hv : v ≠ nullRef)
    (hsig : d.module.funcSig t = some ft)
    (hdef : definingFunc s.code (funcrefInstance v) (funcrefIndex v) = some (owner, ti))
    (hgot : typeIdIn s.code owner ti = some got) (hwant : d.typeIds[t]? = some want) :
    refMatches d.module.toTypeSection s.code s.pools inst v ⟨nullable, .concrete t⟩ =
      s.pools.types.isSubtype got want := by
  have hhead : d.module.refHead (.concrete t) = some .func := by
    simp [TypeSection.refHead, TypeSection.funcSig_eq_some.mp hsig, CompType.kind, CompKind.head]
  have hwant' : typeIdIn s.code inst t = some want := by simp [typeIdIn, hd, hwant]
  have hmatch := hs.typeMatches_eq hd false hgot hwant
  simp only [refMatches, if_neg hv, hhead, RefHeap.top, funcMatchesTarget, concreteTarget, hdef, hgot,
    hwant', hmatch]
  rfl

end Reachable

end Wasmrt
