import Wasmrt.Interp.References

/-!
# Indirect calls

`call_indirect` reads a function reference from a table and checks that the function has the stated
type. When the instance the reference was taken in defines the function, its type is compared by
subtyping. When that instance imports it, two signatures are compared in its place: the stated one, and
the one of the import, whose type indices are then read as the caller's.

## Main definitions

* `indirectMatches`, `checkIndirect`, `callIndirect`: the instruction up to the call.
* `Store.ImportCheckKept`: that comparison answers what subtyping of the identities would.

## Main results

* `callIndirect_agrees_iff`: exactly when the check agrees with `ref.test`.
-/

namespace Wasmrt

open TypeRegistry

/-! ## The instruction -/

/-- The type check of an indirect call by instance `inst` of function `f` of instance `owner`: `want` is
the signature of the stated type, `got` that of the function. -/
def indirectMatches (s : Store) (inst : ℕ) (caller : InstanceData) (typeIndex : ℕ) (want : FuncType)
    (owner : ℕ) (ownerData : InstanceData) (f : ℕ) (got : FuncType) : Bool :=
  if owner = inst then
    match caller.module.funcTypeIndex f with
    | some gotTi => caller.module.isSubtype gotTi typeIndex
    | none => caller.module.funcTypesEqual want got
  else
    match caller.typeIds[typeIndex]?,
      (ownerData.module.funcTypeIndex f).bind (ownerData.typeIds[·]?) with
    | some wantId, some gotId => s.pools.types.isSubtype gotId wantId
    | _, _ => caller.module.funcTypesEqual want got

/-- Check the table entry of an indirect call and resolve its callee: instance, function and
signature. -/
def checkIndirect (s : Store) (inst : ℕ) (caller : InstanceData) (typeIndex : ℕ) (entry : Value) :
    Except Trap (ℕ × ℕ × FuncType) := do
  ensure (entry != nullRef) .uninitializedElement
  let owner := funcrefInstance entry
  let f := funcrefIndex entry
  let want ← orError .undefinedType (caller.module.funcSig typeIndex)
  let ownerData ← orError .undefinedFunc s.code[owner]?
  let got ← orError .undefinedFunc (ownerData.module.funcType f)
  ensure (indirectMatches s inst caller typeIndex want owner ownerData f got) .indirectTypeMismatch
  pure (owner, f, got)

/-- The table entry an operand selects, in the index type of the table. -/
def readTable (p : Pools) (ti : ℕ) (operand : Value) : Except Trap Value := do
  let t ← orError .noTable p.tables[ti]?
  orError .tableOutOfBounds t.entries[popMem t.is64 operand]?

/-- `call_indirect` up to the call. -/
def callIndirect (s : Store) (inst : ℕ) (caller : InstanceData) (typeIndex table : ℕ)
    (operand : Value) : Except Trap (ℕ × ℕ × FuncType) := do
  let entry ← readTable s.pools (caller.maps.table table) operand
  checkIndirect s inst caller typeIndex entry

/-! ## What the check decides -/

/-- Store-wide, type `ti` of instance `d` is below type `t` of instance `inst`. -/
def Store.IdentityBelow (s : Store) (d ti inst t : ℕ) : Prop :=
  ∃ got want, typeIdIn s.code d ti = some got ∧ typeIdIn s.code inst t = some want ∧
    s.pools.types.isSubtype got want = true

/-- If instance `e` imports function `fe`, then the stated signature and the declared one of the import,
the indices of both read by the caller, are one store-wide type exactly when the identity of the
defining type is below that of the stated one. -/
def Store.ImportCheckKept (s : Store) (inst : ℕ) (caller : InstanceData) (t : ℕ) (stated : FuncType)
    (e fe d ti : ℕ) : Prop :=
  ∀ data, s.code[e]? = some data → fe < data.module.importedFuncCount →
    ∀ declared, data.module.funcType fe = some declared →
      (stated.storeType caller.typeIds = declared.storeType caller.typeIds ↔
        s.IdentityBelow d ti inst t)

section Check

variable {s : Store} {inst : ℕ} {caller : InstanceData} {t : ℕ} {stated : FuncType}

/-- Past the tests that precede it, the instruction succeeds exactly when the types match. -/
theorem checkIndirect_ok_iff {entry : Value} {ownerData : InstanceData} {got : FuncType}
    (hentry : entry ≠ nullRef) (hsig : caller.module.funcSig t = some stated)
    (howner : s.code[funcrefInstance entry]? = some ownerData)
    (hgot : ownerData.module.funcType (funcrefIndex entry) = some got) :
    (∃ callee, checkIndirect s inst caller t entry = .ok callee) ↔
      indirectMatches s inst caller t stated (funcrefInstance entry) ownerData
        (funcrefIndex entry) got = true := by
  simp only [checkIndirect, Except.bind_eq_ok, ensure_eq_ok, orError_eq_ok, Except.pure_eq_ok, hsig,
    howner, hgot, Option.some.injEq, exists_eq_left', bne_iff_ne]
  constructor
  · rintro ⟨callee, -, -, -, h, -⟩
    exact h
  · exact fun h => ⟨_, ⟨⟩, hentry, ⟨⟩, h, rfl⟩

/-- A function its instance defines is matched by subtyping of identities. -/
theorem Store.Inv.indirectMatches_defined (hs : s.Inv) (hcaller : s.code[inst]? = some caller)
    {owner f ti got want : ℕ} {ownerData : InstanceData} (ft : FuncType)
    (howner : s.code[owner]? = some ownerData) (hti : definedFuncType ownerData.module f = some ti)
    (hgot : ownerData.typeIds[ti]? = some got) (hwant : caller.typeIds[t]? = some want) :
    indirectMatches s inst caller t stated owner ownerData f ft =
      s.pools.types.isSubtype got want := by
  have hindex : ownerData.module.funcTypeIndex f = some ti := hti
  unfold indirectMatches
  split
  · next heq =>
    subst heq
    obtain rfl := Option.some.inj (hcaller.symm.trans howner)
    rw [hindex]
    exact hs.isSubtype_eq hcaller hgot hwant
  · simp [hindex, hgot, hwant]

/-- A function its instance imports is matched by comparing signatures in the caller's module. -/
theorem Store.Inv.indirectMatches_imported (hs : s.Inv) (hcaller : s.code[inst]? = some caller)
    {owner f : ℕ} {ownerData : InstanceData} {declared : FuncType}
    (howner : s.code[owner]? = some ownerData) (himport : f < ownerData.module.importedFuncCount)
    (hsig : caller.module.funcSig t = some stated) :
    indirectMatches s inst caller t stated owner ownerData f declared = true ↔
      stated.storeType caller.typeIds = declared.storeType caller.typeIds := by
  have hlinked := hs.linked hcaller
  have hindex : ownerData.module.funcTypeIndex f = none := by simp [Module.funcTypeIndex, himport]
  rw [← hlinked.registered.funcTypesEqual_iff hs.registry hlinked.wellFormed
    (hasId_of_funcSig hlinked.wellFormed hlinked.registered.length_eq hsig)]
  unfold indirectMatches
  split
  · next heq =>
    subst heq
    obtain rfl := Option.some.inj (hcaller.symm.trans howner)
    rw [hindex]
  · simp [hindex]

end Check

/-! ## Agreement with the type test -/

section Agreement

variable {s : Store} {inst : ℕ} {caller : InstanceData} {t d fd ti : ℕ} {stated : FuncType}
  {data : InstanceData} {entry : Value}

/-- The check of an indirect call on a function reference. -/
theorem Store.Inv.checkIndirect_agrees_iff (hs : s.Inv) (hcaller : s.code[inst]? = some caller)
    (hsig : caller.module.funcSig t = some stated) (hentry : entry ≠ nullRef)
    (hchain : Reexports s.code (funcrefInstance entry) (funcrefIndex entry) d fd)
    (hd : s.code[d]? = some data) (hti : definedFuncType data.module fd = some ti) :
    ((∃ callee, checkIndirect s inst caller t entry = .ok callee) ↔ s.IdentityBelow d ti inst t) ↔
      s.ImportCheckKept inst caller t stated (funcrefInstance entry) (funcrefIndex entry) d ti := by
  cases hchain with
  | refl =>
    -- no import is followed, and the condition is vacuous
    have hge : ∀ data', s.code[funcrefInstance entry]? = some data' →
        ¬ funcrefIndex entry < data'.module.importedFuncCount := by
      intro data' hdata' himport
      obtain rfl := Option.some.inj (hd.symm.trans hdata')
      simp [definedFuncType, himport] at hti
    obtain ⟨ft, got, hft, hgot⟩ := hs.exists_typeId hd hti
    obtain ⟨want, hwant⟩ := (hs.linked hcaller).registered.exists_id (lt_of_funcSig hsig)
    have hfunc : data.module.funcType (funcrefIndex entry) = some ft :=
      (funcType_of_defined hti).trans hft
    rw [checkIndirect_ok_iff hentry hsig hd hfunc,
      hs.indirectMatches_defined hcaller ft hd hti hgot hwant]
    refine iff_of_true ?_ fun data' hdata' himport => absurd himport (hge data' hdata')
    simp [Store.IdentityBelow, typeIdIn, hd, hgot, hcaller, hwant]
  | @step _ _ _ _ _ _ mid hmid himport htarget hrest =>
    obtain ⟨declared, hdeclared⟩ := exists_funcType_of_lt himport
    rw [checkIndirect_ok_iff hentry hsig hmid hdeclared,
      hs.indirectMatches_imported hcaller hmid himport hsig]
    constructor
    · intro h data' hdata' _ declared' hdeclared'
      obtain rfl := Option.some.inj (hmid.symm.trans hdata')
      obtain rfl := Option.some.inj (hdeclared.symm.trans hdeclared')
      exact h
    · exact fun h => h mid hmid himport declared hdeclared

/-- `ref.test` follows a function reference to its definition. -/
theorem Store.Inv.refTest_iff_identityBelow (hs : s.Inv) (hcaller : s.code[inst]? = some caller)
    (hsig : caller.module.funcSig t = some stated) (hentry : entry ≠ nullRef)
    (hchain : Reexports s.code (funcrefInstance entry) (funcrefIndex entry) d fd)
    (hd : s.code[d]? = some data) (hti : definedFuncType data.module fd = some ti) :
    refTest caller.module.toTypeSection s.code s.pools inst entry ⟨false, .concrete t⟩ = i32Value 1 ↔
      s.IdentityBelow d ti inst t := by
  obtain ⟨ft, got, -, hgot⟩ := hs.exists_typeId hd hti
  obtain ⟨want, hwant⟩ := (hs.linked hcaller).registered.exists_id (lt_of_funcSig hsig)
  have hgot : typeIdIn s.code d ti = some got := by simp [typeIdIn, hd, hgot]
  have hwant' : typeIdIn s.code inst t = some want := by simp [typeIdIn, hcaller, hwant]
  rw [refTest_eq_one, hs.refMatches_func hcaller false hentry hsig
    (hchain.definingFunc_eq hs hd hti) hgot hwant]
  simp [Store.IdentityBelow, hgot, hwant']

/-- In a reachable store `call_indirect` with a function type of the caller passes its check on a
function some instance defines exactly when `ref.test` answers 1, if and only if the instance the
reference was taken in defines the function or the signatures compared in its place answer what
subtyping of the identities would. -/
theorem callIndirect_agrees_iff (hs : s.Reachable) (hroom : s.pools.types.next < u32Max)
    (hcaller : s.code[inst]? = some caller) (hsig : caller.module.funcSig t = some stated)
    {table : ℕ} {operand : Value}
    (hread : readTable s.pools (caller.maps.table table) operand = .ok entry)
    (hentry : entry ≠ nullRef)
    (hchain : Reexports s.code (funcrefInstance entry) (funcrefIndex entry) d fd)
    (hd : s.code[d]? = some data) (hti : definedFuncType data.module fd = some ti) :
    ((∃ callee, callIndirect s inst caller t table operand = .ok callee) ↔
        refTest caller.module.toTypeSection s.code s.pools inst entry ⟨false, .concrete t⟩ =
          i32Value 1) ↔
      s.ImportCheckKept inst caller t stated (funcrefInstance entry) (funcrefIndex entry) d ti := by
  have hs := hs.inv hroom
  have hcheck : callIndirect s inst caller t table operand = checkIndirect s inst caller t entry := by
    rw [callIndirect, hread]
    rfl
  rw [hs.refTest_iff_identityBelow hcaller hsig hentry hchain hd hti, hcheck]
  exact hs.checkIndirect_agrees_iff hcaller hsig hentry hchain hd hti

end Agreement

/-! ## An imported function called at a foreign type -/

/-- An open and a final function type, both without parameters and results. -/
def openAndFinal : TypeSection :=
  decoded [[⟨false, none, {}, .func [] []⟩], [⟨true, none, {}, .func [] []⟩]]

theorem wellFormed_openAndFinal : openAndFinal.WellFormed :=
  wellFormed_of_decode
    [[⟨false, none, {}, .func [] []⟩], [⟨true, none, {}, .func [] []⟩]]
    (by decide) (by decide) rfl rfl rfl

/-- Imports a function of the open type and puts it into a table. -/
def tabulatesOpen : Module :=
  { openAndFinal with
    imports := [importsType0]
    tables := [{ element := .ref .func true, limits := { min := 1, max := none } }]
    elements := [{
      mode := .active, tableIndex := 0, offsetExpr := [.i32Const 0], funcs := [0], exprs := []
      elemType := .ref .func true }] }

/-- A store in which instance 1 holds the function of instance 0 in its table. -/
def tabulatedStore : Store :=
  (Store.instantiate tabulatesOpen { funcs := [.wasm ⟨0, 0⟩ 0] }
    (Store.instantiate definesOpen {} (Store.new 0 .defaults)).state).state

theorem reachable_tabulatedStore : tabulatedStore.Reachable :=
  ⟨0, .defaults, .head (.instantiate _ _ (wellFormed_oneFuncType false))
    (.single (.instantiate _ _ wellFormed_openAndFinal))⟩

/-- Instance 1 may call the function at its final type, although `ref.test` denies it that type. -/
theorem callIndirect_passes_refTest_fails :
    tabulatedStore.Reachable ∧ Reexports tabulatedStore.code 1 0 0 0 ∧
      ∃ caller, tabulatedStore.code[1]? = some caller ∧
        readTable tabulatedStore.pools (caller.maps.table 0) 0 = .ok (packFuncref 1 0) ∧
          callIndirect tabulatedStore 1 caller 1 0 0 = .ok (1, 0, ⟨[], []⟩) ∧
            refTest caller.module.toTypeSection tabulatedStore.code tabulatedStore.pools 1
              (packFuncref 1 0) ⟨false, .concrete 1⟩ = i32Value 0 :=
  ⟨reachable_tabulatedStore, .step rfl (by decide) rfl (.refl 0 0), _, rfl, by decide, by decide,
    by decide⟩

/-- The two checks at the open type. -/
theorem callIndirect_open_agrees_iff :
    ∃ caller, tabulatedStore.code[1]? = some caller ∧
      (((∃ callee, callIndirect tabulatedStore 1 caller 0 0 0 = .ok callee) ↔
          refTest caller.module.toTypeSection tabulatedStore.code tabulatedStore.pools 1
            (packFuncref 1 0) ⟨false, .concrete 0⟩ = i32Value 1) ↔
        tabulatedStore.ImportCheckKept 1 caller 0 ⟨[], []⟩ (funcrefInstance (packFuncref 1 0))
          (funcrefIndex (packFuncref 1 0)) 0 0) :=
  ⟨_, rfl, callIndirect_agrees_iff reachable_tabulatedStore (by decide) rfl rfl (by decide) (by decide)
    (.step rfl (by decide) rfl (.refl 0 0)) rfl rfl⟩

end Wasmrt
