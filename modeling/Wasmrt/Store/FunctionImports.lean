import Wasmrt.Store.Reachable

/-!
# Function imports through re-exports

A function import is matched by the store-wide identity of its type when the exporter defines the
function. A function the exporter itself imports has no defining type index there, and then the two
signatures are compared instead: the one the exporter declared, and the one the importer declares. An
exact import follows the chain to the definition in either case.

## Main definitions

* `Store.AcceptsFunc`: the check `instantiate` makes of one function import.
* `Store.IdentityFits`: the identity of the defining type fits the declared type.
* `Store.ReexportKept`: the signatures answer for a re-exported function what the identities would.

## Main results

* `acceptsFunc_exact_iff`, `acceptsFunc_defined_iff`, `acceptsFunc_imported_iff`: what each branch of
  the check decides.
* `acceptsFunc_reexport_iff`: exactly when the verdict does not depend on the chain of re-exports.
-/

namespace Wasmrt

open TypeRegistry

namespace Store

/-- Does instantiating `m` accept function `func` of instance `inst` for an import declared with type
`ti`, whose signature is `declared`? -/
def AcceptsFunc (s : Store) (m : Module) (declared : FuncType) (ti : ℕ) (exact : Bool)
    (inst func : ℕ) : Prop :=
  checkFuncImport (s.joined s.pools m.toTypeSection) (s.pools.types.assign m.toTypeSection).2 declared
    (some ti) exact (.wasm ⟨s.id, inst⟩ func) = .ok ()

instance (s : Store) (m : Module) (declared : FuncType) (ti : ℕ) (exact : Bool) (inst func : ℕ) :
    Decidable (s.AcceptsFunc m declared ti exact inst func) :=
  inferInstanceAs (Decidable (_ = _))

/-- The store-wide identity of type `dti` of instance `d` is below that of `m`'s type `ti`, or equal to
it for an exact import. -/
def IdentityFits (s : Store) (m : Module) (ti : ℕ) (exact : Bool) (d dti : ℕ) : Prop :=
  ∃ data got want, s.code[d]? = some data ∧ data.typeIds[dti]? = some got ∧
    (s.pools.types.assign m.toTypeSection).2[ti]? = some want ∧
      if exact then got = want
      else (s.pools.types.assign m.toTypeSection).1.isSubtype got want = true

/-- If instance `e` imports function `fe`, then its declared signature and the importer's are one
store-wide type exactly when the identity of the defining type fits. -/
def ReexportKept (s : Store) (m : Module) (declared : FuncType) (ti e fe d dti : ℕ) : Prop :=
  ∀ de, s.code[e]? = some de → fe < de.module.importedFuncCount →
    ∀ actual, de.module.funcType fe = some actual →
      (actual.storeType de.typeIds =
          declared.storeType (s.pools.types.assign m.toTypeSection).2 ↔
        s.IdentityFits m ti false d dti)

/-! ## What is known of the two sides -/

theorem lt_of_funcSig {ts : TypeSection} {ti : ℕ} {ft : FuncType} (h : ts.funcSig ti = some ft) :
    ti < ts.compTypes.length :=
  (List.getElem?_eq_some_iff.mp (TypeSection.funcSig_eq_some.mp h)).1

/-- The value types of a signature in a well-formed section have ids. -/
theorem hasId_of_funcSig {ts : TypeSection} (hts : ts.WellFormed) {ids : List ℕ}
    (hlen : ids.length = ts.compTypes.length) {ti : ℕ} {ft : FuncType}
    (hft : ts.funcSig ti = some ft) : ∀ v ∈ ft.params ++ ft.results, v.HasId ids := by
  intro v hv hc
  cases v with
  | concrete n e k i =>
    have hmem := List.mem_of_getElem? (TypeSection.funcSig_eq_some.mp hft)
    have hkind := hts.kind_eq _ hmem n e k i hv
    rw [Option.map_eq_some_iff] at hkind
    obtain ⟨ct, hct, -⟩ := hkind
    exact hlen ▸ (List.getElem?_eq_some_iff.mp hct).1
  | _ => cases hc

/-- An imported function has the signature its import declares. -/
theorem exists_funcType_of_lt {m : Module} {fi : ℕ} (h : fi < m.importedFuncCount) :
    ∃ ft, m.funcType fi = some ft := by
  have hlt : fi < m.funcImports.length := by
    rwa [Module.funcImports, ← List.countP_eq_length_filter]
  have himp : m.funcImports[fi]? = some m.funcImports[fi] := List.getElem?_eq_getElem hlt
  have hfunc : m.funcImports[fi].isFunc = true :=
    (List.mem_filter.mp (List.getElem_mem hlt)).2
  generalize m.funcImports[fi] = imp at himp hfunc
  obtain ⟨mod, name, ty, ti, exact⟩ := imp
  cases ty with
  | func ft => exact ⟨ft, by simp [Module.funcType, himp]⟩
  | _ => cases hfunc

/-- A defined function has the signature of its type. -/
theorem funcType_of_defined {m : Module} {fi ti : ℕ} (h : definedFuncType m fi = some ti) :
    m.funcType fi = m.funcSig ti := by
  unfold definedFuncType at h
  split at h
  · cases h
  · next hge =>
    have himp : m.funcImports[fi]? = none := by
      rw [List.getElem?_eq_none_iff, Module.funcImports, ← List.countP_eq_length_filter]
      exact Nat.le_of_not_lt hge
    simp [Module.funcType, himp, h]

/-! ## The branches of the check -/

section Check

variable {s : Store} {ids : List ℕ} {declared : FuncType} {declaredTi : Option ℕ} {inst func : ℕ}
  {data : InstanceData}

/-- An id issued by the store resolves to its instance. -/
theorem slot_of_lt {id : InstanceId} (hid : id.store = s.id) (h : id.index < s.code.length) :
    s.slot id = some id.index := by
  simp [slot, hid, h]

/-- The check of an exact import against a function of an instance. -/
theorem checkFuncImport_exact_iff (hlt : inst < s.code.length) :
    checkFuncImport s ids declared declaredTi true (.wasm ⟨s.id, inst⟩ func) = .ok () ↔
      exactFuncMatches s ids declaredTi inst func = true := by
  simp [checkFuncImport, slot_of_lt, hlt]

/-- The check of any other import against a function of an instance. -/
theorem checkFuncImport_inexact_iff (hd : s.code[inst]? = some data) :
    checkFuncImport s ids declared declaredTi false (.wasm ⟨s.id, inst⟩ func) = .ok () ↔
      ∃ actual, data.module.funcType func = some actual ∧
        funcMatches s ids declared declaredTi data func actual = true := by
  obtain ⟨hlt, rfl⟩ := List.getElem?_eq_some_iff.mp hd
  simp [checkFuncImport, slot_of_lt, hlt]

end Check

section Accepts

variable {s : Store} {m : Module} {declared : FuncType} {ti inst func : ℕ} {data : InstanceData}

theorem identityFits_iff {d dti got want : ℕ} {exact : Bool} (hd : s.code[d]? = some data)
    (hgot : data.typeIds[dti]? = some got)
    (hwant : (s.pools.types.assign m.toTypeSection).2[ti]? = some want) :
    s.IdentityFits m ti exact d dti ↔
      if exact then got = want
      else (s.pools.types.assign m.toTypeSection).1.isSubtype got want = true := by
  simp [IdentityFits, hd, hgot, hwant]

/-- An exact import is matched at the end of the chain, by equality of identities. -/
theorem acceptsFunc_exact_iff {d dti got want : ℕ} (hlt : inst < s.code.length)
    (hdef : definingFunc s.code inst func = some (d, dti)) (hd : s.code[d]? = some data)
    (hgot : data.typeIds[dti]? = some got)
    (hwant : (s.pools.types.assign m.toTypeSection).2[ti]? = some want) :
    s.AcceptsFunc m declared ti true inst func ↔ s.IdentityFits m ti true d dti := by
  rw [AcceptsFunc, ← s.id_joined s.pools m.toTypeSection, checkFuncImport_exact_iff (by simpa using hlt)]
  rw [identityFits_iff hd hgot hwant, if_pos rfl]
  simpa [exactFuncMatches, hdef, hd, hgot, hwant] using eq_comm

/-- A function its exporter defines is matched by subtyping of identities. -/
theorem acceptsFunc_defined_iff {dti got want : ℕ} {ft : FuncType}
    (hd : s.code[inst]? = some data) (hdti : definedFuncType data.module func = some dti)
    (hft : data.module.funcSig dti = some ft) (hgot : data.typeIds[dti]? = some got)
    (hwant : (s.pools.types.assign m.toTypeSection).2[ti]? = some want) :
    s.AcceptsFunc m declared ti false inst func ↔ s.IdentityFits m ti false inst dti := by
  have hindex : data.module.funcTypeIndex func = some dti := hdti
  rw [AcceptsFunc, ← s.id_joined s.pools m.toTypeSection,
    checkFuncImport_inexact_iff (by simpa using hd), identityFits_iff hd hgot hwant]
  simp [funcType_of_defined hdti, hft, funcMatches, hindex, hgot, hwant]

/-- A function its exporter imports is matched by equality of the declared signatures. -/
theorem acceptsFunc_imported_iff {actual : FuncType} (hd : s.code[inst]? = some data)
    (himport : func < data.module.importedFuncCount)
    (hactual : data.module.funcType func = some actual)
    (hids : ∀ v ∈ declared.params ++ declared.results,
      v.HasId (s.pools.types.assign m.toTypeSection).2) :
    s.AcceptsFunc m declared ti false inst func ↔
      actual.storeType data.typeIds =
        declared.storeType (s.pools.types.assign m.toTypeSection).2 := by
  have hindex : data.module.funcTypeIndex func = none := by simp [Module.funcTypeIndex, himport]
  rw [AcceptsFunc, ← s.id_joined s.pools m.toTypeSection,
    checkFuncImport_inexact_iff (by simpa using hd), eq_comm, ← crossModuleFuncTypesMatch_iff hids]
  simp [hactual, funcMatches, hindex]

end Accepts

end Store

open Store

/-- A chain starts at an instance of the store. -/
theorem Reexports.lt_length {code : List InstanceData} {e fe d fd : ℕ} {data : InstanceData}
    (h : Reexports code e fe d fd) (hd : code[d]? = some data) : e < code.length := by
  cases h with
  | refl => exact (List.getElem?_eq_some_iff.mp hd).1
  | step hmid => exact (List.getElem?_eq_some_iff.mp hmid).1

/-! ## Chains of re-exports -/

section Chain

variable {s : Store} {m : Module} {declared : FuncType} {ti e fe d fd dti : ℕ} {data : InstanceData}

/-- The type of a defined function has a signature and an id. -/
theorem Store.Inv.exists_typeId (hs : s.Inv) (hd : s.code[d]? = some data)
    (hdti : definedFuncType data.module fd = some dti) :
    ∃ ft got, data.module.funcSig dti = some ft ∧ data.typeIds[dti]? = some got := by
  have hlinked := hs.linked hd
  have hmem : dti ∈ data.module.functions := by
    unfold definedFuncType at hdti
    split at hdti
    · cases hdti
    · exact List.mem_of_getElem? hdti
  obtain ⟨ft, hft⟩ := hlinked.exists_funcSig hmem
  obtain ⟨got, hgot⟩ := hlinked.registered.exists_id (lt_of_funcSig hft)
  exact ⟨ft, got, hft, hgot⟩

/-- The declared type of an import has an id. -/
theorem Store.Inv.exists_declaredId (hs : s.Inv) (hm : m.toTypeSection.WellFormed)
    (hroom : (s.pools.types.assign m.toTypeSection).1.next < u32Max)
    (hdecl : m.funcSig ti = some declared) :
    ∃ want, (s.pools.types.assign m.toTypeSection).2[ti]? = some want :=
  (hs.joined hm hroom).2.exists_id (lt_of_funcSig hdecl)

/-- A function imported directly from its defining instance is accepted exactly when the identity of
its type fits. -/
theorem Store.Inv.acceptsFunc_direct_iff (hs : s.Inv) (hm : m.toTypeSection.WellFormed)
    (hroom : (s.pools.types.assign m.toTypeSection).1.next < u32Max)
    (hdecl : m.funcSig ti = some declared) (exact : Bool) (hd : s.code[d]? = some data)
    (hdti : definedFuncType data.module fd = some dti) :
    s.AcceptsFunc m declared ti exact d fd ↔ s.IdentityFits m ti exact d dti := by
  obtain ⟨ft, got, hft, hgot⟩ := hs.exists_typeId hd hdti
  obtain ⟨want, hwant⟩ := hs.exists_declaredId hm hroom hdecl
  cases exact with
  | true =>
    exact acceptsFunc_exact_iff (List.getElem?_eq_some_iff.mp hd).1
      (definingFunc_of_defined hd hdti) hd hgot hwant
  | false => exact acceptsFunc_defined_iff hd hdti hft hgot hwant

/-- Taken through re-exports, the function is accepted exactly when the identity of its type fits,
provided the import is exact or the signatures answer alike. -/
theorem Store.Inv.acceptsFunc_reexported_iff (hs : s.Inv) (hm : m.toTypeSection.WellFormed)
    (hroom : (s.pools.types.assign m.toTypeSection).1.next < u32Max)
    (hdecl : m.funcSig ti = some declared) (exact : Bool) (hchain : Reexports s.code e fe d fd)
    (hd : s.code[d]? = some data) (hdti : definedFuncType data.module fd = some dti) :
    (s.AcceptsFunc m declared ti exact e fe ↔ s.IdentityFits m ti exact d dti) ↔
      exact = true ∨ s.ReexportKept m declared ti e fe d dti := by
  obtain ⟨ft, got, hft, hgot⟩ := hs.exists_typeId hd hdti
  obtain ⟨want, hwant⟩ := hs.exists_declaredId hm hroom hdecl
  cases exact with
  | true =>
    simp [acceptsFunc_exact_iff (hchain.lt_length hd) (hchain.definingFunc_eq hs hd hdti) hd hgot hwant]
  | false =>
    rw [or_iff_right (by simp)]
    cases hchain with
    | refl =>
      -- no import is followed, and the condition is vacuous
      have hge : ∀ de, s.code[e]? = some de → ¬ fe < de.module.importedFuncCount := by
        intro de hde himport
        obtain rfl := Option.some.inj (hd.symm.trans hde)
        simp [definedFuncType, himport] at hdti
      exact iff_of_true (acceptsFunc_defined_iff hd hdti hft hgot hwant)
        fun de hde himport => absurd himport (hge de hde)
    | @step _ _ _ _ _ _ mid hmid himport htarget hrest =>
      obtain ⟨actual, hactual⟩ := exists_funcType_of_lt himport
      have hids := hasId_of_funcSig hm (hs.joined hm hroom).2.length_eq hdecl
      rw [acceptsFunc_imported_iff hmid himport hactual hids]
      constructor
      · intro h de hde _ actual' hactual'
        obtain rfl := Option.some.inj (hmid.symm.trans hde)
        obtain rfl := Option.some.inj (hactual.symm.trans hactual')
        exact h
      · exact fun h => h mid hmid himport actual hactual

/-- In a reachable store the verdict on a function import does not depend on re-exports, and is the one
the identities give, exactly when the import is exact or the signatures that stand in for the
identities of a re-exported function answer alike. -/
theorem acceptsFunc_reexport_iff (hs : s.Reachable) (hm : m.toTypeSection.WellFormed)
    (hroom : (s.pools.types.assign m.toTypeSection).1.next < u32Max)
    (hdecl : m.funcSig ti = some declared) (exact : Bool) (hchain : Reexports s.code e fe d fd)
    (hd : s.code[d]? = some data) (hdti : definedFuncType data.module fd = some dti) :
    ((s.AcceptsFunc m declared ti exact e fe ↔ s.AcceptsFunc m declared ti exact d fd) ∧
        (s.AcceptsFunc m declared ti exact d fd ↔ s.IdentityFits m ti exact d dti)) ↔
      exact = true ∨ s.ReexportKept m declared ti e fe d dti := by
  have hs : s.Inv := hs.inv (lt_of_le_of_lt (hs.next_le_assign _) hroom)
  have hdirect := hs.acceptsFunc_direct_iff hm hroom hdecl exact hd hdti
  rw [← hs.acceptsFunc_reexported_iff hm hroom hdecl exact hchain hd hdti, hdirect]
  tauto

end Chain

/-! ## A function accepted only through a re-export -/

/-- A module with one function type without parameters and results. -/
def oneFuncType (isFinal : Bool) : TypeSection := decoded [[⟨isFinal, none, {}, .func [] []⟩]]

theorem wellFormed_oneFuncType (isFinal : Bool) : (oneFuncType isFinal).WellFormed := by
  cases isFinal
  · exact wellFormed_of_decode [[⟨false, none, {}, .func [] []⟩]] (by decide) (by decide)
      rfl rfl rfl
  · exact wellFormed_of_decode [[⟨true, none, {}, .func [] []⟩]] (by decide) (by decide)
      rfl rfl rfl

/-- Defines a function whose type is open to subtyping. -/
def definesOpen : Module :=
  { oneFuncType false with functions := [0], code := [⟨[], [.end_]⟩] }

/-- An import of a function declared with type 0. -/
def importsType0 : Import where
  module := "m"
  name := "f"
  ty := .func ⟨[], []⟩
  funcTypeIndex := some 0

/-- Imports that function under its own type, and may export it again. -/
def reexportsOpen : Module := { oneFuncType false with imports := [importsType0] }

/-- Imports a function of the final type. -/
def importsFinal : Module := { oneFuncType true with imports := [importsType0] }

/-- A store in which instance 1 imports the function of instance 0. -/
def reexportStore : Store :=
  (Store.instantiate reexportsOpen { funcs := [.wasm ⟨0, 0⟩ 0] }
    (Store.instantiate definesOpen {} (Store.new 0 .defaults)).state).state

theorem reachable_reexportStore : reexportStore.Reachable :=
  ⟨0, .defaults, .head (.instantiate _ _ (wellFormed_oneFuncType false))
    (.single (.instantiate _ _ (wellFormed_oneFuncType false)))⟩

theorem reexports_reexportStore : Reexports reexportStore.code 1 0 0 0 :=
  .step rfl (by decide) rfl (.refl 0 0)

/-- The final type is not the type the function was defined with, and the import is refused; through
the re-export it is accepted. -/
theorem reexport_accepted_not_direct :
    reexportStore.Reachable ∧ Reexports reexportStore.code 1 0 0 0 ∧
      reexportStore.AcceptsFunc importsFinal ⟨[], []⟩ 0 false 1 0 ∧
        ¬ reexportStore.AcceptsFunc importsFinal ⟨[], []⟩ 0 false 0 0 :=
  ⟨reachable_reexportStore, reexports_reexportStore, by decide, by decide⟩

/-- The verdicts on an importer of the open type. -/
theorem reexport_open_accepted_iff :
    ((reexportStore.AcceptsFunc reexportsOpen ⟨[], []⟩ 0 false 1 0 ↔
          reexportStore.AcceptsFunc reexportsOpen ⟨[], []⟩ 0 false 0 0) ∧
        (reexportStore.AcceptsFunc reexportsOpen ⟨[], []⟩ 0 false 0 0 ↔
          reexportStore.IdentityFits reexportsOpen 0 false 0 0)) ↔
      false = true ∨ reexportStore.ReexportKept reexportsOpen ⟨[], []⟩ 0 1 0 0 0 :=
  acceptsFunc_reexport_iff reachable_reexportStore (wellFormed_oneFuncType false) (by decide) rfl false
    reexports_reexportStore rfl rfl

end Wasmrt
