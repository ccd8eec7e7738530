import Wasmrt.TypeIdentity.StoreTypes
import Wasmrt.Validate.MutableFields

/-!
# Types across module boundaries

Import matching compares types numbered by different modules. `cross_module_val_types_match` and
`cross_module_func_types_match` decide equality, `cross_module_val_subtype` subtyping, all through
the store-wide ids of the two modules.

On one module the subtype check answers what the validator answers, with one exception: an abstract
bottom reference is below the concrete types of its hierarchy for the validator, and below none of
them here.

## Main definitions

* `crossModuleValTypesMatch`, `crossModuleFuncTypesMatch`, `crossModuleValSubtype`.
* `ValType.storeType`, `FuncType.storeType`: a type with its references read as store-wide ids.
* `BottomBelowConcrete a b`: `a` is the bottom of the hierarchy of the concrete type `b`.

## Main results

* `crossModuleValTypesMatch_iff`, `crossModuleFuncTypesMatch_iff`: the equality checks decide equality
  of store-wide types.
* `crossModuleValSubtype_assignAll_iff`: exactly where the subtype check agrees with the validator's.
-/

namespace Wasmrt

open TypeRegistry

/-! ## The checks of the source -/

/-- One value type compared across modules: a concrete reference by nullability, exactness and the id
of its target. Both ids must exist. -/
def crossModuleValTypesMatch (aIds : List ℕ) (a : ValType) (bIds : List ℕ) (b : ValType) : Bool :=
  if !a.isConcrete || !b.isConcrete then a == b
  else if a.isNonNullRef != b.isNonNullRef || a.isExact != b.isExact then false
  else match aIds[a.concreteIndex]?, bIds[b.concreteIndex]? with
    | some x, some y => x == y
    | _, _ => false

/-- Do two signatures from different modules denote the same type? -/
def crossModuleFuncTypesMatch (aIds : List ℕ) (a : FuncType) (bIds : List ℕ) (b : FuncType) :
    Bool :=
  a.params.length == b.params.length && a.results.length == b.results.length &&
    (a.params.zip b.params).all (fun p => crossModuleValTypesMatch aIds p.1 bIds p.2) &&
    (a.results.zip b.results).all (fun p => crossModuleValTypesMatch aIds p.1 bIds p.2)

/-- An id that is not the one of an unknown type. -/
def knownId (x : Option ℕ) : Option ℕ := x.filter (· != unknownType)

/-- Is `got`, numbered by one module, a subtype of `want`, numbered by another? In an invariant
position nullability and exactness must agree as well. -/
def crossModuleValSubtype (reg : TypeRegistry) (gotIds : List ℕ) (got : ValType)
    (wantIds : List ℕ) (want : ValType) (invariant : Bool) : Bool :=
  if !got.isRef || !want.isRef then got == want
  else if invariant && got.isNonNullRef != want.isNonNullRef then false
  else if !invariant && !got.isNonNullRef && want.isNonNullRef then false
  else match got.isConcrete, want.isConcrete with
    | true, true =>
      match knownId gotIds[got.concreteIndex]?, knownId wantIds[want.concreteIndex]? with
      | some a, some b =>
        if invariant then a == b && got.isExact == want.isExact
        else if want.isExact then got.isExact && a == b
        else reg.isSubtype a b
      | _, _ => false
    | true, false => !invariant && got.refHeap.isSubtypeOf want.refHeap
    | false, true => false
    | false, false =>
      if invariant then got.refHeap == want.refHeap
      else got.refHeap.isSubtypeOf want.refHeap

/-! ## Store-wide types -/

/-- A value type with its reference read as a store-wide id: nullability, exactness and id. -/
def ValType.storeType (ids : List ℕ) (v : ValType) : ValShape (Option ℕ) := v.shape.map (ids[·]?)

/-- A signature with its references read as store-wide ids. -/
def FuncType.storeType (ids : List ℕ) (ft : FuncType) :
    List (ValShape (Option ℕ)) × List (ValShape (Option ℕ)) :=
  (ft.params.map (·.storeType ids), ft.results.map (·.storeType ids))

/-- A concrete value type has an id. -/
def ValType.HasId (ids : List ℕ) (v : ValType) : Prop :=
  v.isConcrete = true → v.concreteIndex < ids.length

/-- The check decides equality of store-wide types. -/
theorem crossModuleValTypesMatch_iff {aIds bIds : List ℕ} {a b : ValType} (ha : a.HasId aIds) :
    crossModuleValTypesMatch aIds a bIds b = true ↔ a.storeType aIds = b.storeType bIds := by
  cases a with
  | concrete n e k i =>
    cases b with
    | concrete n' e' k' i' =>
      have hlt : (i : ℕ) < aIds.length := ha rfl
      have hi : aIds[(i : ℕ)]? = some aIds[(i : ℕ)] := List.getElem?_eq_getElem hlt
      cases hb : bIds[(i' : ℕ)]? with
      | none =>
        simp [crossModuleValTypesMatch, ValType.isConcrete, ValType.isNonNullRef, ValType.isExact,
          ValType.concreteIndex, ValType.storeType, ValType.shape, ValShape.map, hi, hb]
      | some c =>
        cases n <;> cases n' <;> cases e <;> cases e' <;>
          simp [crossModuleValTypesMatch, ValType.isConcrete, ValType.isNonNullRef,
            ValType.isExact, ValType.concreteIndex, ValType.storeType, ValType.shape, ValShape.map,
            hi, hb]
    | _ =>
      simp [crossModuleValTypesMatch, ValType.isConcrete, ValType.storeType, ValType.shape,
        ValShape.map]
  | _ =>
    cases b <;> simp [crossModuleValTypesMatch, ValType.isConcrete, ValType.storeType,
      ValType.shape, ValShape.map]

/-- Entrywise comparison of two lists of equal length is equality of their images. -/
private theorem all_zip_iff {α β γ : Type*} {f : α → γ} {g : β → γ} {r : α → β → Bool} {k : List α}
    {l : List β} (h : ∀ x ∈ k, ∀ y, r x y = true ↔ f x = g y) :
    (k.length == l.length && (k.zip l).all fun p => r p.1 p.2) = true ↔
      k.map f = l.map g := by
  induction k generalizing l with
  | nil => cases l <;> simp
  | cons x k ih =>
    cases l with
    | nil => simp
    | cons y l =>
      have ih := ih (l := l) fun x hx => h x (by simp [hx])
      simp only [Bool.and_eq_true, beq_iff_eq] at ih
      simp only [List.length_cons, List.zip_cons_cons, List.all_cons, List.map_cons,
        List.cons.injEq, Bool.and_eq_true, beq_iff_eq, Nat.add_right_cancel_iff,
        h x (by simp) y, ← ih]
      tauto

/-- Comparing signatures decides equality of their store-wide types. -/
theorem crossModuleFuncTypesMatch_iff {aIds bIds : List ℕ} {a b : FuncType}
    (ha : ∀ v ∈ a.params ++ a.results, v.HasId aIds) :
    crossModuleFuncTypesMatch aIds a bIds b = true ↔ a.storeType aIds = b.storeType bIds := by
  have hparams := all_zip_iff (k := a.params) (l := b.params)
    (f := ValType.storeType aIds) (g := ValType.storeType bIds)
    fun v hv w => crossModuleValTypesMatch_iff (b := w) (ha v (by simp [hv]))
  have hresults := all_zip_iff (k := a.results) (l := b.results)
    (f := ValType.storeType aIds) (g := ValType.storeType bIds)
    fun v hv w => crossModuleValTypesMatch_iff (b := w) (ha v (by simp [hv]))
  rw [FuncType.storeType, FuncType.storeType, Prod.mk.injEq, ← hparams, ← hresults]
  simp only [crossModuleFuncTypesMatch, Bool.and_eq_true, beq_iff_eq]
  tauto

section OneModule

variable {reg : TypeRegistry} {ts : TypeSection} {ids : List ℕ}

/-- A type of a registered module has the id of another index, in range or not, iff the canonical
indices are equal. -/
theorem TypeRegistry.Registered.getElem?_eq_iff (hreg : reg.Inv) (hts : ts.WellFormed)
    (h : Registered reg ts ids) {t u : ℕ} (ht : t < ts.compTypes.length) :
    ids[t]? = ids[u]? ↔ ts.canonId t = ts.canonId u := by
  by_cases hu : u < ts.compTypes.length
  · exact h.id_eq_iff_canonId_eq hreg hts ht hu
  · -- an index out of range has no id, and is its own canonical index
    have hcanon : ts.canonId u = u := by
      rw [TypeSection.canonId, List.getElem?_eq_none (by rw [hts.exists_table.1]; omega),
        Option.getD_none]
    have hle := hts.canonId_le t
    obtain ⟨c, hc⟩ := h.exists_id ht
    have hnone : ids[u]? = none := List.getElem?_eq_none (by rw [h.length_eq]; omega)
    exact iff_of_false (by simp [hc, hnone]) (by omega)

/-- Equality of value types within a module is equality of their store-wide types. -/
theorem TypeRegistry.Registered.valTypesEqual_iff (hreg : reg.Inv) (hts : ts.WellFormed)
    (h : Registered reg ts ids) {a b : ValType} (ha : a.HasId ids) :
    ts.valTypesEqual a b = true ↔ a.storeType ids = b.storeType ids := by
  rw [Wasmrt.valTypesEqual_iff]
  constructor
  · rintro (rfl | ⟨hca, hcb, hn, he, hid⟩)
    · rfl
    · have hget := (h.getElem?_eq_iff hreg hts (h.length_eq ▸ ha hca)).mpr hid
      cases a <;> cases hca
      cases b <;> cases hcb
      simp_all [ValType.storeType, ValType.shape, ValShape.map, ValType.isNonNullRef,
        ValType.isExact, ValType.concreteIndex]
  · intro heq
    cases a with
    | concrete n e k i =>
      cases b with
      | concrete n' e' k' i' =>
        simp only [ValType.storeType, ValType.shape, ValShape.map, ValShape.concrete.injEq] at heq
        obtain ⟨hn, he, hget⟩ := heq
        have hid := (h.getElem?_eq_iff hreg hts (h.length_eq ▸ ha rfl)).mp hget
        exact .inr ⟨rfl, rfl, by simp_all [ValType.isNonNullRef], he, hid⟩
      | _ => cases heq
    | _ =>
      cases b with
      | concrete _ _ _ _ => cases heq
      | _ => exact .inl (ValShape.plain.inj heq)

/-- Equality of signatures within a module is equality of their store-wide types. -/
theorem TypeRegistry.Registered.funcTypesEqual_iff (hreg : reg.Inv) (hts : ts.WellFormed)
    (h : Registered reg ts ids) {a b : FuncType} (ha : ∀ v ∈ a.params ++ a.results, v.HasId ids) :
    ts.funcTypesEqual a b = true ↔ a.storeType ids = b.storeType ids := by
  have hparams := all_zip_iff (k := a.params) (l := b.params) (r := ts.valTypesEqual)
    fun v hv w => h.valTypesEqual_iff hreg hts (b := w) (ha v (by simp [hv]))
  have hresults := all_zip_iff (k := a.results) (l := b.results) (r := ts.valTypesEqual)
    fun v hv w => h.valTypesEqual_iff hreg hts (b := w) (ha v (by simp [hv]))
  have hrefl : a.params = b.params ∧ a.results = b.results → a.storeType ids = b.storeType ids := by
    rintro ⟨hp, hr⟩
    rw [FuncType.storeType, FuncType.storeType, hp, hr]
  rw [TypeSection.funcTypesEqual, Bool.or_eq_true, Bool.and_eq_true, beq_iff_eq, beq_iff_eq,
    or_iff_right_of_imp]
  · rw [FuncType.storeType, FuncType.storeType, Prod.mk.injEq, ← hparams, ← hresults]
    simp only [Bool.and_eq_true, beq_iff_eq]
    tauto
  · intro heq
    have hstore := hrefl heq
    rw [FuncType.storeType, FuncType.storeType, Prod.mk.injEq, ← hparams, ← hresults] at hstore
    simp only [Bool.and_eq_true, beq_iff_eq] at hstore ⊢
    tauto

end OneModule

/-! ## Agreement with the validator -/

/-- `a` is the abstract bottom of the hierarchy of the concrete type `b`, and nullability allows
`a` where `b` is expected. -/
def BottomBelowConcrete (a b : ValType) : Prop :=
  a.isRef = true ∧ a.isConcrete = false ∧ b.isConcrete = true ∧
    (b.isNonNullRef = true → a.isNonNullRef = true) ∧
    ((a.refHeap = .none ∧ b.refHeap ≠ .func) ∨ (a.refHeap = .noFunc ∧ b.refHeap = .func))

/-- A concrete value type names a type of the section. -/
def ValType.IndexIn (ts : TypeSection) (v : ValType) : Prop :=
  v.isConcrete = true → v.concreteIndex < ts.compTypes.length

variable {reg : TypeRegistry} {ts : TypeSection} {ids : List ℕ}

/-- The id of a registered type is known. -/
theorem TypeRegistry.Registered.knownId_eq (hreg : reg.Inv) (h : Registered reg ts ids) {t c : ℕ}
    (hc : ids[t]? = some c) : knownId ids[t]? = some c := by
  have hlt := h.lt_next c (List.mem_of_getElem? hc)
  have hsat := hreg.next_lt
  have hne : c ≠ unknownType := by
    unfold unknownType
    omega
  simp [knownId, hc, hne]

/-- On two concrete types of one registered module the checks agree. -/
theorem crossModuleValSubtype_of_concrete (hreg : reg.Inv) (hts : ts.WellFormed)
    (h : Registered reg ts ids) {a b : ValType} (ha : a.IndexIn ts) (hb : b.IndexIn ts)
    (hca : a.isConcrete = true) (hcb : b.isConcrete = true) :
    crossModuleValSubtype reg ids a ids b false = subtypeOf ts a b := by
  obtain ⟨ia, hia⟩ := h.exists_id (ha hca)
  obtain ⟨ib, hib⟩ := h.exists_id (hb hcb)
  have hsub := h.isSubtype_eq hreg hts hia hib
  have heq : (ia == ib) = ts.typesEqual a.concreteIndex b.concreteIndex := by
    have hiff := h.id_eq_iff_canonId_eq hreg hts (ha hca) (hb hcb)
    rw [hia, hib, Option.some_inj] at hiff
    rw [TypeSection.typesEqual, Bool.eq_iff_iff, beq_iff_eq, beq_iff_eq]
    exact hiff
  have hra := ValType.isRef_of_isConcrete hca
  have hrb := ValType.isRef_of_isConcrete hcb
  rw [subtypeOf_of_isRef hra hrb]
  simp [crossModuleValSubtype, hra, hrb, hca, hcb, h.knownId_eq hreg hia, h.knownId_eq hreg hib, heq,
    hsub, Bool.and_comm]

/-- The validator and the cross-module check agree on two value types of a registered module unless
the first is an abstract bottom below the second, which is concrete. -/
theorem crossModuleValSubtype_eq_subtypeOf_iff (hreg : reg.Inv) (hts : ts.WellFormed)
    (h : Registered reg ts ids) {a b : ValType} (ha : a.IndexIn ts) (hb : b.IndexIn ts) :
    crossModuleValSubtype reg ids a ids b false = subtypeOf ts a b ↔ ¬ BottomBelowConcrete a b := by
  cases hra : a.isRef with
  | false => simp [crossModuleValSubtype, subtypeOf_of_not_isRef, hra, BottomBelowConcrete]
  | true =>
    cases hrb : b.isRef with
    | false =>
      have hcb : b.isConcrete = false := by
        by_contra hcb
        rw [ValType.isRef_of_isConcrete (by simpa using hcb)] at hrb
        cases hrb
      simp [crossModuleValSubtype, subtypeOf_of_not_isRef, hrb, BottomBelowConcrete, hcb]
    | true =>
      cases hca : a.isConcrete with
      | true =>
        cases hcb : b.isConcrete with
        | true =>
          simp [crossModuleValSubtype_of_concrete hreg hts h ha hb hca hcb, BottomBelowConcrete, hca]
        | false =>
          rw [subtypeOf_of_isRef hra hrb]
          simp [crossModuleValSubtype, hra, hrb, hca, hcb, BottomBelowConcrete, Bool.and_comm]
      | false =>
        rw [subtypeOf_of_isRef hra hrb]
        cases hcb : b.isConcrete with
        | true =>
          -- the cross-module check refuses; the validator accepts exactly the bottoms
          cases hna : a.isNonNullRef <;> cases hnb : b.isNonNullRef <;>
            simp [crossModuleValSubtype, hra, hrb, hca, hcb, hna, hnb, BottomBelowConcrete]
        | false =>
          simp [crossModuleValSubtype, hra, hrb, hca, hcb, BottomBelowConcrete, Bool.and_comm]

/-! ## In a store -/

/-- In a store below its ceiling of ids, cross-module subtyping on a module's own types is the
validator's exactly where no abstract bottom meets a concrete type of its hierarchy. -/
theorem crossModuleValSubtype_assignAll_iff {mods : List TypeSection}
    (hmods : ∀ ts ∈ mods, ts.WellFormed)
    (hroom : (({} : TypeRegistry).assignAll mods).1.next < u32Max) {i : ℕ} {ts : TypeSection}
    (hts : mods[i]? = some ts) {ids : List ℕ}
    (hids : (({} : TypeRegistry).assignAll mods).2[i]? = some ids) {a b : ValType}
    (ha : a.IndexIn ts) (hb : b.IndexIn ts) :
    crossModuleValSubtype (({} : TypeRegistry).assignAll mods).1 ids a ids b false =
        subtypeOf ts a b ↔ ¬ BottomBelowConcrete a b := by
  obtain ⟨hinv, -, -⟩ := assignAll_inv inv_empty hmods hroom
  obtain ⟨ids', hids', hreg⟩ := exists_registered hmods hroom hts
  obtain rfl := Option.some.inj (hids.symm.trans hids')
  exact crossModuleValSubtype_eq_subtypeOf_iff hinv (hmods ts (List.mem_of_getElem? hts)) hreg ha hb

/-- A module with one empty struct type. -/
def oneStruct : TypeSection := decoded [[⟨true, none, {}, .struct []⟩]]

theorem wellFormed_oneStruct : oneStruct.WellFormed :=
  wellFormed_of_decode [[⟨true, none, {}, .struct []⟩]] (by decide) (by decide) rfl rfl rfl

/-- `(ref null none)` is below `(ref null 0)` for the validator and not across modules. -/
theorem crossModuleValSubtype_ne_subtypeOf_none :
    crossModuleValSubtype (({} : TypeRegistry).assignAll [oneStruct]).1 [0] (.ref .none true) [0]
        (.concreteRef true .struct 0) false = false ∧
      (({} : TypeRegistry).assignAll [oneStruct]).2[0]? = some [0] ∧
        subtypeOf oneStruct (.ref .none true) (.concreteRef true .struct 0) = true := by
  decide

/-- The two checks on a concrete type and itself. -/
theorem crossModuleValSubtype_oneStruct_iff :
    crossModuleValSubtype (({} : TypeRegistry).assignAll [oneStruct]).1 [0]
        (.concreteRef true .struct 0) [0] (.concreteRef true .struct 0) false =
        subtypeOf oneStruct (.concreteRef true .struct 0) (.concreteRef true .struct 0) ↔
      ¬ BottomBelowConcrete (.concreteRef true .struct 0) (.concreteRef true .struct 0) :=
  crossModuleValSubtype_assignAll_iff (i := 0)
    (by simpa using wellFormed_oneStruct) (by decide) rfl (by decide)
    (fun _ => by decide) (fun _ => by decide)

end Wasmrt
