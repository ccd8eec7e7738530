import Wasmrt.Decode.TypeSection

/-!
# Declared subtyping and mutable fields

A mutable field is read and written through every declared supertype, so along a chain of declared
supertypes it must keep its storage type. `field_matches` compares nullability and canonical target,
and leaves out exactness: the law holds of a type section exactly when no direct declaration changes
the exactness of a mutable field.

## Main definitions

* `storageEquiv`: storage types equivalent in both directions.
* `MutableFieldsInvariant`: the law for one subtype and one supertype.
* `ExactnessKept`: no direct declaration changes the exactness of a mutable field.

## Main results

* `subtypeOf_congr_right`: equal value types have the same subtypes.
* `mutableFieldsInvariant_iff_exactnessKept`: when the law holds of every declared chain.
-/

namespace Wasmrt

variable {ts : TypeSection}

/-- The field at a position: of a struct, or the element of an array at position zero. -/
def fieldAt (ts : TypeSection) (t k : ℕ) : Option FieldType :=
  match ts.compTypes[t]? with
  | some (.struct fs) => fs[k]?
  | some (.array f) => if k = 0 then some f else none
  | _ => none

/-- Storage types equivalent in both directions: the same packing, or the same value type. -/
def storageEquiv (ts : TypeSection) : StorageType → StorageType → Bool
  | .i8, .i8 | .i16, .i16 => true
  | .val a, .val b => ts.valTypesEqual a b
  | _, _ => false

/-! ## Equal value types -/

/-- A value type whose index is in range and which states the family of its target. -/
def ValType.InSection (ts : TypeSection) : ValType → Prop
  | concrete _ _ k i => (ts.compTypes[(i : ℕ)]?).map CompType.kind = some k
  | _ => True

theorem ValType.InSection.index_lt {v : ValType} (h : v.InSection ts) (hc : v.isConcrete = true) :
    v.concreteIndex < ts.compTypes.length := by
  cases v with
  | concrete n e k i =>
    rw [InSection] at h
    by_contra hle
    rw [List.getElem?_eq_none (by simpa [concreteIndex] using hle)] at h
    cases h
  | _ => simp [isConcrete] at hc

/-- The head of a concrete reference is that of its target. -/
theorem ValType.InSection.refHeap_eq {v : ValType} (h : v.InSection ts) (hc : v.isConcrete = true)
    (hlt : v.concreteIndex < ts.compTypes.length) :
    v.refHeap = ts.compTypes[v.concreteIndex].kind.head := by
  cases v with
  | concrete n e k i =>
    rw [concreteIndex] at hlt
    rw [InSection, List.getElem?_eq_getElem hlt, Option.map_some, Option.some_inj] at h
    rw [refHeap, ← h]
    rfl
  | _ => simp [isConcrete] at hc

/-- The value types of a well-formed section are in it. -/
theorem TypeSection.WellFormed.inSection (hts : ts.WellFormed) {ct : CompType}
    (hct : ct ∈ ts.compTypes) {v : ValType} (hv : v ∈ ct.valTypes) : v.InSection ts := by
  cases v with
  | concrete n e k i => exact hts.kind_eq ct hct n e k i hv
  | _ => trivial

theorem CompShape.kind_eq_of_map_eq {a b : CompType} {f g : ℕ → Option ℕ}
    (h : a.shape.map f = b.shape.map g) : a.kind = b.kind := by
  cases a <;> cases b <;> first | rfl | cases h

/-- Types with one canonical index belong to one family. -/
theorem TypeSection.WellFormed.kind_eq_of_canonId_eq (hts : ts.WellFormed) {t u : ℕ}
    (ht : t < ts.compTypes.length) (hu : u < ts.compTypes.length)
    (h : ts.canonId t = ts.canonId u) : ts.compTypes[t].kind = ts.compTypes[u].kind := by
  have hcomp := congrArg MemberShape.comp (hts.member_eq_of_canonId_eq ht hu h)
  simp only [MemberShape.map, TypeSection.member, List.getElem?_eq_getElem ht,
    List.getElem?_eq_getElem hu, Option.elim_some] at hcomp
  exact CompShape.kind_eq_of_map_eq hcomp

/-- Whether a type is below another depends on the canonical identity of the other only. -/
theorem isSubtype_congr_right {a b c : ℕ} (h : ts.canonId b = ts.canonId c) :
    ts.isSubtype a b = ts.isSubtype a c := by
  rw [TypeSection.isSubtype, TypeSection.isSubtype, h]

theorem isSubtype_of_canonId_eq {a b : ℕ} (h : ts.canonId a = ts.canonId b) :
    ts.isSubtype a b = true := by
  simp [TypeSection.isSubtype, ParentSearch.search, h]

theorem valTypesEqual_refl (a : ValType) : ts.valTypesEqual a a = true := by
  simp [TypeSection.valTypesEqual]

/-- Equality of value types, an abstract one being equal to itself only. -/
theorem valTypesEqual_iff {a b : ValType} : ts.valTypesEqual a b = true ↔
    a = b ∨ (a.isConcrete = true ∧ b.isConcrete = true ∧ a.isNonNullRef = b.isNonNullRef ∧
      a.isExact = b.isExact ∧ ts.canonId a.concreteIndex = ts.canonId b.concreteIndex) := by
  simp [TypeSection.valTypesEqual, TypeSection.typesEqual, and_assoc]

theorem valTypesEqual_trans {a b c : ValType} (hab : ts.valTypesEqual a b = true)
    (hbc : ts.valTypesEqual b c = true) : ts.valTypesEqual a c = true := by
  rw [valTypesEqual_iff] at hab hbc ⊢
  rcases hab with rfl | ⟨ha, hb, hn, he, hid⟩
  · exact hbc
  · rcases hbc with rfl | ⟨-, hc, hn', he', hid'⟩
    · exact .inr ⟨ha, hb, hn, he, hid⟩
    · exact .inr ⟨ha, hc, hn.trans hn', he.trans he', hid.trans hid'⟩

theorem storageEquiv_trans {a b c : StorageType} (hab : storageEquiv ts a b = true)
    (hbc : storageEquiv ts b c = true) : storageEquiv ts a c = true := by
  cases a <;> cases b <;> cases c <;>
    first | exact valTypesEqual_trans hab hbc | exact hbc | exact hab | cases hab

/-- Subtyping of references without the shortcut for equal ones. -/
theorem subtypeOf_of_isRef {a b : ValType} (ha : a.isRef = true) (hb : b.isRef = true) :
    subtypeOf ts a b =
      if b.isNonNullRef && !a.isNonNullRef then false
      else if a.isConcrete && b.isConcrete then
        if b.isExact then a.isExact && ts.typesEqual a.concreteIndex b.concreteIndex
        else ts.isSubtype a.concreteIndex b.concreteIndex
      else if a.isConcrete then a.refHeap.isSubtypeOf b.refHeap
      else if b.isConcrete then
        (a.refHeap == .none && b.refHeap != .func) || (a.refHeap == .noFunc && b.refHeap == .func)
      else a.refHeap.isSubtypeOf b.refHeap := by
  unfold subtypeOf
  by_cases hab : a = b
  · subst hab
    cases hc : a.isConcrete <;> cases he : a.isExact <;>
      simp [TypeSection.typesEqual, isSubtype_of_canonId_eq]
  · simp [hab, ha, hb]

/-- A numeric type is a subtype of itself only. -/
theorem subtypeOf_of_not_isRef {a b : ValType} (h : a.isRef = false ∨ b.isRef = false) :
    subtypeOf ts a b = (a == b) := by
  unfold subtypeOf
  rcases h with h | h <;> by_cases hab : a = b <;> simp [h, hab]

/-- A value type is a subtype of every value type equal to it. -/
theorem subtypeOf_of_valTypesEqual {a b : ValType} (h : ts.valTypesEqual a b = true) :
    subtypeOf ts a b = true := by
  rcases valTypesEqual_iff.mp h with rfl | ⟨ha, hb, hn, he, hid⟩
  · simp [subtypeOf]
  · have hra := ValType.isRef_of_isConcrete ha
    have hrb := ValType.isRef_of_isConcrete hb
    rw [subtypeOf_of_isRef hra hrb]
    cases hea : a.isExact <;>
      simp [ha, hb, hn, ← he, hea, TypeSection.typesEqual, hid, isSubtype_of_canonId_eq hid]

/-- Equal value types have the same subtypes. -/
theorem subtypeOf_congr_right (hts : ts.WellFormed) {v a b : ValType} (ha : a.InSection ts)
    (hb : b.InSection ts) (h : ts.valTypesEqual a b = true) (hv : subtypeOf ts v a = true) :
    subtypeOf ts v b = true := by
  rcases valTypesEqual_iff.mp h with rfl | ⟨hca, hcb, hn, he, hid⟩
  · exact hv
  by_cases hva : v = a
  · exact hva ▸ subtypeOf_of_valTypesEqual h
  -- the two targets have one head, since equal types belong to one family
  have hhead : a.refHeap = b.refHeap := by
    have hia := ha.index_lt hca
    have hib := hb.index_lt hcb
    have hkind := hts.kind_eq_of_canonId_eq hia hib hid
    rw [ha.refHeap_eq hca hia, hb.refHeap_eq hcb hib, hkind]
  have hra := ValType.isRef_of_isConcrete hca
  have hrb := ValType.isRef_of_isConcrete hcb
  cases hvr : v.isRef with
  | false =>
    rw [subtypeOf_of_not_isRef (.inl hvr), beq_iff_eq] at hv
    exact absurd hv hva
  | true =>
    rw [subtypeOf_of_isRef hvr hra] at hv
    rw [subtypeOf_of_isRef hvr hrb, ← hn, ← he, ← hhead, hcb, TypeSection.typesEqual, ← hid,
      ← isSubtype_congr_right hid]
    rw [hca] at hv
    exact hv

/-! ## Chains of declared supertypes -/

/-- `S` is a declared subtype of `T`, through any number of declarations. -/
def DeclaredSubtype (ts : TypeSection) : ℕ → ℕ → Prop :=
  Relation.TransGen fun a b => ts.supertype a = some b

/-- Every mutable field of `T` is a mutable field of `S` with equivalent storage, and whatever may be
written to it through `T` may be read from it through `S`. -/
def MutableFieldsInvariant (ts : TypeSection) (S T : ℕ) : Prop :=
  ∀ k fT, fieldAt ts T k = some fT → fT.mutable = true →
    ∃ fS, fieldAt ts S k = some fS ∧ fS.mutable = true ∧
      storageEquiv ts fS.storage fT.storage = true ∧
      ∀ v, subtypeOf ts v fT.storage.unpacked = true → subtypeOf ts v fS.storage.unpacked = true

/-- No direct declaration changes the exactness of a mutable field. -/
def ExactnessKept (ts : TypeSection) : Prop :=
  ∀ S T, ts.supertype S = some T → ∀ k fS fT, fieldAt ts S k = some fS → fieldAt ts T k = some fT →
    fT.mutable = true → fS.storage.unpacked.isExact = fT.storage.unpacked.isExact

/-- A field of the section holds a value type of the section. -/
theorem TypeSection.WellFormed.inSection_fieldAt (hts : ts.WellFormed) {t k : ℕ} {f : FieldType}
    (hf : fieldAt ts t k = some f) : f.storage.unpacked.InSection ts := by
  unfold fieldAt at hf
  split at hf
  · next fs hct =>
    exact hts.inSection (List.mem_of_getElem? hct)
      (List.mem_map_of_mem (List.mem_of_getElem? hf))
  · next g hct =>
    split at hf
    · obtain rfl := Option.some.inj hf
      exact hts.inSection (List.mem_of_getElem? hct) (List.mem_singleton.mpr rfl)
    · cases hf
  · cases hf

/-- A declared supertype passed its check. -/
theorem compTypeMatches_of_supertype (hok : checkDeclaredSubtyping ts = .ok ()) {S T : ℕ}
    (h : ts.supertype S = some T) :
    ∃ sub sup, ts.compTypes[S]? = some sub ∧ ts.compTypes[T]? = some sup ∧
      compTypeMatches ts sub sup = true := by
  have hget : ts.supertypes[S]? = some (some T) := by
    unfold TypeSection.supertype at h
    exact Option.join_eq_some_iff.mp h
  have hcheck := forM_eq_ok.mp hok (some T, S) (List.mem_zipIdx_iff_getElem?.mpr hget)
  simp only [checkDeclaredSupertype, Except.bind_eq_ok, orError_eq_ok, ensure_eq_ok] at hcheck
  obtain ⟨sub, hsub, sup, hsup, -, -, -, hmatch, -⟩ := hcheck
  exact ⟨sub, sup, hsub, hsup, hmatch⟩

/-- The fields of a supertype are matched by fields of the subtype at the same positions. -/
theorem fieldMatches_of_supertype (hok : checkDeclaredSubtyping ts = .ok ()) {S T : ℕ}
    (h : ts.supertype S = some T) {k : ℕ} {fT : FieldType} (hfT : fieldAt ts T k = some fT) :
    ∃ fS, fieldAt ts S k = some fS ∧ fieldMatches ts fS fT = true := by
  obtain ⟨sub, sup, hsub, hsup, hmatch⟩ := compTypeMatches_of_supertype hok h
  unfold fieldAt at hfT ⊢
  rw [hsup] at hfT
  rw [hsub]
  cases sup with
  | func ft => cases hfT
  | struct fs =>
    cases sub with
    | struct fs' =>
      simp only [compTypeMatches, Bool.and_eq_true, decide_eq_true_eq, List.all_eq_true] at hmatch
      obtain ⟨hlen, hall⟩ := hmatch
      have hk : k < fs.length := (List.getElem?_eq_some_iff.mp hfT).choose
      have hk' : fs'[k]? = some fs'[k] := List.getElem?_eq_getElem (by omega)
      exact ⟨fs'[k], hk', hall (fs'[k], fT)
        (List.mem_of_getElem? (List.getElem?_zip_eq_some.mpr ⟨hk', hfT⟩))⟩
    | _ => simp [compTypeMatches] at hmatch
  | array f =>
    cases sub with
    | array f' =>
      dsimp only at hfT ⊢
      split at hfT
      · next hk =>
        obtain rfl := Option.some.inj hfT
        exact ⟨f', by rw [if_pos hk], hmatch⟩
      · cases hfT
    | _ => simp [compTypeMatches] at hmatch

/-- On a mutable field, `field_matches` is equivalence up to exactness. -/
theorem storageEquiv_iff_of_fieldMatches {fS fT : FieldType} (h : fieldMatches ts fS fT = true)
    (hm : fT.mutable = true) :
    fS.mutable = true ∧ (storageEquiv ts fS.storage fT.storage = true ↔
      fS.storage.unpacked.isExact = fT.storage.unpacked.isExact) := by
  obtain ⟨sS, mS⟩ := fS
  obtain ⟨sT, mT⟩ := fT
  obtain rfl : mT = true := hm
  cases mS with
  | false => simp [fieldMatches] at h
  | true =>
    refine ⟨rfl, ?_⟩
    cases sS <;> cases sT
    case val.val a b =>
      simp only [fieldMatches, bne_self_eq_false, Bool.false_eq_true, if_false, if_true,
        Bool.or_eq_true, beq_iff_eq, Bool.and_eq_true] at h
      rw [storageEquiv, valTypesEqual_iff, StorageType.unpacked, StorageType.unpacked]
      rcases h with rfl | ⟨⟨⟨ha, hb⟩, hn⟩, hid⟩
      · simp
      · constructor
        · rintro (rfl | ⟨-, -, -, he, -⟩)
          · rfl
          · exact he
        · exact fun he => .inr ⟨ha, hb, hn, he, by simpa [TypeSection.typesEqual] using hid⟩
    case i8.i8 => exact ⟨fun _ => rfl, fun _ => rfl⟩
    case i16.i16 => exact ⟨fun _ => rfl, fun _ => rfl⟩
    all_goals simp [fieldMatches] at h

/-- Equivalent storage admits the same values. -/
theorem subtypeOf_unpacked_of_storageEquiv (hts : ts.WellFormed) {a b : StorageType}
    (ha : a.unpacked.InSection ts) (hb : b.unpacked.InSection ts)
    (h : storageEquiv ts a b = true) {v : ValType} (hv : subtypeOf ts v b.unpacked = true) :
    subtypeOf ts v a.unpacked = true := by
  cases a <;> cases b
  case val.val a b =>
    refine subtypeOf_congr_right hts hb ha ?_ hv
    rw [storageEquiv, valTypesEqual_iff] at h
    rw [valTypesEqual_iff]
    rcases h with rfl | ⟨hca, hcb, hn, he, hid⟩
    · exact .inl rfl
    · exact .inr ⟨hcb, hca, hn.symm, he.symm, hid.symm⟩
  case i8.i8 => exact hv
  case i16.i16 => exact hv
  all_goals cases h

/-- One declaration keeps the law when it keeps exactness. -/
theorem mutableFieldsInvariant_of_supertype (hts : ts.WellFormed)
    (hok : checkDeclaredSubtyping ts = .ok ()) (hexact : ExactnessKept ts) {S T : ℕ}
    (h : ts.supertype S = some T) : MutableFieldsInvariant ts S T := by
  intro k fT hfT hm
  obtain ⟨fS, hfS, hmatch⟩ := fieldMatches_of_supertype hok h hfT
  obtain ⟨hmS, hiff⟩ := storageEquiv_iff_of_fieldMatches hmatch hm
  have hequiv := hiff.mpr (hexact S T h k fS fT hfS hfT hm)
  exact ⟨fS, hfS, hmS, hequiv, fun v hv => subtypeOf_unpacked_of_storageEquiv hts
    (hts.inSection_fieldAt hfS) (hts.inSection_fieldAt hfT) hequiv hv⟩

/-- The law composes along declarations. -/
theorem MutableFieldsInvariant.trans {S T U : ℕ} (hST : MutableFieldsInvariant ts S T)
    (hTU : MutableFieldsInvariant ts T U) : MutableFieldsInvariant ts S U := by
  intro k fU hfU hm
  obtain ⟨fT, hfT, hmT, heT, hwT⟩ := hTU k fU hfU hm
  obtain ⟨fS, hfS, hmS, heS, hwS⟩ := hST k fT hfT hmT
  exact ⟨fS, hfS, hmS, storageEquiv_trans heS heT, fun v hv => hwS v (hwT v hv)⟩

/-- Mutable fields are invariant along every chain of declared supertypes exactly when no direct
declaration changes the exactness of a mutable field. -/
theorem mutableFieldsInvariant_iff_exactnessKept (hts : ts.WellFormed)
    (hok : checkDeclaredSubtyping ts = .ok ()) :
    (∀ S T, DeclaredSubtype ts S T → MutableFieldsInvariant ts S T) ↔ ExactnessKept ts := by
  constructor
  · intro h S T hST k fS fT hfS hfT hm
    obtain ⟨fS', hfS', -, hequiv, -⟩ := h S T (.single hST) k fT hfT hm
    obtain rfl := Option.some.inj (hfS.symm.trans hfS')
    obtain ⟨fS'', hfS'', hmatch⟩ := fieldMatches_of_supertype hok hST hfT
    obtain rfl := Option.some.inj (hfS.symm.trans hfS'')
    exact (storageEquiv_iff_of_fieldMatches hmatch hm).2.mp hequiv
  · intro hexact S T hST
    induction hST with
    | single h => exact mutableFieldsInvariant_of_supertype hts hok hexact h
    | tail _ h ih => exact ih.trans (mutableFieldsInvariant_of_supertype hts hok hexact h)

/-! ## A declaration that narrows a mutable field -/

/-- A struct type, a struct with a mutable `(ref null 0)`, and a declared subtype of it whose field is
`(ref null (exact 0))`. -/
def narrowedGroups : List (List SubType) :=
  [[⟨false, none, {}, .struct []⟩],
    [⟨false, none, {}, .struct [⟨.val (.ref true (.concrete 0)), true⟩]⟩],
    [⟨false, some 1, {}, .struct [⟨.val (.ref true (.exact 0)), true⟩]⟩]]

theorem wellFormed_narrowed : (decoded narrowedGroups).WellFormed :=
  wellFormed_of_decode narrowedGroups (by decide) (by decide) rfl rfl rfl

/-- The narrowing is accepted, and breaks the law: an inexact reference written through the supertype
is read as an exact one. -/
theorem narrowed_not_mutableFieldsInvariant :
    checkDeclaredSubtyping (decoded narrowedGroups) = .ok () ∧
      (decoded narrowedGroups).WellFormed ∧ DeclaredSubtype (decoded narrowedGroups) 2 1 ∧
      ¬ MutableFieldsInvariant (decoded narrowedGroups) 2 1 := by
  refine ⟨rfl, wellFormed_narrowed, .single rfl, fun h => ?_⟩
  obtain ⟨fS, hfS, -, hequiv, -⟩ :=
    h 0 ⟨.val (.concrete true false .struct 0), true⟩ rfl rfl
  have hread : fieldAt (decoded narrowedGroups) 2 0 =
      some ⟨.val (.concrete true true .struct 0), true⟩ := rfl
  obtain rfl := Option.some.inj (hread.symm.trans hfS)
  exact absurd hequiv (by decide)

/-- The law at the section above: neither side holds of it. -/
theorem narrowed_mutableFieldsInvariant_iff :
    (∀ S T, DeclaredSubtype (decoded narrowedGroups) S T →
      MutableFieldsInvariant (decoded narrowedGroups) S T) ↔
        ExactnessKept (decoded narrowedGroups) :=
  mutableFieldsInvariant_iff_exactnessKept wellFormed_narrowed rfl

end Wasmrt
