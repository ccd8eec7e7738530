import Wasmrt.Validate.MutableFields

/-!
# The order of value types

`subtype_of` decides a relation with six rules: a numeric type is below itself, heads follow the hierarchy,
a concrete type is below its head and above the bottom under its head, and two concrete types are
compared by their declared supertypes or, below an exact type, for equality. In an accepted type
section the relation is a partial order of the value types up to equality.

## Main definitions

* `CompKind.bottom`: the bottom of the hierarchy of a family.
* `ValType.Below`: the six rules.

## Main results

* `subtypeOf_iff_below`: `subtype_of` decides the rules.
* `ValType.Below.trans`, `ValType.Below.antisymm`: the rules make a partial order.
* `below_exact_iff`: what is below an exact type.
* `subtypeOf_partialOrder`: the same of `subtype_of`, for every accepted type section.
-/

namespace Wasmrt

/-- The bottom of the hierarchy that the types of a family are in. -/
def CompKind.bottom : CompKind → RefHeap
  | func => .noFunc
  | struct | array => .none

theorem CompKind.bottom_isSubtypeOf_head (k : CompKind) : k.bottom.isSubtypeOf k.head = true := by
  cases k <;> rfl

/-- Nothing but the bottom is below the bottom. -/
theorem CompKind.eq_bottom_of_isSubtypeOf {k : CompKind} {h : RefHeap}
    (hle : h.isSubtypeOf k.bottom = true) : h = k.bottom := by
  cases k <;> cases h <;> first | rfl | exact absurd hle (by decide)

theorem CompKind.not_head_isSubtypeOf_bottom (k k' : CompKind) : ¬ k.head.isSubtypeOf k'.bottom = true := by
  cases k <;> cases k' <;> decide

variable {ts : TypeSection}

/-- The declared supertypes of a section, up to equality of types. -/
abbrev TypeSection.DeclaredBelow (ts : TypeSection) : ℕ → ℕ → Prop :=
  ParentSearch.Below ts.supertype ts.canonId

/-- The rules of subtyping. A nullable type is below no type that is not. -/
inductive ValType.Below (ts : TypeSection) : ValType → ValType → Prop
  | numeric {v : ValType} (hv : v.isRef = false) : Below ts v v
  | head {h h' : RefHeap} {n n' : Bool} (hh : h.isSubtypeOf h' = true) (hn : n = true → n' = true) :
      Below ts (.ref h n) (.ref h' n')
  | ofConcrete {n e n' : Bool} {k : CompKind} {i : Fin (2 ^ 27)} {h : RefHeap}
      (hh : k.head.isSubtypeOf h = true) (hn : n = true → n' = true) :
      Below ts (.concrete n e k i) (.ref h n')
  | bottom {n n' e : Bool} {k : CompKind} {i : Fin (2 ^ 27)} (hn : n = true → n' = true) :
      Below ts (.ref k.bottom n) (.concrete n' e k i)
  | declared {n e n' : Bool} {k k' : CompKind} {i j : Fin (2 ^ 27)} (hij : ts.DeclaredBelow i j)
      (hn : n = true → n' = true) : Below ts (.concrete n e k i) (.concrete n' false k' j)
  | exact {n n' : Bool} {k k' : CompKind} {i j : Fin (2 ^ 27)} (hij : ts.canonId i = ts.canonId j)
      (hn : n = true → n' = true) : Below ts (.concrete n true k i) (.concrete n' true k' j)

theorem TypeSection.WellFormed.isSubtype_iff_below (hts : ts.WellFormed) {a b : ℕ} :
    ts.isSubtype a b = true ↔ ts.DeclaredBelow a b :=
  hts.isSubtype_iff

/-- The test of the heads below a concrete type finds the bottom of its hierarchy. -/
theorem eq_bottom_iff {h : RefHeap} {k : CompKind} :
    ((h == .none && k.head != .func) || (h == .noFunc && k.head == .func)) = true ↔ h = k.bottom := by
  cases h <;> cases k <;> decide

/-! ## What `subtype_of` decides -/

section Pairs

variable {h h' : RefHeap} {n n' e : Bool} {k k' : CompKind} {i j : Fin (2 ^ 27)}

theorem subtypeOf_ref_ref : subtypeOf ts (.ref h n) (.ref h' n') = true ↔
    h.isSubtypeOf h' = true ∧ (n = true → n' = true) := by
  rw [subtypeOf_of_isRef rfl rfl]
  cases n <;> cases n' <;> simp [ValType.isNonNullRef, ValType.isConcrete, ValType.refHeap]

theorem subtypeOf_concrete_ref : subtypeOf ts (.concrete n e k i) (.ref h n') = true ↔
    k.head.isSubtypeOf h = true ∧ (n = true → n' = true) := by
  rw [subtypeOf_of_isRef rfl rfl]
  cases n <;> cases n' <;> simp [ValType.isNonNullRef, ValType.isConcrete, ValType.refHeap]

theorem subtypeOf_ref_concrete : subtypeOf ts (.ref h n) (.concrete n' e k i) = true ↔
    h = k.bottom ∧ (n = true → n' = true) := by
  rw [subtypeOf_of_isRef rfl rfl, ← eq_bottom_iff]
  cases n <;> cases n' <;> simp [ValType.isNonNullRef, ValType.isConcrete, ValType.refHeap]

theorem subtypeOf_concrete_inexact (hts : ts.WellFormed) :
    subtypeOf ts (.concrete n e k i) (.concrete n' false k' j) = true ↔
      ts.DeclaredBelow i j ∧ (n = true → n' = true) := by
  rw [subtypeOf_of_isRef rfl rfl, ← hts.isSubtype_iff_below]
  cases n <;> cases n' <;>
    simp [ValType.isNonNullRef, ValType.isConcrete, ValType.isExact, ValType.concreteIndex]

theorem subtypeOf_concrete_exact : subtypeOf ts (.concrete n e k i) (.concrete n' true k' j) = true ↔
    e = true ∧ ts.canonId i = ts.canonId j ∧ (n = true → n' = true) := by
  rw [subtypeOf_of_isRef rfl rfl]
  cases n <;> cases n' <;>
    simp [ValType.isNonNullRef, ValType.isConcrete, ValType.isExact, ValType.concreteIndex,
      TypeSection.typesEqual]

end Pairs

/-- `subtype_of` decides the rules. -/
theorem subtypeOf_iff_below (hts : ts.WellFormed) {a b : ValType} :
    subtypeOf ts a b = true ↔ a.Below ts b := by
  by_cases hrefs : a.isRef = true ∧ b.isRef = true
  · obtain ⟨ha, hb⟩ := hrefs
    constructor
    · intro h
      cases a with
      | ref =>
        cases b with
        | ref =>
          obtain ⟨hh, hn⟩ := subtypeOf_ref_ref.mp h
          exact .head hh hn
        | concrete =>
          obtain ⟨rfl, hn⟩ := subtypeOf_ref_concrete.mp h
          exact .bottom hn
        | _ => exact absurd hb (by decide)
      | concrete =>
        cases b with
        | ref =>
          obtain ⟨hh, hn⟩ := subtypeOf_concrete_ref.mp h
          exact .ofConcrete hh hn
        | concrete n' e' =>
          -- an exact type is compared for equality, any other one along the supertypes
          cases e' with
          | false =>
            obtain ⟨hij, hn⟩ := (subtypeOf_concrete_inexact hts).mp h
            exact .declared hij hn
          | true =>
            obtain ⟨rfl, hij, hn⟩ := subtypeOf_concrete_exact.mp h
            exact .exact hij hn
        | _ => exact absurd hb (by decide)
      | _ => exact absurd ha (by decide)
    · intro h
      cases h with
      | numeric hv => exact absurd ha (by simp [hv])
      | head hh hn => exact subtypeOf_ref_ref.mpr ⟨hh, hn⟩
      | ofConcrete hh hn => exact subtypeOf_concrete_ref.mpr ⟨hh, hn⟩
      | bottom hn => exact subtypeOf_ref_concrete.mpr ⟨rfl, hn⟩
      | declared hij hn => exact (subtypeOf_concrete_inexact hts).mpr ⟨hij, hn⟩
      | exact hij hn => exact subtypeOf_concrete_exact.mpr ⟨rfl, hij, hn⟩
  · have hnot : a.isRef = false ∨ b.isRef = false := by
      cases ha : a.isRef with
      | false => exact .inl rfl
      | true => exact .inr (by simpa [ha] using hrefs)
    rw [subtypeOf_of_not_isRef hnot, beq_iff_eq]
    constructor
    · rintro rfl
      exact .numeric (hnot.elim id id)
    · intro h
      cases h with
      | numeric _ => rfl
      | _ => exact absurd ⟨rfl, rfl⟩ hrefs

/-! ## The order -/

/-- A reference is below itself. -/
theorem ValType.Below.refl (v : ValType) : v.Below ts v := by
  cases v with
  | ref h n => exact .head h.isSubtypeOf_refl id
  | concrete n e k i =>
    cases e with
    | false => exact .declared (.of_key_eq rfl) id
    | true => exact .exact rfl id
  | _ => exact .numeric rfl

/-- Types with one canonical index have supertypes with one. -/
theorem TypeSection.WellFormed.respectsKey (hts : ts.WellFormed) :
    ParentSearch.RespectsKey ts.supertype ts.canonId := by
  have hlen := hts.exists_table.1
  -- the index of a type that is not in the section is its own canonical index
  have hout {t : ℕ} (ht : ¬ t < ts.compTypes.length) : ts.canonId t = t := by
    rw [canonId, List.getElem?_eq_none (by omega), Option.getD_none]
  intro t u h
  by_cases ht : t < ts.compTypes.length
  · by_cases hu : u < ts.compTypes.length
    · have hsuper := congrArg MemberShape.super (hts.member_eq_of_canonId_eq ht hu h)
      simp only [MemberShape.map, TypeSection.member] at hsuper
      have hread {t : ℕ} (ht : t < ts.compTypes.length) :
          ((ts.supertype t).map ts.canonId).map some = (ts.supertype t).map (ts.typeCanon[·]?) := by
        rw [Option.map_map]
        refine Option.map_congr fun s hs => ?_
        rw [hts.getElem?_typeCanon ((hts.super_lt hs).trans ht)]
        rfl
      rw [← hread ht, ← hread hu] at hsuper
      exact Option.map_injective (Option.some_injective _) hsuper
    · have := hts.canonId_le t
      rw [h, hout hu] at this
      omega
  · by_cases hu : u < ts.compTypes.length
    · have := hts.canonId_le u
      rw [← h, hout ht] at this
      omega
    · rw [hout ht, hout hu] at h
      rw [h]

/-- In a section whose supertypes have been checked, subtyping keeps the family. -/
theorem TypeSection.WellFormed.kindAt_eq_of_isSubtype (hts : ts.WellFormed)
    (hchecked : checkDeclaredSubtyping ts = .ok ()) {t u : ℕ} (ht : t < ts.compTypes.length)
    (hu : u < ts.compTypes.length) (h : ts.isSubtype t u = true) : ts.kindAt t = ts.kindAt u := by
  obtain ⟨c, hanc, hcanon⟩ := ParentSearch.exists_of_search h
  rw [beq_iff_eq] at hcanon
  -- the families along the walk up are one, and so are those of equal types
  obtain ⟨hc, hkind⟩ := hanc.closed (P := fun c => c < ts.compTypes.length ∧ ts.kindAt c = ts.kindAt t)
    (fun c s ⟨hc, hkind⟩ hs => ⟨(hts.super_lt hs).trans hc,
      (kindAt_supertype hchecked hs).symm.trans hkind⟩) ⟨ht, rfl⟩
  have heq := hts.kind_eq_of_canonId_eq hc hu hcanon
  rw [← hkind, TypeSection.kindAt, TypeSection.kindAt, List.getElem?_eq_getElem hc,
    List.getElem?_eq_getElem hu, Option.map_some, Option.map_some, heq]

section Accepted

variable {n n' e e' : Bool} {k k' : CompKind} {i j : Fin (2 ^ 27)} {a b c : ValType}

/-- Value types of the section that are compared along the supertypes state one family. -/
theorem kind_eq_of_declaredBelow (hts : ts.WellFormed)
    (hchecked : checkDeclaredSubtyping ts = .ok ()) (h : ts.DeclaredBelow i j)
    (hi : (ValType.concrete n e k i).InSection ts) (hj : (ValType.concrete n' e' k' j).InSection ts) :
    k = k' := by
  have hkind := hts.kindAt_eq_of_isSubtype hchecked (hi.index_lt rfl) (hj.index_lt rfl)
    (hts.isSubtype_iff_below.mpr h)
  exact Option.some_inj.mp (hi.symm.trans (hkind.trans hj))

theorem ValType.Below.trans (hts : ts.WellFormed) (hchecked : checkDeclaredSubtyping ts = .ok ())
    (ha : a.InSection ts) (hb : b.InSection ts) (hc : c.InSection ts) (hab : a.Below ts b)
    (hbc : b.Below ts c) : a.Below ts c := by
  cases hab with
  | numeric hv => exact hbc
  | head hh hn =>
    cases hbc with
    | numeric hv => cases hv
    | head hh' hn' => exact .head (RefHeap.isSubtypeOf_trans hh hh') (hn' ∘ hn)
    | bottom hn' =>
      obtain rfl := CompKind.eq_bottom_of_isSubtypeOf hh
      exact .bottom (hn' ∘ hn)
  | @ofConcrete _ _ _ k _ _ hh hn =>
    cases hbc with
    | numeric hv => cases hv
    | head hh' hn' => exact .ofConcrete (RefHeap.isSubtypeOf_trans hh hh') (hn' ∘ hn)
    | @bottom _ _ _ k' => exact absurd hh (k.not_head_isSubtypeOf_bottom k')
  | @bottom _ _ _ k _ hn =>
    cases hbc with
    | numeric hv => cases hv
    | ofConcrete hh hn' =>
      exact .head (RefHeap.isSubtypeOf_trans k.bottom_isSubtypeOf_head hh) (hn' ∘ hn)
    | declared hij hn' =>
      obtain rfl := kind_eq_of_declaredBelow hts hchecked hij hb hc
      exact .bottom (hn' ∘ hn)
    | exact hij hn' =>
      obtain rfl := kind_eq_of_declaredBelow hts hchecked (.of_key_eq hij) hb hc
      exact .bottom (hn' ∘ hn)
  | declared hij hn =>
    cases hbc with
    | numeric hv => cases hv
    | ofConcrete hh hn' =>
      obtain rfl := kind_eq_of_declaredBelow hts hchecked hij ha hb
      exact .ofConcrete hh (hn' ∘ hn)
    | declared hij' hn' => exact .declared (hij.trans hts.respectsKey hij') (hn' ∘ hn)
  | exact hij hn =>
    cases hbc with
    | numeric hv => cases hv
    | ofConcrete hh hn' =>
      obtain rfl := kind_eq_of_declaredBelow hts hchecked (.of_key_eq hij) ha hb
      exact .ofConcrete hh (hn' ∘ hn)
    | declared hij' hn' =>
      exact .declared ((ParentSearch.Below.of_key_eq hij).trans hts.respectsKey hij') (hn' ∘ hn)
    | exact hij' hn' => exact .exact (hij.trans hij') (hn' ∘ hn)

/-- Equality of two concrete types: the same nullability and exactness, and one canonical index. -/
theorem valTypesEqual_concrete : ts.valTypesEqual (.concrete n e k i) (.concrete n' e' k' j) = true ↔
    ValType.concrete n e k i = .concrete n' e' k' j ∨ (n = n' ∧ e = e' ∧ ts.canonId i = ts.canonId j) := by
  rw [valTypesEqual_iff]
  cases n <;> cases n' <;>
    simp [ValType.isConcrete, ValType.isNonNullRef, ValType.isExact, ValType.concreteIndex]

theorem ValType.Below.antisymm (hts : ts.WellFormed) (hab : a.Below ts b) (hba : b.Below ts a) :
    ts.valTypesEqual a b = true := by
  have hnull {n n' : Bool} (hn : n = true → n' = true) (hn' : n' = true → n = true) : n = n' :=
    Bool.eq_iff_iff.mpr ⟨hn, hn'⟩
  cases hab with
  | numeric hv => exact valTypesEqual_refl _
  | head hh hn =>
    cases hba with
    | numeric hv => cases hv
    | head hh' hn' =>
      obtain rfl := RefHeap.isSubtypeOf_antisymm hh hh'
      obtain rfl := hnull hn hn'
      exact valTypesEqual_refl _
  | @ofConcrete _ _ _ k _ _ hh hn =>
    cases hba with
    | bottom hn' => exact absurd hh (k.not_head_isSubtypeOf_bottom k)
  | @bottom _ _ _ k _ hn =>
    cases hba with
    | ofConcrete hh hn' => exact absurd hh (k.not_head_isSubtypeOf_bottom k)
  | declared hij hn =>
    cases hba with
    | numeric hv => cases hv
    | declared hji hn' =>
      exact valTypesEqual_concrete.mpr
        (.inr ⟨hnull hn hn', rfl, hij.key_eq hts.respectsKey hts.descending hji⟩)
  | exact hij hn =>
    cases hba with
    | numeric hv => cases hv
    | exact hji hn' => exact valTypesEqual_concrete.mpr (.inr ⟨hnull hn hn', rfl, hij⟩)

theorem valTypesEqual_symm (h : ts.valTypesEqual a b = true) : ts.valTypesEqual b a = true := by
  rw [valTypesEqual_iff] at h ⊢
  rcases h with rfl | ⟨ha, hb, hn, he, hid⟩
  · exact .inl rfl
  · exact .inr ⟨hb, ha, hn.symm, he.symm, hid.symm⟩

/-- What is below an exact type: the type, its non-null form, and the bottoms of its hierarchy. -/
theorem below_exact_iff (hts : ts.WellFormed) : a.Below ts (.concrete n true k i) ↔
    ts.valTypesEqual a (.concrete n true k i) = true ∨
      (n = true ∧ ts.valTypesEqual a (.concrete false true k i) = true) ∨
      ∃ m, a = .ref k.bottom m ∧ (m = true → n = true) := by
  constructor
  · intro h
    cases h with
    | numeric hv => exact .inl (valTypesEqual_refl _)
    | @bottom m _ _ _ _ hn => exact .inr (.inr ⟨m, rfl, hn⟩)
    | @exact m _ _ _ _ _ hij hn =>
      cases m with
      | false =>
        cases n with
        | false => exact .inl (valTypesEqual_concrete.mpr (.inr ⟨rfl, rfl, hij⟩))
        | true => exact .inr (.inl ⟨rfl, valTypesEqual_concrete.mpr (.inr ⟨rfl, rfl, hij⟩)⟩)
      | true =>
        obtain rfl := hn rfl
        exact .inl (valTypesEqual_concrete.mpr (.inr ⟨rfl, rfl, hij⟩))
  · rintro (h | ⟨rfl, h⟩ | ⟨m, rfl, hm⟩)
    · exact (subtypeOf_iff_below hts).mp (subtypeOf_of_valTypesEqual h)
    · cases (subtypeOf_iff_below hts).mp (subtypeOf_of_valTypesEqual h) with
      | numeric hv => cases hv
      | bottom _ => exact .bottom fun _ => rfl
      | exact hij _ => exact .exact hij fun _ => rfl
    · exact .bottom hm

end Accepted

/-! ## Accepted type sections -/

/-- In every accepted type section, `subtype_of` is a partial order of the value types up to equality. It
does not tell equal types apart, and below an exact type it has the type, its non-null form and the
bottoms of its hierarchy only. -/
theorem subtypeOf_partialOrder {rts : List (List SubType)} {ts : TypeSection}
    (hcount : rts.flatten.length < 2 ^ 32) (hfit : ∀ g ∈ rts, ∀ st ∈ g, st.comp.LengthsFit)
    (hok : decodeTypeSection rts = .ok ts) (hscope : checkTypeIndexScope ts = .ok ())
    (hlinks : checkDescriptorLinks ts = .ok ()) (hchecked : checkDeclaredSubtyping ts = .ok ()) :
    (∀ a, subtypeOf ts a a = true) ∧
    (∀ a b c : ValType, a.InSection ts → b.InSection ts → c.InSection ts →
      subtypeOf ts a b = true → subtypeOf ts b c = true → subtypeOf ts a c = true) ∧
    (∀ a b, subtypeOf ts a b = true → subtypeOf ts b a = true → ts.valTypesEqual a b = true) ∧
    (∀ a a' b b' : ValType, a.InSection ts → a'.InSection ts → b.InSection ts → b'.InSection ts →
      ts.valTypesEqual a a' = true → ts.valTypesEqual b b' = true → subtypeOf ts a b = subtypeOf ts a' b') ∧
    ∀ (a : ValType) (n : Bool) (k : CompKind) (i : Fin (2 ^ 27)),
      subtypeOf ts a (.concrete n true k i) = true ↔
        ts.valTypesEqual a (.concrete n true k i) = true ∨
          (n = true ∧ ts.valTypesEqual a (ValType.concrete n true k i).nonNull = true) ∨
          ∃ m, a = .ref k.bottom m ∧ (m = true → n = true) := by
  have hts := wellFormed_of_decode rts hcount hfit hok hscope hlinks
  have htrans {a b c : ValType} (ha : a.InSection ts) (hb : b.InSection ts) (hc : c.InSection ts)
      (hab : subtypeOf ts a b = true) (hbc : subtypeOf ts b c = true) : subtypeOf ts a c = true := by
    rw [subtypeOf_iff_below hts] at hab hbc ⊢
    exact hab.trans hts hchecked ha hb hc hbc
  refine ⟨fun a => (subtypeOf_iff_below hts).mpr (.refl a), fun a b c => htrans, ?_, ?_, ?_⟩
  · intro a b hab hba
    rw [subtypeOf_iff_below hts] at hab hba
    exact hab.antisymm hts hba
  · intro a a' b b' ha ha' hb hb' haa hbb
    -- an equal type is below and above, so either answer is carried over by transitivity
    rw [Bool.eq_iff_iff]
    constructor
    · intro h
      exact htrans ha' ha hb' (subtypeOf_of_valTypesEqual (valTypesEqual_symm haa))
        (htrans ha hb hb' h (subtypeOf_of_valTypesEqual hbb))
    · intro h
      exact htrans ha ha' hb (subtypeOf_of_valTypesEqual haa)
        (htrans ha' hb' hb h (subtypeOf_of_valTypesEqual (valTypesEqual_symm hbb)))
  · intro a n k i
    rw [subtypeOf_iff_below hts]
    exact below_exact_iff hts

/-- The order of the section of a struct, a struct with a field, and a declared subtype of it. -/
theorem subtypeOf_partialOrder_narrowed : subtypeOf (decoded narrowedGroups)
    (.concrete false true .struct 2) (.concrete true false .struct 1) = true :=
  (@subtypeOf_partialOrder narrowedGroups _ (by decide) (by decide) rfl rfl rfl rfl).2.1
    _ (.concrete true true .struct 2) _ rfl rfl rfl (by decide) (by decide)

/-- Below a nullable exact type there is its non-null form, which is neither the type nor its nullable form. -/
theorem nonNull_below_exact :
    decodeTypeSection [[⟨false, none, {}, .struct []⟩]] = .ok (decoded [[⟨false, none, {}, .struct []⟩]]) ∧
    checkDeclaredSubtyping (decoded [[⟨false, none, {}, .struct []⟩]]) = .ok () ∧
    ¬ ∀ a v : ValType, a.InSection (decoded [[⟨false, none, {}, .struct []⟩]]) →
      v.InSection (decoded [[⟨false, none, {}, .struct []⟩]]) → v.isExact = true →
      subtypeOf (decoded [[⟨false, none, {}, .struct []⟩]]) a v = true →
        (decoded [[⟨false, none, {}, .struct []⟩]]).valTypesEqual a v = true ∨
        (decoded [[⟨false, none, {}, .struct []⟩]]).valTypesEqual a v.nullable = true ∨
        a.isConcrete = false := by
  refine ⟨rfl, rfl, fun h => ?_⟩
  have := h (.concrete false true .struct 0) (.concrete true true .struct 0) rfl rfl rfl (by decide)
  revert this
  decide

end Wasmrt
