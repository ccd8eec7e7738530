import Wasmrt.Interp.Machine
import Wasmrt.Store.TableEntries

/-!
# Static subtyping and runtime tests

A value of a static type passes the runtime test against every supertype: the families of types are
kept by declared supertypes, and where both types are concrete the test compares store-wide ids, on
which subtyping is transitive. A reference to a host function is the exception. The runtime keeps no
type for it, and it passes no test against a concrete type, its own included.

The four casting instructions all put the same test to the value on top of the stack.

## Main definitions

* `CastsAgree`: the four instructions agree on the value on top of the stack.

## Main results

* `TypeRegistry.Registered.kind_eq_of_isSubtype`: store-wide subtyping keeps the family.
* `Store.Inv.inhabits_of_subtypeOf`: a value of a type is a value of its supertypes.
* `subtypeOf_refMatches_iff`: exactly which values pass, and the agreement of the instructions.
-/

namespace Wasmrt

open TypeRegistry

/-! ## Families of types, store-wide -/

namespace TypeRegistry

variable {reg : TypeRegistry} {A B : TypeSection} {idsA idsB : List ℕ}

/-- Types of one store-wide id belong to one family. -/
theorem Registered.kindAt_eq (hreg : reg.Inv) (hA : A.WellFormed) (hB : B.WellFormed)
    (hidsA : Registered reg A idsA) (hidsB : Registered reg B idsB) {t u c : ℕ}
    (ht : idsA[t]? = some c) (hu : idsB[u]? = some c) : A.kindAt t = B.kindAt u := by
  have hlt : t < A.compTypes.length := hidsA.length_eq ▸ (List.getElem?_eq_some_iff.mp ht).1
  have hlt' : u < B.compTypes.length := hidsB.length_eq ▸ (List.getElem?_eq_some_iff.mp hu).1
  have hmem := member_eq_of_id_eq hreg.table hA hB hidsA.keyed hidsB.keyed
    (fun _ hg => hidsA.fits hreg hA hg) (fun _ hg => hidsB.fits hreg hB hg) hlt hlt' (ht.trans hu.symm)
  have hcomp := congrArg MemberShape.comp hmem
  simp only [MemberShape.map, TypeSection.member, List.getElem?_eq_getElem hlt,
    List.getElem?_eq_getElem hlt', Option.elim_some] at hcomp
  rw [TypeSection.kindAt, TypeSection.kindAt, List.getElem?_eq_getElem hlt,
    List.getElem?_eq_getElem hlt', Option.map_some, Option.map_some,
    CompShape.kind_eq_of_map_eq hcomp]

/-- Store-wide subtyping keeps the family: the supertypes of an id are those its module declares. -/
theorem Registered.kind_eq_of_isSubtype (hreg : reg.Inv) (hA : A.WellFormed) (hB : B.WellFormed)
    (hidsA : Registered reg A idsA) (hidsB : Registered reg B idsB)
    (hchecked : checkDeclaredSubtyping A = .ok ()) {t u a b : ℕ} (ht : idsA[t]? = some a)
    (hu : idsB[u]? = some b) (hsub : reg.isSubtype a b = true) : A.kindAt t = B.kindAt u := by
  obtain ⟨c, hanc, hcb⟩ := ParentSearch.exists_of_search hsub
  have hclosed : ∃ t', idsA[t']? = some c ∧ A.kindAt t' = A.kindAt t := by
    refine hanc.closed (P := fun c => ∃ t', idsA[t']? = some c ∧ A.kindAt t' = A.kindAt t)
      (fun c s ⟨t', ht', hkind⟩ hsuper => ?_) ⟨t, ht, rfl⟩
    rw [hidsA.super_eq hreg hA ht', Option.bind_eq_some_iff] at hsuper
    obtain ⟨s', hs', hid⟩ := hsuper
    exact ⟨s', hid, (kindAt_supertype hchecked hs').symm.trans hkind⟩
  obtain ⟨t', ht', hkind⟩ := hclosed
  obtain rfl : c = b := by simpa using hcb
  exact hkind.symm.trans (hidsA.kindAt_eq hreg hA hB hidsB ht' hu)

/-- Store-wide subtyping is transitive. -/
theorem isSubtype_trans (hreg : reg.Inv) {a b c : ℕ} (hab : reg.isSubtype a b = true)
    (hbc : reg.isSubtype b c = true) : reg.isSubtype a c = true := by
  obtain ⟨b', hb, heq⟩ := ParentSearch.exists_of_search hab
  obtain ⟨c', hc, hp⟩ := ParentSearch.exists_of_search hbc
  obtain rfl : b' = b := by simpa using heq
  exact ParentSearch.search_of_ancestor (descending_super hreg) (hb.trans hc) hp (Nat.lt_succ_self _)

theorem isSubtype_refl (reg : TypeRegistry) (a : ℕ) : reg.isSubtype a a = true := by
  simp [isSubtype, ParentSearch.search]

end TypeRegistry

/-! ## The head of a reference -/

theorem refHead_heapType {ts : TypeSection} (h : RefHeap) : ts.refHead h.heapType = some h := by
  cases h <;> rfl

/-- The family of an object's type; an object of a module that is gone, or of no type, has none. -/
def objectHead (d : InstanceData) (o : HeapObject) : RefHeap :=
  match (d.module.compTypes[o.typeIndex]?).map CompType.kind with
  | some .struct => .struct
  | some .array => .array
  | _ => .func

/-- The most specific abstract type of a non-null reference, read in the hierarchy below `top`. -/
def Store.dynamicHead (s : Store) (top : RefHeap) (v : Value) : Option RefHeap :=
  match top with
  | .any =>
    if v &&& hostTag ≠ 0 then some .any
    else if v &&& externTag ≠ 0 then none
    else if v &&& i31Tag ≠ 0 then some .i31
    else (s.pools.gcHeap[v.toNat]?).bind fun o => (s.code[o.owner]?).map fun d => objectHead d o
  | top => some top

section Heads

variable {s : Store} {v : Value}

/-- No reference is of a bottom type. -/
theorem Store.dynamicHead_not_bottom {top head : RefHeap} (htop : top = .any ∨ top = .func)
    (h : s.dynamicHead top v = some head) :
    head.isSubtypeOf .none = false ∧ head.isSubtypeOf .noFunc = false := by
  obtain rfl | rfl := htop
  · simp only [dynamicHead] at h
    split_ifs at h
    · obtain rfl := Option.some.inj h
      decide
    · obtain rfl := Option.some.inj h
      decide
    · obtain ⟨o, -, h⟩ := Option.bind_eq_some_iff.mp h
      obtain ⟨d, -, rfl⟩ := Option.map_eq_some_iff.mp h
      unfold objectHead
      split <;> decide
  · obtain rfl := Option.some.inj h
    decide

/-- The test of an abstract head against an abstract target. -/
theorem headMatches_heapType {ts : TypeSection} {head : RefHeap} {h : RefHeap}
    (hbottom : head ∉ [RefHeap.noFunc, .noExternal, .noExn]) :
    headMatches ts head none h.heapType = head.isSubtypeOf h := by
  cases h <;> cases head <;> first | rfl | exact absurd hbottom (by decide)

/-- The test against an abstract type compares heads. -/
theorem refMatches_heapType_iff {ts : TypeSection} {inst : ℕ} {n : Bool} {h : RefHeap} :
    refMatches ts s.code s.pools inst v ⟨n, h.heapType⟩ = true ↔
      if v = nullRef then n = true
      else ∃ head, s.dynamicHead h.top v = some head ∧ head.isSubtypeOf h = true := by
  by_cases hv : v = nullRef
  · simp [refMatches, hv]
  rw [if_neg hv, refMatches, if_neg hv, refHead_heapType]
  cases htop : h.top with
  | any =>
    simp only [htop, anyMatches, Store.dynamicHead, concreteTarget_heapType]
    by_cases hhost : v &&& hostTag ≠ 0
    · rw [if_pos hhost, if_pos hhost]
      cases h <;> simp [RefHeap.isSubtypeOf]
    rw [if_neg hhost, if_neg hhost]
    by_cases hextern : v &&& externTag ≠ 0
    · rw [if_pos hextern, if_pos hextern]
      simp
    rw [if_neg hextern, if_neg hextern]
    by_cases hi31 : v &&& i31Tag ≠ 0
    · rw [if_pos hi31, if_pos hi31, headMatches_heapType (by decide)]
      simp
    rw [if_neg hi31, if_neg hi31]
    cases ho : s.pools.gcHeap[v.toNat]? with
    | none => simp
    | some o =>
      cases hd : s.code[o.owner]? with
      | none => simp [hd]
      | some d =>
        have hbottom : objectHead d o ∉ [RefHeap.noFunc, .noExternal, .noExn] := by
          unfold objectHead
          split <;> decide
        simp only [hd, Option.bind_some, Option.map_some, Option.some.injEq, exists_eq_left']
        rw [← headMatches_heapType hbottom]
        rfl
  | func | external | exn =>
    simp [htop, funcMatchesTarget, concreteTarget_heapType, Store.dynamicHead, headMatches_heapType]
  | _ => cases h <;> cases htop

end Heads

/-! ## Inhabitance is kept by subtyping -/

section Subtyping

variable {s : Store} {inst : ℕ} {d : InstanceData} {v : Value}

/-- The family of a concrete type of a section. -/
theorem TypeSection.kindAt_of_kindIn {ts : TypeSection} {n e : Bool} {k : CompKind} {i : Fin (2 ^ 27)}
    (h : (ValType.concrete n e k i).KindIn (ts.compTypes.map CompType.kind)) : ts.kindAt i = some k := by
  rw [kindAt, ← List.getElem?_map]
  exact h

/-- What lies below a type of an instance is of its family. -/
theorem Store.Inv.kindAt_eq (hs : s.Inv)
    (hchecked : ∀ d ∈ s.code, checkDeclaredSubtyping d.module.toTypeSection = .ok ())
    {owner ti : ℕ} {od : InstanceData} (hod : s.code[owner]? = some od) (hd : s.code[inst]? = some d)
    {t got want : ℕ} (hgot : od.typeIds[ti]? = some got) (hwant : d.typeIds[t]? = some want)
    (hbelow : s.pools.types.isSubtype got want = true) :
    od.module.kindAt ti = d.module.kindAt t :=
  (hs.linked hod).registered.kind_eq_of_isSubtype hs.registry (hs.linked hod).wellFormed
    (hs.linked hd).wellFormed (hs.linked hd).registered (hchecked od (List.mem_of_getElem? hod)) hgot
    hwant hbelow

/-- A non-null inhabitant of a reference type has a head below that of the type. -/
theorem Store.Inv.exists_head (hs : s.Inv)
    (hchecked : ∀ d ∈ s.code, checkDeclaredSubtyping d.module.toTypeSection = .ok ())
    (hd : s.code[inst]? = some d) {A : ValType} (hA : A.KindIn (d.module.compTypes.map CompType.kind))
    (hv : v ≠ nullRef) (h : s.Inhabits inst v A) :
    ∃ head, s.dynamicHead A.refHeap.top v = some head ∧ head.isSubtypeOf A.refHeap = true := by
  cases A with
  | i32 | i64 | f32 | f64 | v128 => cases h
  | ref hp n =>
    have hhead := refMatches_heapType_iff.mp h
    rwa [if_neg hv] at hhead
  | concrete n e k i =>
    rw [Store.Inhabits, if_neg hv] at h
    refine ⟨k.head, ?_, RefHeap.isSubtypeOf_refl _⟩
    cases k with
    | func => rfl
    | _ =>
      -- the object's type is below the type of the reference, and so of its family
      obtain ⟨hk, -⟩ | ⟨got, want, hgot, hwant, hbelow⟩ := h
      · cases hk
      have hbelow : s.pools.types.isSubtype got want = true := by
        cases e with
        | true => exact (show got = want from hbelow) ▸ isSubtype_refl _ _
        | false => exact hbelow
      simp only [Store.dynamicId, Option.ite_none_right_eq_some] at hgot
      obtain ⟨⟨hhost, hextern, hi31⟩, hgot⟩ := hgot
      obtain ⟨o, ho, hgot⟩ := Option.bind_eq_some_iff.mp hgot
      obtain ⟨od, hod, hgot⟩ := Option.bind_eq_some_iff.mp hgot
      have hwant : d.typeIds[(i : ℕ)]? = some want := by simpa [typeIdIn, hd] using hwant
      have hkind := hs.kindAt_eq hchecked hod hd hgot hwant hbelow
      rw [TypeSection.kindAt_of_kindIn hA, TypeSection.kindAt] at hkind
      simp [Store.dynamicHead, ValType.refHeap, CompKind.head, RefHeap.top, hhost, hextern, hi31, ho, hod,
        objectHead, hkind]

/-- The null reference inhabits the nullable types. -/
theorem Store.inhabits_null_iff {A : ValType} :
    s.Inhabits inst nullRef A ↔ A.isRef = true ∧ A.isNonNullRef = false := by
  cases A <;> simp [Store.Inhabits, refMatches, ValType.isRef, ValType.isNonNullRef]

/-- A type with a nullable subtype is nullable. -/
theorem isNonNullRef_of_subtypeOf {ts : TypeSection} {A B : ValType} (hA : A.isRef = true)
    (hB : B.isRef = true) (hsub : subtypeOf ts A B = true) (h : A.isNonNullRef = false) :
    B.isNonNullRef = false := by
  rw [subtypeOf_of_isRef hA hB] at hsub
  by_contra hnull
  simp [h, hnull] at hsub

/-- What a concrete type of an instance has below it, store-wide: types of its family. -/
theorem Store.Inv.concrete_below (hs : s.Inv)
    (hchecked : ∀ d ∈ s.code, checkDeclaredSubtyping d.module.toTypeSection = .ok ())
    (hd : s.code[inst]? = some d) {n n' e e' : Bool} {k k' : CompKind} {i j : Fin (2 ^ 27)}
    (hA : (ValType.concrete n e k i).KindIn (d.module.compTypes.map CompType.kind))
    (hB : (ValType.concrete n' e' k' j).KindIn (d.module.compTypes.map CompType.kind))
    (hsub : subtypeOf d.module.toTypeSection (.concrete n e k i) (.concrete n' e' k' j) = true) :
    k = k' ∧ ∃ a b, d.typeIds[(i : ℕ)]? = some a ∧ d.typeIds[(j : ℕ)]? = some b ∧
      if e' then e = true ∧ a = b else s.pools.types.isSubtype a b = true := by
  obtain ⟨a, ha⟩ := hs.exists_id_of_kindIn hd hA
  obtain ⟨b, hb⟩ := hs.exists_id_of_kindIn hd hB
  have hrel : if e' then e = true ∧ a = b else s.pools.types.isSubtype a b = true := by
    rw [subtypeOf_of_isRef rfl rfl] at hsub
    split_ifs at hsub with hnull hconc hexact
    · rw [Bool.and_eq_true] at hsub
      have heq : d.module.typesEqual (i : ℕ) (j : ℕ) = true := hsub.2
      rw [hs.typesEqual_eq hd ha hb, beq_iff_eq] at heq
      have hexact : e' = true := hexact
      rw [if_pos hexact]
      exact ⟨hsub.1, heq⟩
    · have hle : d.module.isSubtype (i : ℕ) (j : ℕ) = true := hsub
      rw [hs.isSubtype_eq hd ha hb] at hle
      have hexact : ¬ e' = true := hexact
      rwa [if_neg hexact]
    · exact absurd rfl hconc
    · exact absurd rfl hconc
    · exact absurd rfl hconc
  have hbelow : s.pools.types.isSubtype a b = true := by
    cases e' with
    | false => exact hrel
    | true => exact hrel.2 ▸ isSubtype_refl _ _
  have hkind := hs.kindAt_eq hchecked hd hd ha hb hbelow
  rw [TypeSection.kindAt_of_kindIn hA, TypeSection.kindAt_of_kindIn hB, Option.some_inj] at hkind
  exact ⟨hkind, a, b, ha, hb, hrel⟩

/-- A value of a type is a value of its supertypes. -/
theorem Store.Inv.inhabits_of_subtypeOf (hs : s.Inv)
    (hchecked : ∀ d ∈ s.code, checkDeclaredSubtyping d.module.toTypeSection = .ok ())
    (hd : s.code[inst]? = some d) {A B : ValType}
    (hA : A.KindIn (d.module.compTypes.map CompType.kind))
    (hB : B.KindIn (d.module.compTypes.map CompType.kind)) (hBref : B.isRef = true)
    (hsub : subtypeOf d.module.toTypeSection A B = true) (h : s.Inhabits inst v A) :
    s.Inhabits inst v B := by
  have hAref : A.isRef = true := by cases A <;> first | rfl | cases h
  by_cases hv : v = nullRef
  · subst hv
    rw [Store.inhabits_null_iff] at h ⊢
    exact ⟨hBref, isNonNullRef_of_subtypeOf hAref hBref hsub h.2⟩
  obtain ⟨head, hhead, hle⟩ := hs.exists_head hchecked hd hA hv h
  cases B with
  | i32 | i64 | f32 | f64 | v128 => cases hBref
  | ref hp' n' =>
    -- the head lies below that of the subtype, which lies below the target
    have hbelow : A.refHeap.isSubtypeOf hp' = true := by
      rw [subtypeOf_of_isRef hAref hBref] at hsub
      cases A <;> simp_all [ValType.isConcrete, ValType.isNonNullRef, ValType.refHeap]
    refine refMatches_heapType_iff.mpr ?_
    rw [if_neg hv, ← RefHeap.top_eq_of_isSubtypeOf hbelow]
    exact ⟨head, hhead, RefHeap.isSubtypeOf_trans hle hbelow⟩
  | concrete n' e' k' j =>
    cases A with
    | i32 | i64 | f32 | f64 | v128 => cases hAref
    | ref hp n =>
      -- the only abstract types below a concrete one are bottoms, which nothing inhabits
      have hbottom : hp = .none ∨ hp = .noFunc := by
        rw [subtypeOf_of_isRef hAref hBref] at hsub
        simp only [ValType.isConcrete, ValType.refHeap, Bool.false_and, Bool.false_eq_true, if_false,
          if_true] at hsub
        split_ifs at hsub
        rw [Bool.or_eq_true, Bool.and_eq_true, Bool.and_eq_true, beq_iff_eq, beq_iff_eq] at hsub
        exact hsub.imp And.left And.left
      rcases hbottom with rfl | rfl
      · exact absurd hle (by simp [ValType.refHeap, (Store.dynamicHead_not_bottom (.inl rfl) hhead).1])
      · exact absurd hle (by simp [ValType.refHeap, (Store.dynamicHead_not_bottom (.inr rfl) hhead).2])
    | concrete n e k i =>
      obtain ⟨rfl, a, b, ha, hb, hrel⟩ := hs.concrete_below hchecked hd hA hB hsub
      have hb' : typeIdIn s.code inst j = some b := by simp [typeIdIn, hd, hb]
      rw [Store.Inhabits, if_neg hv] at h ⊢
      rcases h with hhost | ⟨got, want, hgot, hwant, hbelow⟩
      · exact .inl hhost
      obtain rfl : want = a := by simpa [typeIdIn, hd, ha] using hwant.symm
      refine .inr ⟨got, b, hgot, hb', ?_⟩
      cases e' with
      | true =>
        obtain ⟨rfl, rfl⟩ := hrel
        exact hbelow
      | false =>
        cases e with
        | true => exact (show got = want from hbelow) ▸ hrel
        | false => exact isSubtype_trans hs.registry hbelow hrel

end Subtyping

/-! ## The test against a supertype -/

section Tests

variable {s : Store} {inst : ℕ} {d : InstanceData} {v : Value}

/-- A reference that leads to a host function leads to no definition. -/
theorem Store.Inv.definingFunc_of_host (hs : s.Inv) (h : s.RefersToHost v) :
    definingFunc s.code (funcrefInstance v) (funcrefIndex v) = none := by
  obtain ⟨e, fe, data, k, hchain, hdata, himport, htarget⟩ := h
  rw [Option.eq_none_iff_forall_ne_some]
  intro r hr
  obtain ⟨fd, defines, hdef, hdefines, hti⟩ := hs.exists_reexports hr
  generalize funcrefInstance v = i, funcrefIndex v = f at hchain hdef
  -- induction on the chain to the host: the chain to the definition takes the same steps
  induction hchain with
  | refl =>
    cases hdef with
    | refl =>
      obtain rfl := Option.some.inj (hdata.symm.trans hdefines)
      simp [definedFuncType, himport] at hti
    | step hmid _ hwasm _ =>
      obtain rfl := Option.some.inj (hdata.symm.trans hmid)
      rw [htarget] at hwasm
      cases hwasm
  | step hmid himp hwasm _ ih =>
    cases hdef with
    | refl =>
      obtain rfl := Option.some.inj (hmid.symm.trans hdefines)
      simp [definedFuncType, himp] at hti
    | step hmid' _ hwasm' hrest =>
      obtain rfl := Option.some.inj (hmid.symm.trans hmid')
      rw [hwasm] at hwasm'
      cases hwasm'
      exact ih hdata himport htarget hrest

/-- An inhabitant of a type passes the test against it, unless it is a host function and the type a
concrete function type. -/
theorem Store.Inv.refMatches_of_inhabits (hs : s.Inv) (hd : s.code[inst]? = some d) {B : ValType}
    (hB : B.KindIn (d.module.compTypes.map CompType.kind)) (h : s.Inhabits inst v B) :
    refMatches d.module.toTypeSection s.code s.pools inst v B.refType = true ↔
      ¬ (v ≠ nullRef ∧ B.isConcrete = true ∧ B.refHeap = .func ∧ s.RefersToHost v) := by
  cases B with
  | i32 | i64 | f32 | f64 | v128 => cases h
  | ref hp n =>
    refine iff_of_true ?_ (by simp [ValType.isConcrete])
    rw [refMatches_abstract (concreteTarget_heapType hp)]
    exact h
  | concrete n e k i =>
    by_cases hv : v = nullRef
    · refine iff_of_true ?_ fun hnot => hnot.1 hv
      simpa [Store.Inhabits, refMatches, ValType.refType, hv] using h
    rw [Store.Inhabits, if_neg hv] at h
    obtain ⟨want, hwant⟩ := hs.exists_id_of_kindIn hd hB
    have htest := hs.refMatches_concrete_iff (v := v) hd hB hwant hv
    by_cases hhost : k = .func ∧ s.RefersToHost v
    · obtain ⟨rfl, hhost⟩ := hhost
      refine iff_of_false ?_ fun hnot => hnot ⟨hv, rfl, rfl, hhost⟩
      rw [htest fun hk => absurd rfl hk]
      simp [Store.dynamicId, hs.definingFunc_of_host hhost]
    · refine iff_of_true ?_ fun hbad => hhost ⟨?_, hbad.2.2.2⟩
      · obtain hfunc | ⟨got, want', hgot, hwant', hbelow⟩ := h
        · exact absurd hfunc hhost
        obtain rfl : want' = want := by simpa [typeIdIn, hd, hwant] using hwant'.symm
        refine (htest fun hk o ho => ⟨got, ?_⟩).mpr ⟨got, hgot, hbelow⟩
        have hobj : (s.pools.gcHeap[v.toNat]?).bind (fun o => typeIdIn s.code o.owner o.typeIndex) =
            some got := by
          cases k with
          | func => exact absurd rfl hk
          | _ =>
            simp only [Store.dynamicId, Option.ite_none_right_eq_some] at hgot
            exact hgot.2
        rwa [ho, Option.bind_some] at hobj
      · cases k <;> first | rfl | cases hbad.2.2.1

end Tests

/-! ## The casting instructions -/

/-- The four instructions put one test to the value on top of the stack: `ref.test` answers 1 exactly
when `ref.cast` does not trap, exactly when `br_on_cast` branches, exactly when `br_on_cast_fail` falls
through. -/
def CastsAgree (ops : Ops) (inst : ℕ) (d : InstanceData) (x : Exec) (code : List InstanceData)
    (frame : CallFrame) (pc n : ℕ) (src rt : RefType) : Prop :=
  [∃ st, flow ops inst d x code frame pc (.refTest rt) = .ok (.next st) ∧
      st.vstack.head? = some (i32Value 1),
    ∃ fl, flow ops inst d x code frame pc (.refCast rt) = .ok fl,
    ∃ st, flow ops inst d x code frame pc (.brOnCast n src rt) = .ok (.branch n st),
    ∃ st, flow ops inst d x code frame pc (.brOnCastFail n src rt) = .ok (.next st)].TFAE

theorem castsAgree_of_cons (ops : Ops) (inst : ℕ) (d : InstanceData) (x : Exec)
    (code : List InstanceData) {frame : CallFrame} (pc n : ℕ) (src rt : RefType) {v : Value}
    {rest : List Value} (hstack : frame.vstack = v :: rest) :
    CastsAgree ops inst d x code frame pc n src rt := by
  have htest : (∃ st, flow ops inst d x code frame pc (.refTest rt) = .ok (.next st) ∧
      st.vstack.head? = some (i32Value 1)) ↔ x.isMatch inst d code v rt = true := by
    have hflow : flow ops inst d x code frame pc (.refTest rt) =
        .ok (.next ((frame.plain x).pop.2.push
          (i32Value (if x.isMatch inst d code (frame.plain x).pop.1 rt then 1 else 0)))) := rfl
    rw [hflow]
    simp only [CallFrame.plain, PlainState.pop, hstack, List.headD_cons]
    cases x.isMatch inst d code v rt
    · simp [PlainState.push]
      decide
    · simp [PlainState.push]
  have hcast : (∃ fl, flow ops inst d x code frame pc (.refCast rt) = .ok fl) ↔
      x.isMatch inst d code v rt = true := by
    have hflow : flow ops inst d x code frame pc (.refCast rt) =
        Flow.next <$> ((frame.plain x).top >>= fun v =>
          ensure (x.isMatch inst d code v rt) .castFailure >>= fun _ => pure (frame.plain x)) := rfl
    rw [hflow]
    cases hm : x.isMatch inst d code v rt <;>
      simp [CallFrame.plain, PlainState.top, hstack, hm, ensure, orError]
  have hbranch : (∃ st, flow ops inst d x code frame pc (.brOnCast n src rt) = .ok (.branch n st)) ↔
      x.isMatch inst d code v rt = true := by
    cases hm : x.isMatch inst d code v rt <;>
      simp [flow, branchFlow, CallFrame.plain, PlainState.top, hstack, hm, orError]
  have hfall : (∃ st, flow ops inst d x code frame pc (.brOnCastFail n src rt) = .ok (.next st)) ↔
      x.isMatch inst d code v rt = true := by
    cases hm : x.isMatch inst d code v rt <;>
      simp [flow, branchFlow, CallFrame.plain, PlainState.top, hstack, hm, orError]
  rw [CastsAgree, htest, hcast, hbranch, hfall]
  simp

/-! ## The law of runtime tests -/

/-- In a reachable store whose modules declare proper supertypes, a value of a static reference type
passes the runtime test against a supertype exactly when it is not a host function tested against a
concrete function type; and the four casting instructions agree on every value. -/
theorem subtypeOf_refMatches_iff {s : Store} (hs : s.Reachable)
    (hroom : s.pools.types.next < u32Max)
    (hchecked : ∀ d ∈ s.code, checkDeclaredSubtyping d.module.toTypeSection = .ok ())
    {inst : ℕ} {d : InstanceData} (hd : s.code[inst]? = some d) :
    (∀ (v : Value) (A B : ValType), A.KindIn (d.module.compTypes.map CompType.kind) →
        B.KindIn (d.module.compTypes.map CompType.kind) → B.isRef = true →
        subtypeOf d.module.toTypeSection A B = true → s.Inhabits inst v A →
          (refMatches d.module.toTypeSection s.code s.pools inst v B.refType = true ↔
            ¬ (v ≠ nullRef ∧ B.isConcrete = true ∧ B.refHeap = .func ∧ s.RefersToHost v))) ∧
      ∀ (ops : Ops) (x : Exec) (frame : CallFrame) (pc n : ℕ) (src rt : RefType) (v : Value)
        (rest : List Value), frame.vstack = v :: rest →
          CastsAgree ops inst d x s.code frame pc n src rt := by
  have hinv := hs.inv hroom
  refine ⟨?_, ?_⟩
  · intro v A B hA hB href hsub hv
    exact hinv.refMatches_of_inhabits hd hB
      (hinv.inhabits_of_subtypeOf hchecked hd hA hB href hsub hv)
  · intro ops x frame pc n src rt v rest hstack
    exact castsAgree_of_cons ops inst d x s.code pc n src rt hstack

/-! ## A host function tested against its own type -/

/-- A store whose only instance imports a host function at its type 0. -/
def hostImportStore : Store :=
  (Store.instantiate reexportsOpen { funcs := [.host] } (Store.new 0 .defaults)).state

theorem reachable_hostImportStore : hostImportStore.Reachable :=
  ⟨0, .defaults, .single (.instantiate _ _ (wellFormed_oneFuncType false))⟩

theorem checkDeclaredSubtyping_hostImportStore :
    ∀ d ∈ hostImportStore.code, checkDeclaredSubtyping d.module.toTypeSection = .ok () := by
  decide

/-- A reference to the host function, of the type `ref.func` gives it, fails the test against that
type. -/
theorem hostFunction_fails_own_type :
    hostImportStore.Reachable ∧
      (∀ d ∈ hostImportStore.code, checkDeclaredSubtyping d.module.toTypeSection = .ok ()) ∧
        ∃ d A, hostImportStore.code[0]? = some d ∧ refFuncValType d.module 0 = A ∧
          A.KindIn (d.module.compTypes.map CompType.kind) ∧
            subtypeOf d.module.toTypeSection A A = true ∧
              hostImportStore.Inhabits 0 (packFuncref 0 0) A ∧
                refMatches d.module.toTypeSection hostImportStore.code hostImportStore.pools 0
                  (packFuncref 0 0) A.refType = false :=
  ⟨reachable_hostImportStore, checkDeclaredSubtyping_hostImportStore, _, _, rfl, rfl, rfl, by decide,
    .inl ⟨rfl, 0, 0, _, 0, .refl 0 0, rfl, by decide, rfl⟩, by decide⟩

/-- The law in that store. -/
theorem hostImport_refMatches_iff :
    ∃ d, hostImportStore.code[0]? = some d ∧
      (∀ (v : Value) (A B : ValType), A.KindIn (d.module.compTypes.map CompType.kind) →
        B.KindIn (d.module.compTypes.map CompType.kind) → B.isRef = true →
        subtypeOf d.module.toTypeSection A B = true → hostImportStore.Inhabits 0 v A →
          (refMatches d.module.toTypeSection hostImportStore.code hostImportStore.pools 0 v B.refType =
              true ↔
            ¬ (v ≠ nullRef ∧ B.isConcrete = true ∧ B.refHeap = .func ∧
              hostImportStore.RefersToHost v))) ∧
      ∀ (ops : Ops) (x : Exec) (frame : CallFrame) (pc n : ℕ) (src rt : RefType) (v : Value)
        (rest : List Value), frame.vstack = v :: rest →
          CastsAgree ops 0 d x hostImportStore.code frame pc n src rt :=
  ⟨_, rfl, subtypeOf_refMatches_iff reachable_hostImportStore (by decide)
    checkDeclaredSubtyping_hostImportStore rfl⟩

end Wasmrt
