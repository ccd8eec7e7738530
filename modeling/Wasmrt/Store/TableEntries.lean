import Wasmrt.Interp.References
import Wasmrt.Store.TableImports

/-!
# What tables hold

Nothing rechecks the elements of a typed table at run time. They are typed because whoever writes to
the table writes references of the element type it declares, and because every instance that has the
table in its index space declares one store-wide element type. The second half is what matching of
imports has to ensure, and this module follows it over whole runs.

## Main definitions

* `Store.Inhabits`: a reference inhabits a reference type of an instance.
* `Store.TypedWrites`: what a step adds to tables inhabits the element type its writer declares.
* `Store.LinkedStep`: a step of typed writes whose table imports keep their indices.
* `Store.SharedTables`, `Store.EntriesInhabit`: one element type for each table, inhabited by its
  entries.

## Main results

* `Store.Inv.refMatches_iff_inhabits`: the runtime test decides inhabitance.
* `Store.Step.inhabits`: a step keeps references in their types.
* `tableImports_agree_iff`: exactly when table imports are matched store-wide, and what follows.
-/

namespace Wasmrt

open TypeRegistry

/-! ## Inhabiting a reference type -/

/-- The heap type of an abstract head. -/
def RefHeap.heapType : RefHeap → HeapType
  | func => .func
  | external => .external
  | any => .any
  | eq => .eq
  | i31 => .i31
  | struct => .struct
  | array => .array
  | none => .none
  | exn => .exn
  | noFunc => .noFunc
  | noExternal => .noExternal
  | noExn => .noExn

/-- The reference type a value type spells; a number type spells an uninhabited one. -/
def ValType.refType : ValType → RefType
  | ref h n => ⟨n, h.heapType⟩
  | concrete n e _ i => ⟨n, if e then .exact i else .concrete i⟩
  | _ => ⟨false, .noFunc⟩

namespace Store

/-- A function reference leads to a host function, which has no type of its own. -/
def RefersToHost (s : Store) (v : Value) : Prop :=
  ∃ d fd data k, Reexports s.code (funcrefInstance v) (funcrefIndex v) d fd ∧
    s.code[d]? = some data ∧ fd < data.module.importedFuncCount ∧
      data.imports[fd]? = some (.host k)

/-- The store-wide id of the type a reference of the family was created with. -/
def dynamicId (s : Store) (kind : CompKind) (v : Value) : Option ℕ :=
  match kind with
  | .func => (definingFunc s.code (funcrefInstance v) (funcrefIndex v)).bind fun p =>
      typeIdIn s.code p.1 p.2
  | _ =>
    if v &&& hostTag = 0 ∧ v &&& externTag = 0 ∧ v &&& i31Tag = 0 then
      (s.pools.gcHeap[v.toNat]?).bind fun o => typeIdIn s.code o.owner o.typeIndex
    else none

/-- Reference `v` inhabits a reference type of instance `inst`. An abstract type reads no type index; a
concrete one admits what was created with its type or, unless it is exact, a subtype. -/
def Inhabits (s : Store) (inst : ℕ) (v : Value) : ValType → Prop
  | .ref h nullable => refMatches {} s.code s.pools inst v ⟨nullable, h.heapType⟩ = true
  | .concrete nullable exact kind i =>
    if v = nullRef then nullable = true
    else (kind = .func ∧ s.RefersToHost v) ∨
      ∃ got want, s.dynamicId kind v = some got ∧ typeIdIn s.code inst i = some want ∧
        if exact then got = want else s.pools.types.isSubtype got want = true
  | _ => False

end Store

/-- The test against an abstract target reads no type section. -/
theorem refMatches_abstract {ts ts' : TypeSection} {code : List InstanceData} {p : Pools}
    {inst inst' : ℕ} {v : Value} {rt : RefType} (h : concreteTarget rt.heap = none) :
    refMatches ts code p inst v rt = refMatches ts' code p inst' v rt := by
  obtain ⟨n, heap⟩ := rt
  cases heap <;> first | rfl | cases h

theorem concreteTarget_heapType (h : RefHeap) : concreteTarget h.heapType = none := by
  cases h <;> rfl

namespace Store

/-- Whether a reference inhabits a type depends on the store-wide type only. -/
theorem inhabits_congr {s : Store} {a b : ℕ} {da db : InstanceData} (hda : s.code[a]? = some da)
    (hdb : s.code[b]? = some db) {ty : ValType}
    (h : ty.storeType da.typeIds = ty.storeType db.typeIds) {v : Value} :
    s.Inhabits a v ty ↔ s.Inhabits b v ty := by
  cases ty with
  | ref hp n => rw [Inhabits, Inhabits, refMatches_abstract (concreteTarget_heapType hp)]
  | concrete n e k i =>
    have hid : typeIdIn s.code a i = typeIdIn s.code b i := by
      simpa [ValType.storeType, ValType.shape, ValShape.map, typeIdIn, hda, hdb] using h
    rw [Inhabits, Inhabits, hid]
  | _ => exact Iff.rfl

/-! ## Steps keep references in their types -/

section Stable

variable {s s' : Store}

theorem Extends.typeIdIn (h : s.Extends s') {i t c : ℕ} (hc : typeIdIn s.code i t = some c) :
    typeIdIn s'.code i t = some c := by
  obtain ⟨d, hd, hc⟩ := Option.bind_eq_some_iff.mp hc
  rw [Wasmrt.typeIdIn, h.getElem?_code hd, Option.bind_some, hc]

/-- A GC object keeps its owner and its type. -/
theorem Extends.getElem?_gcHeap (h : s.Extends s') {k : ℕ} {o : HeapObject}
    (ho : s.pools.gcHeap[k]? = some o) :
    ∃ o', s'.pools.gcHeap[k]? = some o' ∧ o'.owner = o.owner ∧ o'.typeIndex = o.typeIndex := by
  have hheader := getElem?_of_prefix h.pools.heap (k := k) (a := o.header) (by simp [ho])
  rw [List.getElem?_map, Option.map_eq_some_iff] at hheader
  obtain ⟨o', ho', heq⟩ := hheader
  simp only [HeapObject.header, Prod.mk.injEq] at heq
  exact ⟨o', ho', heq⟩

theorem Extends.reexports (h : s.Extends s') {e fe d fd : ℕ} (hc : Reexports s.code e fe d fd) :
    Reexports s'.code e fe d fd := by
  induction hc with
  | refl => exact .refl _ _
  | step hdata himport htarget _ ih => exact .step (h.getElem?_code hdata) himport htarget ih

theorem Extends.refersToHost (h : s.Extends s') {v : Value} (hv : s.RefersToHost v) :
    s'.RefersToHost v := by
  obtain ⟨d, fd, data, k, hc, hd, himport, htarget⟩ := hv
  exact ⟨d, fd, data, k, h.reexports hc, h.getElem?_code hd, himport, htarget⟩

theorem Extends.dynamicId (h : s.Extends s') {kind : CompKind} {v : Value} {c : ℕ}
    (hc : s.dynamicId kind v = some c) : s'.dynamicId kind v = some c := by
  have hheap : ∀ {k : ℕ}, ((s.pools.gcHeap[k]?).bind fun o =>
      Wasmrt.typeIdIn s.code o.owner o.typeIndex) = some c →
      ((s'.pools.gcHeap[k]?).bind fun o => Wasmrt.typeIdIn s'.code o.owner o.typeIndex) = some c := by
    intro k hk
    obtain ⟨o, ho, hid⟩ := Option.bind_eq_some_iff.mp hk
    obtain ⟨o', ho', howner, hti⟩ := h.getElem?_gcHeap ho
    rw [ho', Option.bind_some, howner, hti]
    exact h.typeIdIn hid
  cases kind with
  | func =>
    obtain ⟨p, hp, hid⟩ := Option.bind_eq_some_iff.mp hc
    exact Option.bind_eq_some_iff.mpr ⟨p, definingFunc_extend h.code hp, h.typeIdIn hid⟩
  | _ =>
    simp only [Store.dynamicId, Option.ite_none_right_eq_some] at hc ⊢
    exact ⟨hc.1, hheap hc.2⟩

/-- A passed test against an abstract target stays passed. -/
theorem Extends.refMatches_abstract (h : s.Extends s') {ts : TypeSection} {inst : ℕ} {v : Value}
    {rt : RefType} (hrt : concreteTarget rt.heap = none)
    (hm : refMatches ts s.code s.pools inst v rt = true) :
    refMatches ts s'.code s'.pools inst v rt = true := by
  by_cases hv : v = nullRef
  · simpa [refMatches, hv] using hm
  cases hhead : ts.refHead rt.heap with
  | none => simp [refMatches, hv, hhead] at hm
  | some head =>
    cases htop : head.top with
    | any =>
      simp only [refMatches, hv, hhead, htop, if_false, anyMatches, hrt] at hm ⊢
      -- only an untagged value is looked up in the heap
      by_cases hhost : v &&& hostTag ≠ 0
      · rwa [if_pos hhost] at hm ⊢
      by_cases hextern : v &&& externTag ≠ 0
      · rwa [if_neg hhost, if_pos hextern] at hm ⊢
      by_cases hi31 : v &&& i31Tag ≠ 0
      · rwa [if_neg hhost, if_neg hextern, if_pos hi31] at hm ⊢
      rw [if_neg hhost, if_neg hextern, if_neg hi31] at hm ⊢
      cases ho : s.pools.gcHeap[v.toNat]? with
      | none => simp [ho] at hm
      | some o =>
        obtain ⟨o', ho', howner, hti⟩ := h.getElem?_gcHeap ho
        cases hd : s.code[o.owner]? with
        | none => simp [ho, hd] at hm
        | some d =>
          simp only [ho, hd] at hm
          simpa only [ho', howner, hti, h.getElem?_code hd] using hm
    | _ => simpa [refMatches, hv, hhead, htop, funcMatchesTarget, hrt] using hm

/-- The id of a type of an instance has been given out. -/
theorem Inv.typeIdIn_lt (hs : s.Inv) {i t c : ℕ} (hc : Wasmrt.typeIdIn s.code i t = some c) :
    c < s.pools.types.next := by
  obtain ⟨d, hd, hc⟩ := Option.bind_eq_some_iff.mp hc
  exact (hs.linked hd).registered.lt_next c (List.mem_of_getElem? hc)

theorem Inv.dynamicId_lt (hs : s.Inv) {kind : CompKind} {v : Value} {c : ℕ}
    (hc : s.dynamicId kind v = some c) : c < s.pools.types.next := by
  cases kind with
  | func =>
    obtain ⟨p, -, hid⟩ := Option.bind_eq_some_iff.mp hc
    exact hs.typeIdIn_lt hid
  | _ =>
    simp only [dynamicId, Option.ite_none_right_eq_some] at hc
    obtain ⟨o, -, hid⟩ := Option.bind_eq_some_iff.mp hc.2
    exact hs.typeIdIn_lt hid

/-- A step does not change what lies below what among the ids given out. -/
theorem Step.isSubtype_eq (h : Step s s') (hs : s.Inv) (hs' : s'.Inv) {a b : ℕ}
    (ha : a < s.pools.types.next) :
    s'.pools.types.isSubtype a b = s.pools.types.isSubtype a b := by
  rcases h.types with heq | ⟨ts, -, heq⟩
  · rw [heq]
  · rw [heq]
    exact isSubtype_assign hs.registry ts (heq ▸ descending_super hs'.registry) ha

/-- A step keeps references in their types. -/
theorem Step.inhabits (h : Step s s') (hs : s.Inv) (hs' : s'.Inv) {inst : ℕ} {v : Value}
    {ty : ValType} (hv : s.Inhabits inst v ty) : s'.Inhabits inst v ty := by
  have hext := h.extends
  cases ty with
  | ref hp n => exact hext.refMatches_abstract (concreteTarget_heapType hp) hv
  | concrete n e k i =>
    rw [Inhabits] at hv ⊢
    by_cases hnull : v = nullRef
    · rwa [if_pos hnull] at hv ⊢
    · rw [if_neg hnull] at hv ⊢
      rcases hv with ⟨hk, hhost⟩ | ⟨got, want, hgot, hwant, hbelow⟩
      · exact .inl ⟨hk, hext.refersToHost hhost⟩
      · refine .inr ⟨got, want, hext.dynamicId hgot, hext.typeIdIn hwant, ?_⟩
        rwa [h.isSubtype_eq hs hs' (hs.dynamicId_lt hgot)]
  | _ => exact hv

end Stable

/-! ## The runtime test decides inhabitance -/

section Decides

variable {s : Store} {inst : ℕ} {d : InstanceData} {v : Value}

/-- The search for a definition that succeeds has followed a chain of re-exports. -/
theorem Inv.exists_reexports (hs : s.Inv) {n e fe : ℕ} {r : ℕ × ℕ}
    (h : definingFuncFrom s.code n e fe = some r) :
    ∃ fd data, Reexports s.code e fe r.1 fd ∧ s.code[r.1]? = some data ∧
      definedFuncType data.module fd = some r.2 := by
  induction n generalizing e fe with
  | zero => exact absurd h (by simp [definingFuncFrom])
  | succ n ih =>
    simp only [definingFuncFrom] at h
    cases hd : s.code[e]? with
    | none => simp [hd] at h
    | some d =>
      simp only [hd] at h
      cases ht : definedFuncType d.module fe with
      | some ti =>
        simp only [ht, Option.some.injEq] at h
        subst h
        exact ⟨fe, d, .refl _ _, hd, ht⟩
      | none =>
        simp only [ht] at h
        cases hi : d.imports[fe]? with
        | none => simp [hi] at h
        | some target =>
          cases target with
          | host k => simp [hi] at h
          | wasm e' fe' =>
            simp only [hi] at h
            obtain ⟨fd, data, hchain, hdata, hti⟩ := ih h
            have himport := (hs.linked hd).imports_length ▸ (List.getElem?_eq_some_iff.mp hi).1
            exact ⟨fd, data, .step hd himport hi hchain, hdata, hti⟩

/-- Types of two instances match when their ids do. -/
theorem Inv.typeMatches_iff (hs : s.Inv) (hd : s.code[inst]? = some d) {owner ti t got want : ℕ}
    (exact : Bool) (hgot : Wasmrt.typeIdIn s.code owner ti = some got)
    (hwant : d.typeIds[t]? = some want) :
    typeMatches d.module.toTypeSection s.pools.types inst owner ti t exact (some got) (some want) =
      true ↔ if exact then got = want else s.pools.types.isSubtype got want = true := by
  rw [hs.typeMatches_eq hd exact hgot hwant]
  cases exact <;> simp

/-- The test of a function reference against a concrete target compares its dynamic id. -/
theorem Inv.funcMatchesTarget_iff (hs : s.Inv) (hd : s.code[inst]? = some d) {heap : HeapType}
    {t want : ℕ} {exact : Bool} (htarget : concreteTarget heap = some (t, exact))
    (hwant : d.typeIds[t]? = some want) :
    funcMatchesTarget d.module.toTypeSection s.code s.pools inst v heap = true ↔
      ∃ got, s.dynamicId .func v = some got ∧
        if exact then got = want else s.pools.types.isSubtype got want = true := by
  have hwant' : Wasmrt.typeIdIn s.code inst t = some want := by simp [Wasmrt.typeIdIn, hd, hwant]
  simp only [funcMatchesTarget, htarget, dynamicId, hwant']
  cases hdef : definingFunc s.code (funcrefInstance v) (funcrefIndex v) with
  | none => simp
  | some p =>
    obtain ⟨fd, data, -, hdata, hti⟩ := hs.exists_reexports hdef
    obtain ⟨ft, got, -, hgot⟩ := hs.exists_typeId hdata hti
    have hgot : Wasmrt.typeIdIn s.code p.1 p.2 = some got := by simp [Wasmrt.typeIdIn, hdata, hgot]
    simp only [hgot, Option.bind_some, Option.some.injEq, exists_eq_left']
    exact hs.typeMatches_iff hd exact hgot hwant

/-- So does the test of an object, provided its type is registered. -/
theorem Inv.anyMatches_iff (hs : s.Inv) (hd : s.code[inst]? = some d) {heap : HeapType}
    {t want : ℕ} {exact : Bool} (htarget : concreteTarget heap = some (t, exact))
    (hwant : d.typeIds[t]? = some want) {head : RefHeap} (hhead : head ≠ .any) {kind : CompKind}
    (hkind : kind ≠ .func)
    (hobj : ∀ o, s.pools.gcHeap[v.toNat]? = some o →
      ∃ c, Wasmrt.typeIdIn s.code o.owner o.typeIndex = some c) :
    anyMatches d.module.toTypeSection s.code s.pools inst v head heap = true ↔
      ∃ got, s.dynamicId kind v = some got ∧
        if exact then got = want else s.pools.types.isSubtype got want = true := by
  have hwant' : Wasmrt.typeIdIn s.code inst t = some want := by simp [Wasmrt.typeIdIn, hd, hwant]
  have hdyn : s.dynamicId kind v =
      if v &&& hostTag = 0 ∧ v &&& externTag = 0 ∧ v &&& i31Tag = 0 then
        (s.pools.gcHeap[v.toNat]?).bind fun o => Wasmrt.typeIdIn s.code o.owner o.typeIndex
      else none := by
    cases kind <;> first | rfl | exact absurd rfl hkind
  have hi31 : headMatches d.module.toTypeSection .i31 none heap = false := by
    cases heap <;> first | rfl | cases htarget
  by_cases htags : v &&& hostTag = 0 ∧ v &&& externTag = 0 ∧ v &&& i31Tag = 0
  · rw [hdyn, if_pos htags, anyMatches, if_neg (not_not.mpr htags.1), if_neg (not_not.mpr htags.2.1),
      if_neg (not_not.mpr htags.2.2)]
    cases ho : s.pools.gcHeap[v.toNat]? with
    | none => simp
    | some o =>
      obtain ⟨got, hgot⟩ := hobj o ho
      obtain ⟨owner, howner, hid⟩ := Option.bind_eq_some_iff.mp hgot
      have hlt : o.typeIndex < owner.module.compTypes.length :=
        (hs.linked howner).registered.length_eq ▸ (List.getElem?_eq_some_iff.mp hid).1
      have hct := List.getElem?_eq_getElem hlt
      simp only [howner, htarget, hct, Option.bind_some, hid, hwant', hgot, Option.some.injEq,
        exists_eq_left']
      exact hs.typeMatches_iff hd exact hgot hwant
  · rw [hdyn, if_neg htags]
    refine iff_of_false ?_ (by simp)
    unfold anyMatches
    split_ifs with hhost hextern hi
    · simpa using hhead
    · simp
    · simp [hi31]
    · exact absurd ⟨not_not.mp hhost, not_not.mp hextern, not_not.mp hi⟩ htags

/-- The type a concrete reference type of an instance names has a store-wide id. -/
theorem Inv.exists_id_of_kindIn (hs : s.Inv) (hd : s.code[inst]? = some d) {n e : Bool} {k : CompKind}
    {i : Fin (2 ^ 27)}
    (hty : (ValType.concrete n e k i).KindIn (d.module.compTypes.map CompType.kind)) :
    ∃ want, d.typeIds[(i : ℕ)]? = some want := by
  have hkind : (d.module.compTypes.map CompType.kind)[(i : ℕ)]? = some k := hty
  rw [List.getElem?_map, Option.map_eq_some_iff] at hkind
  obtain ⟨ct, hct, -⟩ := hkind
  exact (hs.linked hd).registered.exists_id (List.getElem?_eq_some_iff.mp hct).1

/-- A non-null reference passes the test against a concrete type when the type it was created with is
below, or is, that type. -/
theorem Inv.refMatches_concrete_iff (hs : s.Inv) (hd : s.code[inst]? = some d) {n e : Bool}
    {k : CompKind} {i : Fin (2 ^ 27)} {want : ℕ}
    (hty : (ValType.concrete n e k i).KindIn (d.module.compTypes.map CompType.kind))
    (hwant : d.typeIds[(i : ℕ)]? = some want) (hv : v ≠ nullRef)
    (hobj : k ≠ .func → ∀ o, s.pools.gcHeap[v.toNat]? = some o →
      ∃ c, Wasmrt.typeIdIn s.code o.owner o.typeIndex = some c) :
    refMatches d.module.toTypeSection s.code s.pools inst v (ValType.concrete n e k i).refType = true ↔
      ∃ got, s.dynamicId k v = some got ∧
        if e then got = want else s.pools.types.isSubtype got want = true := by
  have hkind : (d.module.compTypes.map CompType.kind)[(i : ℕ)]? = some k := hty
  rw [List.getElem?_map, Option.map_eq_some_iff] at hkind
  obtain ⟨ct, hct, rfl⟩ := hkind
  have htarget : concreteTarget (ValType.concrete n e ct.kind i).refType.heap = some ((i : ℕ), e) := by
    cases e <;> rfl
  have hhead : d.module.refHead (ValType.concrete n e ct.kind i).refType.heap = some ct.kind.head := by
    cases e <;> simp [ValType.refType, TypeSection.refHead, hct]
  rw [refMatches, if_neg hv, hhead]
  cases ct with
  | func _ => exact hs.funcMatchesTarget_iff hd htarget hwant
  | struct _ =>
    exact hs.anyMatches_iff hd htarget hwant (show RefHeap.struct ≠ .any by decide)
      (show CompKind.struct ≠ .func by decide) (hobj (by simp [CompType.kind]))
  | array _ =>
    exact hs.anyMatches_iff hd htarget hwant (show RefHeap.array ≠ .any by decide)
      (show CompKind.array ≠ .func by decide) (hobj (by simp [CompType.kind]))

/-- For a reference that is no host function, and whose object, if it is one, has a registered type,
the runtime test decides whether it inhabits a type of the section. -/
theorem Inv.refMatches_iff_inhabits (hs : s.Inv) (hd : s.code[inst]? = some d) {ty : ValType}
    (hty : ty.KindIn (d.module.compTypes.map CompType.kind)) (href : ty.isRef = true)
    (hhost : ¬ s.RefersToHost v)
    (hobj : ∀ o, s.pools.gcHeap[v.toNat]? = some o →
      ∃ c, Wasmrt.typeIdIn s.code o.owner o.typeIndex = some c) :
    refMatches d.module.toTypeSection s.code s.pools inst v ty.refType = true ↔
      s.Inhabits inst v ty := by
  cases ty with
  | ref hp n => rw [Inhabits, refMatches_abstract (concreteTarget_heapType hp)]; rfl
  | concrete n e k i =>
    by_cases hv : v = nullRef
    · simp [Inhabits, refMatches, ValType.refType, hv]
    obtain ⟨want, hwant⟩ := hs.exists_id_of_kindIn hd hty
    have hwant' : Wasmrt.typeIdIn s.code inst i = some want := by simp [Wasmrt.typeIdIn, hd, hwant]
    rw [hs.refMatches_concrete_iff hd hty hwant hv fun _ => hobj]
    simp [Inhabits, hv, hhost, hwant']
  | _ => cases href

end Decides

/-! ## Steps of typed writes -/

/-- Every entry that a step of instance `w` puts into a table of some instance inhabits the element type
that `w` itself declares for the table. -/
def TypedWrites (s s' : Store) (w : ℕ) : Prop :=
  ∀ ⦃a k : ℕ⦄ ⦃da : InstanceData⦄ ⦃tt : TableType⦄ ⦃t' : Table⦄ ⦃v : Value⦄,
    s'.code[a]? = some da → da.module.tables[k]? = some tt →
      s'.pools.tables[da.maps.table k]? = some t' → v ∈ t'.entries →
        (∃ t, s.pools.tables[da.maps.table k]? = some t ∧ v ∈ t.entries) ∨
          ∃ dw l ttw, s'.code[w]? = some dw ∧ dw.module.tables[l]? = some ttw ∧
            dw.maps.table l = da.maps.table k ∧ s'.Inhabits w v ttw.element

/-- Every table import of `m` names a table its exporter has, and keeps the index of a concrete element
type. -/
def TableImportsKept (s : Store) (m : Module) (imports : Imports) : Prop :=
  ∀ ⦃k : ℕ⦄ ⦃it : ExternImport⦄ ⦃declared : TableType⦄, imports.tables[k]? = some it →
    m.tables[k]? = some declared → ∃ e de tt, s.slot it.inst = some e ∧ s.code[e]? = some de ∧
      de.module.tables[it.index]? = some tt ∧
        IndexKept de.typeIds tt.element (s.pools.types.assign m.toTypeSection).2 declared.element

/-- A step that writes what it declares, and lets a module join only if its table imports keep their
indices. -/
inductive LinkedStep : Store → Store → Prop
  | instantiate {s : Store} (m : Module) (imports : Imports) (hm : m.toTypeSection.WellFormed)
    (hkept : s.TableImportsKept m imports)
    (hwrites : s.TypedWrites (instantiate m imports s).state s.code.length) :
    LinkedStep s (instantiate m imports s).state
  | run {s s' : Store} {w : ℕ} (h : Step s s') (hcode : s'.code = s.code)
    (hwrites : s.TypedWrites s' w) : LinkedStep s s'

/-- A store some run of such steps reaches. -/
def LinkedReachable (s : Store) : Prop :=
  ∃ id limits, Relation.ReflTransGen LinkedStep (new id limits) s

/-- Some instance has the table in a slot, under a store-wide element type. -/
def HasTable (s : Store) (slot : ℕ) (ty : ValShape (Option ℕ)) : Prop :=
  ∃ (i : ℕ) (d : InstanceData) (k : ℕ) (tt : TableType), s.code[i]? = some d ∧
    d.module.tables[k]? = some tt ∧ d.maps.table k = slot ∧ tt.element.storeType d.typeIds = ty

/-- Instances that share a table declare one store-wide element type for it. -/
def SharedTables (s : Store) : Prop :=
  ∀ ⦃slot : ℕ⦄ ⦃ty ty' : ValShape (Option ℕ)⦄, s.HasTable slot ty → s.HasTable slot ty' → ty = ty'

/-- Every entry of a table inhabits the element type under every instance that has the table. -/
def EntriesInhabit (s : Store) : Prop :=
  ∀ ⦃a k : ℕ⦄ ⦃da : InstanceData⦄ ⦃tt : TableType⦄ ⦃t : Table⦄ ⦃v : Value⦄, s.code[a]? = some da →
    da.module.tables[k]? = some tt → s.pools.tables[da.maps.table k]? = some t → v ∈ t.entries →
      s.Inhabits a v tt.element

section Linked

variable {s s' : Store}

theorem LinkedStep.step (h : LinkedStep s s') : Step s s' := by
  cases h with
  | instantiate m imports hm _ _ => exact .instantiate m imports hm
  | run h _ _ => exact h

theorem LinkedStep.exists_writes (h : LinkedStep s s') : ∃ w, s.TypedWrites s' w := by
  cases h with
  | instantiate _ _ _ _ hwrites => exact ⟨_, hwrites⟩
  | run _ _ hwrites => exact ⟨_, hwrites⟩

/-- Where a table of an instance comes from: some instance had it before, under one store-wide element
type, or the step allocated it for the instance it added. -/
theorem LinkedStep.table_origin (h : LinkedStep s s') (htables : s.TablesLinked) {a k : ℕ}
    {da : InstanceData} {tt : TableType} (hda : s'.code[a]? = some da)
    (htt : da.module.tables[k]? = some tt) :
    s.HasTable (da.maps.table k) (tt.element.storeType da.typeIds) ∨
      a = s.code.length ∧ s.pools.tables.length ≤ da.maps.table k := by
  have hold : s.code[a]? = some da →
      s.HasTable (da.maps.table k) (tt.element.storeType da.typeIds) :=
    fun hda => ⟨a, da, k, tt, hda, htt, rfl, rfl⟩
  cases h with
  | run _ hcode _ => exact .inl (hold (hcode ▸ hda))
  | instantiate m imports hm hkept _ =>
    rcases instantiate_state m imports s with ⟨hcode, -⟩ | hcommit
    · exact .inl (hold (hcode ▸ hda))
    rcases hcommit.code_cases hda with hda | ⟨rfl, parts, targets, hparts, rfl, -⟩
    · exact .inl (hold hda)
    rcases hparts.table_cases targets htt with ⟨it, hit, hres⟩ | ⟨j, fill, -, hslot⟩
    · -- an imported table: the exporter had it, and the import kept the index
      obtain ⟨e, de, tte, hslot, hde, htte, hindex⟩ := hkept hit htt
      obtain ⟨t, _, ht, ⟨⟩, -, helem⟩ := resolveTable_ok hres
      have hmap : (s.newInstance m parts targets).maps.table k = de.maps.table it.index := by
        simp only [resolveTable, Except.bind_eq_ok, Except.pure_eq_ok] at hres
        obtain ⟨_, -, _, -, _, -, hres⟩ := hres
        have hslot' : (s.joined s.pools m.toTypeSection).slot it.inst = some e := hslot
        rw [← hres, hslot']
        simp [hde]
      obtain ⟨t', ht', helem'⟩ := htables hde htte
      rw [← hmap] at ht'
      obtain rfl := Option.some.inj (ht.symm.trans ht')
      refine .inl ⟨e, de, it.index, tte, hde, htte, hmap.symm, ?_⟩
      have hids : (s.newInstance m parts targets).typeIds =
          (s.pools.types.assign m.toTypeSection).2 := hparts.typeIds
      rw [hids]
      exact (eq_iff_storeType_eq_iff.mpr hindex).mp (helem'.symm.trans helem)
    · exact .inr ⟨rfl, hslot ▸ Nat.le_add_right _ _⟩

/-- A linked step keeps shared tables at one element type. -/
theorem LinkedStep.sharedTables (h : LinkedStep s s') (htables : s.TablesLinked)
    (hs : s.SharedTables) : s'.SharedTables := by
  rintro slot _ _ ⟨a, da, k, ta, hda, hta, hslot, rfl⟩ ⟨b, db, l, tb, hdb, htb, hslot', rfl⟩
  have hbelow : ∀ {ty}, s.HasTable slot ty → slot < s.pools.tables.length := by
    rintro _ ⟨e, de, l, te, hde, hte, rfl, -⟩
    obtain ⟨t, ht, -⟩ := htables hde hte
    exact (List.getElem?_eq_some_iff.mp ht).1
  have horigin := h.table_origin htables hda hta
  have horigin' := h.table_origin htables hdb htb
  rw [hslot] at horigin
  rw [hslot'] at horigin'
  rcases horigin with hold | ⟨rfl, hge⟩ <;> rcases horigin' with hold' | ⟨rfl, hge'⟩
  · exact hs hold hold'
  · have := hbelow hold
    omega
  · have := hbelow hold'
    omega
  · -- both are tables of the new instance in one slot
    obtain rfl := Option.some.inj (hda.symm.trans hdb)
    have htables' := h.step.tablesLinked htables
    obtain ⟨t, ht, helem⟩ := htables' hda hta
    obtain ⟨t', ht', helem'⟩ := htables' hda htb
    rw [hslot] at ht
    rw [hslot'] at ht'
    obtain rfl := Option.some.inj (ht.symm.trans ht')
    rw [← helem, helem']

/-- A linked step keeps entries in the element types of their tables. -/
theorem LinkedStep.entriesInhabit (h : LinkedStep s s') (hinv : s.Inv) (hinv' : s'.Inv)
    (htables : s.TablesLinked) (hshared : s'.SharedTables) (hs : s.EntriesInhabit) :
    s'.EntriesInhabit := by
  intro a k da tt t' v hda htt ht' hv
  have htables' := h.step.tablesLinked htables
  -- one store-wide type and one element in the table make one declared type
  have hmove : ∀ {b l : ℕ} {db : InstanceData} {tb : TableType}, s'.code[b]? = some db →
      db.module.tables[l]? = some tb → db.maps.table l = da.maps.table k →
        s'.Inhabits b v tb.element → s'.Inhabits a v tt.element := by
    intro b l db tb hdb htb hmap hin
    obtain ⟨t₁, ht₁, helem₁⟩ := htables' hda htt
    obtain ⟨t₂, ht₂, helem₂⟩ := htables' hdb htb
    rw [hmap] at ht₂
    obtain rfl := Option.some.inj (ht₁.symm.trans ht₂)
    have hsame : tb.element = tt.element := helem₂.symm.trans helem₁
    have htype := hshared ⟨b, db, l, tb, hdb, htb, hmap, rfl⟩ ⟨a, da, k, tt, hda, htt, rfl, rfl⟩
    rw [hsame] at hin htype
    exact (inhabits_congr hdb hda htype).mp hin
  obtain ⟨w, hwrites⟩ := h.exists_writes
  rcases hwrites hda htt ht' hv with ⟨t, ht, hv⟩ | ⟨dw, l, tw, hdw, htw, hmap, hin⟩
  · rcases h.table_origin htables hda htt with ⟨e, de, l, te, hde, hte, hmap, -⟩ | ⟨-, hge⟩
    · rw [← hmap] at ht
      exact hmove (h.step.extends.getElem?_code hde) hte hmap
        (h.step.inhabits hinv hinv' (hs hde hte ht hv))
    · have := (List.getElem?_eq_some_iff.mp ht).1
      omega
  · exact hmove hdw htw hmap hin

/-! ## Runs -/

theorem LinkedReachable.reachable (h : s.LinkedReachable) : s.Reachable := by
  obtain ⟨id, limits, hrun⟩ := h
  exact ⟨id, limits, Relation.ReflTransGen.mono (fun _ _ hstep => hstep.step) _ _ hrun⟩

/-- Along a linked run every table has one element type, which its entries inhabit. -/
theorem LinkedReachable.entriesInhabit (h : s.LinkedReachable)
    (hroom : s.pools.types.next < u32Max) : s.SharedTables ∧ s.EntriesInhabit := by
  obtain ⟨id, limits, hrun⟩ := h
  induction hrun with
  | refl =>
    refine ⟨?_, ?_⟩
    · rintro slot _ _ ⟨a, da, k, ta, hda, -⟩
      simp [new] at hda
    · intro a k da tt t v hda
      simp [new] at hda
  | @tail s s' hrun hstep ih =>
    have hreach : s.Reachable := LinkedReachable.reachable ⟨id, limits, hrun⟩
    have hreach' : s'.Reachable := LinkedReachable.reachable ⟨id, limits, hrun.tail hstep⟩
    have hle := hstep.step.next_le hreach.next_le
    obtain ⟨hshared, hentries⟩ := ih (by omega)
    have hshared' := hstep.sharedTables hreach.tablesLinked hshared
    exact ⟨hshared', hstep.entriesInhabit (hreach.inv (by omega)) (hreach'.inv hroom)
      hreach.tablesLinked hshared' hentries⟩

end Linked

/-- Growing a table by an inhabitant of its element type is a typed write. -/
theorem typedWrites_tableGrow {s : Store} {inst k : ℕ} {d : InstanceData} {tt : TableType}
    {operand init v : Value} {p : Pools} (hd : s.code[inst]? = some d)
    (htt : d.module.tables[k]? = some tt)
    (h : s.pools.tableGrow (d.maps.table k) operand init = .ok (v, p))
    (hinit : ({ s with pools := p } : Store).Inhabits inst init tt.element) :
    s.TypedWrites { s with pools := p } inst := by
  intro a l da tta t' w hda _ ht' hw
  rcases Pools.tableGrow_cases h with rfl | ⟨t, newLen, ht, -, rfl⟩
  · exact .inl ⟨t', ht', hw⟩
  by_cases hslot : d.maps.table k = da.maps.table l
  · have hlt := (List.getElem?_eq_some_iff.mp ht).1
    rw [← hslot] at ht' ⊢
    simp only [List.getElem?_set_self hlt, Option.some.injEq] at ht'
    subst ht'
    -- an entry of the grown table is an old one or the initial value
    rcases List.mem_append.mp hw with hw | hw
    · exact .inl ⟨t, ht, List.mem_of_mem_take hw⟩
    · obtain rfl := (List.mem_replicate.mp hw).2
      exact .inr ⟨d, k, tt, hd, htt, rfl, hinit⟩
  · exact .inl ⟨t', by simpa [List.getElem?_set, hslot] using ht', hw⟩

end Store

/-! ## The law of table imports -/

/-- In a reachable store a table import is matched on limits, index type and store-wide element type
exactly when a concrete element type keeps its index. In a run whose table imports all do, and whose
writes are of the declared element types, every entry of a table inhabits the element type under every
instance that has the table. -/
theorem tableImports_agree_iff {s : Store} (hs : s.Reachable)
    (hroom : s.pools.types.next < u32Max) :
    (∀ (ts : TypeSection) (e k : ℕ) (de : InstanceData) (tt declared : TableType) (t : Table),
        s.code[e]? = some de → de.module.tables[k]? = some tt →
        s.pools.tables[de.maps.table k]? = some t →
          (((∃ slot, resolveTable (s.joined s.pools ts) ⟨⟨s.id, e⟩, k⟩ (some declared) = .ok slot) ↔
              TableLimitsMatch t declared ∧
                tt.element.storeType de.typeIds =
                  declared.element.storeType (s.pools.types.assign ts).2) ↔
            (TableLimitsMatch t declared →
              IndexKept de.typeIds tt.element (s.pools.types.assign ts).2 declared.element))) ∧
      (s.LinkedReachable → s.EntriesInhabit) :=
  ⟨fun _ _ _ _ _ _ _ hde htt ht => hs.tablesLinked.resolveTable_agrees_iff hde htt ht,
    fun h => (h.entriesInhabit hroom).2⟩

/-! ## Two modules that count differently -/

/-- A module whose type 0 is the empty struct, with a table of references to it. -/
def emptyStructTable : Module :=
  { oneStruct with
    tables := [{
      element := .concreteRef true .struct 0, limits := { min := 1, max := none } }] }

/-- Type 0 of another module is a struct with a number. -/
def numberStruct : TypeSection :=
  decoded [[⟨true, none, {}, .struct [⟨.val .i32, false⟩]⟩]]

theorem wellFormed_numberStruct : numberStruct.WellFormed :=
  wellFormed_of_decode [[⟨true, none, {}, .struct [⟨.val .i32, false⟩]⟩]] (by decide)
    (by decide) rfl rfl rfl

/-- A module that imports a table of references to it. -/
def numberStructImporter : Module :=
  { numberStruct with
    imports := [{
      module := "m", name := "t"
      ty := .table { element := .concreteRef true .struct 0, limits := { min := 1, max := none } } }]
    tables := [{
      element := .concreteRef true .struct 0, limits := { min := 1, max := none } }] }

/-- A store with an instance of the first module. -/
def emptyStructTableStore : Store :=
  (Store.instantiate emptyStructTable {} (Store.new 0 .defaults)).state

theorem reachable_emptyStructTableStore : emptyStructTableStore.Reachable :=
  ⟨0, .defaults, .single (.instantiate _ _ wellFormed_oneStruct)⟩

/-- The table links to the import, although the element types are different structs. -/
theorem tableImport_links_other_type :
    emptyStructTableStore.Reachable ∧ ∃ s',
      Store.instantiate numberStructImporter { tables := [⟨⟨0, 0⟩, 0⟩] } emptyStructTableStore =
          .ok ⟨0, 1⟩ s' ∧
        (s'.code.map fun d => (d.maps.table 0, d.module.tables.map (·.element.storeType d.typeIds))) =
          [(0, [.concrete false false (some 0)]), (0, [.concrete false false (some 1)])] :=
  ⟨reachable_emptyStructTableStore, _, rfl, by decide⟩

/-- The law in that store. -/
theorem emptyStructTable_imports_agree_iff :
    (∀ (ts : TypeSection) (e k : ℕ) (de : InstanceData) (tt declared : TableType) (t : Table),
        emptyStructTableStore.code[e]? = some de → de.module.tables[k]? = some tt →
        emptyStructTableStore.pools.tables[de.maps.table k]? = some t →
          (((∃ slot, resolveTable (emptyStructTableStore.joined emptyStructTableStore.pools ts)
                ⟨⟨emptyStructTableStore.id, e⟩, k⟩ (some declared) = .ok slot) ↔
              TableLimitsMatch t declared ∧
                tt.element.storeType de.typeIds =
                  declared.element.storeType (emptyStructTableStore.pools.types.assign ts).2) ↔
            (TableLimitsMatch t declared →
              IndexKept de.typeIds tt.element (emptyStructTableStore.pools.types.assign ts).2
                declared.element))) ∧
      (emptyStructTableStore.LinkedReachable → emptyStructTableStore.EntriesInhabit) :=
  tableImports_agree_iff reachable_emptyStructTableStore (by decide)

end Wasmrt
