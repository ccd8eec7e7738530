import Wasmrt.Store.Step

/-!
# Reachable stores

A store starts empty and changes by steps. As long as the registry's counter of ids stays below its
ceiling, every instance has the ids of its types registered, and function imports point to instances
that joined before the importer. So the chain of re-exports of a function ends, at the instance that
defines it or at a host function.

## Main definitions

* `Store.new`, `Store.Reachable`: the stores a run can reach.
* `Store.InstanceLinked`, `Store.Inv`: what holds of their instances, and of them.
* `Reexports`: a chain of instances that import a function and export it again.

## Main results

* `Store.Run.inv`: a run keeps the invariant.
* `Reexports.definingFunc_eq`: the source's bounded search finds the end of every chain.
-/

namespace Wasmrt

open TypeRegistry

namespace Store

/-- A store with no instances. -/
def new (id : ℕ) (limits : ResourceLimits) : Store := { id, pools := { limits } }

/-- A store some run reaches. -/
def Reachable (s : Store) : Prop := ∃ id limits, Run (new id limits) s

/-- What holds of the instance that joined in place `i`: its types are registered, it has a target for
every function import, in an earlier instance if in any, and every function it defines has a
signature. -/
structure InstanceLinked (reg : TypeRegistry) (i : ℕ) (d : InstanceData) : Prop where
  wellFormed : d.module.toTypeSection.WellFormed
  registered : Registered reg d.module.toTypeSection d.typeIds
  imports_length : d.imports.length = d.module.importedFuncCount
  import_lt : ∀ {fi inst func : ℕ}, d.imports[fi]? = some (.wasm inst func) → inst < i
  exists_funcSig : ∀ {ti : ℕ}, ti ∈ d.module.functions → ∃ ft, d.module.funcSig ti = some ft

/-- The registry is in order and every instance is linked. -/
structure Inv (s : Store) : Prop where
  registry : s.pools.types.Inv
  linked : ∀ {i : ℕ} {d : InstanceData}, s.code[i]? = some d → InstanceLinked s.pools.types i d

theorem inv_new (id : ℕ) (limits : ResourceLimits) : (new id limits).Inv where
  registry := inv_empty
  linked := by simp [new]

/-! ## The counter of ids -/

/-- A step changes the registry only by letting a module join. -/
theorem Step.types {s s' : Store} (h : Step s s') : s'.pools.types = s.pools.types ∨
    ∃ ts : TypeSection, ts.WellFormed ∧ s'.pools.types = (s.pools.types.assign ts).1 := by
  cases h with
  | instantiate m imports hm =>
    rcases instantiate_state m imports s with ⟨-, heq | heq⟩ | hcommit
    · exact .inl heq
    · exact .inr ⟨_, hm, heq⟩
    · obtain ⟨parts, p, targets, -, hheap, -, -, hrw⟩ := hcommit.exists_parts
      exact .inr ⟨_, hm, hrw.types.trans hheap.types_eq⟩
  | memoryGrow _ h =>
    rcases Pools.memoryGrow_cases h with rfl | ⟨_, _, _, _, rfl⟩
    · exact .inl rfl
    · exact .inl rfl
  | tableGrow _ h =>
    rcases Pools.tableGrow_cases h with rfl | ⟨_, _, _, _, rfl⟩
    · exact .inl rfl
    · exact .inl rfl
  | rewrite h => exact .inl h.types

/-- The counter never falls, and never passes its ceiling. -/
theorem Step.next_le {s s' : Store} (h : Step s s') (hmax : s.pools.types.next ≤ u32Max) :
    s.pools.types.next ≤ s'.pools.types.next ∧ s'.pools.types.next ≤ u32Max := by
  rcases h.types with heq | ⟨ts, -, heq⟩
  · rw [heq]
    exact ⟨le_rfl, hmax⟩
  · rw [heq]
    exact next_le_assign hmax ts

theorem Run.next_le {s s' : Store} (h : Run s s') (hmax : s.pools.types.next ≤ u32Max) :
    s.pools.types.next ≤ s'.pools.types.next ∧ s'.pools.types.next ≤ u32Max := by
  induction h with
  | refl => exact ⟨le_rfl, hmax⟩
  | tail _ hstep ih =>
    have hstep := hstep.next_le ih.2
    exact ⟨ih.1.trans hstep.1, hstep.2⟩

/-! ## The invariant -/

/-- A wasm target names an instance of the store. -/
theorem bindTargets_lt {s : Store} {next : ℕ} {fs : List ImportedFunc} {targets : List FuncTarget}
    (h : bindTargets s next fs = .ok targets) {fi inst func : ℕ}
    (hfi : targets[fi]? = some (.wasm inst func)) : inst < s.code.length := by
  induction fs generalizing next targets fi with
  | nil =>
    obtain rfl := Except.pure_eq_ok.mp h
    simp at hfi
  | cons f fs ih =>
    cases f with
    | host =>
      simp only [bindTargets, Except.bind_eq_ok, Except.pure_eq_ok] at h
      obtain ⟨rest, hrest, rfl⟩ := h
      cases fi with
      | zero => simp at hfi
      | succ fi => exact ih hrest (by simpa using hfi)
    | wasm id g =>
      simp only [bindTargets, Except.bind_eq_ok, orError_eq_ok, Except.pure_eq_ok] at h
      obtain ⟨exporter, hslot, rest, hrest, rfl⟩ := h
      cases fi with
      | zero =>
        simp only [slot, Option.ite_none_right_eq_some, Option.some.injEq] at hslot
        simp only [List.getElem?_cons_zero, Option.some.injEq, FuncTarget.wasm.injEq] at hfi
        omega
      | succ fi => exact ih hrest (by simpa using hfi)

/-- Binding keeps the number of imports. -/
theorem length_bindTargets {s : Store} {next : ℕ} {fs : List ImportedFunc}
    {targets : List FuncTarget} (h : bindTargets s next fs = .ok targets) :
    targets.length = fs.length := by
  induction fs generalizing next targets with
  | nil =>
    obtain rfl := Except.pure_eq_ok.mp h
    rfl
  | cons f fs ih =>
    cases f with
    | host =>
      simp only [bindTargets, Except.bind_eq_ok, Except.pure_eq_ok] at h
      obtain ⟨rest, hrest, rfl⟩ := h
      simp [ih hrest]
    | wasm id g =>
      simp only [bindTargets, Except.bind_eq_ok, orError_eq_ok, Except.pure_eq_ok] at h
      obtain ⟨exporter, -, rest, hrest, rfl⟩ := h
      simp [ih hrest]

/-- Every defined function of a prepared module has a signature. -/
theorem exists_funcSig_of_prepared {s : Store} {m : Module} {imports : Imports} {p : Pools}
    {parts : Parts} (h : Prepared s m imports p parts) {ti : ℕ} (hti : ti ∈ m.functions) :
    ∃ ft, m.funcSig ti = some ft := by
  obtain ⟨k, hk⟩ := List.getElem?_of_mem hti
  obtain ⟨hlt, -⟩ := List.getElem?_eq_some_iff.mp hk
  have hlen := h.functions
  obtain ⟨code, hcode⟩ : ∃ c, m.code[k]? = some c := ⟨_, List.getElem?_eq_getElem (by omega)⟩
  have hzip : (m.functions.zip m.code)[k]? = some (ti, code) :=
    List.getElem?_zip_eq_some.mpr ⟨hk, hcode⟩
  obtain ⟨body, -, hbody⟩ := exists_getElem?_of_forall₂ (mapM_eq_ok.mp h.bodies) hzip
  simp only [prepareBody, Except.bind_eq_ok, orError_eq_ok] at hbody
  obtain ⟨ft, hft, -⟩ := hbody
  exact ⟨ft, hft⟩

/-- The instance a prepared module becomes is linked. -/
theorem InstanceLinked.newInstance {s : Store} {m : Module} {imports : Imports} {parts : Parts}
    {targets : List FuncTarget} (hm : m.toTypeSection.WellFormed)
    (hparts : Prepared s m imports s.pools parts)
    (htargets : bindTargets s s.hostFuncs imports.funcs = .ok targets)
    (hreg : Registered (s.pools.types.assign m.toTypeSection).1 m.toTypeSection
      (s.pools.types.assign m.toTypeSection).2) :
    InstanceLinked (s.pools.types.assign m.toTypeSection).1 s.code.length
      (s.newInstance m parts targets) where
  wellFormed := hm
  registered := by rwa [Store.newInstance, hparts.typeIds]
  imports_length := by
    have hcounts := hparts.counts
    simp only [Imports.countsMatch, Bool.and_eq_true, beq_iff_eq] at hcounts
    exact (length_bindTargets htargets).trans hcounts.1.1.1.1
  import_lt hfi := bindTargets_lt htargets hfi
  exists_funcSig := exists_funcSig_of_prepared hparts

/-- The invariant survives when a module joins the registry below the ceiling. -/
theorem Inv.of_assign {s s' : Store} (h : s.Inv) {ts : TypeSection} (hts : ts.WellFormed)
    (hcode : s'.code = s.code) (htypes : s'.pools.types = (s.pools.types.assign ts).1)
    (hroom : s'.pools.types.next < u32Max) : s'.Inv := by
  rw [htypes] at hroom
  obtain ⟨hinv, -, hold⟩ := assign_inv h.registry hts hroom
  refine ⟨htypes ▸ hinv, fun {i d} hd => ?_⟩
  rw [hcode] at hd
  have hlinked := h.linked hd
  exact { hlinked with registered := htypes ▸ hold _ _ hlinked.wellFormed hlinked.registered }

/-- The store in which a joining module's imports are matched keeps the invariant, and registers the
module. -/
theorem Inv.joined {s : Store} (h : s.Inv) {ts : TypeSection} (hts : ts.WellFormed)
    (hroom : (s.pools.types.assign ts).1.next < u32Max) :
    (s.joined s.pools ts).Inv ∧
      Registered (s.joined s.pools ts).pools.types ts (s.pools.types.assign ts).2 :=
  ⟨h.of_assign hts rfl rfl hroom, (assign_inv h.registry hts hroom).2.1⟩

theorem Inv.of_committed {s s' : Store} (h : s.Inv) {m : Module} {imports : Imports}
    (hm : m.toTypeSection.WellFormed) (hcommit : Committed s m imports s')
    (hroom : s'.pools.types.next < u32Max) : s'.Inv := by
  obtain ⟨parts, p, targets, hparts, hheap, htargets, hcode, hrw⟩ := hcommit.exists_parts
  have htypes : s'.pools.types = (s.pools.types.assign m.toTypeSection).1 :=
    hrw.types.trans hheap.types_eq
  have hold : ({ s' with code := s.code } : Store).Inv := h.of_assign hm rfl htypes hroom
  have hnew := (h.joined hm (htypes ▸ hroom)).2
  refine ⟨hold.registry, fun {i d} hd => ?_⟩
  -- an instance of the new store is an old one or the one that joined
  rw [hcode] at hd
  by_cases hi : i < s.code.length
  · rw [List.getElem?_append_left hi] at hd
    exact hold.linked hd
  · rw [List.getElem?_append_right (by omega)] at hd
    obtain ⟨h0, hd⟩ := List.getElem?_eq_some_iff.mp hd
    rw [List.length_singleton] at h0
    obtain rfl : i = s.code.length := by omega
    obtain rfl : s.newInstance m parts targets = d := by simpa using hd
    exact htypes ▸ .newInstance hm hparts htargets hnew

/-- A step that ends below the ceiling keeps the invariant. -/
theorem Step.inv {s s' : Store} (h : Step s s') (hs : s.Inv)
    (hroom : s'.pools.types.next < u32Max) : s'.Inv := by
  have hsame : ∀ {s' : Store}, s'.code = s.code → s'.pools.types = s.pools.types → s'.Inv := by
    intro s' hcode htypes
    exact ⟨htypes ▸ hs.registry, fun hd => htypes ▸ hs.linked (hcode ▸ hd)⟩
  cases h with
  | instantiate m imports hm =>
    rcases instantiate_state m imports s with ⟨hcode, heq | heq⟩ | hcommit
    · exact hsame hcode heq
    · exact hs.of_assign hm hcode heq hroom
    · exact hs.of_committed hm hcommit hroom
  | memoryGrow _ h =>
    rcases Pools.memoryGrow_cases h with rfl | ⟨_, _, _, _, rfl⟩
    · exact hs
    · exact hsame rfl rfl
  | tableGrow _ h =>
    rcases Pools.tableGrow_cases h with rfl | ⟨_, _, _, _, rfl⟩
    · exact hs
    · exact hsame rfl rfl
  | rewrite h => exact hsame rfl h.types

/-- A run that ends below the ceiling keeps the invariant. -/
theorem Run.inv {s s' : Store} (h : Run s s') (hs : s.Inv)
    (hroom : s'.pools.types.next < u32Max) : s'.Inv := by
  have hmax := hs.registry.next_lt.le
  induction h with
  | refl => exact hs
  | tail hrun hstep ih =>
    have hle := hstep.next_le (Run.next_le hrun hmax).2
    exact hstep.inv (ih (by omega)) hroom

/-- A reachable store below the ceiling is in order. -/
theorem Reachable.inv {s : Store} (h : s.Reachable) (hroom : s.pools.types.next < u32Max) :
    s.Inv := by
  obtain ⟨id, limits, hrun⟩ := h
  exact Run.inv hrun (inv_new id limits) hroom

/-- The counter of a reachable store does not pass its ceiling. -/
theorem Reachable.next_le {s : Store} (h : s.Reachable) : s.pools.types.next ≤ u32Max := by
  obtain ⟨id, limits, hrun⟩ := h
  exact (Run.next_le hrun inv_empty.next_lt.le).2

/-- Nor does it fall when another module joins. -/
theorem Reachable.next_le_assign {s : Store} (h : s.Reachable) (ts : TypeSection) :
    s.pools.types.next ≤ (s.pools.types.assign ts).1.next :=
  (TypeRegistry.next_le_assign h.next_le ts).1

end Store

/-! ## Chains of re-exports -/

/-- `Reexports code e fe d fd`: function `fe` of instance `e` is function `fd` of instance `d`,
imported and exported again by each instance in between. -/
inductive Reexports (code : List InstanceData) : ℕ → ℕ → ℕ → ℕ → Prop
  | refl (inst fi : ℕ) : Reexports code inst fi inst fi
  | step {inst fi inst' fi' d fd : ℕ} {data : InstanceData} (hdata : code[inst]? = some data)
    (himport : fi < data.module.importedFuncCount)
    (htarget : data.imports[fi]? = some (.wasm inst' fi'))
    (hrest : Reexports code inst' fi' d fd) : Reexports code inst fi d fd

/-- The search finds the end of every chain of re-exports: a chain passes through instances of falling
index, so the bound of the search is never met. -/
theorem Reexports.definingFunc_eq {s : Store} (hs : s.Inv) {e fe d fd : ℕ}
    (h : Reexports s.code e fe d fd) {data : InstanceData} (hd : s.code[d]? = some data) {ti : ℕ}
    (hti : definedFuncType data.module fd = some ti) :
    definingFunc s.code e fe = some (d, ti) := by
  have hfuel : definingFuncFrom s.code (e + 1) e fe = some (d, ti) := by
    induction h with
    | refl inst fi => simp [definingFuncFrom, hd, hti]
    | @step inst fi inst' fi' d fd mid hmid himport htarget _ ih =>
      have hundef : definedFuncType mid.module fi = none := by simp [definedFuncType, himport]
      simp only [definingFuncFrom, hmid, hundef, htarget]
      exact definingFuncFrom_mono (Nat.succ_le_of_lt ((hs.linked hmid).import_lt htarget)) (ih hd hti)
  have he : e < s.code.length := by
    cases h with
    | refl => exact (List.getElem?_eq_some_iff.mp hd).1
    | step hmid => exact (List.getElem?_eq_some_iff.mp hmid).1
  exact definingFuncFrom_mono (by omega) hfuel

end Wasmrt
