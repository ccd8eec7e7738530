import Wasmrt.Interp.ControlFlow
import Wasmrt.Store.CrossModule
import Wasmrt.Store.Pools

/-!
# Instances and imports

A store holds its instances side by side: the module of each, the store-wide ids of its types, and
maps from its index spaces to pool slots. An import names another instance of the store; matching it
against the importer's declaration is decided here, one kind at a time.

A host function is a closure the model never calls, so the store keeps only their number.

## Main definitions

* `IndexMaps`, `InstanceData`, `Store`: one instance and the group of them.
* `definingFunc`: the instance that defines a function, through any chain of re-exports.
* `Imports`: the backings an embedder hands to `instantiate`.
* `checkFuncImport`, `memoryImportMatches`, `tableImportMatches`: import matching.

## Main results

* `definingFunc_of_defined`, `definingFunc_of_import`: one step of the chain.
-/

namespace Wasmrt

/-- Where one instance's index spaces live in the pools. -/
structure IndexMaps where
  memories : List ℕ := []
  tables : List ℕ := []
  globals : List ℕ := []
  data : List ℕ := []
  elems : List ℕ := []
  tags : List ℕ := []
  deriving DecidableEq, Repr

namespace IndexMaps

/-- Resolve a module-level index to its slot. Out of range is a slot every pool rejects. -/
def get (map : List ℕ) (i : ℕ) : ℕ := map.getD i usizeMax

def mem (maps : IndexMaps) (i : ℕ) : ℕ := get maps.memories i
def table (maps : IndexMaps) (i : ℕ) : ℕ := get maps.tables i

end IndexMaps

/-- What backs an imported function: a host callback, or another instance's function. -/
inductive FuncTarget
  | host (index : ℕ)
  | wasm (inst func : ℕ)
  deriving DecidableEq, Repr

/-- One instance's code and index maps. `imports` has one entry per imported function. -/
structure InstanceData where
  module : Module
  typeIds : List ℕ
  funcBodies : List FuncBody := []
  maps : IndexMaps := {}
  imports : List FuncTarget := []

/-- An instance, named by the store that issued the id. -/
structure InstanceId where
  store : ℕ
  index : ℕ
  deriving DecidableEq, Repr

/-- A group of instances that share resources. -/
structure Store where
  id : ℕ := 0
  code : List InstanceData := []
  hostFuncs : ℕ := 0
  pools : Pools := {}

/-- Resolve an id to a slot of this store; `none` for a foreign or an unknown one. -/
def Store.slot (s : Store) (id : InstanceId) : Option ℕ :=
  if id.store = s.id ∧ id.index < s.code.length then some id.index else none

/-! ## Where a function is defined -/

/-- The type index of a defined function; `none` for an imported one. -/
def definedFuncType (m : Module) (fi : ℕ) : Option ℕ :=
  if fi < m.importedFuncCount then none else m.functions[fi - m.importedFuncCount]?

/-- Follow `fuel` imports from function `fi` of instance `inst` to the instance that defines it. -/
def definingFuncFrom (code : List InstanceData) : ℕ → ℕ → ℕ → Option (ℕ × ℕ)
  | 0, _, _ => none
  | fuel + 1, inst, fi =>
    match code[inst]? with
    | none => none
    | some d =>
      match definedFuncType d.module fi with
      | some ti => some (inst, ti)
      | none =>
        match d.imports[fi]? with
        | some (.wasm inst' fi') => definingFuncFrom code fuel inst' fi'
        | _ => none

/-- The instance that defines a function, and its type index there. `none` for a host function or a
chain that does not resolve. -/
def definingFunc (code : List InstanceData) (inst fi : ℕ) : Option (ℕ × ℕ) :=
  definingFuncFrom code (code.length + 1) inst fi

/-! ## Imports -/

/-- A function import's backing. -/
inductive ImportedFunc
  | host
  | wasm (inst : InstanceId) (func : ℕ)
  deriving DecidableEq, Repr

/-- The backing of a memory, table or tag import: another instance's, by its own index. -/
structure ExternImport where
  inst : InstanceId
  index : ℕ
  deriving DecidableEq, Repr

/-- The backings of a module's imports, each kind in declaration order. `globalSources` is parallel to
`globals` and has no entry for a value the host supplies. -/
structure Imports where
  funcs : List ImportedFunc := []
  globals : List Value := []
  globalSources : List (Option ExternImport) := []
  memories : List ExternImport := []
  tables : List ExternImport := []
  tags : List ExternImport := []
  deriving DecidableEq, Repr

/-- Does a table satisfy a declared import type? Its minimum is its current length; the element types
are compared as they are written. -/
def tableImportMatches (actual : Table) (declared : TableType) : Bool :=
  actual.is64 == declared.limits.is64 && actual.element == declared.element &&
    decide (declared.limits.min ≤ actual.entries.length) &&
    match declared.limits.max with
    | some m => actual.max.any (· ≤ m)
    | none => true

/-- Does a memory satisfy a declared import type? Its minimum is its current size in pages. -/
def memoryImportMatches (actual : Memory) (declared : MemoryType) : Bool :=
  actual.is64 == declared.limits.is64 && actual.shared == declared.limits.shared &&
    actual.pageSizeLog2 == declared.pageSizeLog2 && decide (declared.limits.min ≤ actual.pages) &&
    match declared.limits.max with
    | some m => actual.max.any (· ≤ m)
    | none => true

/-- Match a function backed by another instance against an exact import: the type it was defined with
must be the declared one. -/
def exactFuncMatches (s : Store) (typeIds : List ℕ) (declaredTi : Option ℕ) (exporter func : ℕ) :
    Bool :=
  let want := declaredTi.bind (typeIds[·]?)
  let got := (definingFunc s.code exporter func).bind fun p =>
    (s.code[p.1]?).bind fun d => d.typeIds[p.2]?
  match want, got with
  | some w, some g => w == g
  | _, _ => false

/-- Match a function of exporter `d` against a declared import: by store-wide ids with subtyping when
both sides have one, and by comparing the signatures otherwise. -/
def funcMatches (s : Store) (typeIds : List ℕ) (declared : FuncType) (declaredTi : Option ℕ)
    (d : InstanceData) (func : ℕ) (actual : FuncType) : Bool :=
  match declaredTi.bind (typeIds[·]?), (d.module.funcTypeIndex func).bind (d.typeIds[·]?) with
  | some want, some got => s.pools.types.isSubtype got want
  | _, _ => crossModuleFuncTypesMatch typeIds declared d.typeIds actual

/-- Check one function import of a module whose types have the ids `typeIds` against its backing. -/
def checkFuncImport (s : Store) (typeIds : List ℕ) (declared : FuncType) (declaredTi : Option ℕ)
    (exact : Bool) : ImportedFunc → Except Trap Unit
  | .host => ensure (!exact) .incompatibleImport
  | .wasm inst func => do
    let exporter ← orError .missingImport (s.slot inst)
    if exact then
      ensure (exactFuncMatches s typeIds declaredTi exporter func) .incompatibleImport
    else
      let d ← orError .missingImport s.code[exporter]?
      let actual ← orError .missingImport (d.module.funcType func)
      ensure (funcMatches s typeIds declared declaredTi d func actual) .incompatibleImport

/-! ## The chain of imports -/

section Chain

variable {code : List InstanceData} {inst fi : ℕ} {d : InstanceData}

/-- A defined function defines itself. -/
theorem definingFunc_of_defined {ti : ℕ} (hd : code[inst]? = some d)
    (hti : definedFuncType d.module fi = some ti) : definingFunc code inst fi = some (inst, ti) := by
  simp [definingFunc, definingFuncFrom, hd, hti]

/-- An answer does not change with more fuel. -/
theorem definingFuncFrom_mono {n m : ℕ} {r : ℕ × ℕ} (hnm : n ≤ m)
    (h : definingFuncFrom code n inst fi = some r) : definingFuncFrom code m inst fi = some r := by
  induction n generalizing m inst fi with
  | zero => exact absurd h (by simp [definingFuncFrom])
  | succ n ih =>
    obtain ⟨m, rfl⟩ : ∃ k, m = k + 1 := ⟨m - 1, by omega⟩
    simp only [definingFuncFrom] at h ⊢
    cases hd : code[inst]? with
    | none => simp [hd] at h
    | some d =>
      simp only [hd] at h ⊢
      cases ht : definedFuncType d.module fi with
      | some ti => simpa [ht] using h
      | none =>
        simp only [ht] at h ⊢
        cases hi : d.imports[fi]? with
        | none => simp [hi] at h
        | some target =>
          cases target with
          | host k => simp [hi] at h
          | wasm inst' fi' =>
            simp only [hi] at h ⊢
            exact ih (by omega) h

/-- What a prefix has in a place, the list has there. -/
theorem getElem?_of_prefix {α : Type*} {l l' : List α} (h : l <+: l') {k : ℕ} {a : α}
    (ha : l[k]? = some a) : l'[k]? = some a := by
  obtain ⟨rest, rfl⟩ := h
  rw [List.getElem?_append_left (List.getElem?_eq_some_iff.mp ha).1, ha]

/-- Nor when more instances join. -/
theorem definingFuncFrom_extend {code' : List InstanceData} {n : ℕ} {r : ℕ × ℕ}
    (hcode : code <+: code') (h : definingFuncFrom code n inst fi = some r) :
    definingFuncFrom code' n inst fi = some r := by
  induction n generalizing inst fi with
  | zero => exact absurd h (by simp [definingFuncFrom])
  | succ n ih =>
    simp only [definingFuncFrom] at h ⊢
    cases hd : code[inst]? with
    | none => simp [hd] at h
    | some d =>
      have hd' := getElem?_of_prefix hcode hd
      simp only [hd, hd'] at h ⊢
      cases ht : definedFuncType d.module fi with
      | some ti => simpa [ht] using h
      | none =>
        simp only [ht] at h ⊢
        cases hi : d.imports[fi]? with
        | none => simp [hi] at h
        | some target =>
          cases target with
          | host k => simp [hi] at h
          | wasm inst' fi' =>
            simp only [hi] at h ⊢
            exact ih h

theorem definingFunc_extend {code' : List InstanceData} {r : ℕ × ℕ} (hcode : code <+: code')
    (h : definingFunc code inst fi = some r) : definingFunc code' inst fi = some r :=
  definingFuncFrom_mono (Nat.succ_le_succ hcode.length_le) (definingFuncFrom_extend hcode h)

end Chain

end Wasmrt
