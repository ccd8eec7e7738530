import Wasmrt.Store.CrossModule
import Wasmrt.Store.Instance

/-!
# Resolving imports by name

An embedder knows its imports by name, the engine takes them by position. A linker holds definitions under a module's
and an item's name, and walks the imports of a module in their order.

## Main definitions

* `Linker`: the definitions, over any type `φ` of host functions.
* `Linker.resolve`: the backings of a module's imports, and the host functions among them.
* `Linker.Binds`: an import names a definition of its own kind.

## Main results

* `Linker.exists_resolve_iff`: what can be resolved.
* `Linker.resolve_globals`: a global import gets the value that its name was defined with.
-/

namespace Wasmrt

/-- The kind of an import or an export. -/
inductive ExternKind
  | func | table | memory | global | tag
  deriving DecidableEq, Repr

/-- The kind of a resolved type. -/
def Extern.kind : Extern → ExternKind
  | func _ => .func
  | table _ => .table
  | memory _ => .memory
  | global _ => .global
  | tag _ => .tag

/-! ## Exports -/

namespace Store

/-- The index of an export of some kind, in the instance's own index space. -/
def exportIndex (s : Store) (id : InstanceId) (name : String) (kind : ExternKind) : Option ℕ := do
  let d ← s.code[← s.slot id]?
  d.module.exports.findSome? fun e => if e.name = name ∧ e.ty.kind = kind then some e.index else none

/-- The index of an exported function. -/
def exportFunc (s : Store) (id : InstanceId) (name : String) : Option ℕ := s.exportIndex id name .func

/-- The current value of an exported global. -/
def exportGlobal (s : Store) (id : InstanceId) (name : String) : Option Value := do
  let d ← s.code[← s.slot id]?
  let index ← s.exportIndex id name .global
  s.pools.globals[IndexMaps.get d.maps.globals index]?

/-- The declared type of an exported global. -/
def exportGlobalType (s : Store) (id : InstanceId) (name : String) : Option GlobalType := do
  let d ← s.code[← s.slot id]?
  let index ← s.exportIndex id name .global
  d.module.globals[index]?

/-- Does an exported global satisfy the type an importer declares for it? -/
def globalImportMatches (s : Store) (exporter : InstanceId) (name : String) (importer : Module)
    (declared : GlobalType) : Bool :=
  match s.exportGlobalType exporter name, (s.slot exporter).bind (s.code[·]?) with
  | some actual, some d =>
    actual.mutable == declared.mutable &&
      crossModuleValSubtype s.pools.types d.typeIds actual.content
        (s.pools.types.idsReadonly importer.toTypeSection) declared.content actual.mutable
  | _, _ => false

end Store

/-! ## Backings in their order -/

namespace Imports

def withHostFunc (imports : Imports) : Imports := { imports with funcs := imports.funcs ++ [.host] }

def withInstanceFunc (imports : Imports) (inst : InstanceId) (func : ℕ) : Imports :=
  { imports with funcs := imports.funcs ++ [.wasm inst func] }

def withGlobal (imports : Imports) (v : Value) : Imports :=
  { imports with globals := imports.globals ++ [v], globalSources := imports.globalSources ++ [none] }

def withInstanceGlobal (imports : Imports) (inst : InstanceId) (index : ℕ) (v : Value) : Imports :=
  { imports with
    globals := imports.globals ++ [v]
    globalSources := imports.globalSources ++ [some ⟨inst, index⟩] }

def withInstanceMemory (imports : Imports) (inst : InstanceId) (index : ℕ) : Imports :=
  { imports with memories := imports.memories ++ [⟨inst, index⟩] }

def withInstanceTable (imports : Imports) (inst : InstanceId) (index : ℕ) : Imports :=
  { imports with tables := imports.tables ++ [⟨inst, index⟩] }

def withInstanceTag (imports : Imports) (inst : InstanceId) (index : ℕ) : Imports :=
  { imports with tags := imports.tags ++ [⟨inst, index⟩] }

end Imports

/-! ## The linker -/

/-- Why linking a module failed. -/
inductive LinkError
  | unknownImport (module name : String)
  | kindMismatch (module name : String) (expected : ExternKind)
  | unsupportedImportKind (kind : ExternKind)
  | incompatibleType (module name : String)
  deriving DecidableEq, Repr

namespace Linker

/-- One named definition. A memory or a table is named by the instance that owns it. -/
inductive Def (φ : Type)
  | func (f : φ)
  | global (v : Value)
  | memory (inst : InstanceId) (index : ℕ)
  | table (inst : InstanceId) (index : ℕ)

/-- What stands behind every name of a module: the exports of an instance, or a factory of host functions. -/
inductive Namespace (φ : Type)
  | inst (id : InstanceId)
  | factory (make : String → φ)

end Linker

/-- Definitions by name. A module's namespace is asked for a name that has none of its own, and the fallback for a
function that nothing else defines. -/
structure Linker (φ : Type) where
  defs : List (String × String × Linker.Def φ) := []
  namespaces : List (String × Linker.Namespace φ) := []
  fallback : Option (String → String → φ) := none

namespace Linker

variable {φ : Type}

/-- Define a name anew. -/
def insert (l : Linker φ) (module name : String) (d : Def φ) : Linker φ :=
  { l with defs := l.defs.filter (fun e => !(e.1 == module && e.2.1 == name)) ++ [(module, name, d)] }

def defineFunc (l : Linker φ) (module name : String) (f : φ) : Linker φ := l.insert module name (.func f)

def defineGlobal (l : Linker φ) (module name : String) (v : Value) : Linker φ := l.insert module name (.global v)

/-- The definition of a name. -/
def exact (l : Linker φ) (module name : String) : Option (Def φ) :=
  (l.defs.find? fun e => e.1 == module && e.2.1 == name).map (·.2.2)

/-- What stands behind the names of a module. -/
def namespaceOf (l : Linker φ) (module : String) : Option (Namespace φ) :=
  (l.namespaces.find? (·.1 == module)).map (·.2)

/-- The backings so far, and the host functions among them in their order. -/
structure Resolved (φ : Type) where
  imports : Imports := {}
  hosts : List φ := []

/-- Bind a function import to a host function. -/
def Resolved.withHost (r : Resolved φ) (f : φ) : Resolved φ := ⟨r.imports.withHostFunc, r.hosts ++ [f]⟩

/-- Bind an import to what an instance exports under its name, by index. -/
def instanceIndex (s : Store) (id : InstanceId) (imp : Import) : Except LinkError ℕ :=
  orError (.unknownImport imp.module imp.name) (s.exportIndex id imp.name imp.ty.kind)

/-- Resolve one import, after those before it. -/
def resolveImport (l : Linker φ) (s : Store) (md : Module) (r : Resolved φ) (imp : Import) :
    Except LinkError (Resolved φ) :=
  let unknown := LinkError.unknownImport imp.module imp.name
  let mismatch := LinkError.kindMismatch imp.module imp.name imp.ty.kind
  match imp.ty, l.exact imp.module imp.name with
  | .func _, some (.func f) => .ok (r.withHost f)
  | .func _, some _ => .error mismatch
  | .func _, none =>
    match l.namespaceOf imp.module with
    | some (.inst id) => do
      let f ← orError unknown (s.exportFunc id imp.name)
      pure { r with imports := r.imports.withInstanceFunc id f }
    | some (.factory make) => .ok (r.withHost (make imp.name))
    | none => do
      let make ← orError unknown l.fallback
      pure (r.withHost (make imp.module imp.name))
  | .global _, some (.global v) => .ok { r with imports := r.imports.withGlobal v }
  | .global _, some _ => .error mismatch
  | .global declared, none =>
    match l.namespaceOf imp.module with
    | some (.inst id) => do
      ensure (s.globalImportMatches id imp.name md declared) (.incompatibleType imp.module imp.name)
      let index ← instanceIndex s id imp
      let v ← orError unknown (s.exportGlobal id imp.name)
      pure { r with imports := r.imports.withInstanceGlobal id index v }
    | _ => .error unknown
  | .memory _, some (.memory inst index) => .ok { r with imports := r.imports.withInstanceMemory inst index }
  | .memory _, some _ => .error mismatch
  | .memory _, none =>
    match l.namespaceOf imp.module with
    | some (.inst id) => do
      let index ← instanceIndex s id imp
      pure { r with imports := r.imports.withInstanceMemory id index }
    | _ => .error unknown
  | .table _, some (.table inst index) => .ok { r with imports := r.imports.withInstanceTable inst index }
  | .table _, some _ => .error mismatch
  | .table _, none =>
    match l.namespaceOf imp.module with
    | some (.inst id) => do
      let index ← instanceIndex s id imp
      pure { r with imports := r.imports.withInstanceTable id index }
    | _ => .error unknown
  | .tag _, some _ => .error mismatch
  | .tag _, none =>
    match l.namespaceOf imp.module with
    | some (.inst id) => do
      let index ← instanceIndex s id imp
      pure { r with imports := r.imports.withInstanceTag id index }
    | _ => .error unknown

/-- Resolve the imports of a module in their order. -/
def resolve (l : Linker φ) (s : Store) (md : Module) : Except LinkError (Resolved φ) :=
  md.imports.foldlM (l.resolveImport s md) {}

/-! ## What can be resolved -/

/-- An instance exports what an import asks for. Only a global's type is compared here. -/
def Exported (s : Store) (md : Module) (id : InstanceId) (imp : Import) : Prop :=
  (s.exportIndex id imp.name imp.ty.kind).isSome ∧
    ∀ declared, imp.ty = .global declared →
      s.globalImportMatches id imp.name md declared ∧ (s.exportGlobal id imp.name).isSome

/-- The name of an import has a definition of the import's kind, or else its module is an instance that exports it, or
else it is a function and a host function stands behind every name. -/
def Binds (l : Linker φ) (s : Store) (md : Module) (imp : Import) : Prop :=
  match l.exact imp.module imp.name, imp.ty.kind with
  | some (.func _), .func | some (.global _), .global | some (.memory _ _), .memory | some (.table _ _), .table => True
  | some _, _ => False
  | none, kind =>
    match l.namespaceOf imp.module with
    | some (.inst id) => Exported s md id imp
    | some (.factory _) => kind = .func
    | none => kind = .func ∧ l.fallback.isSome

variable {l : Linker φ} {s : Store} {md : Module}

/-- Whether an import is resolved depends on its name and its kind. -/
theorem exists_resolveImport_iff (r : Resolved φ) (imp : Import) :
    (∃ r', l.resolveImport s md r imp = .ok r') ↔ l.Binds s md imp := by
  obtain ⟨m, n, ty, ti, ex⟩ := imp
  cases ty with
  | func ft =>
    cases hexact : l.exact m n with
    | some d => cases d <;> simp [resolveImport, Binds, hexact, Extern.kind]
    | none =>
      cases hns : l.namespaceOf m with
      | none => simp [resolveImport, Binds, hexact, hns, Extern.kind, Option.isSome_iff_exists]
      | some ns => cases ns <;> simp [resolveImport, Binds, hexact, hns, Extern.kind, Exported, Store.exportFunc, Option.isSome_iff_exists]
  | global gt =>
    cases hexact : l.exact m n with
    | some d => cases d <;> simp [resolveImport, Binds, hexact, Extern.kind]
    | none =>
      cases hns : l.namespaceOf m with
      | none => simp [resolveImport, Binds, hexact, hns, Extern.kind]
      | some ns =>
        cases ns <;> simp [resolveImport, Binds, hexact, hns, Extern.kind, Exported, instanceIndex, Option.isSome_iff_exists]
        tauto
  | memory mt | table tt | tag ft =>
    cases hexact : l.exact m n with
    | some d => cases d <;> simp [resolveImport, Binds, hexact, Extern.kind]
    | none =>
      cases hns : l.namespaceOf m with
      | none => simp [resolveImport, Binds, hexact, hns, Extern.kind]
      | some ns =>
        cases ns <;> simp [resolveImport, Binds, hexact, hns, Extern.kind, Exported, instanceIndex, Option.isSome_iff_exists]

/-- A module is resolved iff each of its imports names a definition. -/
theorem exists_resolve_iff : (∃ r, l.resolve s md = .ok r) ↔ ∀ imp ∈ md.imports, l.Binds s md imp :=
  exists_foldlM_eq_ok_iff exists_resolveImport_iff md.imports {}

/-- A property that does not depend on the backings holds of whatever is resolved unless nothing is. -/
theorem forall_resolve_iff {P : Prop} :
    (∀ r, l.resolve s md = .ok r → P) ↔ (∃ imp ∈ md.imports, ¬ l.Binds s md imp) ∨ P := by
  have hexists : (∀ r, l.resolve s md = .ok r → P) ↔ ((∃ r, l.resolve s md = .ok r) → P) :=
    ⟨fun h ⟨r, hr⟩ => h r hr, fun h r hr => h ⟨r, hr⟩⟩
  rw [hexists, exists_resolve_iff, or_iff_not_imp_left]
  push Not
  exact Iff.rfl

/-! ## What a name was defined with -/

/-- A name means what it was last defined with. -/
@[simp]
theorem exact_insert (l : Linker φ) (module name : String) (d : Def φ) :
    (l.insert module name d).exact module name = some d := by
  have hgone : (l.defs.filter fun e => !(e.1 == module && e.2.1 == name)).find?
      (fun e => e.1 == module && e.2.1 == name) = none := by
    refine List.find?_eq_none.mpr fun e he => ?_
    have hother := (List.mem_filter.mp he).2
    simp only [Bool.not_eq_true', Bool.and_eq_false_iff] at hother
    simpa [← not_and_or, not_and] using hother
  rw [exact, insert, List.find?_append, hgone]
  simp

/-- The value of a global import: the one its name was defined with, if it was. -/
def GlobalBacked (l : Linker φ) (imp : Import) (v : Value) : Prop :=
  ∀ v', l.exact imp.module imp.name = some (.global v') → v = v'

/-- A global import adds a value, any other import none. -/
theorem globals_resolveImport {r r' : Resolved φ} {imp : Import} (h : l.resolveImport s md r imp = .ok r') :
    ∃ vs, r'.imports.globals = r.imports.globals ++ vs ∧
      List.Forall₂ l.GlobalBacked ([imp].filter Import.isGlobal) vs := by
  obtain ⟨m, n, ty, ti, ex⟩ := imp
  cases ty with
  | global gt =>
    suffices ∃ v, r'.imports.globals = r.imports.globals ++ [v] ∧ l.GlobalBacked ⟨m, n, .global gt, ti, ex⟩ v by
      obtain ⟨v, hglobals, hv⟩ := this
      exact ⟨[v], hglobals, .cons hv .nil⟩
    cases hexact : l.exact m n with
    | some d =>
      cases d with
      | global v =>
        simp only [resolveImport, hexact, Except.ok.injEq] at h
        obtain rfl := h
        exact ⟨v, rfl, fun v' hv' => Def.global.inj (Option.some.inj (hexact.symm.trans hv'))⟩
      | func | memory | table => simp [resolveImport, hexact] at h
    | none =>
      have hbacked : ∀ v, l.GlobalBacked ⟨m, n, .global gt, ti, ex⟩ v :=
        fun v v' hv' => nomatch hexact.symm.trans hv'
      simp only [resolveImport, hexact] at h
      split at h
      · simp only [Except.bind_eq_ok, Except.pure_eq_ok] at h
        obtain ⟨-, -, -, -, v, -, rfl⟩ := h
        exact ⟨v, rfl, hbacked v⟩
      · cases h
  | func ft | memory mt | table tt | tag ft =>
    refine ⟨[], ?_, .nil⟩
    rw [List.append_nil]
    cases hexact : l.exact m n with
    | some d =>
      cases d <;> simp only [resolveImport, hexact, Except.ok.injEq, reduceCtorEq] at h
      all_goals
        obtain rfl := h
        rfl
    | none =>
      cases hns : l.namespaceOf m with
      | some ns =>
        cases ns <;> simp only [resolveImport, hexact, hns, Except.bind_eq_ok, Except.pure_eq_ok, Except.ok.injEq,
          reduceCtorEq] at h
        all_goals
          obtain ⟨_, -, rfl⟩ := h
          rfl
      | none =>
        simp only [resolveImport, hexact, hns, Except.bind_eq_ok, Except.pure_eq_ok, reduceCtorEq] at h
        all_goals
          obtain ⟨_, -, rfl⟩ := h
          rfl

/-- The values of the global imports are those their names were defined with, in the order of the imports. -/
theorem globals_resolve {r : Resolved φ} (h : l.resolve s md = .ok r) :
    List.Forall₂ l.GlobalBacked (md.imports.filter Import.isGlobal) r.imports.globals := by
  suffices ∀ (imps : List Import) (r r' : Resolved φ), imps.foldlM (l.resolveImport s md) r = .ok r' →
      ∃ vs, r'.imports.globals = r.imports.globals ++ vs ∧
        List.Forall₂ l.GlobalBacked (imps.filter Import.isGlobal) vs by
    obtain ⟨vs, hglobals, hvs⟩ := this md.imports {} r h
    rwa [hglobals]
  intro imps
  induction imps with
  | nil =>
    rintro r r' ⟨⟩
    exact ⟨[], (List.append_nil _).symm, .nil⟩
  | cons imp imps ih =>
    intro r r' h
    rw [List.foldlM_cons, Except.bind_eq_ok] at h
    obtain ⟨r₁, hone, hrest⟩ := h
    obtain ⟨vs, hglobals, hvs⟩ := globals_resolveImport hone
    obtain ⟨vs', hglobals', hvs'⟩ := ih r₁ r' hrest
    refine ⟨vs ++ vs', by rw [hglobals', hglobals, List.append_assoc], ?_⟩
    have hfilter : (imp :: imps).filter Import.isGlobal = [imp].filter Import.isGlobal ++ imps.filter Import.isGlobal :=
      List.filter_append [imp] imps
    rw [hfilter]
    exact List.rel_append hvs hvs'

end Linker

end Wasmrt
