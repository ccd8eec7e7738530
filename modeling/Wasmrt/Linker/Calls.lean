import Mathlib.Data.BitVec
import Mathlib.Data.FinEnum
import Mathlib.Tactic.Common
import Wasmrt.Linker

/-!
# What a linker was told

A linker is made by calls that define names. Of the calls that define one name the last counts, and so does the last
of those that register a module's namespace and the last fallback. An import has one source among them, and the
backings of a module are what these supply, each at the place of its import among those of its kind.

## Main definitions

* `Linker.Call`, `Linker.of`: the calls, and the linker they make.
* `Linker.source`: the source of an import, by the last calls.
* `Linker.supply`: what a source backs an import with.

## Main results

* `Linker.resolve_of_calls`: what resolving a module gives, for every sequence of calls.
-/

namespace Wasmrt

namespace Linker

variable {φ : Type}

/-! ## Calls -/

def defineMemory (l : Linker φ) (module name : String) (inst : InstanceId) (index : ℕ) : Linker φ :=
  l.insert module name (.memory inst index)

def defineTable (l : Linker φ) (module name : String) (inst : InstanceId) (index : ℕ) : Linker φ :=
  l.insert module name (.table inst index)

/-- Register what stands behind the names of a module, in place of what did before. -/
def register (l : Linker φ) (module : String) (n : Namespace φ) : Linker φ :=
  { l with namespaces := l.namespaces.filter (fun e => !(e.1 == module)) ++ [(module, n)] }

def defineInstance (l : Linker φ) (module : String) (inst : InstanceId) : Linker φ := l.register module (.inst inst)

def defineNamespace (l : Linker φ) (module : String) (factory : String → φ) : Linker φ :=
  l.register module (.factory factory)

def defineFallback (l : Linker φ) (factory : String → String → φ) : Linker φ := { l with fallback := some factory }

/-- A call of a linker. -/
inductive Call (φ : Type)
  | func (module name : String) (f : φ)
  | global (module name : String) (v : Value)
  | memory (module name : String) (inst : InstanceId) (index : ℕ)
  | table (module name : String) (inst : InstanceId) (index : ℕ)
  | inst (module : String) (id : InstanceId)
  | factory (module : String) (make : String → φ)
  | fallback (make : String → String → φ)

/-- The linker after a call. -/
def apply (l : Linker φ) : Call φ → Linker φ
  | .func m n f => l.defineFunc m n f
  | .global m n v => l.defineGlobal m n v
  | .memory m n inst index => l.defineMemory m n inst index
  | .table m n inst index => l.defineTable m n inst index
  | .inst m id => l.defineInstance m id
  | .factory m make => l.defineNamespace m make
  | .fallback make => l.defineFallback make

/-- The linker that some calls make. -/
def of (calls : List (Call φ)) : Linker φ := calls.foldl apply {}

namespace Call

/-- The definition that a call gives a name. -/
def exactAt (module name : String) : Call φ → Option (Def φ)
  | func m n f => if m = module ∧ n = name then some (.func f) else none
  | global m n v => if m = module ∧ n = name then some (.global v) else none
  | memory m n id index => if m = module ∧ n = name then some (.memory id index) else none
  | table m n id index => if m = module ∧ n = name then some (.table id index) else none
  | _ => none

/-- What a call registers under a module. -/
def namespaceAt (module : String) : Call φ → Option (Namespace φ)
  | .inst m id => if m = module then some (.inst id) else none
  | .factory m make => if m = module then some (.factory make) else none
  | _ => none

/-- The fallback that a call defines. -/
def asFallback : Call φ → Option (String → String → φ)
  | fallback make => some make
  | _ => none

end Call

/-! ## The last call of a name -/

section Last

variable {l : Linker φ}

/-- What a search looks for is still found when entries of other kinds are gone. -/
theorem find?_filter_of_imp {α : Type*} {p q : α → Bool} (h : ∀ a, q a = true → p a = true) (as : List α) :
    (as.filter p).find? q = as.find? q := by
  rw [List.find?_filter]
  congr 1
  funext a
  cases hq : q a with
  | true => simp [h a hq]
  | false => simp

theorem exact_insert_of_ne {module name m n : String} (d : Def φ) (h : ¬ (m = module ∧ n = name)) :
    (l.insert m n d).exact module name = l.exact module name := by
  have hkept := find?_filter_of_imp (p := fun e => !(e.1 == m && e.2.1 == n))
    (q := fun e => e.1 == module && e.2.1 == name) (fun e he => by
      obtain ⟨rfl, rfl⟩ : e.1 = module ∧ e.2.1 = name := by simpa using he
      simp only [Bool.not_eq_true', Bool.and_eq_false_iff, beq_eq_false_iff_ne]
      by_contra hc
      push Not at hc
      exact h ⟨hc.1.symm, hc.2.symm⟩) l.defs
  rw [exact, exact, insert, List.find?_append, hkept, List.find?_singleton, if_neg (by simpa using h), Option.or_none]

theorem namespaceOf_register {module : String} (n : Namespace φ) : (l.register module n).namespaceOf module = some n := by
  have hgone : (l.namespaces.filter fun e => !(e.1 == module)).find? (·.1 == module) = none := by
    refine List.find?_eq_none.mpr fun e he => ?_
    simpa using (List.mem_filter.mp he).2
  rw [namespaceOf, register, List.find?_append, hgone]
  simp

theorem namespaceOf_register_of_ne {module m : String} (n : Namespace φ) (h : m ≠ module) :
    (l.register m n).namespaceOf module = l.namespaceOf module := by
  have hkept := find?_filter_of_imp (p := fun e => !(e.1 == m)) (q := fun e => e.1 == module) (fun e he => by
    obtain rfl : e.1 = module := by simpa using he
    simpa using h.symm) l.namespaces
  rw [namespaceOf, namespaceOf, register, List.find?_append, hkept, List.find?_singleton, if_neg (by simpa using h),
    Option.or_none]

/-- What a call does to the definitions of a name, -/
theorem exact_apply (c : Call φ) (module name : String) :
    (l.apply c).exact module name = (c.exactAt module name).or (l.exact module name) := by
  have hinsert : ∀ (m n : String) (d : Def φ), (l.insert m n d).exact module name =
      (if m = module ∧ n = name then some d else none).or (l.exact module name) := by
    intro m n d
    by_cases h : m = module ∧ n = name
    · obtain ⟨rfl, rfl⟩ := h
      rw [exact_insert, if_pos ⟨rfl, rfl⟩, Option.some_or]
    · rw [exact_insert_of_ne d h, if_neg h, Option.none_or]
  cases c with
  | func m n f | global m n v | memory m n inst index | table m n inst index => exact hinsert m n _
  | _ => rfl

/-- to the namespaces, -/
theorem namespaceOf_apply (c : Call φ) (module : String) :
    (l.apply c).namespaceOf module = (c.namespaceAt module).or (l.namespaceOf module) := by
  have hregister : ∀ (m : String) (n : Namespace φ), (l.register m n).namespaceOf module =
      (if m = module then some n else none).or (l.namespaceOf module) := by
    intro m n
    by_cases h : m = module
    · subst h
      rw [namespaceOf_register, if_pos rfl, Option.some_or]
    · rw [namespaceOf_register_of_ne n h, if_neg h, Option.none_or]
  cases c with
  | inst m id | factory m make => exact hregister m _
  | _ => rfl

/-- and to the fallback. -/
theorem fallback_apply (c : Call φ) : (l.apply c).fallback = c.asFallback.or l.fallback := by
  cases c <;> rfl

/-- What is looked up after some calls is what the last of them that defines it says. -/
theorem of_eq_getLast? {α : Type} (look : Linker φ → Option α) (told : Call φ → Option α) (hempty : look {} = none)
    (happly : ∀ (l : Linker φ) (c : Call φ), look (l.apply c) = (told c).or (look l)) (calls : List (Call φ)) :
    look (of calls) = (calls.filterMap told).getLast? := by
  induction calls using List.reverseRecOn with
  | nil => exact hempty
  | append_singleton calls c ih =>
    rw [of, List.foldl_append, List.foldl_cons, List.foldl_nil, happly, ← of, ih, List.filterMap_append]
    cases hc : told c with
    | none => simp [hc]
    | some a => simp [hc]

end Last

/-- The definition that the last call of a name gave it. -/
def lastExact (calls : List (Call φ)) (module name : String) : Option (Def φ) :=
  (calls.filterMap (Call.exactAt module name)).getLast?

/-- What the last call that registers a module registers. -/
def lastNamespace (calls : List (Call φ)) (module : String) : Option (Namespace φ) :=
  (calls.filterMap (Call.namespaceAt module)).getLast?

def lastFallback (calls : List (Call φ)) : Option (String → String → φ) :=
  (calls.filterMap Call.asFallback).getLast?

theorem exact_of (calls : List (Call φ)) (module name : String) :
    (of calls).exact module name = lastExact calls module name :=
  of_eq_getLast? (exact · module name) (Call.exactAt module name) rfl (fun _ c => exact_apply c module name) calls

theorem namespaceOf_of (calls : List (Call φ)) (module : String) :
    (of calls).namespaceOf module = lastNamespace calls module :=
  of_eq_getLast? (namespaceOf · module) (Call.namespaceAt module) rfl (fun _ c => namespaceOf_apply c module) calls

theorem fallback_of (calls : List (Call φ)) : (of calls).fallback = lastFallback calls :=
  of_eq_getLast? fallback Call.asFallback rfl (fun _ c => fallback_apply c) calls

/-! ## Sources -/

/-- What an import may be backed from. -/
inductive Source (φ : Type)
  | exact (d : Def φ)
  | namespaceOf (n : Namespace φ)
  | fallback (make : String → String → φ)

/-- What an import is backed with: a host function, the value of a global, an item of an instance, or a global of an
instance with its value. -/
inductive Backing (φ : Type)
  | host (f : φ)
  | value (v : Value)
  | item (inst : InstanceId) (index : ℕ)
  | shared (inst : InstanceId) (index : ℕ) (v : Value)

/-- The source of an import: the definition its name was last given, else what was last registered under its module,
else, for a function, the last fallback. -/
def source (calls : List (Call φ)) (imp : Import) : Option (Source φ) :=
  match lastExact calls imp.module imp.name with
  | some d => some (.exact d)
  | none =>
    match lastNamespace calls imp.module with
    | some n => some (.namespaceOf n)
    | none => if imp.ty.kind = .func then (lastFallback calls).map .fallback else none

/-- What a source backs an import with, if it can supply an item of the kind of the import and, for the global of an
instance, of its type. -/
def supply (s : Store) (md : Module) (imp : Import) : Source φ → Option (Backing φ)
  | .exact (.func f) => if imp.ty.kind = .func then some (.host f) else none
  | .exact (.global v) => if imp.ty.kind = .global then some (.value v) else none
  | .exact (.memory inst index) => if imp.ty.kind = .memory then some (.item inst index) else none
  | .exact (.table inst index) => if imp.ty.kind = .table then some (.item inst index) else none
  | .namespaceOf (.inst id) =>
    match imp.ty with
    | .global declared =>
      if s.globalImportMatches id imp.name md declared then
        (s.exportIndex id imp.name .global).bind fun index => (s.exportGlobal id imp.name).map (.shared id index)
      else none
    | ty => (s.exportIndex id imp.name ty.kind).map (.item id)
  | .namespaceOf (.factory make) => if imp.ty.kind = .func then some (.host (make imp.name)) else none
  | .fallback make => if imp.ty.kind = .func then some (.host (make imp.module imp.name)) else none

/-- What an import is backed with after some calls. -/
def backing (calls : List (Call φ)) (s : Store) (md : Module) (imp : Import) : Option (Backing φ) :=
  (source calls imp).bind (supply s md imp)

/-! ## Lists of backings -/

/-- The backings of functions, with the host functions where they stand. -/
def functions : List ImportedFunc → List φ → List (Backing φ)
  | .host :: fs, f :: hosts => .host f :: functions fs hosts
  | .wasm inst func :: fs, hosts => .item inst func :: functions fs hosts
  | _, _ => []

/-- The backing of a global: its value, with what it is shared with. -/
def globalBacking (v : Value) : Option ExternImport → Backing φ
  | none => .value v
  | some e => .shared e.inst e.index v

namespace Resolved

/-- The backings of a kind, in their order. -/
def backings (r : Resolved φ) : ExternKind → List (Backing φ)
  | .func => functions r.imports.funcs r.hosts
  | .global => List.zipWith globalBacking r.imports.globals r.imports.globalSources
  | .memory => r.imports.memories.map fun e => .item e.inst e.index
  | .table => r.imports.tables.map fun e => .item e.inst e.index
  | .tag => r.imports.tags.map fun e => .item e.inst e.index

/-- There are as many host functions as places for them, and as many sources of globals as values. -/
structure Aligned (r : Resolved φ) : Prop where
  hosts : (r.imports.funcs.filter (· matches .host)).length = r.hosts.length
  globals : r.imports.globals.length = r.imports.globalSources.length

/-- One more backing of a kind. -/
def put (r : Resolved φ) : ExternKind → Backing φ → Resolved φ
  | .func, .host f => r.withHost f
  | .func, .item inst index => { r with imports := r.imports.withInstanceFunc inst index }
  | .global, .value v => { r with imports := r.imports.withGlobal v }
  | .global, .shared inst index v => { r with imports := r.imports.withInstanceGlobal inst index v }
  | .memory, .item inst index => { r with imports := r.imports.withInstanceMemory inst index }
  | .table, .item inst index => { r with imports := r.imports.withInstanceTable inst index }
  | .tag, .item inst index => { r with imports := r.imports.withInstanceTag inst index }
  | _, _ => r

end Resolved

/-- The backings that a kind of imports has. -/
def Backing.Suits : ExternKind → Backing φ → Prop
  | .func, .host _ | .func, .item .. | .global, .value _ | .global, .shared .. | .memory, .item .. | .table, .item ..
  | .tag, .item .. => True
  | _, _ => False

theorem functions_append_host (fs : List ImportedFunc) (hosts : List φ) (f : φ)
    (h : (fs.filter (· matches .host)).length = hosts.length) :
    functions (fs ++ [.host]) (hosts ++ [f]) = functions fs hosts ++ [.host f] := by
  induction fs generalizing hosts with
  | nil =>
    obtain rfl := List.length_eq_zero_iff.mp h.symm
    rfl
  | cons e fs ih =>
    cases e with
    | host =>
      cases hosts with
      | nil => simp at h
      | cons g hosts =>
        simp only [List.cons_append, functions]
        rw [ih hosts (by simpa using h)]
    | wasm inst func =>
      simp only [List.cons_append, functions]
      rw [ih hosts (by simpa using h)]

theorem functions_append_wasm (fs : List ImportedFunc) (hosts : List φ) (inst : InstanceId) (func : ℕ)
    (h : (fs.filter (· matches .host)).length = hosts.length) :
    functions (fs ++ [.wasm inst func]) hosts = functions fs hosts ++ [.item inst func] := by
  induction fs generalizing hosts with
  | nil =>
    obtain rfl := List.length_eq_zero_iff.mp h.symm
    rfl
  | cons e fs ih =>
    cases e with
    | host =>
      cases hosts with
      | nil => simp at h
      | cons g hosts =>
        simp only [List.cons_append, functions]
        rw [ih hosts (by simpa using h)]
    | wasm inst' func' =>
      simp only [List.cons_append, functions]
      rw [ih hosts (by simpa using h)]

/-- It comes after those of its kind. -/
theorem Resolved.backings_put {r : Resolved φ} (hr : r.Aligned) {kind : ExternKind} {b : Backing φ}
    (hb : b.Suits kind) (k : ExternKind) :
    (r.put kind b).backings k = r.backings k ++ if k = kind then [b] else [] := by
  cases kind <;> cases b <;> first | exact hb.elim | skip
  all_goals cases k <;> simp [put, backings, withHost, Imports.withHostFunc, Imports.withInstanceFunc,
    Imports.withGlobal, Imports.withInstanceGlobal, Imports.withInstanceMemory, Imports.withInstanceTable,
    Imports.withInstanceTag, functions_append_host _ _ _ hr.hosts, functions_append_wasm _ _ _ _ hr.hosts,
    List.zipWith_append hr.globals, globalBacking]

theorem Resolved.aligned_put {r : Resolved φ} (hr : r.Aligned) {kind : ExternKind} {b : Backing φ}
    (hb : b.Suits kind) : (r.put kind b).Aligned := by
  obtain ⟨hhosts, hglobals⟩ := hr
  cases kind <;> cases b <;> first | exact hb.elim | skip
  all_goals
    constructor <;> simp [put, withHost, Imports.withHostFunc, Imports.withInstanceFunc,
      Imports.withGlobal, Imports.withInstanceGlobal, Imports.withInstanceMemory, Imports.withInstanceTable,
      Imports.withInstanceTag, hhosts, hglobals]

/-! ## Resolving -/

section Resolving

variable {calls : List (Call φ)} {s : Store} {md : Module} {imp : Import}

theorem suits_of_supply {src : Source φ} {b : Backing φ} (h : supply s md imp src = some b) :
    b.Suits imp.ty.kind := by
  obtain ⟨m, n, ty, ti, ex⟩ := imp
  cases src with
  | exact d => cases d <;> cases ty <;> simp [supply, Extern.kind] at h <;> (subst h; trivial)
  | fallback make => cases ty <;> simp [supply, Extern.kind] at h; (subst h; trivial)
  | namespaceOf ns =>
    cases ns with
    | factory make => cases ty <;> simp [supply, Extern.kind] at h; (subst h; trivial)
    | inst id =>
      cases ty with
      | global declared =>
        simp only [supply] at h
        split_ifs at h
        obtain ⟨index, -, h⟩ := Option.bind_eq_some_iff.mp h
        obtain ⟨v, -, rfl⟩ := Option.map_eq_some_iff.mp h
        trivial
      | _ =>
        obtain ⟨index, -, rfl⟩ := Option.map_eq_some_iff.mp h
        trivial

/-- An import whose source supplies it gets the backing that this supplies. -/
theorem resolveImport_of_backing {b : Backing φ} (h : backing calls s md imp = some b) (r : Resolved φ) :
    (of calls).resolveImport s md r imp = .ok (r.put imp.ty.kind b) := by
  obtain ⟨m, n, ty, ti, ex⟩ := imp
  have hexact := exact_of calls m n
  have hns := namespaceOf_of calls m
  have hfallback := fallback_of calls
  unfold backing source at h
  simp only at h
  cases hlast : lastExact calls m n with
  | some d =>
    rw [hlast] at h hexact
    cases d <;> cases ty <;> simp [supply, Extern.kind] at h <;> subst h <;> simp [resolveImport, hexact, Extern.kind] <;> rfl
  | none =>
    rw [hlast] at h hexact
    cases hlastns : lastNamespace calls m with
    | some ns =>
      rw [hlastns] at h hns
      cases ns with
      | factory make =>
        cases ty <;> simp [supply, Extern.kind] at h
        subst h
        simp [resolveImport, hexact, hns, Extern.kind]
        rfl
      | inst id =>
        cases ty with
        | global declared =>
          simp only [supply, Option.bind_some] at h
          split_ifs at h with hmatch
          obtain ⟨index, hindex, h⟩ := Option.bind_eq_some_iff.mp h
          obtain ⟨v, hv, rfl⟩ := Option.map_eq_some_iff.mp h
          simp only [resolveImport, hexact, hns, instanceIndex, Extern.kind, hindex, hv, hmatch]
          rfl
        | _ =>
          obtain ⟨index, hindex, rfl⟩ := Option.map_eq_some_iff.mp h
          simp only [Extern.kind] at hindex
          simp only [resolveImport, hexact, hns, instanceIndex, Store.exportFunc, Extern.kind, hindex]
          rfl
    | none =>
      rw [hlastns] at h hns
      cases ty <;> simp only [Extern.kind, reduceCtorEq, if_false, if_true, Option.bind_none] at h
      cases hf : lastFallback calls with
      | none =>
        rw [hf] at h
        cases h
      | some make =>
        rw [hf] at h hfallback
        simp only [Option.map_some, Option.bind_some, supply, Extern.kind, if_true, Option.some.injEq] at h
        subst h
        simp only [resolveImport, hexact, hns, hfallback, Extern.kind]
        rfl

/-- One whose source does not supply it is not resolved. -/
theorem resolveImport_of_not_backing (h : backing calls s md imp = none) (r r' : Resolved φ) :
    (of calls).resolveImport s md r imp ≠ .ok r' := by
  obtain ⟨m, n, ty, ti, ex⟩ := imp
  have hexact := exact_of calls m n
  have hns := namespaceOf_of calls m
  have hfallback := fallback_of calls
  unfold backing source at h
  simp only at h
  cases hlast : lastExact calls m n with
  | some d =>
    rw [hlast] at h hexact
    cases d <;> cases ty <;> simp [supply, Extern.kind] at h <;> simp [resolveImport, hexact]
  | none =>
    rw [hlast] at h hexact
    cases hlastns : lastNamespace calls m with
    | some ns =>
      rw [hlastns] at h hns
      cases ns with
      | factory make => cases ty <;> simp [supply, Extern.kind] at h <;> simp [resolveImport, hexact, hns]
      | inst id =>
        cases ty with
        | global declared =>
          simp only [supply, Option.bind_some] at h
          intro heq
          simp only [resolveImport, hexact, hns, instanceIndex, Extern.kind, Except.bind_eq_ok, ensure_eq_ok,
            orError_eq_ok] at heq
          obtain ⟨_, hmatch, index, hindex, v, hv, -⟩ := heq
          simp [hmatch, hindex, hv] at h
        | _ =>
          simp only [supply, Option.bind_some, Option.map_eq_none_iff, Extern.kind] at h
          simp [resolveImport, hexact, hns, instanceIndex, Store.exportFunc, Extern.kind, h]
    | none =>
      rw [hlastns] at h hns
      cases ty <;> simp only [Extern.kind, reduceCtorEq, if_false, if_true, Option.bind_none] at h
      · cases hf : lastFallback calls with
        | some make =>
          rw [hf] at h
          simp [supply, Extern.kind] at h
        | none =>
          rw [hf] at hfallback
          simp [resolveImport, hexact, hns, hfallback]
      all_goals simp [resolveImport, hexact, hns]

/-- Backings are put at the places of their imports among those of their kind. -/
theorem backings_foldlM {imps : List Import} {r r' : Resolved φ} (hr : r.Aligned)
    (h : imps.foldlM ((of calls).resolveImport s md) r = .ok r') : r'.Aligned ∧ ∀ kind, ∃ bs,
      r'.backings kind = r.backings kind ++ bs ∧
        List.Forall₂ (fun imp b => backing calls s md imp = some b) (imps.filter (·.ty.kind = kind)) bs := by
  induction imps generalizing r with
  | nil =>
    obtain rfl := Except.pure_eq_ok.mp h
    exact ⟨hr, fun _ => ⟨[], (List.append_nil _).symm, .nil⟩⟩
  | cons imp imps ih =>
    rw [List.foldlM_cons, Except.bind_eq_ok] at h
    obtain ⟨r₁, hone, hrest⟩ := h
    cases hb : backing calls s md imp with
    | none => exact absurd hone (resolveImport_of_not_backing hb r r₁)
    | some b =>
      rw [resolveImport_of_backing hb, Except.ok.injEq] at hone
      subst hone
      obtain ⟨src, -, hsupply⟩ := Option.bind_eq_some_iff.mp hb
      have hsuits := suits_of_supply hsupply
      obtain ⟨haligned, hbackings⟩ := ih (Resolved.aligned_put hr hsuits) hrest
      refine ⟨haligned, fun kind => ?_⟩
      obtain ⟨bs, heq, hbs⟩ := hbackings kind
      rw [Resolved.backings_put hr hsuits, List.append_assoc] at heq
      refine ⟨_, heq, ?_⟩
      by_cases hkind : imp.ty.kind = kind
      · rw [List.filter_cons_of_pos (by simpa using hkind), if_pos hkind.symm]
        exact .cons hb hbs
      · rw [List.filter_cons_of_neg (by simpa using hkind), if_neg (Ne.symm hkind)]
        exact hbs

end Resolving

/-! ## The order of calls -/

/-- What a call defines: a name, what stands behind the names of a module, or the fallback. -/
inductive Key
  | name (module name : String)
  | module (module : String)
  | fallback
  deriving DecidableEq, Repr

def Call.key : Call φ → Key
  | func m n _ | global m n _ | memory m n _ _ | table m n _ _ => .name m n
  | inst m _ | factory m _ => .module m
  | fallback _ => .fallback

/-- Only the calls with the key of what is looked up tell it. -/
theorem filterMap_eq_of_key {α : Type} {told : Call φ → Option α} {k : Key}
    (htold : ∀ c : Call φ, c.key ≠ k → told c = none) {calls calls' : List (Call φ)}
    (h : calls.filter (·.key = k) = calls'.filter (·.key = k)) : calls.filterMap told = calls'.filterMap told := by
  have hkey : ∀ cs : List (Call φ), cs.filterMap told = (cs.filter (·.key = k)).filterMap told := by
    intro cs
    rw [List.filterMap_filter]
    congr 1
    funext c
    by_cases hc : c.key = k
    · simp [hc]
    · simp [hc, htold c hc]
  rw [hkey calls, hkey calls', h]

/-- Calls that define different things may change places. -/
theorem of_resolve_congr {calls calls' : List (Call φ)}
    (h : ∀ k, calls.filter (·.key = k) = calls'.filter (·.key = k)) (s : Store) (md : Module) :
    (of calls).resolve s md = (of calls').resolve s md := by
  have hexact : ∀ m n, (of calls).exact m n = (of calls').exact m n := by
    intro m n
    rw [exact_of, exact_of, lastExact, lastExact, filterMap_eq_of_key (k := .name m n) _ (h _)]
    intro c hc
    cases c <;> first | rfl | exact if_neg fun heq => hc (by rw [Call.key, heq.1, heq.2])
  have hns : ∀ m, (of calls).namespaceOf m = (of calls').namespaceOf m := by
    intro m
    rw [namespaceOf_of, namespaceOf_of, lastNamespace, lastNamespace, filterMap_eq_of_key (k := .module m) _ (h _)]
    intro c hc
    cases c <;> first | rfl | exact if_neg fun heq => hc (by rw [Call.key, heq])
  have hfallback : (of calls).fallback = (of calls').fallback := by
    rw [fallback_of, fallback_of, lastFallback, lastFallback, filterMap_eq_of_key (k := .fallback) _ (h _)]
    intro c hc
    cases c <;> first | rfl | exact absurd rfl hc
  have himport : (of calls).resolveImport s md = (of calls').resolveImport s md := by
    funext r imp
    simp only [resolveImport, hexact, hns, hfallback]
  rw [resolve, resolve, himport]

/-- A module is resolved exactly when the source of each of its imports supplies it. Then its backings of each kind
are what these supply, in the order of the imports of the kind. Calls that define different things may have come in
any order. -/
theorem resolve_of_calls (calls : List (Call φ)) (s : Store) (md : Module) :
    ((∃ r, (of calls).resolve s md = .ok r) ↔ ∀ imp ∈ md.imports, (backing calls s md imp).isSome) ∧
    (∀ r, (of calls).resolve s md = .ok r → r.imports.globals.length = r.imports.globalSources.length ∧
      ∀ kind, List.Forall₂ (fun imp b => backing calls s md imp = some b) (md.imports.filter (·.ty.kind = kind))
        (r.backings kind)) ∧
    ∀ calls' : List (Call φ), (∀ k, calls.filter (·.key = k) = calls'.filter (·.key = k)) →
      (of calls).resolve s md = (of calls').resolve s md := by
  have hiff : ∀ (r : Resolved φ) (imp : Import),
      (∃ r', (of calls).resolveImport s md r imp = .ok r') ↔ (backing calls s md imp).isSome := by
    intro r imp
    cases hb : backing calls s md imp with
    | none => simpa using fun r' => resolveImport_of_not_backing hb r r'
    | some b => simp [resolveImport_of_backing hb]
  refine ⟨exists_foldlM_eq_ok_iff hiff md.imports {}, fun r hr => ?_, fun calls' h => of_resolve_congr h s md⟩
  · obtain ⟨haligned, hbackings⟩ := backings_foldlM ⟨rfl, rfl⟩ hr
    refine ⟨haligned.globals, fun kind => ?_⟩
    obtain ⟨bs, heq, hbs⟩ := hbackings kind
    have hnone : ({} : Resolved φ).backings kind = [] := by cases kind <;> rfl
    rw [hnone, List.nil_append] at heq
    rw [heq]
    exact hbs

/-- Two definitions of a global, and a fallback. -/
def someCalls : List (Call ℕ) := [.global "env" "g" 1, .fallback fun _ _ => 7, .global "env" "g" 2]

/-- A module that imports the global and a function. -/
def importsBoth : Module :=
  { imports := [⟨"env", "g", .global ⟨.i32, false⟩, none, false⟩, ⟨"env", "f", .func ⟨[], []⟩, some 0, false⟩] }

/-- The global is what it was last defined with, wherever the fallback was defined. -/
theorem someCalls_resolved : (∃ r, (of someCalls).resolve {} importsBoth = .ok r ∧
    List.Forall₂ (fun imp b => backing someCalls {} importsBoth imp = some b)
      (importsBoth.imports.filter (·.ty.kind = .global)) (r.backings .global)) ∧
    (of someCalls).resolve {} importsBoth =
      (of [.fallback fun _ _ => 7, .global "env" "g" 1, .global "env" "g" 2]).resolve {} importsBoth := by
  obtain ⟨-, hbackings, horder⟩ := resolve_of_calls someCalls {} importsBoth
  refine ⟨⟨_, rfl, (hbackings _ rfl).2 .global⟩, horder _ fun k => ?_⟩
  cases k with
  | name m n =>
    by_cases hkey : m = "env" ∧ n = "g"
    · obtain ⟨rfl, rfl⟩ := hkey
      rfl
    · have hne : ¬ (Key.name "env" "g" = .name m n) := by
        rintro ⟨⟩
        exact hkey ⟨rfl, rfl⟩
      simp [someCalls, Call.key, hne]
  | module m => rfl
  | fallback => rfl

end Linker

end Wasmrt
