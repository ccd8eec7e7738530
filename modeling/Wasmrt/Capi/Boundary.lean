import Wasmrt.Capi.Value
import Wasmrt.Linker

/-!
# Values that enter from C

C writes a value slot in three places: the arguments of a call, the results of a callback, and a global that it defines
for others to import. What it writes there, and the type it declares for a host function, is compared with nothing.

## Main definitions

* `CFunc`, `hostCall`: a host function defined in C, and a call of it from the guest.
* `CStore`, `prepareCall`, `funcCall`: a call of an export from C.
* `FuncLinkTyped`, `GlobalLinkTyped`, `CallTyped`, `ResultsTyped`: what crosses is of the type where it arrives.

## Main results

* `boundary_typed_iff`: exactly when each of the four holds.
-/

namespace Wasmrt

/-- The signature of a function of an instance. -/
def Store.funcType (s : Store) (id : InstanceId) (func : ℕ) : Option FuncType := do
  let d ← s.code[← s.slot id]?
  d.module.funcType func

namespace Capi

/-! ## Host functions -/

/-- A host function as C defines it: the kinds it declares, and a callback that is given the arguments and a buffer for
the results. It overwrites the buffer, or ends in a trap with a message. -/
structure CFunc where
  params : List ValKind
  results : List ValKind
  callback : List CVal → (out : List CVal) → Except String (Fin out.length → CVal)

/-- The functions behind a linker of the C interface: callbacks of C, and those the engine brings along. -/
inductive HostFn
  | callback (f : CFunc)
  | builtin (module name : String)

/-- Why a reference cannot cross. -/
def hostExternrefMsg : String := "an externref wrapping an internal reference cannot cross the C boundary"

/-- The arguments in their C form, by the declared kinds; what is not declared is taken for an `i64`. -/
def CFunc.marshal (f : CFunc) (args : List Value) : Option (List CVal) :=
  args.zipIdx.mapM fun p => fromValue (f.params.getD p.2 .i64) p.1

/-- The buffer for the results: the zeros of the declared kinds, as far as they can cross. -/
def CFunc.buffer (f : CFunc) : List CVal := f.results.filterMap (fromValue · 0)

/-- A call from the guest, with as many results as the import declares. The engine sees every message as a host trap. -/
def hostCall (f : CFunc) (args : List Value) (nresults : ℕ) : Except String (List Value) := do
  let ins ← orError hostExternrefMsg (f.marshal args)
  let out ← f.callback ins f.buffer
  pure ((List.replicate nresults 0).mapIdx fun i slot => if h : i < f.buffer.length then toValue (out ⟨i, h⟩) else slot)

/-- Define a host function; its declared kinds stay with the closure. -/
def linkerDefineFunc (l : Linker HostFn) (module name : String) (f : CFunc) : Linker HostFn :=
  l.defineFunc module name (.callback f)

/-- Define a global; its kind is not kept. -/
def linkerDefineGlobal (l : Linker HostFn) (module name : String) (value : CVal) : Linker HostFn :=
  l.defineGlobal module name (toValue value)

/-! ## Calls of exports -/

/-- The position that a handle of a store names. A handle of 0 names nothing. -/
def unpack (id : BitVec 64) (tag : BitVec 32) : Option ℕ :=
  if (id >>> 32).setWidth 32 ≠ tag then none
  else match (id.setWidth 32).toNat with
    | 0 => none
    | k + 1 => some k

/-- A `wasmrt_store`: the store, and what its handles for instances and functions stand for. -/
structure CStore where
  tag : BitVec 32
  inner : Store
  instances : List InstanceId
  funcs : List (ℕ × ℕ)

/-- The function that a handle names. -/
def CStore.func (s : CStore) (h : BitVec 64) : Option (InstanceId × ℕ) := do
  let p ← s.funcs[← unpack h s.tag]?
  let id ← s.instances[p.1]?
  pure (id, p.2)

/-- An array of C; a null pointer is `none`. -/
def argSlice {n : ℕ} (args : Option (Fin n → CVal)) : Option (List CVal) :=
  if n = 0 then some [] else args.map List.ofFn

/-- A call that passed its checks. -/
structure Call where
  id : InstanceId
  func : ℕ
  resultKinds : List ValKind
  args : List Value

/-- Check a call and make the slots of its arguments. -/
def prepareCall (s : CStore) (h : BitVec 64) {nargs : ℕ} (args : Option (Fin nargs → CVal)) (nresults : ℕ) :
    Except String Call := do
  let (id, fi) ← orError "wasmrt_func_call: function handle does not belong to this store" (s.func h)
  let ft ← orError "wasmrt_func_call: no such function" (s.inner.funcType id fi)
  let params := ft.params.length
  ensure (params == nargs) s!"wasmrt_func_call: expected {params} argument(s), got {nargs}"
  let results := ft.results.length
  ensure (results == nresults) s!"wasmrt_func_call: expected room for {results} result(s), got {nresults}"
  let resultKinds ← orError "wasmrt_func_call: this function returns a type the C boundary cannot carry"
    (kinds ft.results)
  let _ ← orError "wasmrt_func_call: this function takes a type the C boundary cannot carry" (kinds ft.params)
  let ins ← orError "wasmrt_func_call: args is NULL" (argSlice args)
  pure ⟨id, fi, resultKinds, ins.map toValue⟩

/-- How a call ends: refused with a message, trapped, or with results. -/
inductive CallOutcome
  | error (message : String)
  | trap (t : Trap)
  | ok (results : List CVal)

/-- Call an export, on an engine that invokes functions of a store. -/
def funcCall (invoke : Store → InstanceId → ℕ → List Value → Except Trap (List Value) × Store) (s : CStore)
    (h : BitVec 64) {nargs : ℕ} (args : Option (Fin nargs → CVal)) (nresults : ℕ) : CallOutcome × CStore :=
  match prepareCall s h args nresults with
  | .error message => (.error message, s)
  | .ok call =>
    let (r, inner) := invoke s.inner call.id call.func call.args
    let s := { s with inner }
    match r with
    | .error t => (.trap t, s)
    | .ok out =>
      match call.resultKinds.zipIdx.mapM fun p => fromValue p.1 (out.getD p.2 0) with
      | some results => (.ok results, s)
      | none => (.error hostExternrefMsg, s)

/-! ## What is typed -/

/-- A host function declares a type. -/
def CFunc.Declares (f : CFunc) (ft : FuncType) : Prop :=
  kinds ft.params = some f.params ∧ kinds ft.results = some f.results

instance (f : CFunc) (ft : FuncType) : Decidable (f.Declares ft) := inferInstanceAs (Decidable (_ ∧ _))

/-- A module that links against a host function, and passes the engine's own check of the import, imports it with the
type that it declares. -/
def FuncLinkTyped (l : Linker HostFn) (module name : String) (f : CFunc) (s : Store) (md : Module) (typeIds : List ℕ) :
    Prop :=
  ∀ r, (linkerDefineFunc l module name f).resolve s md = .ok r →
    ∀ imp ∈ md.imports, imp.module = module → imp.name = name → ∀ ft, imp.ty = .func ft →
      checkFuncImport s typeIds ft imp.funcTypeIndex imp.exact .host = .ok () → f.Declares ft

/-- A module that links against a global of C imports it with the type of its kind, and what it is given is a value of
that type in the new instance. -/
def GlobalLinkTyped (l : Linker HostFn) (module name : String) (c : CVal) (s : Store) (md : Module) (s' : Store)
    (inst : ℕ) : Prop :=
  ∀ r, (linkerDefineGlobal l module name c).resolve s md = .ok r →
    List.Forall₂ (fun imp v => imp.module = module → imp.name = name → ∀ gt, imp.ty = .global gt →
      kindOf gt.content = some c.kind ∧ s'.Holds inst v gt.content) (md.imports.filter Import.isGlobal) r.imports.globals

/-- The arguments that reach the engine are values of the parameter types. -/
def CallTyped (s : CStore) (h : BitVec 64) {nargs : ℕ} (args : Option (Fin nargs → CVal)) (nresults : ℕ) : Prop :=
  ∀ call, prepareCall s h args nresults = .ok call → ∀ ft, s.inner.funcType call.id call.func = some ft →
    List.Forall₂ (s.inner.Holds call.id.index) call.args ft.params

/-- The results that a callback leaves in the engine are values of the result types of the import. -/
def ResultsTyped (f : CFunc) (args : List Value) (ft : FuncType) (s : Store) (inst : ℕ) : Prop :=
  ∀ rs, hostCall f args ft.results.length = .ok rs → List.Forall₂ (s.Holds inst) rs ft.results

/-- A call that is not refused, of a function of this type with these arguments. -/
structure Callable (s : CStore) (h : BitVec 64) {nargs : ℕ} (args : Option (Fin nargs → CVal)) (nresults : ℕ)
    (id : InstanceId) (ft : FuncType) (ins : List CVal) : Prop where
  func : ∃ fi, s.func h = some (id, fi) ∧ s.inner.funcType id fi = some ft
  params : ft.params.length = nargs
  results : ft.results.length = nresults
  carries : (kinds ft.params).isSome ∧ (kinds ft.results).isSome
  args : argSlice args = some ins

/-- What the callback wrote for a result. A place past the end of the buffer stays zero, the number. -/
def CFunc.written (f : CFunc) (out : Fin f.buffer.length → CVal) (i : ℕ) : CVal :=
  if h : i < f.buffer.length then out ⟨i, h⟩ else ⟨.i64, 0⟩

/-! ## The four places -/

/-- A function import binds to a host function whatever their types, unless it is exact. -/
theorem funcLinkTyped_iff {l : Linker HostFn} {module name : String} {f : CFunc} {s : Store} {md : Module}
    {typeIds : List ℕ} :
    FuncLinkTyped l module name f s md typeIds ↔
      (∃ imp ∈ md.imports, ¬ (linkerDefineFunc l module name f).Binds s md imp) ∨
        ∀ imp ∈ md.imports, imp.module = module → imp.name = name → ∀ ft, imp.ty = .func ft → imp.exact = false →
          f.Declares ft := by
  rw [FuncLinkTyped, Linker.forall_resolve_iff]
  simp only [checkFuncImport, ensure_eq_ok, Bool.not_eq_true']

/-- A global import binds to a global of C whatever their types, and gets its slot. -/
theorem globalLinkTyped_iff {l : Linker HostFn} {module name : String} {c : CVal} {s s' : Store} {md : Module} {inst : ℕ} :
    GlobalLinkTyped l module name c s md s' inst ↔
      (∃ imp ∈ md.imports, ¬ (linkerDefineGlobal l module name c).Binds s md imp) ∨
        ∀ imp ∈ md.imports, imp.module = module → imp.name = name → ∀ gt, imp.ty = .global gt →
          kindOf gt.content = some c.kind ∧ c.Fits s' inst gt.content := by
  rw [← Linker.forall_resolve_iff, GlobalLinkTyped]
  refine forall₂_congr fun r hr => ?_
  have htyped : ∀ imp v, (linkerDefineGlobal l module name c).GlobalBacked imp v →
      ((imp.module = module → imp.name = name → ∀ gt, imp.ty = .global gt →
        kindOf gt.content = some c.kind ∧ s'.Holds inst v gt.content) ↔
      (imp.module = module → imp.name = name → ∀ gt, imp.ty = .global gt →
        kindOf gt.content = some c.kind ∧ c.Fits s' inst gt.content)) := by
    intro imp v hbacked
    refine forall_congr' fun hm => forall_congr' fun hn => forall₂_congr fun gt _ => ?_
    -- The name is the one that was defined last.
    have hv : v = toValue c := hbacked _ (by rw [hm, hn]; exact Linker.exact_insert l module name _)
    rw [hv, holds_toValue_iff]
  rw [forall₂_iff_of_forall₂ (Linker.globals_resolve hr) htyped]
  constructor
  · intro h imp himp hm hn gt hgt
    exact h imp (List.mem_filter.mpr ⟨himp, by rw [Import.isGlobal, hgt]⟩) hm hn gt hgt
  · exact fun h imp himp => h imp (List.mem_of_mem_filter himp)

/-- A call passes what C wrote to the engine, whatever the kinds. -/
theorem prepareCall_eq_ok {s : CStore} {h : BitVec 64} {nargs nresults : ℕ} {args : Option (Fin nargs → CVal)}
    {call : Call} (hok : prepareCall s h args nresults = .ok call) :
    ∃ ft ins, Callable s h args nresults call.id ft ins ∧ s.inner.funcType call.id call.func = some ft ∧
      call.args = ins.map toValue := by
  simp only [prepareCall, Except.bind_eq_ok, orError_eq_ok, ensure_eq_ok, beq_iff_eq, Except.pure_eq_ok] at hok
  obtain ⟨⟨id, fi⟩, hfunc, ft, hft, -, hparams, -, hresults, resultKinds, hresultKinds, paramKinds, hparamKinds, ins,
    hins, rfl⟩ := hok
  exact ⟨ft, ins, ⟨⟨fi, hfunc, hft⟩, hparams, hresults, ⟨by rw [hparamKinds]; rfl, by rw [hresultKinds]; rfl⟩, hins⟩,
    hft, rfl⟩

theorem exists_prepareCall {s : CStore} {h : BitVec 64} {nargs nresults : ℕ} {args : Option (Fin nargs → CVal)}
    {id : InstanceId} {ft : FuncType} {ins : List CVal} (hcall : Callable s h args nresults id ft ins) :
    ∃ call, prepareCall s h args nresults = .ok call ∧ call.id = id ∧ call.args = ins.map toValue ∧
      s.inner.funcType call.id call.func = some ft := by
  obtain ⟨fi, hfunc, hft⟩ := hcall.func
  obtain ⟨paramKinds, hparamKinds⟩ := Option.isSome_iff_exists.mp hcall.carries.1
  obtain ⟨resultKinds, hresultKinds⟩ := Option.isSome_iff_exists.mp hcall.carries.2
  refine ⟨⟨id, fi, resultKinds, ins.map toValue⟩, ?_, rfl, rfl, hft⟩
  simp only [prepareCall, Except.bind_eq_ok, orError_eq_ok, ensure_eq_ok, beq_iff_eq, Except.pure_eq_ok]
  exact ⟨⟨id, fi⟩, hfunc, ft, hft, ⟨⟩, hcall.params, ⟨⟩, hcall.results, resultKinds, hresultKinds, paramKinds,
    hparamKinds, ins, hcall.args, rfl⟩

/-- The arguments that reach the engine are typed exactly when C wrote what fits the parameters. -/
theorem callTyped_iff {s : CStore} {h : BitVec 64} {nargs nresults : ℕ} {args : Option (Fin nargs → CVal)} :
    CallTyped s h args nresults ↔ ∀ id ft ins, Callable s h args nresults id ft ins →
      List.Forall₂ (fun c ty => CVal.Fits s.inner id.index c ty) ins ft.params := by
  have hfits : ∀ (id : InstanceId) (ins : List CVal) (tys : List ValType),
      List.Forall₂ (s.inner.Holds id.index) (ins.map toValue) tys ↔
        List.Forall₂ (fun c ty => CVal.Fits s.inner id.index c ty) ins tys := by
    intro id ins tys
    rw [List.forall₂_map_left_iff]
    simp only [holds_toValue_iff]
  constructor
  · intro htyped id ft ins hcall
    obtain ⟨call, hok, rfl, hargs, hft⟩ := exists_prepareCall hcall
    rw [← hfits, ← hargs]
    exact htyped call hok ft hft
  · intro hall call hok ft hft
    obtain ⟨ft', ins, hcall, hft', hargs⟩ := prepareCall_eq_ok hok
    obtain rfl := Option.some.inj (hft.symm.trans hft')
    rw [hargs, hfits]
    exact hall _ _ _ hcall

/-- The slot of what was written for a result. -/
theorem toValue_written (f : CFunc) (out : Fin f.buffer.length → CVal) (i : ℕ) :
    toValue (f.written out i) = if h : i < f.buffer.length then toValue (out ⟨i, h⟩) else 0 := by
  rw [CFunc.written]
  split_ifs
  · rfl
  · rfl

/-- The results in the engine are typed exactly when, place by place, what the callback wrote fits. -/
theorem resultsTyped_iff {f : CFunc} {args : List Value} {ft : FuncType} {s : Store} {inst : ℕ} :
    ResultsTyped f args ft s inst ↔ ∀ ins out, f.marshal args = some ins → f.callback ins f.buffer = .ok out →
      ∀ i ty, ft.results[i]? = some ty → (f.written out i).Fits s inst ty := by
  have hslots : ∀ out : Fin f.buffer.length → CVal,
      List.Forall₂ (s.Holds inst) ((List.replicate ft.results.length (0 : Value)).mapIdx fun i slot =>
        if h : i < f.buffer.length then toValue (out ⟨i, h⟩) else slot) ft.results ↔
      ∀ i ty, ft.results[i]? = some ty → (f.written out i).Fits s inst ty := by
    intro out
    rw [List.forall₂_iff_get]
    simp only [List.length_mapIdx, List.length_replicate, true_and, List.get_eq_getElem, List.getElem_mapIdx,
      List.getElem_replicate, ← toValue_written, holds_toValue_iff]
    constructor
    · intro h i ty hty
      obtain ⟨hi, rfl⟩ := List.getElem?_eq_some_iff.mp hty
      exact h i hi hi
    · exact fun h i hi _ => h i _ (List.getElem?_eq_getElem hi)
  simp only [ResultsTyped, hostCall, Except.bind_eq_ok, orError_eq_ok, Except.pure_eq_ok]
  constructor
  · intro h ins out hins hout
    exact (hslots out).mp (h _ ⟨ins, hins, out, hout, rfl⟩)
  · rintro h _ ⟨ins, hins, out, hout, rfl⟩
    exact (hslots out).mpr (h ins out hins hout)

/-- The buffer has no place for a result that is declared an `externref`: the zero of that kind cannot cross. -/
theorem length_buffer (f : CFunc) : f.buffer.length = f.results.countP (· ≠ .externref) := by
  rw [CFunc.buffer, List.length_filterMap_eq_countP]
  congr 1
  funext kind
  cases kind <;> rfl

/-- What crosses the boundary is typed exactly when the embedder declares and writes what the module expects. -/
theorem boundary_typed_iff (l : Linker HostFn) (module name : String) (f : CFunc) (c : CVal) (s : Store) (md : Module)
    (typeIds : List ℕ) (s' : Store) (inst : ℕ) (cs : CStore) (h : BitVec 64) (nargs nresults : ℕ)
    (args : Option (Fin nargs → CVal)) (values : List Value) (ft : FuncType) :
    (FuncLinkTyped l module name f s md typeIds ↔
      (∃ imp ∈ md.imports, ¬ (linkerDefineFunc l module name f).Binds s md imp) ∨
        ∀ imp ∈ md.imports, imp.module = module → imp.name = name → ∀ ft, imp.ty = .func ft → imp.exact = false →
          f.Declares ft) ∧
    (GlobalLinkTyped l module name c s md s' inst ↔
      (∃ imp ∈ md.imports, ¬ (linkerDefineGlobal l module name c).Binds s md imp) ∨
        ∀ imp ∈ md.imports, imp.module = module → imp.name = name → ∀ gt, imp.ty = .global gt →
          kindOf gt.content = some c.kind ∧ c.Fits s' inst gt.content) ∧
    (CallTyped cs h args nresults ↔ ∀ id ft ins, Callable cs h args nresults id ft ins →
      List.Forall₂ (fun c ty => CVal.Fits cs.inner id.index c ty) ins ft.params) ∧
    (ResultsTyped f values ft s inst ↔ ∀ ins out, f.marshal values = some ins → f.callback ins f.buffer = .ok out →
      ∀ i ty, ft.results[i]? = some ty → (f.written out i).Fits s inst ty) :=
  ⟨funcLinkTyped_iff, globalLinkTyped_iff, callTyped_iff, resultsTyped_iff⟩

/-- A number does not fit the slot of an `externref`, unless it is the word of null. -/
theorem not_fits_externref {s : Store} {inst : ℕ} {c : CVal} {n : Bool} (hnull : c.member ≠ BitVec.allOnes 64)
    (hkind : c.kind ≠ .externref) : ¬ c.Fits s inst (.ref .external n) := by
  unfold CVal.Fits
  dsimp only
  rw [if_neg hnull, if_neg hkind]
  exact id

/-- A host function that leaves its buffer as it is. -/
def idleFunc (results : List ValKind) : CFunc := ⟨[], results, fun _ out => .ok out.get⟩

/-- A module that imports a function with the result of a type. -/
def importsResult (ty : ValType) : Module where
  compTypes := [.func ⟨[], [ty]⟩]
  imports := [⟨"env", "f", .func ⟨[], [ty]⟩, some 0, false⟩]

/-- A module that imports a global of a type. -/
def importsContent (ty : ValType) : Module where
  imports := [⟨"env", "g", .global ⟨ty, false⟩, none, false⟩]
  globals := [⟨ty, false⟩]

/-- A module that exports a function with a parameter of type `externref`. -/
def takesExternref : Module where
  compTypes := [.func ⟨[.ref .external true], []⟩]
  functions := [0]
  code := [⟨[], []⟩]
  exports := [⟨"f", 0, .func ⟨[.ref .external true], []⟩⟩]

/-- A store with one instance, and a handle for its function. -/
def oneFunc : CStore where
  tag := 1
  inner := { code := [{ module := takesExternref, typeIds := [0] }] }
  instances := [⟨0, 0⟩]
  funcs := [(0, 0)]

/-- A function declared to return an `i32` links to the import of one that returns an `i64`; the number 5 links to a
global of type `externref`, and is passed for a parameter of that type; and a callback with its own `externref` declared
as the module imports it leaves the number 0, which is no such reference. -/
theorem boundary_untyped :
    ¬ FuncLinkTyped {} "env" "f" (idleFunc [.i32]) {} (importsResult .i64) [0] ∧
    ¬ GlobalLinkTyped {} "env" "g" ⟨.i64, 5⟩ {} (importsContent (.ref .external true)) {} 0 ∧
    ¬ CallTyped oneFunc 0x100000001 (some fun _ : Fin 1 => ⟨.i64, 5⟩) 0 ∧
    (idleFunc [.externref]).Declares ⟨[], [.ref .external true]⟩ ∧
    ¬ ResultsTyped (idleFunc [.externref]) [] ⟨[], [.ref .external true]⟩ {} 0 := by
  refine ⟨?_, ?_, ?_, by decide, ?_⟩
  · rw [funcLinkTyped_iff]
    rintro (⟨imp, himp, hunbound⟩ | hdeclared)
    · obtain rfl := List.mem_singleton.mp himp
      exact hunbound trivial
    · exact absurd (hdeclared _ (List.mem_singleton.mpr rfl) rfl rfl _ rfl rfl) (by decide)
  · rw [globalLinkTyped_iff]
    rintro (⟨imp, himp, hunbound⟩ | hdeclared)
    · obtain rfl := List.mem_singleton.mp himp
      exact hunbound trivial
    · exact absurd (hdeclared _ (List.mem_singleton.mpr rfl) rfl rfl _ rfl).1 (by decide)
  · rw [callTyped_iff]
    intro hall
    have hcall : Callable oneFunc 0x100000001 (some fun _ : Fin 1 => (⟨.i64, 5⟩ : CVal)) 0 ⟨0, 0⟩
        ⟨[.ref .external true], []⟩ [⟨.i64, 5⟩] := ⟨⟨0, rfl, rfl⟩, rfl, rfl, ⟨rfl, rfl⟩, rfl⟩
    obtain ⟨⟩ | ⟨hfits, -⟩ := hall _ _ _ hcall
    exact not_fits_externref (by decide) (by decide) hfits
  · rw [resultsTyped_iff]
    intro hall
    exact not_fits_externref (by decide) (by decide) (hall [] _ rfl rfl 0 _ rfl)

end Capi

end Wasmrt
