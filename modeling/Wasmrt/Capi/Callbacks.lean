import Wasmrt.Capi.Boundary

/-!
# Calls of C callbacks

The guest calls an import that C has bound to a callback. The callback finds one slot per argument, in the kinds that C
declared, and a buffer for the results; what it leaves there is what the call returns. The buffer is made from the zeros
of the declared kinds, and the zero of an `externref` does not cross: from the first such result on, the slots of the
buffer are not those of the results.

## Main definitions

* `Callback`, `Callback.hostFunc`: a callback with its environment, and the host function the linker makes of it.
* `GuestCall`: a step of the machine that runs a callback.
* `GuestCall.Positional`: every argument, every result and every value that was written has its own place.

## Main results

* `marshal_eq_none_iff`: which calls are refused before the callback runs.
* `positional_iff`: the places are right exactly when no result is declared an `externref`.
-/

namespace Wasmrt.Capi

/-! ## Callbacks -/

/-- What a callback did: the state of its environment, its writes to the memory of the caller, and what the buffer holds
in the end or the message of its trap. -/
structure CallbackResult (W : Type) (n : ℕ) where
  world : W
  writes : List (ℕ × List UInt8) := []
  outcome : Except String (Fin n → CVal)

/-- A callback as C registers it: the kinds it declares, and a function of the caller's first memory, the arguments and
the buffer. -/
structure Callback (W : Type) where
  params : List ValKind
  results : List ValKind
  run : Option (List UInt8) → List CVal → (out : List CVal) → W → CallbackResult W out.length

namespace Callback

variable {W : Type} (f : Callback W)

/-- The callback in one state of the caller and of its environment. -/
def inState (memory : Option (List UInt8)) (w : W) : CFunc :=
  ⟨f.params, f.results, fun ins out => (f.run memory ins out w).outcome⟩

/-- The closure that the linker keeps. A call whose arguments do not cross ends before the callback. -/
def hostFunc : HostFunc W := fun memories args nresults w =>
  let memory := memories.head?.join
  let call := f.inState memory w
  match call.marshal args with
  | none => { world := w, outcome := .error .hostTrap }
  | some ins =>
    let r := f.run memory ins call.buffer w
    { world := r.world
      writes := r.writes.map fun write => (0, write)
      outcome := (hostCall call args nresults).mapError fun _ => .hostTrap }

end Callback

/-! ## The slots -/

section Slots

variable {f : CFunc} {args : List Value}

theorem kind_of_fromValue {kind : ValKind} {v : Value} {c : CVal} (h : fromValue kind v = some c) : c.kind = kind := by
  cases kind with
  | funcref | externref =>
    rw [fromValue, Option.map_eq_some_iff] at h
    obtain ⟨_, -, rfl⟩ := h
    rfl
  | _ =>
    obtain rfl := Option.some.inj h
    rfl

/-- The zero of an `externref` is no null, and does not cross; every other zero does. -/
theorem fromValue_zero (kind : ValKind) :
    fromValue kind 0 = if kind = .externref then none else some ⟨kind, 0⟩ := by
  cases kind <;> rfl

theorem buffer_eq (f : CFunc) : f.buffer = (f.results.filter (· ≠ .externref)).map (⟨·, 0⟩) := by
  rw [CFunc.buffer]
  induction f.results with
  | nil => rfl
  | cons kind kinds ih =>
    rw [List.filterMap_cons, ih, fromValue_zero]
    cases kind <;> rfl

/-- The buffer has the declared kinds exactly when no result is an `externref`. -/
theorem kinds_buffer_iff (f : CFunc) : f.buffer.map (·.kind) = f.results ↔ ValKind.externref ∉ f.results := by
  rw [buffer_eq, List.map_map]
  change List.map id _ = _ ↔ _
  rw [List.map_id, List.filter_eq_self]
  simp only [ne_eq, decide_not, Bool.not_eq_true', decide_eq_false_iff_not]
  exact ⟨fun h hmem => h _ hmem rfl, fun h kind hmem heq => h (heq ▸ hmem)⟩

/-- Every argument crosses in its own place, as the kind that is declared there. -/
theorem marshal_eq_some {ins : List CVal} (hlength : args.length = f.params.length) :
    f.marshal args = some ins ↔
      ins.length = f.params.length ∧
        ∀ i (hi : i < f.params.length) (hin : i < ins.length), fromValue f.params[i] args[i] = some ins[i] := by
  rw [CFunc.marshal, mapM_eq_some, List.forall₂_iff_get]
  simp only [List.length_zipIdx, hlength, List.get_eq_getElem, List.getElem_zipIdx, Nat.zero_add]
  refine and_congr eq_comm (forall_congr' fun i => forall_congr' fun hi => forall_congr' fun hin => ?_)
  rw [List.getD_eq_getElem?_getD, List.getElem?_eq_getElem hi, Option.getD_some]

theorem kinds_marshal {ins : List CVal} (h : f.marshal args = some ins) (hlength : args.length = f.params.length) :
    ins.map (·.kind) = f.params := by
  obtain ⟨hins, hslots⟩ := (marshal_eq_some hlength).mp h
  refine List.ext_getElem (by rw [List.length_map, hins]) fun i hi hparam => ?_
  rw [List.getElem_map]
  exact kind_of_fromValue (hslots i hparam _)

/-- What does not cross is an `externref` around anything but a host address. -/
theorem fromValue_eq_none_iff {kind : ValKind} {v : Value} :
    fromValue kind v = none ↔ kind = .externref ∧ v ≠ nullRef ∧ (v &&& externTag = 0 ∨ v &&& hostTag = 0) := by
  cases kind with
  | externref =>
    rw [fromValue, Option.map_eq_none_iff, refBits]
    simp only [ne_eq, not_true_eq_false, false_or, true_and]
    split_ifs with hnull htag
    · exact iff_of_false nofun fun h => h.1 hnull
    · exact iff_of_true rfl ⟨hnull, htag⟩
    · exact iff_of_false nofun fun h => htag h.2
  | funcref => exact iff_of_false (by simp [fromValue, refBits]) fun h => by cases h.1
  | _ => exact iff_of_false (by simp [fromValue]) fun h => by cases h.1

/-- A call is refused before the callback runs exactly when an argument does not cross. -/
theorem marshal_eq_none_iff :
    f.marshal args = none ↔ ∃ i a, args[i]? = some a ∧ fromValue (f.params.getD i .i64) a = none := by
  have hmem : ∀ p, p ∈ args.zipIdx ↔ args[p.2]? = some p.1 := fun p => List.mem_zipIdx_iff_getElem?
  have hnone : ∀ {l : List (Value × ℕ)} {g : Value × ℕ → Option CVal}, l.mapM g = none ↔ ∃ p ∈ l, g p = none := by
    intro l g
    induction l with
    | nil => simp
    | cons p l ih =>
      rw [List.mapM_cons]
      cases hp : g p with
      | none => simp [hp]
      | some c =>
        simp only [Option.bind_eq_bind, Option.bind_some, Option.pure_def, Option.bind_eq_none_iff, reduceCtorEq,
          imp_false, List.exists_mem_cons_iff, hp, false_or, ← ih]
        exact Option.eq_none_iff_forall_ne_some.symm
  rw [CFunc.marshal, hnone]
  constructor
  · rintro ⟨p, hp, hnone⟩
    exact ⟨p.2, p.1, (hmem p).mp hp, hnone⟩
  · rintro ⟨i, a, ha, hnone⟩
    exact ⟨(a, i), (hmem (a, i)).mpr ha, hnone⟩

end Slots

namespace Callback

variable {W : Type} {f : Callback W} {memories : List (Option (List UInt8))} {args : List Value} {w : W} {n : ℕ}

theorem hostFunc_of_refused (h : (f.inState memories.head?.join w).marshal args = none) :
    f.hostFunc memories args n w = { world := w, outcome := .error .hostTrap } := by
  simp only [hostFunc, h]

theorem outcome_hostFunc {ins : List CVal} (h : (f.inState memories.head?.join w).marshal args = some ins)
    {out : Fin (f.inState memories.head?.join w).buffer.length → CVal}
    (hout : (f.run memories.head?.join ins (f.inState memories.head?.join w).buffer w).outcome = .ok out) :
    (f.hostFunc memories args n w).outcome = .ok ((List.replicate n 0).mapIdx fun i slot =>
      if hslot : i < (f.inState memories.head?.join w).buffer.length then toValue (out ⟨i, hslot⟩) else slot) := by
  have hcall : hostCall (f.inState memories.head?.join w) args n = .ok ((List.replicate n 0).mapIdx fun i slot =>
      if hslot : i < (f.inState memories.head?.join w).buffer.length then toValue (out ⟨i, hslot⟩) else slot) := by
    simp only [hostCall, Except.bind_eq_ok, orError_eq_ok, Except.pure_eq_ok]
    exact ⟨ins, h, out, hout, rfl⟩
  simp only [hostFunc, h, hcall]
  rfl

end Callback

/-! ## Calls from the guest -/

/-- The machine at an import that is bound to a callback, and declared with the callback's type. -/
structure GuestCall (W : Type) where
  env : Env W
  config : Config W
  callback : Callback W
  inst : ℕ
  func : ℕ
  args : List Value
  tailed : Bool
  depth : ℕ
  data : InstanceData
  host : ℕ
  ty : FuncType
  control_eq : config.control = .dispatch inst func args tailed depth
  code_eq : env.code[inst]? = some data
  isImport : func < data.module.importedFuncCount
  target_eq : data.imports[func]? = some (.host host)
  bound : env.hostFuncs[host]? = some callback.hostFunc
  funcType_eq : data.module.funcType func = some ty
  params_eq : kinds ty.params = some callback.params
  results_eq : kinds ty.results = some callback.results
  length_args : args.length = ty.params.length

theorem length_kinds {ts : List ValType} {ks : List ValKind} (h : kinds ts = some ks) : ts.length = ks.length :=
  (mapM_eq_some.mp h).length_eq

namespace GuestCall

variable {W : Type} (g : GuestCall W)

/-- The memory that the callback sees: the first of the calling instance. -/
def memory : Option (List UInt8) :=
  (g.data.maps.memories.map fun slot => (g.config.exec.pools.memories[slot]?).map (·.bytes)).head?.join

/-- The callback as it is called. -/
def call : CFunc := g.callback.inState g.memory g.config.world

/-- What the callback is given for the arguments; `none` if the call is refused before. -/
def given : Option (List CVal) := g.call.marshal g.args

/-- Every parameter has its slot and every result its slot in the buffer, of the declared kinds, and what the callback
leaves in the slot of a result is what the guest receives for it. -/
structure Positional (ins : List CVal) : Prop where
  params : ins.map (·.kind) = g.callback.params
  args : ∀ (i : ℕ) (k : ValKind) (a : Value), g.callback.params[i]? = some k → g.args[i]? = some a →
    ins[i]? = fromValue k a
  results : g.call.buffer.map (·.kind) = g.callback.results
  received : ∀ out, (g.callback.run g.memory ins g.call.buffer g.config.world).outcome = .ok out →
    ∃ c' rs, g.config.step g.env = some ([], c') ∧ c'.control = .ret rs ∧ rs.length = g.callback.results.length ∧
      ∀ i (hi : i < rs.length), ∃ hslot : i < g.call.buffer.length, rs[i] = toValue (out ⟨i, hslot⟩)

theorem step_eq : g.config.step g.env =
    some ([], callHost g.config g.data.maps g.callback.hostFunc g.args g.ty.results.length) := by
  rw [Config.step, g.control_eq]
  simp only [stepDispatch, g.code_eq, g.isImport, g.target_eq, g.bound, g.funcType_eq, if_true]

theorem length_args_eq : g.args.length = g.call.params.length :=
  g.length_args.trans (length_kinds g.params_eq)

/-- A refused call is a trap, and changes nothing. -/
theorem step_of_refused (h : g.given = none) :
    ∃ c', g.config.step g.env = some ([], c') ∧ c'.control = .fail .hostTrap ∧ c'.world = g.config.world ∧
      c'.exec = g.config.exec := by
  refine ⟨_, g.step_eq, ?_⟩
  rw [callHost, Callback.hostFunc_of_refused h]
  exact ⟨rfl, rfl, rfl⟩

/-- What the callback leaves in its buffer is what the call returns, as far as the buffer reaches. -/
theorem step_of_given {ins : List CVal} (h : g.given = some ins) {out : Fin g.call.buffer.length → CVal}
    (hout : (g.callback.run g.memory ins g.call.buffer g.config.world).outcome = .ok out) :
    ∃ c', g.config.step g.env = some ([], c') ∧
      c'.control = .ret ((List.replicate g.callback.results.length 0).mapIdx fun i slot =>
        if hslot : i < g.call.buffer.length then toValue (out ⟨i, hslot⟩) else slot) := by
  refine ⟨_, g.step_eq, ?_⟩
  rw [callHost, length_kinds g.results_eq]
  dsimp only
  rw [Callback.outcome_hostFunc h hout]
  simp only [resize, List.length_mapIdx, List.length_replicate, Nat.sub_self, List.replicate_zero, List.append_nil]
  rw [List.take_of_length_le (by simp)]
  rfl

/-- The places are right exactly when no result is declared an `externref`. -/
theorem positional_iff {ins : List CVal} (hgiven : g.given = some ins) :
    g.Positional ins ↔ ValKind.externref ∉ g.callback.results := by
  refine ⟨fun h => (kinds_buffer_iff g.call).mp h.results, fun h => ?_⟩
  have hkinds : g.call.buffer.map (·.kind) = g.callback.results := (kinds_buffer_iff g.call).mpr h
  have hlength : g.call.buffer.length = g.callback.results.length := by rw [← hkinds, List.length_map]
  obtain ⟨hins, hslots⟩ := (marshal_eq_some g.length_args_eq).mp hgiven
  refine ⟨kinds_marshal hgiven g.length_args_eq, fun i k a hk ha => ?_, hkinds, fun out hout => ?_⟩
  · obtain ⟨hi, rfl⟩ := List.getElem?_eq_some_iff.mp hk
    obtain ⟨_, rfl⟩ := List.getElem?_eq_some_iff.mp ha
    rw [List.getElem?_eq_getElem (hins ▸ hi)]
    exact (hslots i hi _).symm
  · obtain ⟨c', hstep, hcontrol⟩ := g.step_of_given hgiven hout
    refine ⟨c', _, hstep, hcontrol, by simp, fun i hi => ?_⟩
    have hslot : i < g.call.buffer.length := by simpa [hlength] using hi
    exact ⟨hslot, by rw [List.getElem_mapIdx, dif_pos hslot]⟩

end GuestCall

/-- A call by an instance whose module imports the callback, with its type, and nothing else. -/
def callOf (callback : Callback Unit) (ty : FuncType) (args : List Value)
    (hparams : kinds ty.params = some callback.params) (hresults : kinds ty.results = some callback.results)
    (hargs : args.length = ty.params.length) : GuestCall Unit where
  env :=
    { code := [{ module := { compTypes := [.func ty], imports := [⟨"env", "f", .func ty, some 0, false⟩] }
                 typeIds := [0], imports := [.host 0] }]
      hostFuncs := [callback.hostFunc]
      ops := .unsupported }
  config :=
    { control := .dispatch 0 0 args false 1
      stack := []
      exec := { runLimits := { maxCallDepth := 8, maxExnBoxes := 1, maxIterations := 0 } }
      world := () }
  callback
  inst := 0
  func := 0
  args
  tailed := false
  depth := 1
  data :=
    { module := { compTypes := [.func ty], imports := [⟨"env", "f", .func ty, some 0, false⟩] }
      typeIds := [0], imports := [.host 0] }
  host := 0
  ty
  control_eq := rfl
  code_eq := rfl
  isImport := Nat.zero_lt_one
  target_eq := rfl
  bound := rfl
  funcType_eq := rfl
  params_eq := hparams
  results_eq := hresults
  length_args := hargs

/-- A callback that leaves its buffer as it is. -/
def idle (params results : List ValKind) : Callback Unit :=
  ⟨params, results, fun _ _ out w => { world := w, outcome := .ok out.get }⟩

/-- The guest calls `(func (param externref i32) (result i64 funcref))` with null and the number 7. -/
def sampleCall : GuestCall Unit :=
  callOf (idle [.externref, .i32] [.i64, .funcref]) ⟨[.ref .external true, .i32], [.i64, .ref .func true]⟩ [nullRef, 7]
    (by decide) (by decide) rfl

theorem positional_sampleCall : sampleCall.Positional [⟨.externref, BitVec.allOnes 64⟩, ⟨.i32, 7⟩] :=
  (GuestCall.positional_iff sampleCall (by decide)).mpr (by decide)

/-- The guest calls `(func (result externref i32))`. The buffer has one slot, for the second result, and its value is
what the guest receives for the first. -/
theorem not_positional_externref :
    ∃ (g : GuestCall Unit) (ins : List CVal), g.given = some ins ∧ ¬ g.Positional ins := by
  refine ⟨callOf (idle [] [.externref, .i32]) ⟨[], [.ref .external true, .i32]⟩ [] (by decide) (by decide) rfl, [], rfl,
    fun h => ?_⟩
  exact absurd h.results (by decide)

end Wasmrt.Capi
