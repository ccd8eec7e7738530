import Wasmrt.Interp.Machine

/-!
# A store in use

The host instantiates modules into a store and invokes their functions, one call at a time: while a
guest runs the store is borrowed, and a host function is handed the caller's memories only. What an
invocation leaves behind is the pools. The budget, the pending exception and the boxed exceptions are
set up at its entry.

## Main definitions

* `Session`: a store between two calls, or with an invocation under way.
* `Exec.enter`, `Exec.exit`: what `invoke_index` does around the call.
* `Session.invoke`, `Session.instantiate`, `Session.advance`: what may happen next.
* `Session.Step`, `Session.Run`: one of these, and any number of them.
-/

namespace Wasmrt

variable {W : Type}

/-- Between two calls, or in one; `outermost` when the host made it. -/
inductive Phase (W : Type)
  | idle (exec : Exec) (world : W)
  | running (c : Config W) (outermost : Bool)

/-- A store in use: its id, the code of its instances with the host functions, and what goes on. -/
structure Session (W : Type) where
  id : ℕ
  env : Env W
  phase : Phase W

/-- The state of an invocation on entry. A call from the host has the whole budget. -/
def Exec.enter (x : Exec) : Exec :=
  let x := if x.inGuest then x else { x with fuel := x.runLimits.maxIterations, inGuest := true }
  { x with exnStore := [], pendingExn := none }

/-- The state once the call is over. -/
def Exec.exit (x : Exec) (outermost failed : Bool) : Exec :=
  { x with
    pendingExn := if failed then none else x.pendingExn
    inGuest := if outermost then false else x.inGuest }

namespace Session

variable (s : Session W)

/-- The store of an idle session. -/
def store (x : Exec) : Store :=
  { id := s.id, code := s.env.code, hostFuncs := s.env.hostFuncs.length, pools := x.pools }

/-- Invoke a function by its index: the checks, and the call. -/
def invoke (x : Exec) (w : W) (id : InstanceId) (func : ℕ) (args : List Value) :
    Except Trap (Session W) := do
  let inst ← orError .undefinedFunc ((s.store x).slot id)
  let ft ← orError .undefinedFunc ((s.env.code[inst]?).bind (·.module.funcType func))
  ensure (args.length == ft.params.length) .badArgCount
  let c : Config W := { control := .call inst func args 1, stack := [], exec := x.enter, world := w }
  pure { s with phase := .running c (!x.inGuest) }

/-- The session with the store an instantiation left; the host functions it bound are the last ones. -/
def withStore (st : Store) (hosts : List (HostFunc W)) (x : Exec) (w : W) : Session W :=
  { s with
    env := { s.env with code := st.code, hostFuncs := (s.env.hostFuncs ++ hosts).take st.hostFuncs }
    phase := .idle { x with pools := st.pools } w }

/-- Instantiate a module, and invoke its start function. What a failure has done stays. -/
def instantiate (x : Exec) (w : W) (m : Module) (imports : Imports) (hosts : List (HostFunc W)) :
    Session W :=
  match Store.instantiate m imports (s.store x) with
  | .error _ st => s.withStore st hosts x w
  | .ok id st =>
    let s' := s.withStore st hosts x w
    match m.start with
    | none => s'
    | some func =>
      match s'.invoke { x with pools := st.pools } w id func [] with
      | .error _ => s'
      | .ok s'' => s''

/-- The invocation takes a step, or returns to the host. -/
def advance (c : Config W) (outermost : Bool) : List Event × Session W :=
  match c.step s.env with
  | some (es, c') => (es, { s with phase := .running c' outermost })
  | none =>
    let failed := match c.control with
      | .fail _ => true
      | _ => false
    ([], { s with phase := .idle (c.exec.exit outermost failed) c.world })

/-- What an entry reports. -/
def entered : List Event :=
  match s.phase with
  | .running .. => [.entry]
  | .idle .. => []

/-- What may happen to a session next, with what it reports. -/
inductive Step : Session W → List Event → Session W → Prop
  | invoke {s s' : Session W} {x : Exec} {w : W} (hidle : s.phase = .idle x w) (id : InstanceId)
    (func : ℕ) (args : List Value) (h : s.invoke x w id func args = .ok s') : Step s [.entry] s'
  | instantiate {s : Session W} {x : Exec} {w : W} (hidle : s.phase = .idle x w) (m : Module)
    (imports : Imports) (hosts : List (HostFunc W)) :
    Step s (s.instantiate x w m imports hosts).entered (s.instantiate x w m imports hosts)
  | advance {s : Session W} {c : Config W} {outermost : Bool}
    (hrunning : s.phase = .running c outermost) :
    Step s (s.advance c outermost).1 (s.advance c outermost).2

/-- Any number of steps, with all they report. -/
inductive Run : Session W → List Event → Session W → Prop
  | refl (s : Session W) : Run s [] s
  | tail {s s' s'' : Session W} {es es' : List Event} (hrun : Run s es s') (hstep : Step s' es' s'') :
    Run s (es ++ es') s''

/-- The next `n` steps of the invocation, or as many as there are. -/
def runFor : ℕ → Session W → List Event × Session W
  | 0, s => ([], s)
  | n + 1, s =>
    match s.phase with
    | .idle .. => ([], s)
    | .running c outermost =>
      let r := s.advance c outermost
      (r.1 ++ (runFor n r.2).1, (runFor n r.2).2)

theorem Run.trans {s s' s'' : Session W} {es es' : List Event} (h : Run s es s')
    (h' : Run s' es' s'') : Run s (es ++ es') s'' := by
  induction h' with
  | refl => rwa [List.append_nil]
  | tail _ hstep ih =>
    rw [← List.append_assoc]
    exact .tail ih hstep

theorem run_runFor (n : ℕ) (s : Session W) : Run s (s.runFor n).1 (s.runFor n).2 := by
  induction n generalizing s with
  | zero => exact .refl s
  | succ n ih =>
    simp only [runFor]
    cases hphase : s.phase with
    | idle x w => exact .refl s
    | running c outermost => exact Run.trans (.tail (.refl s) (.advance hphase)) (ih _)

/-- An invocation and its first `n` steps; a call that is refused changes nothing. -/
def call (s : Session W) (id : InstanceId) (func : ℕ) (args : List Value) (n : ℕ) :
    List Event × Session W :=
  match s.phase with
  | .running .. => ([], s)
  | .idle x w =>
    match s.invoke x w id func args with
    | .error _ => ([], s)
    | .ok s' => (.entry :: (s'.runFor n).1, (s'.runFor n).2)

theorem run_call (s : Session W) (id : InstanceId) (func : ℕ) (args : List Value) (n : ℕ) :
    Run s (s.call id func args n).1 (s.call id func args n).2 := by
  unfold call
  cases hphase : s.phase with
  | running c outermost => exact .refl s
  | idle x w =>
    simp only
    cases hinvoke : s.invoke x w id func args with
    | error t => exact .refl s
    | ok s' => exact Run.trans (.tail (.refl s) (.invoke hphase id func args hinvoke)) (run_runFor n s')

end Session

/-- The state of the invocation, or of the last one. -/
def Phase.exec : Phase W → Exec
  | .idle x _ => x
  | .running c _ => c.exec

end Wasmrt
