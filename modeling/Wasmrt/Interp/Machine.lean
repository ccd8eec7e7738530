import Wasmrt.Interp.CallIndirect
import Wasmrt.Interp.Frame

/-!
# The interpreter as a machine

The source interprets a body by a loop and a call by recursion. Here the callers that wait are a stack,
and one step is one instruction, one entry of a function, or one return. A tail call replaces the
activation and goes back to where the callee is looked up, in the state the source's loop is in then; a
call of an imported function of another instance goes on as a call one level deeper.

## Main definitions

* `Flow`, `flow`: what an instruction does to its activation.
* `Control`, `Config`: what the machine is doing, and its state.
* `Config.step`: one step, with what it reports; none once the invocation has ended.
-/

namespace Wasmrt

/-! ## Host functions -/

/-- What a host function did: the state of its closure, its writes to the caller's memories as memory
index, address and bytes, and its results or a trap. -/
structure HostResult (W : Type) where
  world : W
  writes : List (ℕ × ℕ × List UInt8) := []
  outcome : Except Trap (List Value)

/-- A host function: the memories its caller lets it read, the arguments and the number of results. -/
abbrev HostFunc (W : Type) := List (Option (List UInt8)) → List Value → ℕ → W → HostResult W

/-- The code of a store, the host functions bound in it, and the parameter instructions. -/
structure Env (W : Type) where
  code : List InstanceData
  hostFuncs : List (HostFunc W) := []
  ops : Ops

/-- A host function writes bytes to a memory; out of range it does nothing. -/
def Pools.hostWrite (maps : IndexMaps) (p : Pools) (w : ℕ × ℕ × List UInt8) : Pools :=
  match p.memories[maps.mem w.1]? with
  | some mem =>
    if w.2.1 + w.2.2.length ≤ mem.bytes.length then
      let mem' := { mem with bytes := writeAt mem.bytes w.2.1 w.2.2 }
      { p with memories := p.memories.set (maps.mem w.1) mem' }
    else p
  | none => p

/-! ## Activations -/

/-- A running function body: its instance and function, the call depth, the frame and the position. -/
structure Activation where
  inst : ℕ
  func : ℕ
  depth : ℕ
  frame : CallFrame
  pc : ℕ
  deriving DecidableEq, Repr

namespace Activation

variable (a : Activation)

/-- The activation with the operands and locals of a plain state, at a position. -/
def goTo (st : PlainState) (pc : ℕ) : Activation :=
  { a with frame := { a.frame with locals := st.locals, vstack := st.vstack }, pc }

/-- The activation at another frame. -/
def resume (r : Resume) : Activation := { a with frame := r.frame, pc := r.pc }

end Activation

/-- The operands, the locals and the contents an activation sees. -/
def CallFrame.plain (frame : CallFrame) (x : Exec) : PlainState := ⟨frame.locals, frame.vstack, x.pools.contents⟩

/-- The state of the invocation with new contents. -/
def Exec.withContents (x : Exec) (c : Contents) : Exec := { x with pools := x.pools.withContents c }

/-! ## Instructions -/

/-- What an instruction does to its activation. -/
inductive Flow
  | next (st : PlainState)
  | jump (pc : ℕ) (st : PlainState)
  | enter (l : Label) (pc : ℕ) (st : PlainState)
  | leave
  | branch (n : ℕ) (st : PlainState)
  | raise (exn : Exception) (st : PlainState) (events : List Event)
  | call (inst func params : ℕ) (st : PlainState)
  | tailCall (inst func : ℕ) (args : List Value)
  deriving DecidableEq

/-- The operands of a block type: its parameters or its results. -/
def blockArity (m : Module) (bt : BlockType) (wantParams : Bool) : ℕ :=
  match bt with
  | .empty => 0
  | .value _ | .concreteRef .. | .exactRef .. => if wantParams then 0 else 1
  | .typeIndex ti =>
    (m.funcSig ti).elim 0 fun ft => if wantParams then ft.params.length else ft.results.length

/-- The height of a stack below its top `n` slots. -/
def PlainState.stackBase (st : PlainState) (n : ℕ) : Except Trap ℕ := do
  ensure (decide (n ≤ st.vstack.length)) .stackUnderflow
  pure (st.vstack.length - n)

/-- Open a construct that a branch leaves: its label, with what tells its handlers. -/
def blockLabel (m : Module) (body : FuncBody) (pc : ℕ) (bt : BlockType) (st : PlainState)
    (tryTablePc legacyPc : Option ℕ) : Except Trap Label := do
  let base ← st.stackBase (blockArity m bt true)
  pure {
    isLoop := false, arity := blockArity m bt false, target := body.cf.endOf.getD pc 0 + 1
    stackBase := base, tryTablePc, legacyPc }

/-- A function reference called through: its instance, its function and its signature. -/
def checkFuncref (code : List InstanceData) (r : Value) : Except Trap (ℕ × ℕ × FuncType) := do
  ensure (r != nullRef) .nullReference
  let owner := funcrefInstance r
  let f := funcrefIndex r
  let ft ← orError .undefinedFunc ((code[owner]?).bind (·.module.funcType f))
  pure (owner, f, ft)

/-- Call a resolved function: its arguments stay on the stack until it returns. -/
def callFlow (callee : ℕ × ℕ × FuncType) (st : PlainState) : Except Trap Flow := do
  let _ ← st.stackBase callee.2.2.params.length
  pure (.call callee.1 callee.2.1 callee.2.2.params.length st)

/-- Tail-call a resolved function. -/
def tailCallFlow (callee : ℕ × ℕ × FuncType) (st : PlainState) : Except Trap Flow := do
  let (args, _) ← st.popN callee.2.2.params.length
  pure (.tailCall callee.1 callee.2.1 args)

section Flow

variable (ops : Ops) (inst : ℕ) (d : InstanceData) (x : Exec)

/-- The test of a reference by an instance. -/
def Exec.isMatch (code : List InstanceData) (v : Value) (rt : RefType) : Bool :=
  refMatches d.module.toTypeSection code x.pools inst v rt

/-- The constructs that open, continue and close blocks. -/
def blockFlow (frame : CallFrame) (pc : ℕ) (st : PlainState) : Instr → Except Trap Flow
  | .block bt => do
    let l ← blockLabel d.module frame.body pc bt st none none
    pure (.enter l (pc + 1) st)
  | .loop bt => do
    let params := blockArity d.module bt true
    let base ← st.stackBase params
    pure (.enter { isLoop := true, arity := params, target := pc + 1, stackBase := base } (pc + 1) st)
  | .if_ bt => do
    let (c, st) := st.popI32
    let l ← blockLabel d.module frame.body pc bt st none none
    let elsePc := frame.body.cf.elseOf.getD pc frame.body.ir.length
    pure (.enter l (if c ≠ 0 then pc + 1
      else if elsePc ≠ frame.body.ir.length then elsePc + 1 else frame.body.cf.endOf.getD pc 0) st)
  | .tryTable bt _ => do
    let l ← blockLabel d.module frame.body pc bt st (some pc) none
    pure (.enter l (pc + 1) st)
  | .tryLegacy bt => do
    let l ← blockLabel d.module frame.body pc bt st none (some pc)
    pure (.enter l (pc + 1) st)
  -- reached at the end of a branch or of a handler: skip to the matching end
  | .else_ | .catchLegacy _ | .catchAll => pure (.jump (frame.body.cf.endOf.getD pc 0) st)
  | .end_ | .delegate _ => pure .leave
  | _ => .error .unsupportedInstruction

/-- The instructions that raise an exception. -/
def raiseFlow (frame : CallFrame) (st : PlainState) : Instr → Except Trap Flow
  | .throw tag => do
    let ft ← orError .undefinedTag (d.module.tagType tag)
    let (values, st) ← st.popN ft.params.length
    pure (.raise ⟨IndexMaps.get d.maps.tags tag, values⟩ st [])
  | .throwRef => do
    let (r, st) := st.pop
    ensure (r != nullRef) .nullReference
    let exn ← orError .nullReference x.exnStore[r.toNat]?
    pure (.raise exn st [.throwRef r exn])
  | .rethrow n => do
    let l ← orError .undefinedLabel frame.labels[n]?
    let exn ← orError .uncaughtException l.caught
    pure (.raise exn st [])
  | _ => .error .unsupportedInstruction

/-- The instructions that branch. -/
def branchFlow (code : List InstanceData) (frame : CallFrame) (st : PlainState) :
    Instr → Except Trap Flow
  | .br n => pure (.branch n st)
  | .brIf n =>
    let (c, st) := st.popI32
    pure (if c ≠ 0 then .branch n st else .next st)
  | .brTable labels default =>
    let (i, st) := st.popI32
    pure (.branch (if 0 ≤ i.toInt then labels.getD i.toNat default else default) st)
  | .return_ => pure (.jump frame.body.ir.length st)
  | .brOnNull n =>
    let (r, st') := st.pop
    pure (if r = nullRef then .branch n st' else .next (st'.push r))
  | .brOnNonNull n =>
    let (r, st') := st.pop
    pure (if r = nullRef then .next st' else .branch n (st'.push r))
  | .brOnCast n _ dst => do
    let v ← st.top
    pure (if x.isMatch inst d code v dst then .branch n st else .next st)
  | .brOnCastFail n _ dst => do
    let v ← st.top
    pure (if x.isMatch inst d code v dst then .next st else .branch n st)
  | .brOnCastDescEq n _ dst => do
    let (desc, st) := st.pop
    ensure (desc != nullRef) .nullDescriptor
    let v ← st.top
    pure (if descEqMatches code st.contents v desc dst then .branch n st else .next st)
  | .brOnCastDescEqFail n _ dst => do
    let (desc, st) := st.pop
    ensure (desc != nullRef) .nullDescriptor
    let v ← st.top
    pure (if descEqMatches code st.contents v desc dst then .next st else .branch n st)
  | _ => .error .unsupportedInstruction

/-- The instructions that call. -/
def invokeFlow (code : List InstanceData) (st : PlainState) : Instr → Except Trap Flow
  | .call f => do
    let ft ← orError .undefinedFunc (d.module.funcType f)
    callFlow (inst, f, ft) st
  | .returnCall f => do
    let ft ← orError .undefinedFunc (d.module.funcType f)
    tailCallFlow (inst, f, ft) st
  | .callRef _ => do
    let (r, st) := st.pop
    let callee ← checkFuncref code r
    callFlow callee st
  | .returnCallRef _ => do
    let (r, st) := st.pop
    let callee ← checkFuncref code r
    tailCallFlow callee st
  | .callIndirect ti table => do
    let (operand, st) := st.pop
    let callee ← callIndirect { code, pools := x.pools } inst d ti table operand
    callFlow callee st
  | .returnCallIndirect ti table => do
    let (operand, st) := st.pop
    let callee ← callIndirect { code, pools := x.pools } inst d ti table operand
    tailCallFlow callee st
  | _ => .error .unsupportedInstruction

/-- What the instruction at the position of an activation does. -/
def flow (code : List InstanceData) (frame : CallFrame) (pc : ℕ) (i : Instr) : Except Trap Flow :=
  let st := frame.plain x
  match i with
  | .block _ | .loop _ | .if_ _ | .else_ | .tryLegacy _ | .catchLegacy _ | .catchAll | .delegate _
  | .tryTable .. | .end_ => blockFlow d frame pc st i
  | .throw _ | .rethrow _ | .throwRef => raiseFlow d x frame st i
  | .br _ | .brIf _ | .brTable .. | .return_ | .brOnNull _ | .brOnNonNull _ | .brOnCast ..
  | .brOnCastFail .. | .brOnCastDescEq .. | .brOnCastDescEqFail .. => branchFlow inst d x code frame st i
  | .call _ | .callIndirect .. | .returnCall _ | .returnCallIndirect .. | .callRef _
  | .returnCallRef _ => invokeFlow inst d x code st i
  | _ => .next <$> execPlain ops code inst d x.pools.limits (x.isMatch inst d code) st i

end Flow

/-! ## The machine -/

/-- A caller that waits for a call to return: its stack is cut to `base` when the results come. -/
structure Suspended where
  activation : Activation
  base : ℕ
  deriving DecidableEq, Repr

/-- What the machine is doing. -/
inductive Control
  /-- Call a function, one level deeper than the caller. -/
  | call (inst func : ℕ) (args : List Value) (depth : ℕ)
  /-- Look up the function to run, after a call or, if `tailed`, after a tail call. -/
  | dispatch (inst func : ℕ) (args : List Value) (tailed : Bool) (depth : ℕ)
  | run (a : Activation)
  | ret (results : List Value)
  | fail (t : Trap)
  deriving DecidableEq, Repr

/-- A state of the machine: what it is doing, the waiting callers, the state of the invocation and that
of the host. -/
structure Config (W : Type) where
  control : Control
  stack : List Suspended
  exec : Exec
  world : W

namespace Activation

/-- The activation once a call has returned: the results replace the arguments. -/
def returned (a : Activation) (base : ℕ) (results : List Value) : Activation :=
  { a with
    frame := (a.frame.truncate base).extend results
    pc := a.pc + 1 }

/-- A function body entered with its arguments. A declared local starts at 0, or as null. -/
def start (inst func depth : ℕ) (body : FuncBody) (args : List Value) : Activation :=
  let zeros := List.replicate body.numLocals (0 : Value)
  let locals := args.take body.numLocals ++ zeros.drop args.length
  let locals := body.nullLocals.foldl (fun ls i => ls.set i nullRef) locals
  let label : Label :=
    { isLoop := false, arity := body.ty.results.length, target := body.ir.length, stackBase := 0 }
  { inst, func, depth, frame := { body, locals, vstack := [], labels := [label] }, pc := 0 }

/-- The results of an activation that has come to its end. -/
def results (a : Activation) : Except Trap (List Value) := do
  let n := a.frame.body.ty.results.length
  let _ ← a.frame.stackBase n
  pure (a.frame.vstack.take n).reverse

end Activation

namespace Config

variable {W : Type} (c : Config W)

/-- The control and the state after a computation that may trap. -/
def andThen (c : Config W) {α : Type} (r : EStateM.Result Trap Exec α) (f : α → List Event × Control) :
    List Event × Config W :=
  match r with
  | .ok v x => ((f v).1, { c with control := (f v).2, exec := x })
  | .error t x => ([], { c with control := .fail t, exec := x })

end Config

variable {W : Type}

/-- Apply what an instruction does. -/
def applyFlow (c : Config W) (a : Activation) (tags : List ℕ) :
    Flow → List Event × Config W
  | .next st =>
    ([], { c with control := .run (a.goTo st (a.pc + 1)), exec := c.exec.withContents st.contents })
  | .jump pc st => ([], { c with control := .run (a.goTo st pc) })
  | .enter l pc st =>
    let a := a.goTo st pc
    ([], { c with control := .run { a with frame := { a.frame with labels := l :: a.frame.labels } } })
  | .leave =>
    let frame := { a.frame with labels := a.frame.labels.tail }
    ([], { c with control := .run { a with frame, pc := a.pc + 1 } })
  | .branch n st =>
    match (a.goTo st a.pc).frame.branch n c.exec with
    | .error t => ([], { c with control := .fail t })
    | .ok (r, x) => (r.events, { c with control := .run (a.resume r), exec := x })
  | .raise exn st events =>
    let (events', c) := c.andThen ((a.goTo st a.pc).frame.raise tags exn c.exec) fun r =>
      (r.events, .run (a.resume r))
    (events ++ events', c)
  | .call inst func params st =>
    let a := a.goTo st a.pc
    let suspended : Suspended := ⟨a, st.vstack.length - params⟩
    ([], { c with
      control := .call inst func (st.vstack.take params).reverse (a.depth + 1)
      stack := suspended :: c.stack })
  | .tailCall inst func args =>
    -- the hop spends a unit before the callee is looked up
    match c.exec.tick with
    | .error t => ([], { c with control := .fail t })
    | .ok x =>
      ([.hop inst func], { c with control := .dispatch inst func args true a.depth, exec := x })

/-- One step of a running body: its instruction, or its end. -/
def stepRun (env : Env W) (c : Config W) (a : Activation) : List Event × Config W :=
  match a.frame.body.ir[a.pc]? with
  | none =>
    match a.results with
    | .error t => ([], { c with control := .fail t })
    | .ok vs => ([], { c with control := .ret vs })
  | some i =>
    match env.code[a.inst]? with
    | none => ([], { c with control := .fail .undefinedFunc })
    | some d =>
      match flow env.ops a.inst d c.exec env.code a.frame a.pc i with
      | .error t => ([], { c with control := .fail t })
      | .ok fl => applyFlow c a d.maps.tags fl

/-- Call a host function of an instance. -/
def callHost (c : Config W) (maps : IndexMaps) (host : HostFunc W) (args : List Value)
    (results : ℕ) : Config W :=
  let r := host (maps.memories.map fun slot => (c.exec.pools.memories[slot]?).map (·.bytes)) args
    results c.world
  { c with
    control := match r.outcome with
      | .ok vs => .ret (resize vs results 0)
      | .error t => .fail t
    exec := { c.exec with pools := r.writes.foldl (Pools.hostWrite maps) c.exec.pools }
    world := r.world }

/-- Look up a function and enter it. Imported functions have the low indices; one of another instance is
called there, one level deeper. -/
def stepDispatch (env : Env W) (c : Config W) (inst func : ℕ) (args : List Value) (depth : ℕ) :
    Config W :=
  match env.code[inst]? with
  | none => { c with control := .fail .undefinedFunc }
  | some d =>
    if func < d.module.importedFuncCount then
      match d.imports[func]? with
      | none => { c with control := .fail .missingImport }
      | some (.host h) =>
        match env.hostFuncs[h]? with
        | none => { c with control := .fail .missingImport }
        | some host =>
          match d.module.funcType func with
          | none => { c with control := .fail .undefinedFunc }
          | some ft => callHost c d.maps host args ft.results.length
      | some (.wasm inst' func') => { c with control := .call inst' func' args (depth + 1) }
    else
      match d.funcBodies[func - d.module.importedFuncCount]? with
      | none => { c with control := .fail .undefinedFunc }
      | some body => { c with control := .run (Activation.start inst func depth body args) }

/-- The tag map an activation resolves clauses with. -/
def tagsOf (env : Env W) (inst : ℕ) : List ℕ := (env.code[inst]?).elim [] (·.maps.tags)

/-- One step. `none` when the invocation has ended. -/
def Config.step (env : Env W) (c : Config W) : Option (List Event × Config W) :=
  match c.control, c.stack with
  | .run a, _ => some (stepRun env c a)
  | .call inst func args depth, _ =>
    if c.exec.runLimits.maxCallDepth < depth then
      some ([], { c with control := .fail .callStackExhausted })
    else some ([], { c with control := .dispatch inst func args false depth })
  | .dispatch inst func args _ depth, _ => some ([], stepDispatch env c inst func args depth)
  | .ret results, s :: rest =>
    some ([], { c with control := .run (s.activation.returned s.base results), stack := rest })
  | .fail t, s :: rest =>
    let a := s.activation
    some (({ c with stack := rest } : Config W).andThen
      (a.frame.onCallError (tagsOf env a.inst) t c.exec) fun r => (r.events, .run (a.resume r)))
  | .ret _, [] | .fail _, [] => none

/-- A step as a relation. -/
def Steps (env : Env W) (c : Config W) (es : List Event) (c' : Config W) : Prop :=
  c.step env = some (es, c')

/-- The first `n` steps, or as many as there are: what they report, and the state after them. -/
def Config.runFor (env : Env W) : ℕ → Config W → List Event × Config W
  | 0, c => ([], c)
  | n + 1, c =>
    match c.step env with
    | none => ([], c)
    | some (es, c') => let r := c'.runFor env n; (es ++ r.1, r.2)

end Wasmrt
