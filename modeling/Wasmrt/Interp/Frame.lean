import Wasmrt.Interp.Plain

/-!
# Frames, branches and exceptions

A frame has a label for each construct that is open at its position. A branch cuts the operand stack
and the labels, and spends a unit of the iteration budget when it goes back to a loop. An exception
that is raised looks for a handler among the labels, innermost first; when the frame has none it stays
pending, for the caller to try its own.

Stacks have their top first, so the innermost label is the first of its list. What these operations
leave of the state of the invocation is kept also when they fail.

## Main definitions

* `RunLimits`, `Exec`: the ceilings of an invocation and its state.
* `Label`, `CallFrame`: one open construct, and one activation's operands, locals and labels.
* `Exec.tick`, `CallFrame.branch`: the budget, and a branch.
* `findHandler`, `CallFrame.throwException`, `CallFrame.raise`, `CallFrame.onCallError`: exceptions.
-/

namespace Wasmrt

/-! ## The state of an invocation -/

/-- A thrown exception: the store slot of its tag, and its payload. -/
structure Exception where
  tag : ℕ
  values : List Value
  deriving DecidableEq, Repr

/-- The ceilings only a running invocation consults. -/
structure RunLimits where
  maxCallDepth : ℕ
  maxExnBoxes : ℕ
  /-- Loop back-edges and tail-call hops in one invocation; 0 is no bound. -/
  maxIterations : ℕ
  exnBoxes_le : maxExnBoxes ≤ usizeMax := by decide
  deriving DecidableEq, Repr

/-- The pools with the fields of an invocation. `exnStore` holds the exceptions that were boxed as
references, and a reference is an index into it. -/
structure Exec where
  pools : Pools := {}
  runLimits : RunLimits
  fuel : ℕ := 0
  inGuest : Bool := false
  exnStore : List Exception := []
  pendingExn : Option Exception := none

/-- Spend one unit of the budget, if there is one. -/
def Exec.tick (x : Exec) : Except Trap Exec :=
  if x.runLimits.maxIterations = 0 then .ok x
  else if x.fuel = 0 then .error (.iterationLimitExceeded x.runLimits.maxIterations)
  else .ok { x with fuel := x.fuel - 1 }

/-- A unit spent leaves everything but the budget. -/
theorem Exec.tick_ok {x x' : Exec} (h : x.tick = .ok x') : ∃ fuel, x' = { x with fuel } := by
  unfold tick at h
  split_ifs at h
  · obtain rfl := Except.ok.inj h
    exact ⟨x.fuel, rfl⟩
  · obtain rfl := Except.ok.inj h
    exact ⟨x.fuel - 1, rfl⟩

/-- What a run reports: that an invocation begins, the steps that spend budget, and the references to
exceptions that it makes and uses. -/
inductive Event
  | entry
  | backEdge
  | hop (inst func : ℕ)
  | capture (r : Value) (exn : Exception)
  | throwRef (r : Value) (exn : Exception)
  deriving DecidableEq, Repr

/-! ## Frames -/

/-- One open construct: the operands a branch to it carries, where the branch goes, and the height of
the operand stack below it. A `try_table` and a legacy `try` are known by their positions, and a legacy
`try` whose handler has been entered by the exception it caught. -/
structure Label where
  isLoop : Bool
  arity : ℕ
  target : ℕ
  stackBase : ℕ
  tryTablePc : Option ℕ := none
  legacyPc : Option ℕ := none
  caught : Option Exception := none
  deriving DecidableEq, Repr

/-- One activation of a function body. -/
structure CallFrame where
  body : FuncBody
  locals : List Value
  vstack : List Value
  labels : List Label
  deriving DecidableEq, Repr

/-- Where a frame goes on, and what it did on the way. -/
structure Resume where
  pc : ℕ
  frame : CallFrame
  events : List Event := []

namespace CallFrame

variable (frame : CallFrame)

/-- The height of the stack below its top `n` slots. -/
def stackBase (n : ℕ) : Except Trap ℕ := do
  ensure (decide (n ≤ frame.vstack.length)) .stackUnderflow
  pure (frame.vstack.length - n)

/-- Cut the stack to a height. -/
def truncate (base : ℕ) : CallFrame :=
  { frame with vstack := frame.vstack.drop (frame.vstack.length - base) }

/-- Branch to the label `n` levels out. -/
def branch (n : ℕ) (x : Exec) : Except Trap (Resume × Exec) := do
  let l ← orError .undefinedLabel frame.labels[n]?
  let base ← frame.stackBase l.arity
  ensure (decide (l.stackBase ≤ base)) .stackUnderflow
  let vstack := frame.vstack.take l.arity ++ (frame.truncate l.stackBase).vstack
  if l.isLoop then
    let x ← x.tick
    pure (⟨l.target, { frame with vstack, labels := frame.labels.drop n }, [.backEdge]⟩, x)
  else
    pure (⟨l.target, { frame with vstack, labels := frame.labels.drop (n + 1) }, []⟩, x)

/-- A branch to a loop spends a unit and reports the back-edge; any other spends and reports nothing. -/
theorem branch_ok {n : ℕ} {x x' : Exec} {r : Resume} (h : frame.branch n x = .ok (r, x')) :
    ∃ l, frame.labels[n]? = some l ∧ r.pc = l.target ∧
      ((l.isLoop = true ∧ x.tick = .ok x' ∧ r.events = [.backEdge] ∧
          r.frame.labels = frame.labels.drop n) ∨
        (l.isLoop = false ∧ x' = x ∧ r.events = [] ∧ r.frame.labels = frame.labels.drop (n + 1))) := by
  simp only [branch, Except.bind_eq_ok, orError_eq_ok, ensure_eq_ok, exists_and_left] at h
  obtain ⟨l, hl, base, -, -, -, h⟩ := h
  refine ⟨l, hl, ?_⟩
  cases hloop : l.isLoop with
  | true =>
    simp only [hloop, if_true, Except.bind_eq_ok, Except.pure_eq_ok, Prod.mk.injEq] at h
    obtain ⟨y, hy, rfl, rfl⟩ := h
    exact ⟨rfl, .inl ⟨rfl, hy, rfl, rfl⟩⟩
  | false =>
    simp only [hloop, Bool.false_eq_true, if_false, Except.pure_eq_ok, Prod.mk.injEq] at h
    obtain ⟨rfl, rfl⟩ := h
    exact ⟨rfl, .inr ⟨rfl, rfl, rfl, rfl⟩⟩

/-! ## Exceptions -/

/-- The handler an exception finds: a clause of the `try_table` at a depth, or a handler of the legacy
`try` at a depth. -/
inductive Handler
  | clause (depth : ℕ) (label : Label) (c : Catch)
  | legacy (depth : ℕ) (label : Label) (h : LegacyCatch)
  deriving DecidableEq, Repr

end CallFrame

/-- Does a clause take an exception? Its tag is the index its own module uses, resolved by `tags`. -/
def Catch.takes (c : Catch) (tags : List ℕ) (exn : Exception) : Bool :=
  match c.kind with
  | .catchTag | .catchRef => IndexMaps.get tags c.tag == exn.tag
  | .catchAll | .catchAllRef => true

/-- Does a legacy handler take an exception? -/
def LegacyCatch.takes (h : LegacyCatch) (tags : List ℕ) (exn : Exception) : Bool :=
  h.tag.all fun t => IndexMaps.get tags t == exn.tag

/-- The clauses of the `try_table` a label belongs to. -/
def Label.clauses (l : Label) (body : FuncBody) : List Catch :=
  match l.tryTablePc.bind (body.ir[·]?) with
  | some (.tryTable _ catches) => catches
  | _ => []

/-- The handlers of the legacy `try` a label belongs to. -/
def Label.legacyTry (l : Label) (body : FuncBody) : Option LegacyTry :=
  l.legacyPc.bind fun pc => (body.cf.tryInfo[pc]?).join

/-- Look for a handler among labels, innermost first; the first is `d` deep. Depths below `skip` are
passed over, which is how a `delegate` leaves out the handlers up to its label. A legacy `try` whose
handler has been entered is no longer in its protected region. -/
def findHandler (body : FuncBody) (tags : List ℕ) (exn : Exception) :
    ℕ → ℕ → List Label → Option CallFrame.Handler
  | _, _, [] => none
  | d, skip, l :: ls =>
    if d < skip then findHandler body tags exn (d + 1) skip ls
    else
      match (l.clauses body).find? (·.takes tags exn) with
      | some c => some (.clause d l c)
      | none =>
        match l.legacyTry body with
        | none => findHandler body tags exn (d + 1) skip ls
        | some lt =>
          match lt.delegate with
          | some target => findHandler body tags exn (d + 1) (d + 1 + target) ls
          | none =>
            if l.caught.isSome then findHandler body tags exn (d + 1) skip ls
            else
              match lt.handlers.find? (·.takes tags exn) with
              | some h => some (.legacy d l h)
              | none => findHandler body tags exn (d + 1) skip ls

namespace CallFrame

variable (frame : CallFrame)

/-- Cut the stack to the height below a construct, which a branch may not have passed. -/
def unwindTo (base : ℕ) : Except Trap CallFrame := do
  ensure (decide (base ≤ frame.vstack.length)) .stackUnderflow
  pure (frame.truncate base)

/-- Push operands, the last one on top. -/
def extend (values : List Value) : CallFrame := { frame with vstack := values.reverse ++ frame.vstack }

/-- Box an exception as a reference. -/
def box (exn : Exception) (x : Exec) : Except Trap (Value × Exec) := do
  ensure (decide (x.exnStore.length < x.runLimits.maxExnBoxes)) .exnStoreExhausted
  pure (BitVec.ofNat 128 x.exnStore.length, { x with exnStore := x.exnStore ++ [exn] })

/-- Branch out of a `try_table`, after some events. -/
def branchOut (n : ℕ) (events : List Event) : EStateM Trap Exec Resume := fun x =>
  if n ≤ 2 ^ 32 - 1 then
    match frame.branch n x with
    | .error t => .error t x
    | .ok (r, x) => .ok { r with events := events ++ r.events } x
  else .error .undefinedLabel x

/-- Enter a clause: it binds the payload if it has a tag, boxes the exception if it asks for a
reference, and branches. Its label is relative to the scope around the `try_table`. -/
def enterClause (exn : Exception) (d : ℕ) (l : Label) (c : Catch) :
    EStateM Trap Exec Resume := fun x =>
  match frame.unwindTo l.stackBase with
  | .error t => .error t x
  | .ok frame =>
    let frame := match c.kind with
      | .catchTag | .catchRef => frame.extend exn.values
      | .catchAll | .catchAllRef => frame
    match c.kind with
    | .catchRef | .catchAllRef =>
      match box exn x with
      | .error t => .error t x
      | .ok (r, x) => (frame.extend [r]).branchOut (d + 1 + c.label) [.capture r exn] x
    | .catchTag | .catchAll => frame.branchOut (d + 1 + c.label) [] x

/-- Enter a legacy handler: the labels inside its `try` are dropped, and the `try` remembers what it
caught. -/
def enterLegacy (exn : Exception) (d : ℕ) (l : Label) (h : LegacyCatch) :
    EStateM Trap Exec Resume := fun x =>
  match frame.unwindTo l.stackBase with
  | .error t => .error t x
  | .ok frame =>
    let frame := if h.tag.isSome then frame.extend exn.values else frame
    let labels := { l with caught := some exn } :: frame.labels.drop (d + 1)
    .ok ⟨h.handlerPc, { frame with labels }, []⟩ x

/-- Try to catch an exception in this frame. -/
def throwException (tags : List ℕ) (exn : Exception) : EStateM Trap Exec (Option Resume) := fun x =>
  match findHandler frame.body tags exn 0 0 frame.labels with
  | none => .ok none x
  | some (.clause d l c) =>
    match frame.enterClause exn d l c x with
    | .error t x => .error t x
    | .ok r x => .ok (some r) x
  | some (.legacy d l h) =>
    match frame.enterLegacy exn d l h x with
    | .error t x => .error t x
    | .ok r x => .ok (some r) x

/-- Raise an exception: go on at its handler, or leave it pending and unwind to the caller. -/
def raise (tags : List ℕ) (exn : Exception) : EStateM Trap Exec Resume := fun x =>
  match frame.throwException tags exn x with
  | .error t x => .error t x
  | .ok (some r) x => .ok r x
  | .ok none x => .error .uncaughtException { x with pendingExn := some exn }

/-- An error came out of a call: the pending exception of an unwind may be caught here. -/
def onCallError (tags : List ℕ) (e : Trap) : EStateM Trap Exec Resume := fun x =>
  if e ≠ .uncaughtException then .error e x
  else
    match x.pendingExn with
    | none => .error e x
    | some exn =>
      match frame.throwException tags exn { x with pendingExn := none } with
      | .error t x => .error t x
      | .ok (some r) x => .ok r x
      | .ok none x => .error e { x with pendingExn := some exn }

end CallFrame

end Wasmrt
