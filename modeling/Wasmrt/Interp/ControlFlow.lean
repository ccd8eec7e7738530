import Wasmrt.Library.Checks
import Wasmrt.Store.Pools

/-!
# Precomputed control flow

Before a body runs, every block opener is matched with its `end`, every `if` with its `else`, and the
handlers of every legacy `try` are collected. The tables are indexed by position in the body.

## Main definitions

* `ControlFlow`, `precomputeControlFlow`: the tables and the pass that fills them.
* `FuncBody`, `prepareBody`: a body ready to run.
-/

namespace Wasmrt

/-- One inline handler of a legacy `try`; no tag means `catch_all`. -/
structure LegacyCatch where
  tag : Option ℕ
  handlerPc : ℕ
  deriving DecidableEq, Repr

/-- The handlers of a legacy `try`, and its `delegate` label. -/
structure LegacyTry where
  handlers : List LegacyCatch
  delegate : Option ℕ
  deriving DecidableEq, Repr

/-- The control-flow tables of a body. An `elseOf` entry of the body's length means no `else`. -/
structure ControlFlow where
  endOf : List ℕ
  elseOf : List ℕ
  tryInfo : List (Option LegacyTry)
  deriving DecidableEq, Repr

/-- The state of the pass: the tables so far and three parallel stacks, innermost first: the open
blocks, the handlers collected for each, and the positions of their `catch` instructions. -/
structure ControlScan where
  cf : ControlFlow
  stack : List ℕ
  handlers : List (List LegacyCatch)
  catchPcs : List (List ℕ)
  deriving DecidableEq, Repr

namespace ControlScan

/-- Open a block at position `i`. -/
def opener (st : ControlScan) (i : ℕ) : ControlScan :=
  { st with stack := i :: st.stack, handlers := [] :: st.handlers, catchPcs := [] :: st.catchPcs }

/-- An `else` at position `i`. -/
def else_ (st : ControlScan) (i : ℕ) : Except Trap ControlScan :=
  match st.stack with
  | opener :: _ => .ok { st with cf := { st.cf with elseOf := st.cf.elseOf.set opener i } }
  | [] => .error .unbalancedControl

/-- A `catch` of a tag, or a `catch_all`, at position `i`. -/
def catch_ (st : ControlScan) (tag : Option ℕ) (i : ℕ) : Except Trap ControlScan :=
  match st.handlers, st.catchPcs with
  | hs :: handlers, cps :: catchPcs =>
    .ok { st with
      handlers := (hs ++ [⟨tag, i + 1⟩]) :: handlers
      catchPcs := (cps ++ [i]) :: catchPcs }
  | _, _ => .error .unbalancedControl

/-- A `delegate` at position `i` ends its `try`. -/
def delegate (st : ControlScan) (label i : ℕ) : Except Trap ControlScan :=
  match st.stack with
  | opener :: stack =>
    .ok {
      stack
      handlers := st.handlers.tail
      catchPcs := st.catchPcs.tail
      cf := { st.cf with
        endOf := st.cf.endOf.set opener i
        tryInfo := st.cf.tryInfo.set opener (some ⟨[], some label⟩) } }
  | [] => .error .unbalancedControl

/-- An `end` at position `i`. One with no open block is the implicit end of the body. -/
def end_ (st : ControlScan) (ir : List Instr) (i : ℕ) : ControlScan :=
  match st.stack with
  | opener :: stack =>
    let hs := st.handlers.headD []
    let cps := st.catchPcs.headD []
    let elsePc := st.cf.elseOf.getD opener ir.length
    let endOf := st.cf.endOf.set opener i
    let endOf := if elsePc ≠ ir.length then endOf.set elsePc i else endOf
    let rest := { st with stack, handlers := st.handlers.tail, catchPcs := st.catchPcs.tail }
    if ir[opener]? matches some (.tryLegacy _) then
      { rest with cf := { st.cf with
          -- a catch reached by normal flow skips to the end
          endOf := cps.foldl (fun endOf cp => endOf.set cp i) endOf
          tryInfo := st.cf.tryInfo.set opener (some ⟨hs, none⟩) } }
    else { rest with cf := { st.cf with endOf } }
  | [] => st

/-- One instruction of the pass. -/
def step (ir : List Instr) (st : ControlScan) (entry : Instr × ℕ) : Except Trap ControlScan :=
  let i := entry.2
  match entry.1 with
  | .block _ | .loop _ | .if_ _ | .tryTable _ _ | .tryLegacy _ => .ok (st.opener i)
  | .else_ => st.else_ i
  | .catchLegacy tag => st.catch_ (some tag) i
  | .catchAll => st.catch_ none i
  | .delegate label => st.delegate label i
  | .end_ => .ok (st.end_ ir i)
  | _ => .ok st

end ControlScan

/-- Match every block opener with its `end`, every `if` with its `else`, and collect the handlers of
every legacy `try`. -/
def precomputeControlFlow (ir : List Instr) : Except Trap ControlFlow := do
  let start : ControlFlow :=
    ⟨List.replicate ir.length 0, List.replicate ir.length ir.length, List.replicate ir.length none⟩
  let st ← ir.zipIdx.foldlM (ControlScan.step ir) ⟨start, [], [], []⟩
  pure st.cf

/-- A function body ready to run. `nullLocals` are the indices of the declared locals that start as
null references. -/
structure FuncBody where
  ty : FuncType
  numLocals : ℕ
  nullLocals : List ℕ
  ir : List Instr
  cf : ControlFlow
  deriving DecidableEq, Repr

/-- The number of declared locals. -/
def Code.localCount (code : Code) : ℕ := (code.locals.map (·.count)).sum

/-- The declared locals of reference type, numbered from `li`. -/
def nullLocals : ℕ → List Local → List ℕ
  | _, [] => []
  | li, l :: ls =>
    (if l.ty.isRef then List.range' li l.count else []) ++ nullLocals (li + l.count) ls

/-- Prepare a defined function: its signature, its locals and its control flow. -/
def prepareBody (ts : TypeSection) (typeIndex : ℕ) (code : Code) : Except Trap FuncBody := do
  let ty ← orError .undefinedFunc (ts.funcSig typeIndex)
  let cf ← precomputeControlFlow code.ir
  pure {
    ty
    numLocals := ty.params.length + code.localCount
    nullLocals := nullLocals ty.params.length code.locals
    ir := code.ir
    cf }

/-- A loop around a block: the inner `end` closes the block, the next one the loop. -/
example : precomputeControlFlow [.loop .empty, .block .empty, .end_, .end_, .end_] =
    .ok ⟨[3, 2, 0, 0, 0], [5, 5, 5, 5, 5], [none, none, none, none, none]⟩ := by decide

end Wasmrt
