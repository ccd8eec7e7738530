import Wasmrt.Interp.Paths
import Wasmrt.Validate.Leaves

/-!
# The locals of an activation

Only `local.set` and `local.tee` write a local. So at every point of a run a local holds the operand that was
on top when the activation last executed one of them on it, or what it held at the beginning.

## Main definitions

* `Executed.lastSet`: what an activation has last set a local to.

## Main results

* `locals_of_goesTo`: what an instruction leaves in the locals.
* `Activation.locals_invariant`: a local holds what it was last set to.
-/

namespace Wasmrt

/-! ## Plain instructions -/

section Plain

variable (ops : Ops) (code : List InstanceData) (inst : ℕ) (d : InstanceData) (limits : ResourceLimits)
  (isMatch : Value → RefType → Bool) (st : PlainState) (i : Instr)

/-- A result with these locals. -/
def PlainState.HasLocals (locals : List Value) (st : PlainState) : Prop := st.locals = locals

variable {st} in
theorem PlainState.HasLocals.alloc {locals : List Value} (h : st.HasLocals locals) {limits : ResourceLimits}
    {owner ti : ℕ} {fields : List Value} : (st.alloc limits owner ti fields).Gives (·.HasLocals locals) :=
  .bind fun _ _ => .pure h

variable {st} in
theorem locals_popN {n : ℕ} : (st.popN n).Gives (·.2.HasLocals st.locals) := .bind fun _ _ => .pure rfl

theorem locals_execMemory : (execMemory d limits st i).Gives (·.HasLocals st.locals) := by
  cases i with
  | memorySize _ | memoryGrow _ | dataDrop _ => exact .bind fun _ _ => .pure rfl
  | load _ _ | store _ _ | memoryFill _ => exact .bind fun _ _ => .bind fun _ _ => .pure rfl
  | memoryCopy _ _ | memoryInit _ _ =>
    exact .bind fun _ _ => .bind fun _ _ => .bind fun _ _ => .bind fun _ _ => .pure rfl
  | _ => exact .error

theorem locals_execTable : (execTable d limits st i).Gives (·.HasLocals st.locals) := by
  cases i with
  | tableSize _ | tableGrow _ | elemDrop _ => exact .bind fun _ _ => .pure rfl
  | tableGet _ | tableSet _ | tableFill _ => exact .bind fun _ _ => .bind fun _ _ => .pure rfl
  | tableInit _ _ | tableCopy _ _ => exact .bind fun _ _ => .bind fun _ _ => .bind fun _ _ => .pure rfl
  | _ => exact .error

theorem locals_execStruct : (execStruct code inst d limits st i).Gives (·.HasLocals st.locals) := by
  cases i with
  | structNew _ => exact .bind fun _ _ => .bind fun ⟨_, _⟩ hp => (locals_popN hp).alloc
  | structNewDefault _ => exact .bind fun _ _ => .bind fun _ _ => .pure rfl
  | structNewDesc _ => exact .bind fun _ _ => .bind fun _ _ => .bind fun ⟨_, _⟩ hp => (locals_popN hp).alloc
  | structNewDefaultDesc _ => exact .bind fun _ _ => .bind fun _ _ => .bind fun _ _ => .pure rfl
  | refGetDesc _ => exact .bind fun _ _ => .bind fun _ _ => .pure rfl
  | structGet _ _ _ | structSet _ _ =>
    exact .bind fun _ _ => .bind fun _ _ => .bind fun _ _ => .bind fun _ _ => .pure rfl
  | _ => exact .error

theorem locals_execArray : (execArray inst d limits st i).Gives (·.HasLocals st.locals) := by
  cases i with
  | arrayNew _ | arrayNewDefault _ => exact .bind fun _ _ => .bind fun _ _ => .pure rfl
  | arrayNewFixed _ _ => exact .bind fun _ _ => .bind fun ⟨_, _⟩ hp => (locals_popN hp).alloc
  | arrayNewData _ _ | arrayNewElem _ _ => exact .bind fun _ _ => .bind fun _ _ => .bind fun _ _ => .pure rfl
  | arrayInitData _ _ | arrayInitElem _ _ =>
    exact .bind fun _ _ => .bind fun _ _ => .bind fun _ _ => .bind fun _ _ => .pure rfl
  | arrayLen => exact .bind fun _ _ => .pure rfl
  | arrayGet _ _ | arraySet _ | arrayFill _ => exact .bind fun _ _ => .bind fun _ _ => .bind fun _ _ => .pure rfl
  | arrayCopy _ _ =>
    exact .bind fun _ _ => .bind fun _ _ => .bind fun _ _ => .bind fun _ _ => .bind fun _ _ => .pure rfl
  | _ => exact .error

theorem locals_execReference : (execReference code inst isMatch st i).Gives (·.HasLocals st.locals) := by
  cases i with
  | refNull _ | refIsNull | refFunc _ | refEq | refTest _ | refI31 | anyConvertExtern | externConvertAny =>
    exact .pure rfl
  | refAsNonNull | i31Get _ => exact .bind fun _ _ => .pure rfl
  | refCast _ => exact .bind fun _ _ => .bind fun _ _ => .pure rfl
  | refCastDescEq _ => exact .bind fun _ _ => .bind fun _ _ => .bind fun _ _ => .pure rfl
  | _ => exact .error

theorem locals_execVariable (h : i.sets = none) :
    (execVariable d st i).Gives (·.HasLocals st.locals) := by
  cases i with
  | localSet _ | localTee _ => cases h
  | drop | select | selectT _ | i32Const _ | i64Const _ | f32Const _ | f64Const _ => exact .pure rfl
  | localGet _ | globalGet _ | globalSet _ => exact .bind fun _ _ => .pure rfl
  | _ => exact .error

/-- Any other plain instruction than `local.set` and `local.tee` leaves the locals alone. -/
theorem locals_execPlain (h : i.sets = none) :
    (execPlain ops code inst d limits isMatch st i).Gives (·.HasLocals st.locals) := by
  cases i with
  | nop => exact .pure rfl
  | unreachable => exact .error
  | drop | select | selectT _ | i32Const _ | i64Const _ | f32Const _ | f64Const _ | localGet _ | localSet _ | localTee _
  | globalGet _ | globalSet _ => exact locals_execVariable d st _ h
  | load _ _ | store _ _ | memorySize _ | memoryGrow _ | memoryInit _ _ | dataDrop _ | memoryCopy _ _ | memoryFill _ =>
    unfold execPlain
    exact locals_execMemory d limits st _
  | tableGet _ | tableSet _ | tableInit _ _ | elemDrop _ | tableCopy _ _ | tableGrow _ | tableSize _ | tableFill _ =>
    unfold execPlain
    exact locals_execTable d limits st _
  | refNull _ | refIsNull | refFunc _ | refEq | refAsNonNull | refTest _ | refCast _ | refCastDescEq _ | refI31
  | i31Get _ | anyConvertExtern | externConvertAny =>
    unfold execPlain
    exact locals_execReference code inst isMatch st _
  | structNew _ | structNewDefault _ | structGet _ _ _ | structSet _ _ | structNewDesc _ | structNewDefaultDesc _
  | refGetDesc _ =>
    unfold execPlain
    exact locals_execStruct code inst d limits st _
  | arrayNew _ | arrayNewDefault _ | arrayNewFixed _ _ | arrayNewData _ _ | arrayNewElem _ _ | arrayGet _ _
  | arraySet _ | arrayLen | arrayFill _ | arrayCopy _ _ | arrayInitData _ _ | arrayInitElem _ _ =>
    unfold execPlain
    exact locals_execArray inst d limits st _
  | _ => exact .bind fun _ _ => .pure rfl

end Plain

/-! ## Any instruction -/

section Flow

/-- What an instruction does leaves the locals as they are. -/
def Flow.Keeps (locals : List Value) : Flow → Prop
  | .next st | .jump _ st | .enter _ _ st | .branch _ st | .raise _ st _ | .call _ _ _ st => st.locals = locals
  | .leave | .tailCall .. => True

theorem Flow.Keeps.ite {locals : List Value} {fl fl' : Flow} (p : Prop) [Decidable p] (h : fl.Keeps locals)
    (h' : fl'.Keeps locals) : (if p then fl else fl').Keeps locals := by
  split_ifs
  · exact h
  · exact h'

variable {inst : ℕ} {d : InstanceData} {x : Exec} {code : List InstanceData} {frame : CallFrame} {pc : ℕ}
  {st : PlainState} {i : Instr}

theorem keeps_blockFlow : (blockFlow d frame pc st i).Gives (·.Keeps st.locals) := by
  cases i with
  | block _ | loop _ | if_ _ | tryTable _ _ | tryLegacy _ => exact .bind fun _ _ => .pure rfl
  | else_ | catchLegacy _ | catchAll => exact .pure rfl
  | end_ | delegate _ => exact .pure trivial
  | _ => exact .error

theorem keeps_raiseFlow : (raiseFlow d x frame st i).Gives (·.Keeps st.locals) := by
  cases i with
  | throw _ => exact .bind fun _ _ => .bind fun ⟨_, _⟩ hp => .pure (locals_popN hp)
  | throwRef | rethrow _ => exact .bind fun _ _ => .bind fun _ _ => .pure rfl
  | _ => exact .error

theorem keeps_branchFlow : (branchFlow inst d x code frame st i).Gives (·.Keeps st.locals) := by
  cases i with
  | br _ | brTable _ _ | return_ => exact .pure rfl
  | brIf _ | brOnNull _ | brOnNonNull _ => exact .pure (.ite _ rfl rfl)
  | brOnCast _ _ _ | brOnCastFail _ _ _ => exact .bind fun _ _ => .pure (.ite _ rfl rfl)
  | brOnCastDescEq _ _ _ | brOnCastDescEqFail _ _ _ =>
    exact .bind fun _ _ => .bind fun _ _ => .pure (.ite _ rfl rfl)
  | _ => exact .error

theorem keeps_invokeFlow : (invokeFlow inst d x code st i).Gives (·.Keeps st.locals) := by
  cases i with
  | call _ | callRef _ | callIndirect _ _ => exact .bind fun _ _ => .bind fun _ _ => .pure rfl
  | returnCall _ | returnCallRef _ | returnCallIndirect _ _ =>
    exact .bind fun _ _ => .bind fun ⟨_, _⟩ _ => .pure trivial
  | _ => exact .error

/-- Any other instruction than `local.set` and `local.tee` leaves the locals alone. -/
theorem keeps_flow {ops : Ops} (h : i.sets = none) :
    (flow ops inst d x code frame pc i).Gives (·.Keeps frame.locals) := by
  cases i with
  | block _ | loop _ | if_ _ | else_ | tryLegacy _ | catchLegacy _ | catchAll | delegate _ | tryTable _ _ | end_ =>
    unfold flow
    exact keeps_blockFlow
  | throw _ | rethrow _ | throwRef =>
    unfold flow
    exact keeps_raiseFlow
  | br _ | brIf _ | brTable _ _ | return_ | brOnNull _ | brOnNonNull _ | brOnCast _ _ _ | brOnCastFail _ _ _
  | brOnCastDescEq _ _ _ | brOnCastDescEqFail _ _ _ =>
    unfold flow
    exact keeps_branchFlow
  | call _ | callIndirect _ _ | returnCall _ | returnCallIndirect _ _ | callRef _ | returnCallRef _ =>
    unfold flow
    exact keeps_invokeFlow
  | _ => exact .map (locals_execPlain _ _ _ _ _ _ (frame.plain x) _ h)

/-- And these two go on with one local set to the operand on top. -/
theorem flow_of_sets {ops : Ops} {y : ℕ} (hsets : i.sets = some y) :
    (flow ops inst d x code frame pc i).Gives fun fl => ∃ st, fl = .next st ∧ y < frame.locals.length ∧
      st.locals = frame.locals.set y (frame.vstack.headD 0) := by
  intro fl h
  cases i with
  | localSet z =>
    obtain rfl := Option.some.inj hsets
    obtain ⟨st, hst, rfl⟩ := Except.map_eq_ok.mp h
    obtain ⟨locals, hlocals, hst⟩ := Except.bind_eq_ok.mp
      (show (setSlot frame.locals z (frame.vstack.headD 0) .stackUnderflow >>= _) = _ from hst)
    obtain ⟨_, hlt, hlocals⟩ := Except.bind_eq_ok.mp hlocals
    rw [ensure_eq_ok, decide_eq_true_eq] at hlt
    cases hlocals
    cases hst
    exact ⟨_, rfl, hlt, rfl⟩
  | localTee z =>
    obtain rfl := Option.some.inj hsets
    obtain ⟨st, hst, rfl⟩ := Except.map_eq_ok.mp h
    obtain ⟨v, hv, hst⟩ := Except.bind_eq_ok.mp (show ((frame.plain x).top >>= _) = _ from hst)
    obtain ⟨locals, hlocals, hst⟩ := Except.bind_eq_ok.mp hst
    obtain ⟨_, hlt, hlocals⟩ := Except.bind_eq_ok.mp hlocals
    rw [ensure_eq_ok, decide_eq_true_eq] at hlt
    have hhead : frame.vstack.headD 0 = v := by
      rw [List.headD_eq_head?_getD, show frame.vstack.head? = some v from orError_eq_ok.mp hv, Option.getD_some]
    cases hlocals
    cases hst
    exact ⟨_, rfl, hlt, by rw [hhead]; rfl⟩
  | _ => cases hsets

variable {ops : Ops} {a a' : Activation} {fl : Flow} {tags : List ℕ}

theorem Flow.GoesTo.locals_of_keeps (h : fl.GoesTo a tags x a') (hkeeps : fl.Keeps a.frame.locals) :
    a'.frame.locals = a.frame.locals := by
  cases h with
  | next st | jump pc st | enter l pc st => exact hkeeps
  | leave => rfl
  | branch hbranch =>
    obtain ⟨l, -, -, -, hframe⟩ := CallFrame.branch_eq_ok hbranch
    rw [Activation.resume, hframe]
    exact hkeeps
  | raise hraise =>
    obtain ⟨-, hlocals⟩ := CallFrame.frame_of_throwException (CallFrame.raise_eq_ok hraise)
    exact hlocals.trans hkeeps

/-- What an instruction leaves in a local. -/
theorem locals_of_goesTo (hfl : flow ops inst d x code a.frame a.pc i = .ok fl) (hgoes : fl.GoesTo a tags x a')
    (y : ℕ) : (i.sets = some y → a'.frame.locals[y]? = some (a.frame.vstack.headD 0)) ∧
      (i.sets ≠ some y → a'.frame.locals[y]? = a.frame.locals[y]?) := by
  cases hsets : i.sets with
  | none => exact ⟨nofun, fun _ => by rw [hgoes.locals_of_keeps (keeps_flow hsets hfl)]⟩
  | some z =>
    obtain ⟨st, rfl, hlt, hlocals⟩ := flow_of_sets hsets hfl
    cases hgoes
    constructor
    · rintro ⟨⟩
      rw [Activation.goTo, hlocals, List.getElem?_set_self hlt]
    · intro hne
      rw [Activation.goTo, hlocals, List.getElem?_set_ne fun h => hne (congrArg some h)]

end Flow

/-! ## Runs -/

/-- What an activation has last set a local to: the operand on top of those before the instruction. -/
def Executed.lastSet (ir : List Instr) (y : ℕ) : Executed → Option Value
  | [] => none
  | (p, operands) :: h => if (ir[p]?).bind Instr.sets = some y then some (operands.headD 0) else lastSet ir y h

/-- It has been set to something once it has been set. -/
theorem Executed.exists_lastSet {ir : List Instr} {y p : ℕ} {h : Executed} (hp : p ∈ h.map Prod.fst)
    (hsets : (ir[p]?).bind Instr.sets = some y) : ∃ v, h.lastSet ir y = some v := by
  induction h with
  | nil => cases hp
  | cons e h ih =>
    obtain ⟨q, operands⟩ := e
    by_cases hq : (ir[q]?).bind Instr.sets = some y
    · exact ⟨_, if_pos hq⟩
    · rw [lastSet, if_neg hq]
      rcases List.mem_cons.mp hp with rfl | hp
      · exact absurd hsets hq
      · exact ih hp

/-- The locals that have been set hold what they were last set to. -/
def Activation.Remembers (h : Executed) (a : Activation) : Prop :=
  ∀ y v, h.lastSet a.frame.body.ir y = some v → a.frame.locals[y]? = some v

theorem Activation.Remembers.cons {h : Executed} {a a' : Activation} {i : Instr} (ha : a.Remembers h)
    (hi : a.frame.body.ir[a.pc]? = some i) (hbody : a'.frame.body = a.frame.body)
    (hlocals : ∀ y, (i.sets = some y → a'.frame.locals[y]? = some (a.frame.vstack.headD 0)) ∧
      (i.sets ≠ some y → a'.frame.locals[y]? = a.frame.locals[y]?)) :
    a'.Remembers ((a.pc, a.frame.vstack) :: h) := by
  intro y v hv
  rw [hbody, Executed.lastSet, hi, Option.bind_some] at hv
  by_cases hsets : i.sets = some y
  · rw [if_pos hsets] at hv
    rw [(hlocals y).1 hsets, hv]
  · rw [if_neg hsets] at hv
    rw [(hlocals y).2 hsets]
    exact ha y v hv

/-- What activations do keeps it so. -/
theorem Activation.locals_invariant {W : Type} (env : Env W) :
    Activation.Invariant env (fun h a => a.Remembers h) (fun h s => s.activation.Remembers h) where
  start _ _ _ _ _ := nofun
  goesTo ha _ hi hfl hgoes := ha.cons hi hgoes.body (locals_of_goesTo hfl hgoes)
  suspend := by
    intro h a d i x inst func params st ha _ hi hfl
    have hsets : i.sets = none := by
      cases hsets : i.sets with
      | none => rfl
      | some y =>
        obtain ⟨_, hcall, -⟩ := flow_of_sets hsets hfl
        cases hcall
    refine ha.cons hi rfl fun y => ⟨fun h => ?_, fun _ => ?_⟩
    · rw [hsets] at h
      cases h
    · have hkeeps : st.locals = a.frame.locals := keeps_flow hsets hfl
      rw [Activation.goTo, hkeeps]
  returned _ hs := hs
  caught := by
    intro h s t x x' r hs hcatch
    obtain ⟨exn, -, -, hthrow⟩ := CallFrame.onCallError_eq_ok hcatch
    obtain ⟨hbody, hlocals⟩ := CallFrame.frame_of_throwException hthrow
    intro y v hv
    rw [Activation.resume, hbody] at hv
    rw [Activation.resume, hlocals]
    exact hs y v hv

end Wasmrt
