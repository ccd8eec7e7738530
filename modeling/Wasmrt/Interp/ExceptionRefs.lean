import Wasmrt.Interp.Tracking

/-!
# References to exceptions

A reference to an exception is an index into the exceptions boxed so far. Within an invocation these
only grow in number, so a reference keeps its exception. The next invocation starts with none, while
the globals, tables and objects that may hold the reference are still there: thrown then, it traps, or
raises whatever the new invocation has boxed under that index.

## Main definitions

* `Event.binding`: the reference an event makes or uses, and its exception.
* `Exec.Boxes`: what a step does to the boxed exceptions.

## Main results

* `Config.boxes_step`, `Session.Run.boxes`: a step, and a run without an entry, keep every box.
* `throwRef_raises_captured`: a reference thrown in the invocation that made it raises the exception it
  was made for.
-/

namespace Wasmrt

/-! ## Boxes -/

/-- The reference an event makes or uses, and the exception it stands for. -/
def Event.binding : Event → Option (Value × Exception)
  | capture r exn | throwRef r exn => some (r, exn)
  | _ => none

/-- From one state to another of an invocation no box is lost, and the references of the events stand
for the exceptions they name. -/
structure Exec.Boxes (x : Exec) (es : List Event) (x' : Exec) : Prop where
  kept : x.exnStore <+: x'.exnStore
  resolves : ∀ e ∈ es, ∀ ⦃r : Value⦄ ⦃exn : Exception⦄, e.binding = some (r, exn) →
    r ≠ nullRef ∧ x'.exnStore[r.toNat]? = some exn
  not_entry : Event.entry ∉ es

namespace Exec.Boxes

variable {x x' x'' : Exec} {es es' : List Event}

theorem of_eq (h : x'.exnStore = x.exnStore) : x.Boxes [] x' :=
  ⟨h ▸ List.prefix_refl _, by simp, by simp⟩

theorem refl (x : Exec) : x.Boxes [] x := of_eq rfl

theorem trans (h : x.Boxes es x') (h' : x'.Boxes es' x'') : x.Boxes (es ++ es') x'' := by
  refine ⟨h.kept.trans h'.kept, ?_, by simp [h.not_entry, h'.not_entry]⟩
  intro e he r exn hb
  rcases List.mem_append.mp he with he | he
  · obtain ⟨hnull, hget⟩ := h.resolves e he hb
    exact ⟨hnull, getElem?_of_prefix h'.kept hget⟩
  · exact h'.resolves e he hb

/-- A step that reports only what spends budget. -/
theorem of_silent (h : x'.exnStore = x.exnStore) (hes : ∀ e ∈ es, e.binding = none)
    (hentry : Event.entry ∉ es) : x.Boxes es x' :=
  ⟨h ▸ List.prefix_refl _, fun e he r exn hb => by simp [hes e he] at hb, hentry⟩

end Exec.Boxes

/-- A boxed exception is found under its reference. -/
theorem CallFrame.boxes_box {x x' : Exec} {exn : Exception} {r : Value} (h : box exn x = .ok (r, x')) :
    x.Boxes [.capture r exn] x' := by
  simp only [box, Except.bind_eq_ok, ensure_eq_ok, decide_eq_true_eq, Except.pure_eq_ok,
    Prod.mk.injEq] at h
  obtain ⟨_, hroom, rfl, rfl⟩ := h
  -- the ceiling keeps indices below the null reference
  have hlt : x.exnStore.length < 2 ^ 64 - 1 := lt_of_lt_of_le hroom x.runLimits.exnBoxes_le
  have htoNat : (BitVec.ofNat 128 x.exnStore.length).toNat = x.exnStore.length := by
    rw [BitVec.toNat_ofNat]
    exact Nat.mod_eq_of_lt (by omega)
  refine ⟨List.prefix_append _ _, ?_, by simp⟩
  intro e he r exn' hb
  obtain rfl := List.mem_singleton.mp he
  simp only [Event.binding, Option.some.injEq, Prod.mk.injEq] at hb
  obtain ⟨rfl, rfl⟩ := hb
  refine ⟨?_, ?_⟩
  · intro hnull
    have hnat := congrArg BitVec.toNat hnull
    rw [htoNat, show nullRef.toNat = 2 ^ 64 - 1 from rfl] at hnat
    omega
  · rw [htoNat, List.getElem?_concat_length]

/-- Thrown again, an exception is the one its reference stands for. -/
theorem Exec.boxes_throwRef {x : Exec} {r : Value} {exn : Exception} (hnull : r ≠ nullRef)
    (hget : x.exnStore[r.toNat]? = some exn) : x.Boxes [.throwRef r exn] x := by
  refine ⟨List.prefix_refl _, ?_, by simp⟩
  intro e he r exn' hb
  obtain rfl := List.mem_singleton.mp he
  simp only [Event.binding, Option.some.injEq, Prod.mk.injEq] at hb
  obtain ⟨rfl, rfl⟩ := hb
  exact ⟨hnull, hget⟩

/-- No primitive change loses a box. -/
theorem Exec.tracked_boxes : Exec.Tracked Exec.Boxes where
  refl := .refl
  trans := .trans
  pools _ _ := .of_eq rfl
  pending _ _ := .of_eq rfl
  backEdge htick := by
    obtain ⟨fuel, rfl⟩ := Exec.tick_ok htick
    exact .of_silent rfl (by simp [Event.binding]) (by simp)
  hop _ _ htick := by
    obtain ⟨fuel, rfl⟩ := Exec.tick_ok htick
    exact .of_silent rfl (by simp [Event.binding]) (by simp)
  box := CallFrame.boxes_box
  boxed h := ⟨(CallFrame.boxes_box h).kept, by simp, by simp⟩
  throwRef := Exec.boxes_throwRef

/-- A step of the machine loses no box. -/
theorem Config.boxes_step {W : Type} {env : Env W} {c c' : Config W} {es : List Event}
    (h : c.step env = some (es, c')) : c.exec.Boxes es c'.exec :=
  Exec.tracked_boxes.step h

/-! ## Runs -/

section Runs

variable {W : Type} {s s' : Session W} {es : List Event}

theorem Session.boxes_advance {c : Config W} {outermost : Bool} (h : s.phase = .running c outermost) :
    s.phase.exec.Boxes (s.advance c outermost).1 (s.advance c outermost).2.phase.exec := by
  rw [h]
  unfold Session.advance
  cases hstep : c.step s.env with
  | some r => exact Config.boxes_step hstep
  | none => exact .of_eq rfl

/-- An instantiation that enters no start function changes the pools only. -/
theorem Session.boxes_instantiate {x : Exec} {w : W} (h : s.phase = .idle x w) (m : Module)
    (imports : Imports) (hosts : List (HostFunc W))
    (hone : Event.entry ∉ (s.instantiate x w m imports hosts).entered) :
    s.phase.exec.Boxes (s.instantiate x w m imports hosts).entered
      (s.instantiate x w m imports hosts).phase.exec := by
  rw [h]
  revert hone
  unfold Session.instantiate
  cases Store.instantiate m imports (s.store x) with
  | error t st => exact fun _ => .of_eq rfl
  | ok id st =>
    cases m.start with
    | none => exact fun _ => .of_eq rfl
    | some func =>
      simp only
      cases hinvoke : (s.withStore st hosts x w).invoke { x with pools := st.pools } w id func [] with
      | error t => exact fun _ => .of_eq rfl
      | ok s'' =>
        intro hone
        simp only [Session.invoke, Except.bind_eq_ok, Except.pure_eq_ok] at hinvoke
        obtain ⟨_, -, _, -, _, -, rfl⟩ := hinvoke
        exact absurd (List.mem_singleton_self _) hone

/-- A step of a session that enters no invocation loses no box. -/
theorem Session.Step.boxes (h : Session.Step s es s') (hone : Event.entry ∉ es) :
    s.phase.exec.Boxes es s'.phase.exec := by
  cases h with
  | invoke hidle id func args h => exact absurd (List.mem_singleton_self _) hone
  | instantiate hidle m imports hosts => exact Session.boxes_instantiate hidle m imports hosts hone
  | advance hrunning => exact Session.boxes_advance hrunning

/-- Nor does a run that enters none. -/
theorem Session.Run.boxes (h : Session.Run s es s') (hone : Event.entry ∉ es) :
    s.phase.exec.Boxes es s'.phase.exec := by
  induction h with
  | refl => exact .refl _
  | tail hrun hstep ih =>
    rw [List.mem_append, not_or] at hone
    exact (ih hone.1).trans (hstep.boxes hone.2)

/-- An invocation begins without boxes. -/
theorem Session.exnStore_of_invoke {x : Exec} {w : W} {id : InstanceId} {func : ℕ} {args : List Value}
    (h : s.invoke x w id func args = .ok s') : s'.phase.exec.exnStore = [] := by
  simp only [Session.invoke, Except.bind_eq_ok, Except.pure_eq_ok] at h
  obtain ⟨_, -, _, -, _, -, rfl⟩ := h
  rfl

/-- `throw_ref` raises the exception its operand resolves to. -/
theorem flow_throwRef {ops : Ops} {inst : ℕ} {d : InstanceData} {x : Exec} {code : List InstanceData}
    {frame : CallFrame} {pc : ℕ} {r : Value} {rest : List Value} (hstack : frame.vstack = r :: rest)
    (hr : r ≠ nullRef) :
    flow ops inst d x code frame pc .throwRef =
      match x.exnStore[r.toNat]? with
      | some exn => .ok (.raise exn ⟨frame.locals, rest, x.pools.contents⟩ [.throwRef r exn])
      | none => .error .nullReference := by
  have hflow : flow ops inst d x code frame pc .throwRef = raiseFlow d x frame (frame.plain x) .throwRef :=
    rfl
  rw [hflow, raiseFlow]
  simp only [CallFrame.plain, PlainState.pop, hstack, List.headD_cons, List.tail_cons]
  cases hget : x.exnStore[r.toNat]? with
  | none =>
    simp only [orError]
    rw [show (r != nullRef) = true from bne_iff_ne.mpr hr]
    rfl
  | some exn =>
    simp only [orError]
    rw [show (r != nullRef) = true from bne_iff_ne.mpr hr]
    rfl

end Runs

/-- A reference made by a handler and thrown before the next invocation begins raises the exception it
was made for: every `throw_ref` of the run has done so, and one that is next will. Once the next
invocation has begun it traps. -/
theorem throwRef_raises_captured {W : Type} {s s' : Session W} {es : List Event}
    (hrun : Session.Run s es s') (hone : Event.entry ∉ es) {r : Value} {exn : Exception}
    (hcapture : Event.capture r exn ∈ es) :
    (∀ exn', Event.throwRef r exn' ∈ es → exn' = exn) ∧
      ∀ (ops : Ops) (inst : ℕ) (d : InstanceData) (code : List InstanceData) (frame : CallFrame)
        (pc : ℕ) (rest : List Value), frame.vstack = r :: rest →
          flow ops inst d s'.phase.exec code frame pc .throwRef =
              .ok (.raise exn ⟨frame.locals, rest, s'.phase.exec.pools.contents⟩
                [.throwRef r exn]) ∧
            ∀ (x : Exec) (w : W) (id : InstanceId) (func : ℕ) (args : List Value) (s'' : Session W),
              s'.phase = .idle x w → s'.invoke x w id func args = .ok s'' →
                flow ops inst d s''.phase.exec code frame pc .throwRef = .error .nullReference := by
  have hboxes := hrun.boxes hone
  obtain ⟨hnull, hget⟩ := hboxes.resolves _ hcapture rfl
  refine ⟨?_, ?_⟩
  · intro exn' hthrow
    obtain ⟨-, hget'⟩ := hboxes.resolves _ hthrow rfl
    exact Option.some.inj (hget'.symm.trans hget)
  · intro ops inst d code frame pc rest hstack
    refine ⟨?_, ?_⟩
    · rw [flow_throwRef hstack hnull, hget]
    · intro x w id func args s'' _ hinvoke
      rw [flow_throwRef hstack hnull, Session.exnStore_of_invoke hinvoke]
      rfl

/-! ## A reference kept in a global -/

/-- The types `[i32] → []` and `[] → []`. -/
def numberAndUnit : TypeSection :=
  decoded [[⟨true, none, {}, .func [.i32] []⟩], [⟨true, none, {}, .func [] []⟩]]

theorem wellFormed_numberAndUnit : numberAndUnit.WellFormed :=
  wellFormed_of_decode
    [[⟨true, none, {}, .func [.i32] []⟩], [⟨true, none, {}, .func [] []⟩]]
    (by decide) (by decide) rfl rfl rfl

/-- Throws a number and catches it as a reference. -/
def catchNumber (number : List Instr) : List Instr :=
  [.block (.value (.ref .exn true)), .tryTable .empty [⟨.catchAllRef, 0, 0⟩]] ++ number ++
    [.throw 0, .end_, .unreachable, .end_]

/-- Function 0 catches its argument and keeps the reference in a global; function 1 catches 2, and
throws what is in the global. -/
def keepsException : Module :=
  { numberAndUnit with
    functions := [0, 1]
    tags := [0]
    globals := [{ content := .ref .exn true, mutable := true }]
    globalInits := [[.refNull .exn]]
    code := [
      ⟨[], catchNumber [.localGet 0] ++ [.globalSet 0, .end_]⟩,
      ⟨[], catchNumber [.i32Const 2] ++ [.drop, .globalGet 0, .throwRef, .end_]⟩] }

def keepsStore : Store := (Store.instantiate keepsException {} (Store.new 0 .defaults)).state

/-- A session with an instance of that module. -/
def keepsSession : Session Unit where
  id := 0
  env := { code := keepsStore.code, ops := .unsupported }
  phase := .idle
    { pools := keepsStore.pools
      runLimits := { maxCallDepth := 8, maxExnBoxes := 8, maxIterations := 0 } } ()

/-- The session once function 0 has kept the exception with payload 1. -/
def keptSession : Session Unit := (keepsSession.call ⟨0, 0⟩ 0 [1] 20).2

/-- The reference in the global was made for the payload 1. Thrown in the next invocation, which has
boxed an exception of its own, it raises that one. -/
theorem throwRef_raises_other :
    Session.Run keepsSession [.entry, .capture 0 ⟨0, [1]⟩] keptSession ∧
      keptSession.phase.exec.pools.globals = [0] ∧
        Session.Run keptSession [.entry, .capture 0 ⟨0, [2]⟩, .throwRef 0 ⟨0, [2]⟩]
          (keptSession.call ⟨0, 0⟩ 1 [] 20).2 := by
  refine ⟨?_, by decide, ?_⟩
  · have hrun := keepsSession.run_call ⟨0, 0⟩ 0 [1] 20
    rwa [show (keepsSession.call ⟨0, 0⟩ 0 [1] 20).1 = [.entry, .capture 0 ⟨0, [1]⟩] by decide] at hrun
  · have hrun := keptSession.run_call ⟨0, 0⟩ 1 [] 20
    rwa [show (keptSession.call ⟨0, 0⟩ 1 [] 20).1 =
      [.entry, .capture 0 ⟨0, [2]⟩, .throwRef 0 ⟨0, [2]⟩] by decide] at hrun

/-- Thrown in its own invocation the second reference raises what it was made for. -/
theorem second_throwRef_raises_captured :
    ∃ s, keptSession.call ⟨0, 0⟩ 1 [] 0 = ([.entry], s) ∧
      ∀ exn', Event.throwRef 0 exn' ∈ (s.runFor 20).1 → exn' = ⟨0, [2]⟩ :=
  ⟨_, rfl, (throwRef_raises_captured (Session.run_runFor 20 _) (by decide)
    (show Event.capture 0 ⟨0, [2]⟩ ∈ _ by decide)).1⟩

end Wasmrt
