import Wasmrt.Interp.Machine

/-!
# Tail calls and the call depth

A tail call replaces its frame: the callee is looked up again at the depth of the caller, and the
callers that wait stay as they are. A callee that its instance imports from another instance is called
from there by an ordinary call, one level deeper, and so such a hop deepens the call like any other.

A frame is followed while the same callers wait below it. What runs above it was called from it and
returns to it.

## Main definitions

* `Env.importsWasm`: a function its instance imports from another instance.
* `Control.AtDepth`: a frame at a depth, a tail call from it, or its end.
* `LocalHop`, `LevelStep`: a step of a run that keeps some callers waiting.

## Main results

* `atDepth_of_hop_iff`: exactly which hops keep the depth.
* `tailCalls_keep_depth_iff`: a chain of such hops keeps it, however long.
-/

namespace Wasmrt

variable {W : Type} {env : Env W}

/-! ## Depths -/

/-- Function `func` of an instance is imported from another instance. -/
def Env.importsWasm (env : Env W) (inst func : ℕ) : Bool :=
  match env.code[inst]? with
  | some d =>
    decide (func < d.module.importedFuncCount) &&
      match d.imports[func]? with
      | some (.wasm ..) => true
      | _ => false
  | none => false

/-- A frame runs at depth `n`, or a tail call from it is about to be dispatched there, or it is over. A
call, which the depth ceiling is checked for, is none of these. -/
def Control.AtDepth (n : ℕ) : Control → Prop
  | .call .. => False
  | .dispatch _ _ _ tailed depth => tailed = true ∧ depth = n
  | .run a => a.depth = n
  | .ret _ | .fail _ => True

/-- If a tail call is about to be dispatched, its callee is not imported from another instance. -/
def LocalHop (env : Env W) (c : Config W) : Prop :=
  ∀ ⦃inst func : ℕ⦄ ⦃args : List Value⦄ ⦃depth : ℕ⦄,
    c.control = .dispatch inst func args true depth → env.importsWasm inst func = false

/-- A step during which the callers `S` stay waiting. -/
def LevelStep (env : Env W) (S : List Suspended) (c c' : Config W) : Prop :=
  (∃ es, Steps env c es c') ∧ S <:+ c'.stack

/-! ## What a step does to the depth -/

section Steps

variable {c c' : Config W} {es : List Event} {n : ℕ}

@[simp]
theorem Activation.depth_goTo (a : Activation) (st : PlainState) (pc : ℕ) :
    (a.goTo st pc).depth = a.depth := rfl

@[simp]
theorem Activation.depth_resume (a : Activation) (r : Resume) : (a.resume r).depth = a.depth := rfl

@[simp]
theorem Config.stack_andThen {α : Type} (c : Config W) (r : EStateM.Result Trap Exec α)
    (f : α → List Event × Control) : (c.andThen r f).2.stack = c.stack := by
  cases r <;> rfl

/-- Going on after a computation that may trap keeps the depth of the frame. -/
theorem Config.andThen_atDepth (c : Config W) {r : EStateM.Result Trap Exec Resume} {a : Activation}
    {f : Resume → List Event × Control} (hf : ∀ x, (f x).2 = .run (a.resume x)) :
    (c.andThen r f).2.control.AtDepth a.depth := by
  cases r with
  | ok v x =>
    show (f v).2.AtDepth a.depth
    rw [hf]
    rfl
  | error t x => trivial

/-- An instruction keeps the callers and the depth, or calls a function from its frame. -/
theorem applyFlow_cases (c : Config W) (a : Activation) (tags : List ℕ) (fl : Flow) :
    ((applyFlow c a tags fl).2.stack = c.stack ∧
        (applyFlow c a tags fl).2.control.AtDepth a.depth) ∨
      ∃ s, s.activation.depth = a.depth ∧ (applyFlow c a tags fl).2.stack = s :: c.stack := by
  cases fl with
  | next st => exact .inl ⟨rfl, rfl⟩
  | jump pc st => exact .inl ⟨rfl, rfl⟩
  | enter l pc st => exact .inl ⟨rfl, rfl⟩
  | leave => exact .inl ⟨rfl, rfl⟩
  | branch n st =>
    left
    simp only [applyFlow]
    cases (a.goTo st a.pc).frame.branch n c.exec with
    | error t => exact ⟨rfl, trivial⟩
    | ok r => exact ⟨rfl, rfl⟩
  | raise exn st events => exact .inl ⟨c.stack_andThen _ _, c.andThen_atDepth fun _ => rfl⟩
  | call inst func params st => exact .inr ⟨⟨a.goTo st a.pc, _⟩, rfl, rfl⟩
  | tailCall inst func args =>
    left
    simp only [applyFlow]
    cases c.exec.tick with
    | error t => exact ⟨rfl, trivial⟩
    | ok x => exact ⟨rfl, rfl, rfl⟩

/-- So does a step of a running frame. -/
theorem stepRun_cases (env : Env W) (c : Config W) (a : Activation) :
    ((stepRun env c a).2.stack = c.stack ∧ (stepRun env c a).2.control.AtDepth a.depth) ∨
      ∃ s, s.activation.depth = a.depth ∧ (stepRun env c a).2.stack = s :: c.stack := by
  unfold stepRun
  cases a.frame.body.ir[a.pc]? with
  | none =>
    left
    cases a.results with
    | error t => exact ⟨rfl, trivial⟩
    | ok vs => exact ⟨rfl, trivial⟩
  | some i =>
    cases env.code[a.inst]? with
    | none => exact .inl ⟨rfl, trivial⟩
    | some d =>
      simp only
      cases flow env.ops a.inst d c.exec env.code a.frame a.pc i with
      | error t => exact .inl ⟨rfl, trivial⟩
      | ok fl => exact applyFlow_cases c a d.maps.tags fl

@[simp]
theorem stack_callHost (c : Config W) (maps : IndexMaps) (host : HostFunc W) (args : List Value)
    (results : ℕ) : (callHost c maps host args results).stack = c.stack := rfl

theorem callHost_atDepth (c : Config W) (maps : IndexMaps) (host : HostFunc W) (args : List Value)
    (results n : ℕ) : (callHost c maps host args results).control.AtDepth n := by
  unfold callHost
  simp only
  split <;> trivial

/-- A lookup keeps the callers. It stays at its depth exactly when the function is not imported from
another instance. -/
theorem stepDispatch_cases (env : Env W) (c : Config W) (inst func : ℕ) (args : List Value)
    (depth : ℕ) :
    (stepDispatch env c inst func args depth).stack = c.stack ∧
      ((stepDispatch env c inst func args depth).control.AtDepth depth ↔
        env.importsWasm inst func = false) := by
  unfold stepDispatch Env.importsWasm
  cases env.code[inst]? with
  | none => exact ⟨rfl, iff_of_true trivial rfl⟩
  | some d =>
    by_cases himport : func < d.module.importedFuncCount
    · simp only [himport, if_true, decide_true, Bool.true_and]
      cases d.imports[func]? with
      | none => exact ⟨rfl, iff_of_true trivial rfl⟩
      | some target =>
        cases target with
        | wasm inst' func' => exact ⟨rfl, iff_of_false (fun h => h) (by simp)⟩
        | host h =>
          simp only
          cases env.hostFuncs[h]? with
          | none => exact ⟨rfl, iff_of_true trivial trivial⟩
          | some host =>
            cases d.module.funcType func with
            | none => exact ⟨rfl, iff_of_true trivial trivial⟩
            | some ft => exact ⟨rfl, iff_of_true (callHost_atDepth ..) trivial⟩
    · simp only [himport, if_false, decide_false, Bool.false_and, iff_true]
      cases d.funcBodies[func - d.module.importedFuncCount]? with
      | none => exact ⟨rfl, trivial⟩
      | some body => exact ⟨rfl, rfl⟩

/-- A hop keeps the depth exactly when its callee is not imported from another instance. -/
theorem atDepth_of_hop_iff {inst func : ℕ} {args : List Value}
    (hc : c.control = .dispatch inst func args true n) :
    (∀ ⦃es c'⦄, Steps env c es c' → c'.control.AtDepth n) ↔ env.importsWasm inst func = false := by
  have hstep : c.step env = some ([], stepDispatch env c inst func args n) := by
    rw [Config.step, hc]
  rw [← (stepDispatch_cases env c inst func args n).2]
  constructor
  · intro h
    exact h hstep
  · rintro h es c' hsteps
    obtain ⟨-, rfl⟩ := Prod.mk.inj (Option.some.inj (hstep.symm.trans hsteps))
    exact h

end Steps

/-! ## Chains of tail calls -/

section Chains

variable {S : List Suspended} {n : ℕ} {c c' : Config W}

/-- The frame above `S` is at depth `n`: it runs, or it is the last of the callers that wait. -/
def FrameAtDepth (S : List Suspended) (n : ℕ) (c : Config W) : Prop :=
  ∃ above, c.stack = above ++ S ∧
    match above.getLast? with
    | none => c.control.AtDepth n
    | some s => s.activation.depth = n

theorem frameAtDepth_of_stack_eq (hstack : c.stack = S) (h : c.control.AtDepth n) :
    FrameAtDepth S n c :=
  ⟨[], hstack, h⟩

theorem FrameAtDepth.atDepth (h : FrameAtDepth S n c) (hstack : c.stack = S) : c.control.AtDepth n := by
  obtain ⟨above, habove, hlast⟩ := h
  have hnil : above = [] := by
    apply List.self_eq_append_left.mp
    exact hstack.symm.trans habove
  subst hnil
  exact hlast

/-- A step that keeps the callers keeps the frame at its depth, provided the step does where the frame
itself runs. -/
theorem FrameAtDepth.same (h : FrameAtDepth S n c) (hstack : c'.stack = c.stack)
    (hc : c.control.AtDepth n → c'.control.AtDepth n) : FrameAtDepth S n c' := by
  obtain ⟨above, habove, hlast⟩ := h
  refine ⟨above, hstack.trans habove, ?_⟩
  cases hl : above.getLast? with
  | none =>
    rw [hl] at hlast
    exact hc hlast
  | some s => rwa [hl] at hlast

/-- A call from the frame, or from a frame above it, leaves it at its depth. -/
theorem FrameAtDepth.push (h : FrameAtDepth S n c) {s : Suspended} (hstack : c'.stack = s :: c.stack)
    (hs : c.control.AtDepth n → s.activation.depth = n) : FrameAtDepth S n c' := by
  obtain ⟨above, habove, hlast⟩ := h
  refine ⟨s :: above, by rw [hstack, habove, List.cons_append], ?_⟩
  cases above with
  | nil => exact hs hlast
  | cons t above => rwa [List.getLast?_cons_cons]

/-- A return to a caller above `S` leaves the frame at its depth. -/
theorem FrameAtDepth.pop (h : FrameAtDepth S n c) {s : Suspended} (hstack : c.stack = s :: c'.stack)
    (hsuffix : S <:+ c'.stack) (hc : c'.control.AtDepth s.activation.depth) : FrameAtDepth S n c' := by
  obtain ⟨above, habove, hlast⟩ := h
  cases above with
  | nil =>
    -- the callers below the frame have not been returned to
    have hlen := hsuffix.length_le
    have hlen' := congrArg List.length (hstack.symm.trans habove)
    simp only [List.length_cons, List.nil_append] at hlen'
    omega
  | cons t above =>
    rw [habove, List.cons_append, List.cons.injEq] at hstack
    obtain ⟨rfl, hrest⟩ := hstack
    refine ⟨above, hrest.symm, ?_⟩
    cases above with
    | nil =>
      have hdepth : t.activation.depth = n := hlast
      exact hdepth ▸ hc
    | cons u above => rwa [List.getLast?_cons_cons] at hlast

/-- A step keeps the frame at its depth. -/
theorem LevelStep.frameAtDepth (hstep : LevelStep env S c c') (hlocal : LocalHop env c)
    (h : FrameAtDepth S n c) : FrameAtDepth S n c' := by
  obtain ⟨⟨es, hstep⟩, hsuffix⟩ := hstep
  have hdone : ∀ {r}, c.step env = some r → c' = r.2 := fun hr => by
    rw [Option.some.inj (hr.symm.trans hstep)]
  cases hc : c.control with
  | run a =>
    obtain rfl := hdone (by rw [Config.step, hc])
    rcases stepRun_cases env c a with ⟨hstack, hdepth⟩ | ⟨s, hs, hstack⟩
    · refine h.same hstack fun ha => ?_
      have ha : a.depth = n := by rwa [hc] at ha
      exact ha ▸ hdepth
    · refine h.push hstack fun ha => ?_
      have ha : a.depth = n := by rwa [hc] at ha
      exact hs.trans ha
  | call inst func args depth =>
    -- no frame of its own makes this call, so the frame waits
    refine h.same ?_ fun ha => ?_
    · by_cases hceil : c.exec.runLimits.maxCallDepth < depth
      · rw [hdone (by rw [Config.step, hc]; exact if_pos hceil)]
      · rw [hdone (by rw [Config.step, hc]; exact if_neg hceil)]
    · rw [hc] at ha
      exact ha.elim
  | dispatch inst func args tailed depth =>
    obtain rfl := hdone (by rw [Config.step, hc])
    obtain ⟨hstack, hdepth⟩ := stepDispatch_cases env c inst func args depth
    refine h.same hstack fun ha => ?_
    rw [hc] at ha
    obtain ⟨rfl, rfl⟩ := ha
    exact hdepth.mpr (hlocal hc)
  | ret results =>
    cases hs : c.stack with
    | nil =>
      rw [Steps, Config.step, hc, hs] at hstep
      cases hstep
    | cons s rest =>
      obtain rfl := hdone (by rw [Config.step, hc, hs])
      exact h.pop hs hsuffix rfl
  | fail t =>
    cases hs : c.stack with
    | nil =>
      rw [Steps, Config.step, hc, hs] at hstep
      cases hstep
    | cons s rest =>
      obtain rfl := hdone (by rw [Config.step, hc, hs])
      -- the exception is caught in the caller's frame, or goes on to the next
      have hrest := Config.stack_andThen ({ c with control := .fail t, stack := rest } : Config W)
        (s.activation.frame.onCallError (tagsOf env s.activation.inst) t c.exec)
        fun r => (r.events, .run (s.activation.resume r))
      refine h.pop (hs.trans (congrArg (s :: ·) hrest.symm)) hsuffix ?_
      exact Config.andThen_atDepth _ fun _ => rfl

/-- A frame keeps its depth along a run whose tail calls are local. -/
theorem FrameAtDepth.run
    (hrun : Relation.ReflTransGen (fun c c' => LocalHop env c ∧ LevelStep env S c c') c c')
    (h : FrameAtDepth S n c) : FrameAtDepth S n c' := by
  induction hrun with
  | refl => exact h
  | tail _ hstep ih => exact hstep.2.frameAtDepth hstep.1 ih

end Chains

/-- A hop keeps the call depth exactly when its callee is not imported from another instance. Along a
run whose hops all do, over callers that stay waiting, whenever none waits above them the depth is what
it was, and no call is made that the depth ceiling is checked for. -/
theorem tailCalls_keep_depth_iff (env : Env W) (S : List Suspended) (n : ℕ) :
    (∀ (c : Config W) (inst func : ℕ) (args : List Value),
        c.control = .dispatch inst func args true n →
          ((∀ ⦃es c'⦄, Steps env c es c' → c'.control.AtDepth n) ↔
            env.importsWasm inst func = false)) ∧
      ∀ c c' : Config W, c.stack = S → c.control.AtDepth n →
        Relation.ReflTransGen (fun c c' => LocalHop env c ∧ LevelStep env S c c') c c' →
          c'.stack = S → c'.control.AtDepth n := by
  refine ⟨fun c inst func args hc => atDepth_of_hop_iff hc, ?_⟩
  intro c c' hstack hdepth hrun hstack'
  exact ((frameAtDepth_of_stack_eq hstack hdepth).run hrun).atDepth hstack'

/-! ## A chain between two instances -/

/-- Tail-calls what is in its table. -/
def tailCallsTable : Module :=
  { oneFuncType true with
    functions := [0]
    tables := [{ element := .ref .func true, limits := { min := 1, max := none } }]
    code := [⟨[], [.i32Const 0, .returnCallIndirect 0 0, .end_]⟩] }

/-- Tail-calls the function it imports, and puts its own into the table. -/
def tailCallsImport : Module :=
  { oneFuncType true with
    imports := [importsType0, {
      module := "m", name := "t"
      ty := .table { element := .ref .func true, limits := { min := 1, max := none } } }]
    functions := [0]
    tables := [{ element := .ref .func true, limits := { min := 1, max := none } }]
    elements := [{
      mode := .active, tableIndex := 0, offsetExpr := [.i32Const 0], funcs := [1], exprs := []
      elemType := .ref .func true }]
    code := [⟨[], [.returnCall 0, .end_]⟩] }

/-- A store in which the functions of two instances tail-call each other. -/
def tailCallStore : Store :=
  (Store.instantiate tailCallsImport { funcs := [.wasm ⟨0, 0⟩ 0], tables := [⟨⟨0, 0⟩, 0⟩] }
    (Store.instantiate tailCallsTable {} (Store.new 0 .defaults)).state).state

theorem reachable_tailCallStore : tailCallStore.Reachable :=
  ⟨0, .defaults, .head (.instantiate _ _ (wellFormed_oneFuncType true))
    (.single (.instantiate _ _ (wellFormed_oneFuncType true)))⟩

def tailCallEnv : Env Unit := { code := tailCallStore.code, ops := .unsupported }

/-- An invocation of the second instance's function, with two levels of calls to spend. -/
def tailCallStart : Config Unit where
  control := .call 1 1 [] 1
  stack := []
  exec :=
    { pools := tailCallStore.pools
      runLimits := { maxCallDepth := 2, maxExnBoxes := 0, maxIterations := 0 } }
  world := ()

/-- The chain makes tail calls only, and exhausts the call stack at the third. -/
theorem tailCalls_exhaust_stack :
    tailCallStore.Reachable ∧
      (tailCallStart.runFor tailCallEnv 3).2.control = .dispatch 1 0 [] true 1 ∧
        (tailCallStart.runFor tailCallEnv 4).2.control = .call 0 0 [] 2 ∧
          (tailCallStart.runFor tailCallEnv 12).1 = [.hop 1 0, .hop 1 1, .hop 1 0] ∧
            (tailCallStart.runFor tailCallEnv 12).2.control = .fail .callStackExhausted ∧
              ∀ n < 13, (tailCallStart.runFor tailCallEnv n).2.stack = [] :=
  ⟨reachable_tailCallStore, by decide, by decide, by decide, by decide, by decide⟩

end Wasmrt
