import Wasmrt.Interp.Machine

/-!
# Histories of activations

What an activation does depends on what it has done: on the constructs it has entered, and on the locals it
has set. Beside the machine runs a record of it. For the running activation and for each that waits it has
the instructions executed so far, with the operands before them.

## Main definitions

* `Executed`, `Config.record`: what an activation has executed, and how a step adds to it.
* `Config.Traced`: the states the machine comes to from a call, with their histories.
* `Flow.GoesTo`: how an activation goes on after an instruction.
* `Activation.Invariant`: a property of activations that what they do keeps.

## Main results

* `Activation.Invariant.traced`: such a property holds in every state the machine comes to.
-/

namespace Wasmrt

variable {W : Type}

/-! ## Histories -/

/-- The instructions an activation has executed, the last one first: their positions, and the operands before
them. -/
abbrev Executed := List (ℕ × List Value)

/-- The histories after a step, of the running activation if there is one and then of the waiting ones. -/
def Config.record (c c' : Config W) (hs : List Executed) : List Executed :=
  match c.control, c'.control, hs with
  | .run a, .run _, h :: hs => ((a.pc, a.frame.vstack) :: h) :: hs
  -- the caller waits with its call executed
  | .run a, .call .., h :: hs => ((a.pc, a.frame.vstack) :: h) :: hs
  | .run _, _, hs => hs.tail
  | .dispatch .., .run _, hs => [] :: hs
  -- an exception has passed through the innermost caller
  | .fail _, .fail _, hs => hs.tail
  | _, _, hs => hs

/-- The states the machine comes to from a call, with their histories. -/
inductive Config.Traced (env : Env W) : Config W → List Executed → Prop
  | start (inst func : ℕ) (args : List Value) (depth : ℕ) (x : Exec) (w : W) :
      Config.Traced env { control := .call inst func args depth, stack := [], exec := x, world := w } []
  | step {c c' : Config W} {hs : List Executed} {es : List Event} (hc : Config.Traced env c hs)
      (hstep : Steps env c es c') : Config.Traced env c' (c.record c' hs)

/-! ## One instruction -/

/-- How an activation goes on after an instruction that neither calls nor leaves its body. -/
inductive Flow.GoesTo (a : Activation) (tags : List ℕ) (x : Exec) : Flow → Activation → Prop
  | next (st : PlainState) : GoesTo a tags x (.next st) (a.goTo st (a.pc + 1))
  | jump (pc : ℕ) (st : PlainState) : GoesTo a tags x (.jump pc st) (a.goTo st pc)
  | enter (l : Label) (pc : ℕ) (st : PlainState) : GoesTo a tags x (.enter l pc st)
      { a.goTo st pc with frame := { (a.goTo st pc).frame with labels := l :: a.frame.labels } }
  | leave : GoesTo a tags x .leave
      { a with frame := { a.frame with labels := a.frame.labels.tail }, pc := a.pc + 1 }
  | branch {n : ℕ} {st : PlainState} {r : Resume} {x' : Exec}
      (h : (a.goTo st a.pc).frame.branch n x = .ok (r, x')) : GoesTo a tags x (.branch n st) (a.resume r)
  | raise {exn : Exception} {st : PlainState} {es : List Event} {r : Resume} {x' : Exec}
      (h : (a.goTo st a.pc).frame.raise tags exn x = .ok r x') : GoesTo a tags x (.raise exn st es) (a.resume r)

section Steps

variable {c : Config W} {a a' : Activation} {tags : List ℕ} {fl : Flow}

theorem Config.run_of_andThen {r : EStateM.Result Trap Exec Resume} {es : Resume → List Event}
    (h : (c.andThen r fun r => (es r, .run (a.resume r))).2.control = .run a') :
    ∃ v x', r = .ok v x' ∧ a' = a.resume v := by
  cases r with
  | ok v x' => exact ⟨v, x', rfl, (Control.run.inj h).symm⟩
  | error t x' => cases h

/-- An instruction after which the activation runs on. -/
theorem goesTo_of_applyFlow (h : (applyFlow c a tags fl).2.control = .run a') :
    fl.GoesTo a tags c.exec a' ∧ (applyFlow c a tags fl).2.stack = c.stack := by
  cases fl with
  | next st =>
    obtain rfl := Control.run.inj h
    exact ⟨.next st, rfl⟩
  | jump pc st =>
    obtain rfl := Control.run.inj h
    exact ⟨.jump pc st, rfl⟩
  | enter l pc st =>
    obtain rfl := Control.run.inj h
    exact ⟨.enter l pc st, rfl⟩
  | leave =>
    obtain rfl := Control.run.inj h
    exact ⟨.leave, rfl⟩
  | branch n st =>
    simp only [applyFlow] at h ⊢
    cases hbranch : (a.goTo st a.pc).frame.branch n c.exec with
    | error t =>
      rw [hbranch] at h
      cases h
    | ok r =>
      rw [hbranch] at h
      obtain rfl := Control.run.inj h
      exact ⟨.branch hbranch, rfl⟩
  | raise exn st events =>
    obtain ⟨r, x', hraise, rfl⟩ := Config.run_of_andThen h
    refine ⟨.raise hraise, ?_⟩
    simp only [applyFlow, hraise]
    rfl
  | call inst func params st => cases h
  | tailCall inst func args =>
    simp only [applyFlow] at h
    cases htick : c.exec.tick with
    | error t =>
      rw [htick] at h
      cases h
    | ok x =>
      rw [htick] at h
      cases h

/-- An instruction after which a function is called. -/
theorem suspends_of_applyFlow {inst func depth : ℕ} {args : List Value}
    (h : (applyFlow c a tags fl).2.control = .call inst func args depth) : ∃ params st,
      fl = .call inst func params st ∧
        (applyFlow c a tags fl).2.stack = ⟨a.goTo st a.pc, st.vstack.length - params⟩ :: c.stack := by
  cases fl with
  | next st | jump pc st | enter l pc st | leave => cases h
  | branch n st =>
    simp only [applyFlow] at h
    cases hbranch : (a.goTo st a.pc).frame.branch n c.exec with
    | error t | ok r =>
      rw [hbranch] at h
      cases h
  | raise exn st events =>
    simp only [applyFlow] at h
    cases hraise : (a.goTo st a.pc).frame.raise tags exn c.exec with
    | error t x | ok r x =>
      rw [hraise] at h
      cases h
  | call inst' func' params st =>
    simp only [applyFlow, Control.call.injEq] at h
    obtain ⟨rfl, rfl, -, -⟩ := h
    exact ⟨params, st, rfl, rfl⟩
  | tailCall inst' func' args' =>
    simp only [applyFlow] at h
    cases htick : c.exec.tick with
    | error t | ok x =>
      rw [htick] at h
      cases h

/-- Any other instruction leaves the waiting callers alone. -/
theorem stack_of_applyFlow
    (h : ∀ inst func args depth, (applyFlow c a tags fl).2.control ≠ .call inst func args depth) :
    (applyFlow c a tags fl).2.stack = c.stack := by
  cases fl with
  | next st | jump pc st | enter l pc st | leave => rfl
  | branch n st =>
    simp only [applyFlow]
    cases (a.goTo st a.pc).frame.branch n c.exec <;> rfl
  | raise exn st events =>
    simp only [applyFlow]
    cases (a.goTo st a.pc).frame.raise tags exn c.exec <;> rfl
  | call inst func params st => exact absurd rfl (h inst func _ _)
  | tailCall inst func args =>
    simp only [applyFlow]
    cases c.exec.tick <;> rfl

/-- The instruction a running activation executes, unless it ends or fails. -/
theorem stepRun_cases_flow (env : Env W) (c : Config W) (a : Activation) :
    (∃ d i fl, env.code[a.inst]? = some d ∧ a.frame.body.ir[a.pc]? = some i ∧
        flow env.ops a.inst d c.exec env.code a.frame a.pc i = .ok fl ∧
        stepRun env c a = applyFlow c a d.maps.tags fl) ∨
      ((stepRun env c a).2.stack = c.stack ∧
        ((∃ vs, (stepRun env c a).2.control = .ret vs) ∨ ∃ t, (stepRun env c a).2.control = .fail t)) := by
  unfold stepRun
  cases hi : a.frame.body.ir[a.pc]? with
  | none =>
    right
    cases a.results with
    | error t => exact ⟨rfl, .inr ⟨t, rfl⟩⟩
    | ok vs => exact ⟨rfl, .inl ⟨vs, rfl⟩⟩
  | some i =>
    cases hd : env.code[a.inst]? with
    | none => exact .inr ⟨rfl, .inr ⟨_, rfl⟩⟩
    | some d =>
      simp only
      cases hfl : flow env.ops a.inst d c.exec env.code a.frame a.pc i with
      | error t => exact .inr ⟨rfl, .inr ⟨t, rfl⟩⟩
      | ok fl => exact .inl ⟨d, i, fl, rfl, rfl, hfl, rfl⟩

/-- What a lookup comes to. -/
theorem stepDispatch_cases_run (env : Env W) (c : Config W) (inst func : ℕ) (args : List Value) (depth : ℕ) :
    (stepDispatch env c inst func args depth).stack = c.stack ∧
      ((∃ d body, env.code[inst]? = some d ∧
          d.funcBodies[func - d.module.importedFuncCount]? = some body ∧ ¬ func < d.module.importedFuncCount ∧
          (stepDispatch env c inst func args depth).control = .run (Activation.start inst func depth body args)) ∨
        ∀ a, (stepDispatch env c inst func args depth).control ≠ .run a) := by
  unfold stepDispatch
  cases hd : env.code[inst]? with
  | none => exact ⟨rfl, .inr nofun⟩
  | some d =>
    by_cases himport : func < d.module.importedFuncCount
    · simp only [himport, if_true]
      cases d.imports[func]? with
      | none => exact ⟨rfl, .inr nofun⟩
      | some target =>
        cases target with
        | wasm inst' func' => exact ⟨rfl, .inr nofun⟩
        | host h =>
          simp only
          cases env.hostFuncs[h]? with
          | none => exact ⟨rfl, .inr nofun⟩
          | some host =>
            cases d.module.funcType func with
            | none => exact ⟨rfl, .inr nofun⟩
            | some ft =>
              refine ⟨rfl, .inr fun a => ?_⟩
              simp only [callHost]
              split <;> nofun
    · simp only [himport, if_false]
      cases hbody : d.funcBodies[func - d.module.importedFuncCount]? with
      | none => exact ⟨rfl, .inr nofun⟩
      | some body => exact ⟨rfl, .inl ⟨d, body, rfl, hbody, himport, rfl⟩⟩

end Steps

/-! ## Runs -/

/-- A property `I` of running activations and `J` of waiting ones that what they do keeps. -/
structure Activation.Invariant (env : Env W) (I : Executed → Activation → Prop) (J : Executed → Suspended → Prop) :
    Prop where
  start : ∀ {inst func : ℕ} {d : InstanceData} {body : FuncBody} (depth : ℕ) (args : List Value),
    env.code[inst]? = some d → d.funcBodies[func - d.module.importedFuncCount]? = some body →
      ¬ func < d.module.importedFuncCount → I [] (.start inst func depth body args)
  goesTo : ∀ {h : Executed} {a a' : Activation} {d : InstanceData} {i : Instr} {x : Exec} {fl : Flow}, I h a →
    env.code[a.inst]? = some d → a.frame.body.ir[a.pc]? = some i →
      flow env.ops a.inst d x env.code a.frame a.pc i = .ok fl → fl.GoesTo a d.maps.tags x a' →
        I ((a.pc, a.frame.vstack) :: h) a'
  suspend : ∀ {h : Executed} {a : Activation} {d : InstanceData} {i : Instr} {x : Exec} {inst func params : ℕ}
    {st : PlainState}, I h a → env.code[a.inst]? = some d → a.frame.body.ir[a.pc]? = some i →
      flow env.ops a.inst d x env.code a.frame a.pc i = .ok (.call inst func params st) →
        J ((a.pc, a.frame.vstack) :: h) ⟨a.goTo st a.pc, st.vstack.length - params⟩
  returned : ∀ {h : Executed} {s : Suspended} (results : List Value), J h s →
    I h (s.activation.returned s.base results)
  caught : ∀ {h : Executed} {s : Suspended} {t : Trap} {x x' : Exec} {r : Resume}, J h s →
    s.activation.frame.onCallError (tagsOf env s.activation.inst) t x = .ok r x' → I h (s.activation.resume r)

/-- The properties hold of the running activation, if there is one, and of those that wait. -/
inductive Config.Holds (I : Executed → Activation → Prop) (J : Executed → Suspended → Prop) (c : Config W) :
    List Executed → Prop
  | running {a : Activation} {h : Executed} {hs : List Executed} (hc : c.control = .run a) (ha : I h a)
      (hwait : List.Forall₂ J hs c.stack) : Holds I J c (h :: hs)
  | waiting {hs : List Executed} (hc : ∀ a, c.control ≠ .run a) (hwait : List.Forall₂ J hs c.stack) : Holds I J c hs

section Invariant

variable {env : Env W} {I : Executed → Activation → Prop} {J : Executed → Suspended → Prop} {c c' : Config W}
  {hs : List Executed} {es : List Event}

/-- A step of a running activation. -/
theorem Activation.Invariant.stepRun (hI : Activation.Invariant env I J) {a : Activation} {h : Executed}
    (hc : c.control = .run a) (ha : I h a) (hwait : List.Forall₂ J hs c.stack)
    (hstep : Wasmrt.stepRun env c a = (es, c')) : c'.Holds I J (c.record c' (h :: hs)) := by
  rcases stepRun_cases_flow env c a with ⟨d, i, fl, hd, hi, hfl, heq⟩ | ⟨hstack, hcontrol⟩
  · rw [heq] at hstep
    obtain rfl : (applyFlow c a d.maps.tags fl).2 = c' := by rw [hstep]
    cases hcontrol : (applyFlow c a d.maps.tags fl).2.control with
    | run a' =>
      obtain ⟨hgoes, hstack⟩ := goesTo_of_applyFlow hcontrol
      unfold Config.record
      rw [hc, hcontrol]
      refine .running hcontrol (hI.goesTo ha hd hi hfl hgoes) ?_
      rwa [hstack]
    | call inst func args depth =>
      obtain ⟨params, st, rfl, hstack⟩ := suspends_of_applyFlow hcontrol
      unfold Config.record
      rw [hc, hcontrol]
      refine .waiting (by rw [hcontrol]; nofun) ?_
      rw [hstack]
      exact .cons (hI.suspend ha hd hi hfl) hwait
    | dispatch _ _ _ _ _ | ret _ | fail _ =>
      unfold Config.record
      rw [hc, hcontrol]
      refine .waiting (by rw [hcontrol]; nofun) ?_
      rw [stack_of_applyFlow (by rw [hcontrol]; nofun)]
      exact hwait
  · obtain rfl : (Wasmrt.stepRun env c a).2 = c' := by rw [hstep]
    rcases hcontrol with ⟨vs, hcontrol⟩ | ⟨t, hcontrol⟩
    all_goals
      unfold Config.record
      rw [hc, hcontrol]
      refine .waiting (by rw [hcontrol]; nofun) ?_
      rw [hstack]
      exact hwait

/-- A step keeps the properties. -/
theorem Activation.Invariant.step (hI : Activation.Invariant env I J) (h : c.Holds I J hs)
    (hstep : Steps env c es c') : c'.Holds I J (c.record c' hs) := by
  unfold Steps Config.step at hstep
  cases h with
  | running hc ha hwait =>
    simp only [hc] at hstep
    exact hI.stepRun hc ha hwait (Option.some.inj hstep)
  | waiting hc hwait =>
    cases hcontrol : c.control with
    | run a => exact absurd hcontrol (hc a)
    | call inst func args depth =>
      simp only [hcontrol] at hstep
      split_ifs at hstep
      all_goals
        obtain ⟨-, rfl⟩ := Prod.mk.inj (Option.some.inj hstep)
        simp only [Config.record, hcontrol]
        exact .waiting nofun hwait
    | dispatch inst func args tailed depth =>
      simp only [hcontrol] at hstep
      obtain ⟨-, rfl⟩ := Prod.mk.inj (Option.some.inj hstep)
      obtain ⟨hstack, ⟨d, body, hd, hbody, himport, hrun⟩ | hother⟩ :=
        stepDispatch_cases_run env c inst func args depth
      · simp only [Config.record, hcontrol, hrun]
        refine .running hrun (hI.start depth args hd hbody himport) ?_
        rwa [hstack]
      · have hrecord : c.record (stepDispatch env c inst func args depth) hs = hs := by
          unfold Config.record
          rw [hcontrol]
          split <;> simp_all
        rw [hrecord]
        refine .waiting hother ?_
        rwa [hstack]
    | ret results =>
      cases hstack : c.stack with
      | nil =>
        simp only [hcontrol, hstack] at hstep
        cases hstep
      | cons s rest =>
        simp only [hcontrol, hstack] at hstep
        obtain ⟨-, rfl⟩ := Prod.mk.inj (Option.some.inj hstep)
        rw [hstack] at hwait
        cases hwait with
        | cons hs hwait =>
          simp only [Config.record, hcontrol]
          exact .running rfl (hI.returned results hs) hwait
    | fail t =>
      cases hstack : c.stack with
      | nil =>
        simp only [hcontrol, hstack] at hstep
        cases hstep
      | cons s rest =>
        simp only [hcontrol, hstack] at hstep
        rw [hstack] at hwait
        cases hwait with
        | cons hs hwait =>
          cases hcatch : s.activation.frame.onCallError (tagsOf env s.activation.inst) t c.exec with
          | error t' x =>
            rw [hcatch] at hstep
            obtain ⟨-, rfl⟩ := Prod.mk.inj (Option.some.inj hstep)
            simp only [Config.record, hcontrol, List.tail_cons]
            exact .waiting nofun hwait
          | ok r x =>
            rw [hcatch] at hstep
            obtain ⟨-, rfl⟩ := Prod.mk.inj (Option.some.inj hstep)
            simp only [Config.record, hcontrol]
            exact .running rfl (hI.caught hs hcatch) hwait

/-- In every state the machine comes to the properties hold. -/
theorem Activation.Invariant.traced (hI : Activation.Invariant env I J) (h : Config.Traced env c hs) : c.Holds I J hs := by
  induction h with
  | start => exact .waiting nofun .nil
  | step _ hstep ih => exact hI.step ih hstep

/-- Of the running activation. -/
theorem Activation.Invariant.of_run (hI : Activation.Invariant env I J) (h : Config.Traced env c hs) {a : Activation}
    (hc : c.control = .run a) : ∃ hist rest, hs = hist :: rest ∧ I hist a ∧ List.Forall₂ J rest c.stack := by
  cases hI.traced h with
  | running hc' ha hwait =>
    obtain rfl := Control.run.inj (hc.symm.trans hc')
    exact ⟨_, _, rfl, ha, hwait⟩
  | waiting hne _ => exact absurd hc (hne a)

/-- Of the waiting ones, when none is running. -/
theorem Activation.Invariant.of_waiting (hI : Activation.Invariant env I J) (h : Config.Traced env c hs)
    (hc : ∀ a, c.control ≠ .run a) : List.Forall₂ J hs c.stack := by
  cases hI.traced h with
  | running hc' _ _ => exact absurd hc' (hc _)
  | waiting _ hwait => exact hwait

end Invariant

end Wasmrt
