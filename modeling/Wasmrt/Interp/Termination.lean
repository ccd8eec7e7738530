import Wasmrt.Interp.Progress
import Wasmrt.Interp.HeapBackstop
import Wasmrt.Library.StackMeasure

/-!
# Invocations come to an end

With a limit on iterations every invocation of accepted modules halts, whatever it calls and whatever
exceptions it raises. What an activation has left to do is bounded by the instructions ahead of it; a call
begins a new one at a greater depth, of which there are only so many; and going back to a loop, or beginning
anew by a tail call, takes a unit of the budget.

## Main definitions

* `Config.DepthsWithin`: the depths a run comes to.
* `Config.work`: what is left to do.
* `Session.RunAccepted`: the runs in which every module that is instantiated has been accepted.

## Main results

* `Config.work_lt_of_step`: every step leaves less to do.
* `invocation_halts`: an invocation that is under way comes to its end within a number of steps that the
  limits and the longest body determine.
-/

namespace Wasmrt

variable {W : Type}

/-! ## Depths -/

/-- The depth ceiling holds for what runs and for what waits. A call one deeper is about to be refused. -/
def Control.DepthWithin (ceiling : ℕ) : Control → Prop
  | .call _ _ _ depth => depth ≤ ceiling + 1
  | .dispatch _ _ _ _ depth => depth ≤ ceiling
  | .run a => a.depth ≤ ceiling
  | .ret _ | .fail _ => True

/-- So it does in a state of the machine. -/
structure Config.DepthsWithin (ceiling : ℕ) (c : Config W) : Prop where
  control : c.control.DepthWithin ceiling
  waiting : ∀ s ∈ c.stack, s.activation.depth ≤ ceiling

/-! ## What is left to do -/

/-- The length of the longest body of some instances. -/
def Env.longestBody (env : Env W) : ℕ :=
  (env.code.flatMap (·.funcBodies)).foldr (fun body n => max body.ir.length n) 0

/-- The base in which the work on the stack is counted: more than any activation or call has to do. -/
def workBase (longest : ℕ) : ℕ := 2 * longest + 5

section Work

variable (longest ceiling : ℕ)

/-- What is left to do for what the machine is doing. A return has nothing left, a running activation the
instructions ahead of it, and a call that is made or looked up a whole body. -/
def Control.work : Control → List (ℕ × ℕ)
  | .call _ _ _ depth => [(2 * longest + 4, ceiling + 1 - depth)]
  | .dispatch _ _ _ _ depth => [(2 * longest + 3, ceiling + 1 - depth)]
  | .run a => [(2 * (longest - a.pc) + 2, ceiling + 1 - a.depth)]
  | .ret _ | .fail _ => []

/-- For a caller that waits. -/
def Suspended.work (s : Suspended) : ℕ × ℕ :=
  (2 * (longest - s.activation.pc) + 1, ceiling + 1 - s.activation.depth)

/-- For everything on the stack. -/
def Config.frames (c : Config W) : List (ℕ × ℕ) :=
  c.control.work longest ceiling ++ c.stack.map (Suspended.work longest ceiling)

end Work

/-- What is left to do in an invocation: the budget counts as much for each unit as a whole stack. -/
def Config.work (longest : ℕ) (c : Config W) : ℕ :=
  c.exec.fuel * workBase longest ^ (c.exec.runLimits.maxCallDepth + 2) +
    stackWork (workBase longest) (c.frames longest c.exec.runLimits.maxCallDepth)

section Bodies

variable {env : Env W}

theorem length_le_longestBody {d : InstanceData} {body : FuncBody} (hd : d ∈ env.code) (hbody : body ∈ d.funcBodies) :
    body.ir.length ≤ env.longestBody := by
  have hmem : body ∈ env.code.flatMap (·.funcBodies) := List.mem_flatMap.mpr ⟨d, hd, hbody⟩
  unfold Env.longestBody
  generalize env.code.flatMap (·.funcBodies) = bodies at hmem
  induction bodies with
  | nil => cases hmem
  | cons b bodies ih =>
    rw [List.foldr_cons]
    rcases List.mem_cons.mp hmem with rfl | hmem
    · exact le_max_left _ _
    · exact (ih hmem).trans (le_max_right _ _)

/-- The body an activation runs is no longer than that. -/
theorem Activation.RunsBody.length_le {a : Activation} (h : a.RunsBody env) :
    a.frame.body.ir.length ≤ env.longestBody := by
  obtain ⟨d, hd, -, hbody⟩ := h
  exact length_le_longestBody (List.mem_of_getElem? hd) (List.mem_of_getElem? hbody)

end Bodies

/-! ## Steps -/

section Steps

variable {env : Env W} {c c' : Config W} {a a' : Activation} {tags : List ℕ} {fl : Flow} {es : List Event}

/-- Going on keeps the depth. -/
theorem Flow.GoesTo.depth {x : Exec} (h : fl.GoesTo a tags x a') : a'.depth = a.depth := by
  cases h <;> rfl

/-- An instruction after which another function is looked up is a tail call, which takes a unit. -/
theorem hop_of_applyFlow {inst func depth : ℕ} {args : List Value} {tailed : Bool}
    (h : (applyFlow c a tags fl).2.control = .dispatch inst func args tailed depth) :
    depth = a.depth ∧ Event.hop inst func ∈ (applyFlow c a tags fl).1 ∧ (applyFlow c a tags fl).2.stack = c.stack := by
  cases fl with
  | next st | jump pc st | enter l pc st | leave | call inst' func' params st => cases h
  | branch n st =>
    simp only [applyFlow] at h
    rcases hbranch : (a.goTo st a.pc).frame.branch n c.exec with t | r <;> rw [hbranch] at h <;> cases h
  | raise exn st events =>
    simp only [applyFlow] at h
    rcases hraise : (a.goTo st a.pc).frame.raise tags exn c.exec with ⟨r, x⟩ | ⟨t, x⟩ <;> rw [hraise] at h <;> cases h
  | tailCall inst' func' args' =>
    simp only [applyFlow] at h ⊢
    rcases htick : c.exec.tick with t | x
    · rw [htick] at h
      cases h
    · rw [htick] at h
      cases h
      exact ⟨rfl, List.mem_singleton_self _, rfl⟩

/-- What is compared when a step is taken: the ceilings are the same, so the work is counted to the same base,
and the budget does not grow. -/
theorem work_lt_of_frames {longest : ℕ} (hlimits : c'.exec.runLimits = c.exec.runLimits)
    (hfuel : c'.exec.fuel ≤ c.exec.fuel)
    (hframes : stackWork (workBase longest) (c'.frames longest c.exec.runLimits.maxCallDepth) <
      stackWork (workBase longest) (c.frames longest c.exec.runLimits.maxCallDepth)) :
    c'.work longest < c.work longest := by
  rw [Config.work, Config.work, hlimits]
  exact Nat.add_lt_add_of_le_of_lt (Nat.mul_le_mul_right _ hfuel) hframes

theorem workBase_pos (longest : ℕ) : 0 < workBase longest := Nat.succ_pos _

/-- What holds in every state of a run of prepared bodies, of what runs and of what waits. -/
structure Config.Sound (env : Env W) (c : Config W) : Prop where
  running : ∀ a, c.control = .run a → a.RunsBody env ∧ ∃ d h, a.Placed env d h
  waiting : ∀ s ∈ c.stack, s.activation.RunsBody env ∧ ∃ d h i, s.activation.Placed env d h ∧
    s.activation.frame.body.ir[s.activation.pc]? = some i ∧ i.isFlat = true

/-- It holds in the states the machine comes to. -/
theorem Config.Traced.sound (henv : env.Prepared) {hs : List Executed} (h : Config.Traced env c hs) : c.Sound env := by
  have hforall : ∀ {J K : Executed → Suspended → Prop} {hists hists' : List Executed},
      List.Forall₂ J hists c.stack → List.Forall₂ K hists' c.stack →
        ∀ s ∈ c.stack, (∃ h, J h s) ∧ ∃ h, K h s := by
    intro J K hists hists' hJ hK s hs
    obtain ⟨k, hk, rfl⟩ := List.mem_iff_getElem.mp hs
    exact ⟨⟨_, hJ.get (hJ.length_eq ▸ hk) hk⟩, ⟨_, hK.get (hK.length_eq ▸ hk) hk⟩⟩
  have hwaits : ∀ {I I' : Executed → Activation → Prop} {J J' : Executed → Suspended → Prop},
      Activation.Invariant env I J → Activation.Invariant env I' J' → ∀ s ∈ c.stack, (∃ h, J h s) ∧ ∃ h, J' h s := by
    intro I I' J J' hI hI'
    by_cases hrun : ∃ a, c.control = .run a
    · obtain ⟨a, ha⟩ := hrun
      obtain ⟨_, _, -, -, hJ⟩ := hI.of_run h ha
      obtain ⟨_, _, -, -, hJ'⟩ := hI'.of_run h ha
      exact hforall hJ hJ'
    · have hne : ∀ a, c.control ≠ .run a := fun a ha => hrun ⟨a, ha⟩
      exact hforall (hI.of_waiting h hne) (hI'.of_waiting h hne)
  constructor
  · intro a ha
    obtain ⟨_, _, -, hbody, -⟩ := (Activation.body_invariant env).of_run h ha
    obtain ⟨hist, _, -, ⟨d, hplaced⟩, -⟩ := (Activation.placed_invariant henv).of_run h ha
    exact ⟨hbody, d, hist, hplaced⟩
  · intro s hs
    obtain ⟨⟨_, hbody⟩, hist, d, i, hplaced⟩ :=
      hwaits (Activation.body_invariant env) (Activation.placed_invariant henv) s hs
    exact ⟨hbody, d, hist, i, hplaced⟩

/-- What runs has work, more than a return. -/
theorem Config.frames_run (longest ceiling : ℕ) (hc : c.control = .run a) : c.frames longest ceiling =
    (2 * (longest - a.pc) + 2, ceiling + 1 - a.depth) :: c.stack.map (Suspended.work longest ceiling) := by
  rw [Config.frames, hc]
  rfl

/-- What an activation has to do fits in a digit. -/
theorem todo_lt_workBase (longest pc : ℕ) : 2 * (longest - pc) + 2 < workBase longest := by
  unfold workBase
  omega

/-- A running activation leaves less to do: it is further on, calls a deeper activation, ends, or takes a unit of
the budget. -/
theorem Config.work_lt_of_run (hsound : c.Sound env) (hlimit : c.exec.runLimits.maxIterations ≠ 0)
    (hdepths : c.DepthsWithin c.exec.runLimits.maxCallDepth) (hc : c.control = .run a) (hstep : Steps env c es c') :
    c'.work env.longestBody < c.work env.longestBody := by
  have hspends := Config.spends_step hstep
  have hfuel := hspends.fuel hlimit
  have hle : c'.exec.fuel ≤ c.exec.fuel := by omega
  obtain ⟨hbody, d', h, hplaced⟩ := hsound.running a hc
  have hdepth : a.depth ≤ c.exec.runLimits.maxCallDepth := by
    have := hdepths.control
    rwa [hc] at this
  rw [Steps, Config.step, hc, Option.some.injEq] at hstep
  rcases stepRun_cases_flow env c a with ⟨d, i, fl, hd, hi, hfl, heq⟩ | ⟨hstack, hcontrol⟩
  · obtain rfl := Option.some.inj (hd.symm.trans hplaced.code)
    rw [heq] at hstep
    have hpc : a.pc < env.longestBody :=
      lt_of_lt_of_le (List.getElem?_eq_some_iff.mp hi).1 hbody.length_le
    obtain rfl : (applyFlow c a d.maps.tags fl).1 = es := by rw [hstep]
    obtain rfl : (applyFlow c a d.maps.tags fl).2 = c' := by rw [hstep]
    cases hcontrol : (applyFlow c a d.maps.tags fl).2.control with
    | run a' =>
      obtain ⟨hgoes, hstack⟩ := goesTo_of_applyFlow hcontrol
      rcases hplaced.forward hi hfl hcontrol with hback | hforward
      · -- a unit of the budget pays for the instructions that are run again
        have hunits := units_pos_of_mem hback (by decide)
        rw [Config.work, Config.work, hspends.runLimits, Config.frames_run _ _ hcontrol, Config.frames_run _ _ hc,
          hstack, hgoes.depth]
        exact budget_stackWork_lt (by omega) (todo_lt_workBase _ _) (by omega)
      · apply work_lt_of_frames hspends.runLimits hle
        rw [Config.frames_run _ _ hcontrol, Config.frames_run _ _ hc, hstack, hgoes.depth]
        exact stackWork_lt_of_top (workBase_pos _) (by omega)
    | call inst func args depth =>
      obtain ⟨params, st, rfl, hstack⟩ := suspends_of_applyFlow hcontrol
      obtain rfl : a.depth + 1 = depth := by
        simp only [applyFlow, Control.call.injEq] at hcontrol
        exact hcontrol.2.2.2
      apply work_lt_of_frames hspends.runLimits hle
      rw [Config.frames_run _ _ hc, Config.frames, hcontrol, hstack, List.map_cons, Suspended.work]
      -- the caller keeps one thing less to do, which is worth a whole body one level deeper
      have hlevel : c.exec.runLimits.maxCallDepth + 1 - (a.depth + 1) + 1 = c.exec.runLimits.maxCallDepth + 1 - a.depth := by
        omega
      have hpush := @stackWork_push_lt _ (2 * (env.longestBody - a.pc) + 1) _
        (c.exec.runLimits.maxCallDepth + 1 - (a.depth + 1))
        (c.stack.map (Suspended.work env.longestBody c.exec.runLimits.maxCallDepth))
        (show 2 * env.longestBody + 4 < workBase env.longestBody from Nat.lt_succ_self _)
      rw [hlevel] at hpush
      exact hpush
    | dispatch inst func args tailed depth =>
      obtain ⟨rfl, hhop, hstack⟩ := hop_of_applyFlow hcontrol
      have hunits := units_pos_of_mem hhop (Nat.succ_pos _)
      rw [Config.work, Config.work, hspends.runLimits, Config.frames_run _ _ hc, Config.frames, hcontrol, hstack]
      exact budget_stackWork_lt (by omega) (by unfold workBase; omega) (by omega)
    | ret _ | fail _ =>
      apply work_lt_of_frames hspends.runLimits hle
      rw [Config.frames_run _ _ hc, Config.frames, hcontrol, stack_of_applyFlow (by simp [hcontrol])]
      exact stackWork_pop_lt (workBase_pos _) (Nat.succ_pos _)
  · obtain rfl : (stepRun env c a).2 = c' := by rw [hstep]
    apply work_lt_of_frames hspends.runLimits hle
    rcases hcontrol with ⟨vs, hcontrol⟩ | ⟨t, hcontrol⟩
    all_goals
      rw [Config.frames_run _ _ hc, Config.frames, hcontrol, hstack]
      exact stackWork_pop_lt (workBase_pos _) (Nat.succ_pos _)

/-- What a lookup comes to: a body that is entered, a call one level deeper, or an end. -/
theorem stepDispatch_control (env : Env W) (c : Config W) (inst func : ℕ) (args : List Value) (depth : ℕ) :
    (∃ body, (stepDispatch env c inst func args depth).control = .run (.start inst func depth body args)) ∨
      (∃ inst' func', (stepDispatch env c inst func args depth).control = .call inst' func' args (depth + 1)) ∨
        (∃ vs, (stepDispatch env c inst func args depth).control = .ret vs) ∨
          ∃ t, (stepDispatch env c inst func args depth).control = .fail t := by
  unfold stepDispatch
  repeat' split
  all_goals first
    | exact .inl ⟨_, rfl⟩
    | exact .inr (.inl ⟨_, _, rfl⟩)
    | exact .inr (.inr (.inr ⟨_, rfl⟩))
    | skip
  -- a host function ends one way or the other
  simp only [callHost]
  split
  · exact .inr (.inr (.inl ⟨_, rfl⟩))
  · exact .inr (.inr (.inr ⟨_, rfl⟩))

/-- It has less to do. -/
theorem stackWork_stepDispatch_lt {depth ceiling : ℕ} (inst func : ℕ) (args : List Value) (longest : ℕ)
    (hdepth : depth ≤ ceiling) :
    stackWork (workBase longest) ((stepDispatch env c inst func args depth).frames longest ceiling) <
      stackWork (workBase longest)
        ((2 * longest + 3, ceiling + 1 - depth) :: c.stack.map (Suspended.work longest ceiling)) := by
  rw [Config.frames, (stepDispatch_cases_run env c inst func args depth).1]
  rcases stepDispatch_control env c inst func args depth with ⟨body, h⟩ | ⟨inst', func', h⟩ | ⟨vs, h⟩ | ⟨t, h⟩
  · rw [h]
    exact stackWork_lt_of_top (workBase_pos _) (Nat.lt_succ_self _)
  · -- an imported function is called from its own instance, with nobody waiting for it here
    have hlevel : ceiling + 1 - (depth + 1) + 1 = ceiling + 1 - depth := by omega
    have hdigit := mul_pow_lt_pow_succ (ceiling + 1 - (depth + 1))
      (show 2 * longest + 4 < workBase longest from Nat.lt_succ_self _)
    rw [hlevel] at hdigit
    have hone := Nat.le_mul_of_pos_left (workBase longest ^ (ceiling + 1 - depth)) (Nat.succ_pos (2 * longest + 2))
    rw [h]
    show (2 * longest + 4) * workBase longest ^ (ceiling + 1 - (depth + 1)) + _ <
      (2 * longest + 3) * workBase longest ^ (ceiling + 1 - depth) + _
    exact Nat.add_lt_add_right (lt_of_lt_of_le hdigit hone) _
  · rw [h]
    exact stackWork_pop_lt (workBase_pos _) (Nat.succ_pos _)
  · rw [h]
    exact stackWork_pop_lt (workBase_pos _) (Nat.succ_pos _)

/-- Every step leaves less to do. -/
theorem Config.work_lt_of_step (hsound : c.Sound env) (hlimit : c.exec.runLimits.maxIterations ≠ 0)
    (hdepths : c.DepthsWithin c.exec.runLimits.maxCallDepth) (hstep : Steps env c es c') :
    c'.work env.longestBody < c.work env.longestBody := by
  have hspends := Config.spends_step hstep
  have hfuel := hspends.fuel hlimit
  have hle : c'.exec.fuel ≤ c.exec.fuel := by omega
  cases hc : c.control with
  | run a => exact work_lt_of_run hsound hlimit hdepths hc hstep
  | call inst func args depth =>
    apply work_lt_of_frames hspends.runLimits hle
    rw [Steps, Config.step, hc] at hstep
    simp only at hstep
    rw [Config.frames, Config.frames, hc]
    split_ifs at hstep
    all_goals obtain ⟨-, rfl⟩ := Prod.mk.inj (Option.some.inj hstep)
    · exact stackWork_pop_lt (workBase_pos _) (Nat.succ_pos _)
    · exact stackWork_lt_of_top (workBase_pos _) (Nat.lt_succ_self _)
  | dispatch inst func args tailed depth =>
    apply work_lt_of_frames hspends.runLimits hle
    have hdepth := hdepths.control
    rw [hc] at hdepth
    rw [Steps, Config.step, hc] at hstep
    obtain ⟨-, rfl⟩ := Prod.mk.inj (Option.some.inj hstep)
    have hlt := @stackWork_stepDispatch_lt _ env c depth _ inst func args env.longestBody hdepth
    rw [Config.frames.eq_def _ _ c, hc]
    exact hlt
  | ret results =>
    cases hstack : c.stack with
    | nil =>
      rw [Steps, Config.step, hc, hstack] at hstep
      cases hstep
    | cons s rest =>
      apply work_lt_of_frames hspends.runLimits hle
      obtain ⟨hbody, -, -, i, -, hi, -⟩ := hsound.waiting s (by rw [hstack]; exact List.mem_cons_self)
      have hpc : s.activation.pc < env.longestBody :=
        lt_of_lt_of_le (List.getElem?_eq_some_iff.mp hi).1 hbody.length_le
      rw [Steps, Config.step, hc, hstack] at hstep
      obtain ⟨-, rfl⟩ := Prod.mk.inj (Option.some.inj hstep)
      rw [Config.frames_run _ _ rfl, Config.frames.eq_def _ _ c, hc, hstack]
      -- the caller goes on after its call
      apply stackWork_lt_of_top (workBase_pos _)
      show 2 * (env.longestBody - (s.activation.pc + 1)) + 2 < 2 * (env.longestBody - s.activation.pc) + 1
      omega
  | fail t =>
    cases hstack : c.stack with
    | nil =>
      rw [Steps, Config.step, hc, hstack] at hstep
      cases hstep
    | cons s rest =>
      obtain ⟨hbody, d, h, i, hplaced, hi, hflat⟩ := hsound.waiting s (by rw [hstack]; exact List.mem_cons_self)
      have hpc : s.activation.pc < env.longestBody :=
        lt_of_lt_of_le (List.getElem?_eq_some_iff.mp hi).1 hbody.length_le
      have hdepth := hdepths.waiting s (by rw [hstack]; exact List.mem_cons_self)
      have hframes : c.frames env.longestBody c.exec.runLimits.maxCallDepth =
          s.work env.longestBody c.exec.runLimits.maxCallDepth ::
            rest.map (Suspended.work env.longestBody c.exec.runLimits.maxCallDepth) := by
        rw [Config.frames, hc, hstack]
        rfl
      rw [Steps, Config.step, hc, hstack] at hstep
      cases hcatch : s.activation.frame.onCallError (tagsOf env s.activation.inst) t c.exec with
      | error t' x =>
        simp only [hcatch, Config.andThen] at hstep
        obtain ⟨-, rfl⟩ := Prod.mk.inj (Option.some.inj hstep)
        apply work_lt_of_frames hspends.runLimits hle
        rw [hframes]
        exact stackWork_pop_lt (workBase_pos _) (Nat.succ_pos _)
      | ok r x =>
        simp only [hcatch, Config.andThen] at hstep
        obtain ⟨rfl, rfl⟩ := Prod.mk.inj (Option.some.inj hstep)
        rcases Suspended.forward hplaced hi hflat hcatch with hback | hforward
        · have hunits := units_pos_of_mem hback (by decide)
          rw [Config.work, Config.work, hspends.runLimits, hframes, Config.frames_run _ _ rfl]
          exact budget_stackWork_lt (by omega) (todo_lt_workBase _ _) (by omega)
        · apply work_lt_of_frames hspends.runLimits hle
          rw [hframes, Config.frames_run _ _ rfl]
          apply stackWork_lt_of_top (workBase_pos _)
          show 2 * (env.longestBody - r.pc) + 2 < 2 * (env.longestBody - s.activation.pc) + 1
          omega

/-- A step keeps to the depth ceiling, which is checked at every call. -/
theorem Config.DepthsWithin.step (h : c.DepthsWithin c.exec.runLimits.maxCallDepth) (hstep : Steps env c es c') :
    c'.DepthsWithin c.exec.runLimits.maxCallDepth := by
  obtain ⟨hcontrol, hwaiting⟩ := h
  cases hc : c.control with
  | run a =>
    rw [hc] at hcontrol
    rw [Steps, Config.step, hc, Option.some.injEq] at hstep
    rcases stepRun_cases_flow env c a with ⟨d, i, fl, -, -, -, heq⟩ | ⟨hstack, hend⟩
    · obtain rfl : (applyFlow c a d.maps.tags fl).2 = c' := by rw [← heq, hstep]
      cases hnext : (applyFlow c a d.maps.tags fl).2.control with
      | run a' =>
        obtain ⟨hgoes, hstack⟩ := goesTo_of_applyFlow hnext
        refine ⟨?_, by rwa [hstack]⟩
        rw [hnext, Control.DepthWithin, hgoes.depth]
        exact hcontrol
      | call inst func args depth =>
        obtain ⟨params, st, rfl, hstack⟩ := suspends_of_applyFlow hnext
        simp only [applyFlow, Control.call.injEq] at hnext
        obtain ⟨-, -, -, rfl⟩ := hnext
        refine ⟨Nat.succ_le_succ hcontrol, ?_⟩
        rw [hstack]
        exact List.forall_mem_cons.mpr ⟨hcontrol, hwaiting⟩
      | dispatch inst func args tailed depth =>
        obtain ⟨rfl, -, hstack⟩ := hop_of_applyFlow hnext
        refine ⟨?_, by rwa [hstack]⟩
        rw [hnext]
        exact hcontrol
      | ret _ | fail _ =>
        refine ⟨by rw [hnext]; trivial, ?_⟩
        rwa [stack_of_applyFlow (by simp [hnext])]
    · obtain rfl : (stepRun env c a).2 = c' := by rw [hstep]
      rcases hend with ⟨vs, hend⟩ | ⟨t, hend⟩
      all_goals exact ⟨by rw [hend]; trivial, by rwa [hstack]⟩
  | call inst func args depth =>
    rw [Steps, Config.step, hc] at hstep
    simp only at hstep
    split_ifs at hstep with hdeep
    all_goals obtain ⟨-, rfl⟩ := Prod.mk.inj (Option.some.inj hstep)
    · exact ⟨trivial, hwaiting⟩
    · exact ⟨Nat.le_of_not_lt hdeep, hwaiting⟩
  | dispatch inst func args tailed depth =>
    rw [hc] at hcontrol
    rw [Steps, Config.step, hc] at hstep
    obtain ⟨-, rfl⟩ := Prod.mk.inj (Option.some.inj hstep)
    refine ⟨?_, by rwa [(stepDispatch_cases_run env c inst func args depth).1]⟩
    rcases stepDispatch_control env c inst func args depth with ⟨body, h⟩ | ⟨inst', func', h⟩ | ⟨vs, h⟩ | ⟨t, h⟩
    all_goals rw [h]
    · exact hcontrol
    · exact Nat.succ_le_succ hcontrol
    · trivial
    · trivial
  | ret results =>
    cases hstack : c.stack with
    | nil =>
      rw [Steps, Config.step, hc, hstack] at hstep
      cases hstep
    | cons s rest =>
      rw [Steps, Config.step, hc, hstack] at hstep
      obtain ⟨-, rfl⟩ := Prod.mk.inj (Option.some.inj hstep)
      rw [hstack] at hwaiting
      exact ⟨hwaiting s List.mem_cons_self, fun s' hs' => hwaiting s' (List.mem_cons_of_mem _ hs')⟩
  | fail t =>
    cases hstack : c.stack with
    | nil =>
      rw [Steps, Config.step, hc, hstack] at hstep
      cases hstep
    | cons s rest =>
      rw [Steps, Config.step, hc, hstack] at hstep
      rw [hstack] at hwaiting
      have hrest : ∀ s' ∈ rest, s'.activation.depth ≤ c.exec.runLimits.maxCallDepth := fun s' hs' =>
        hwaiting s' (List.mem_cons_of_mem _ hs')
      cases hcatch : s.activation.frame.onCallError (tagsOf env s.activation.inst) t c.exec with
      | error t' x =>
        simp only [hcatch, Config.andThen] at hstep
        obtain ⟨-, rfl⟩ := Prod.mk.inj (Option.some.inj hstep)
        exact ⟨trivial, hrest⟩
      | ok r x =>
        simp only [hcatch, Config.andThen] at hstep
        obtain ⟨-, rfl⟩ := Prod.mk.inj (Option.some.inj hstep)
        exact ⟨hwaiting s List.mem_cons_self, hrest⟩

end Steps

/-! ## Sessions -/

namespace Session

/-- Every instance is one of an accepted module, and an invocation under way has come from its call within the
depth ceiling, with no more to do than the budget and a whole stack. -/
structure Bounded (limits : RunLimits) (s : Session W) : Prop where
  accepted : s.env.Accepted
  runLimits : s.phase.exec.runLimits = limits
  running : ∀ c outermost, s.phase = .running c outermost →
    (∃ hs, Config.Traced s.env c hs) ∧ c.DepthsWithin limits.maxCallDepth ∧
      c.work s.env.longestBody < (limits.maxIterations + 1) * workBase s.env.longestBody ^ (limits.maxCallDepth + 2)

section Bounded

variable {limits : RunLimits} {s s' : Session W} {es : List Event}

/-- A step of the invocation leaves less to do, and so does its end. -/
def todo (s : Session W) : ℕ :=
  match s.phase with
  | .idle .. => 0
  | .running c _ => c.work s.env.longestBody + 1

/-- What an idle session or one with an invocation under way does by itself. -/
def next (s : Session W) : Option (List Event × Session W) :=
  match s.phase with
  | .idle .. => none
  | .running c outermost => some (s.advance c outermost)

theorem runSteps_next (n : ℕ) (s : Session W) : runSteps next n s = s.runFor n := by
  induction n generalizing s with
  | zero => rfl
  | succ n ih =>
    rw [runSteps, runFor, next]
    cases s.phase with
    | idle x w => rfl
    | running c outermost => simp only [ih]

/-- The next step keeps the bound and leaves less to do. -/
theorem Bounded.next (hlimit : limits.maxIterations ≠ 0) (h : s.Bounded limits) (hstep : s.next = some (es, s')) :
    s'.Bounded limits ∧ s'.todo < s.todo := by
  unfold Session.next at hstep
  cases hphase : s.phase with
  | idle x w =>
    rw [hphase] at hstep
    cases hstep
  | running c outermost =>
    rw [hphase] at hstep
    obtain rfl : (s.advance c outermost).2 = s' := by rw [Option.some.inj hstep]
    obtain ⟨⟨hs, htraced⟩, hdepths, hwork⟩ := h.running c outermost hphase
    have hlimits := h.runLimits
    rw [hphase] at hlimits
    simp only [Phase.exec] at hlimits
    rw [show s.todo = c.work s.env.longestBody + 1 by rw [todo, hphase]]
    unfold advance
    rcases hc : c.step s.env with _ | ⟨es', c'⟩
    · exact ⟨⟨h.accepted, hlimits, fun _ _ hrunning => by cases hrunning⟩, Nat.succ_pos _⟩
    · have hlt := Config.work_lt_of_step (htraced.sound h.accepted.prepared) (by rwa [hlimits])
        (by rwa [hlimits]) hc
      have hspends := Config.spends_step hc
      refine ⟨⟨h.accepted, hspends.runLimits.trans hlimits, ?_⟩, Nat.succ_lt_succ hlt⟩
      intro c'' outermost' hphase'
      obtain ⟨rfl, rfl⟩ := Phase.running.inj hphase'
      have hdepths' := Config.DepthsWithin.step (by rwa [hlimits]) hc
      rw [hlimits] at hdepths'
      exact ⟨⟨_, htraced.step hc⟩, hdepths', hlt.trans hwork⟩

/-- A call from the host has the whole budget, and one call to do. -/
theorem bounded_invoke {x : Exec} {w : W} {id : InstanceId} {func : ℕ} {args : List Value} (haccepted : s.env.Accepted)
    (hguest : x.inGuest = false) (hlimits : x.runLimits = limits) (h : s.invoke x w id func args = .ok s') :
    s'.Bounded limits := by
  simp only [invoke, Except.bind_eq_ok, Except.pure_eq_ok] at h
  obtain ⟨_, -, _, -, _, -, rfl⟩ := h
  have hentered : x.enter.runLimits = limits ∧ x.enter.fuel = limits.maxIterations := by
    simp [Exec.enter, hguest, hlimits]
  refine ⟨haccepted, hentered.1, ?_⟩
  intro c outermost hphase
  obtain ⟨rfl, rfl⟩ := Phase.running.inj hphase
  refine ⟨⟨_, .start ..⟩, ⟨Nat.succ_le_succ (Nat.zero_le _), by simp⟩, ?_⟩
  simp only [Config.work, Config.frames, Control.work, hentered, List.map_nil, List.append_nil, stackWork_cons,
    stackWork_nil, Nat.add_zero]
  -- the call is worth one digit below the second highest place
  have hdigit := mul_pow_lt_pow_succ (limits.maxCallDepth + 1 - 1)
    (show 2 * s.env.longestBody + 4 < workBase s.env.longestBody from Nat.lt_succ_self _)
  have hplace : workBase s.env.longestBody ^ (limits.maxCallDepth + 1 - 1 + 1) ≤
      workBase s.env.longestBody ^ (limits.maxCallDepth + 2) :=
    Nat.pow_le_pow_right (workBase_pos _) (by omega)
  rw [Nat.succ_mul limits.maxIterations]
  omega

/-- The instances of a store stay those of accepted modules when another one is instantiated. -/
theorem accepted_withStore {m : Module} (x : Exec) (w : W) (imports : Imports) (hosts : List (HostFunc W))
    (haccepted : s.env.Accepted) (hvalid : ∃ exprLen features, validateWithFeatures m exprLen features = .ok ()) :
    (s.withStore (Store.instantiate m imports (s.store x)).state hosts x w).env.Accepted := by
  intro d hd
  have hcode : d ∈ (Store.instantiate m imports (s.store x)).state.code := hd
  rcases Store.instantiate_state m imports (s.store x) with ⟨hsame, -⟩ | ⟨-, parts, p, targets, hparts, -, -, hnew, -⟩
  · rw [hsame] at hcode
    exact haccepted d hcode
  · rw [hnew, List.mem_append, List.mem_singleton] at hcode
    rcases hcode with hold | rfl
    · exact haccepted d hold
    · exact ⟨hvalid, hparts.bodies⟩

/-- The steps in which every module that is instantiated has been accepted. -/
inductive StepAccepted : Session W → List Event → Session W → Prop
  | invoke {s s' : Session W} {x : Exec} {w : W} (hidle : s.phase = .idle x w) (id : InstanceId)
    (func : ℕ) (args : List Value) (h : s.invoke x w id func args = .ok s') : StepAccepted s [.entry] s'
  | instantiate {s : Session W} {x : Exec} {w : W} (hidle : s.phase = .idle x w) (m : Module)
    (imports : Imports) (hosts : List (HostFunc W))
    (hvalid : ∃ exprLen features, validateWithFeatures m exprLen features = .ok ()) :
    StepAccepted s (s.instantiate x w m imports hosts).entered (s.instantiate x w m imports hosts)
  | advance {s : Session W} {c : Config W} {outermost : Bool} (hrunning : s.phase = .running c outermost) :
    StepAccepted s (s.advance c outermost).1 (s.advance c outermost).2

/-- Any number of them. -/
inductive RunAccepted : Session W → List Event → Session W → Prop
  | refl (s : Session W) : RunAccepted s [] s
  | tail {s s' s'' : Session W} {es es' : List Event} (hrun : RunAccepted s es s') (hstep : StepAccepted s' es' s'') :
    RunAccepted s (es ++ es') s''

/-- They are runs. -/
theorem RunAccepted.run (h : RunAccepted s es s') : Run s es s' := by
  induction h with
  | refl => exact .refl _
  | tail _ hstep ih =>
    apply Run.tail ih
    cases hstep with
    | invoke hidle id func args h => exact .invoke hidle id func args h
    | instantiate hidle m imports hosts => exact .instantiate hidle m imports hosts
    | advance hrunning => exact .advance hrunning

/-- Instantiation enters the start function, if there is one and it gets there. -/
theorem Bounded.instantiate {x : Exec} {w : W} (h : s.Bounded limits)
    (hmetered : s.Metered) (hidle : s.phase = .idle x w) {m : Module} (imports : Imports) (hosts : List (HostFunc W))
    (hvalid : ∃ exprLen features, validateWithFeatures m exprLen features = .ok ()) :
    (s.instantiate x w m imports hosts).Bounded limits := by
  have hguest := hmetered
  have hlimits := h.runLimits
  rw [Metered, hidle] at hguest
  rw [hidle] at hlimits
  have haccepted := accepted_withStore x w imports hosts h.accepted hvalid
  have hstays : (s.withStore (Store.instantiate m imports (s.store x)).state hosts x w).Bounded limits :=
    ⟨haccepted, hlimits, fun _ _ hrunning => by cases hrunning⟩
  unfold Session.instantiate
  cases hinst : Store.instantiate m imports (s.store x) with
  | error t st =>
    rw [hinst] at hstays
    exact hstays
  | ok id st =>
    rw [hinst] at hstays haccepted
    cases m.start with
    | none => exact hstays
    | some func =>
      simp only
      cases hinvoke : (s.withStore st hosts x w).invoke { x with pools := st.pools } w id func [] with
      | error t => exact hstays
      | ok s'' => exact bounded_invoke haccepted (by exact hguest) (by exact hlimits) hinvoke

/-- In every run with accepted modules. -/
theorem RunAccepted.bounded (hlimit : limits.maxIterations ≠ 0) (h : RunAccepted s es s')
    (hstart : s.Bounded limits) (hmetered : s.Balance limits []) : s'.Bounded limits := by
  suffices s'.Bounded limits ∧ s'.Balance limits es from this.1
  induction h with
  | refl => exact ⟨hstart, hmetered⟩
  | @tail before after es es' _ hstep ih =>
    obtain ⟨hbounded, hbalance⟩ := ih
    cases hstep with
    | invoke hidle id func args h =>
      refine ⟨?_, hbalance.step (.invoke hidle id func args h)⟩
      have hguest := hbalance.metered
      have hlimits := hbounded.runLimits
      rw [Metered, hidle] at hguest
      rw [hidle] at hlimits
      exact bounded_invoke hbounded.accepted hguest hlimits h
    | instantiate hidle m imports hosts hvalid =>
      exact ⟨hbounded.instantiate hbalance.metered hidle imports hosts hvalid,
        hbalance.step (.instantiate hidle m imports hosts)⟩
    | @advance c outermost hrunning =>
      have hnext : before.next = some (before.advance c outermost) := by rw [Session.next, hrunning]
      exact ⟨(hbounded.next hlimit hnext).1, hbalance.step (.advance hrunning)⟩

end Bounded

/-- In every run of a session with accepted modules and a limit on iterations, an invocation that is under way comes
to its end, by a return or a trap, within a number of steps that depends on the limits and the longest body only. -/
theorem invocation_halts {id : ℕ} {resources : ResourceLimits} {limits : RunLimits} {ops : Ops} {w : W}
    {s : Session W} {es : List Event} (hlimit : limits.maxIterations ≠ 0)
    (hrun : RunAccepted (new id resources limits ops w) es s) :
    ∃ n ≤ (limits.maxIterations + 1) * workBase s.env.longestBody ^ (limits.maxCallDepth + 2),
      ∃ x w', (s.runFor n).2.phase = .idle x w' := by
  have hbounded : s.Bounded limits :=
    hrun.bounded hlimit ⟨by simp [new, Env.Accepted], rfl, nofun⟩ ⟨rfl, rfl, by simp⟩
  obtain ⟨n, hn, hhalt⟩ := exists_halt_of_measure todo (fun _ _ _ ha hstep => ha.next hlimit hstep) hbounded
  rw [runSteps_next] at hhalt
  refine ⟨n, hn.trans ?_, ?_⟩
  · unfold todo
    cases hphase : s.phase with
    | idle x w => exact Nat.zero_le _
    | running c outermost => exact (hbounded.running c outermost hphase).2.2
  · unfold Session.next at hhalt
    cases hphase : (s.runFor n).2.phase with
    | idle x w' => exact ⟨x, w', rfl⟩
    | running c outermost =>
      rw [hphase] at hhalt
      cases hhalt

end Session

/-! ## A loop that would not end -/

/-- A function that branches back to its loop for ever. -/
def loopsForever : Module :=
  { decoded [[⟨true, none, {}, .func [] []⟩]] with
    functions := [0]
    code := [⟨[], [.loop .empty, .br 0, .end_, .end_]⟩] }

/-- A new store whose guests may go back three times. -/
def loopLimits : RunLimits where
  maxCallDepth := 8
  maxExnBoxes := 8
  maxIterations := 3
  exnBoxes_le := eight_le_usizeMax

def loopStart : Session Unit := .new 0 .defaults loopLimits .unsupported ()

/-- The session once the module is there, -/
def loopStored : Session Unit := loopStart.instantiate { runLimits := loopLimits } () loopsForever {} []

/-- and once its function has been called. -/
def loopCalled : Session Unit := (loopStored.call ⟨0, 0⟩ 0 [] 0).2

theorem runAccepted_loopCalled : Session.RunAccepted loopStart [.entry] loopCalled := by
  have hinstantiate : Session.StepAccepted loopStart [] loopStored :=
    .instantiate rfl loopsForever {} [] ⟨List.length, .all, by decide⟩
  exact .tail (.tail (.refl _) hinstantiate) (.invoke rfl ⟨0, 0⟩ 0 [] rfl)

/-- The call comes to its end: it is out of budget when it goes back for the fourth time. -/
theorem loopCalled_halts : (∃ n ≤ 4 * workBase loopCalled.env.longestBody ^ 10, ∃ x w, (loopCalled.runFor n).2.phase =
    .idle x w) ∧ (loopCalled.runFor 20).1 = [.backEdge, .backEdge, .backEdge] :=
  ⟨Session.invocation_halts (show loopLimits.maxIterations ≠ 0 by decide) runAccepted_loopCalled, by decide⟩

end Wasmrt
