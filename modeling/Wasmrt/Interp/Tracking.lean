import Wasmrt.Interp.Session

/-!
# Following the state of an invocation

What a step does to the state of the invocation is made up of a few primitive changes, each with what it
reports: a unit is spent for a branch to a loop or for a hop, an exception is boxed, thrown again, left
pending or caught, and the pools change. A relation that holds of each of them, and of one after another,
holds of every step.

## Main definitions

* `Exec.Tracked R`: `R` holds of the primitive changes.

## Main results

* `Exec.Tracked.step`: it holds of every step of the machine.
-/

namespace Wasmrt

/-- A relation between a state, what is reported on the way, and the next state, that holds of the
primitive changes and of one after another. -/
structure Exec.Tracked (R : Exec → List Event → Exec → Prop) : Prop where
  refl : ∀ x, R x [] x
  trans : ∀ {x x' x'' es es'}, R x es x' → R x' es' x'' → R x (es ++ es') x''
  pools : ∀ x p, R x [] { x with pools := p }
  pending : ∀ x exn, R x [] { x with pendingExn := exn }
  backEdge : ∀ {x x'}, x.tick = .ok x' → R x [.backEdge] x'
  hop : ∀ {x x'} inst func, x.tick = .ok x' → R x [.hop inst func] x'
  box : ∀ {x x' exn r}, CallFrame.box exn x = .ok (r, x') → R x [.capture r exn] x'
  /-- The branch after the boxing may trap. -/
  boxed : ∀ {x x' exn r}, CallFrame.box exn x = .ok (r, x') → R x [] x'
  throwRef : ∀ {x : Exec} {r : Value} {exn}, r ≠ nullRef → x.exnStore[r.toNat]? = some exn →
    R x [.throwRef r exn] x

/-- A relation on a computation that goes on at a handler or traps. -/
def Exec.To (R : Exec → List Event → Exec → Prop) (x : Exec) : EStateM.Result Trap Exec Resume → Prop
  | .ok r x' => R x r.events x'
  | .error _ x' => R x [] x'

/-- What an instruction reports by itself. -/
def Flow.events : Flow → List Event
  | .raise _ _ es => es
  | _ => []

section Events

variable {x : Exec} {frame : CallFrame} {d : InstanceData} {pc inst : ℕ} {code : List InstanceData}
  {st : PlainState} {i : Instr} {fl : Flow}

theorem blockFlow_events (h : blockFlow d frame pc st i = .ok fl) : fl.events = [] := by
  unfold blockFlow at h
  split at h <;> simp at h <;> grind [Flow.events]

theorem branchFlow_events (h : branchFlow inst d x code frame st i = .ok fl) : fl.events = [] := by
  unfold branchFlow at h
  split at h <;> simp [Except.bind_eq_ok] at h <;> grind [Flow.events]

theorem invokeFlow_events (h : invokeFlow inst d x code st i = .ok fl) : fl.events = [] := by
  unfold invokeFlow at h
  split at h <;> simp [Except.bind_eq_ok, callFlow, tailCallFlow] at h <;> grind [Flow.events]

end Events

namespace Exec.Tracked

variable {R : Exec → List Event → Exec → Prop} (hR : Exec.Tracked R) {x x' : Exec} {frame : CallFrame}

section Frames

include hR

theorem branch {n : ℕ} {r : Resume} (h : frame.branch n x = .ok (r, x')) : R x r.events x' := by
  obtain ⟨l, -, -, ⟨-, htick, hev, -⟩ | ⟨-, rfl, hev, -⟩⟩ := frame.branch_ok h
  · rw [hev]
    exact hR.backEdge htick
  · rw [hev]
    exact hR.refl _

theorem branchOut {es : List Event} (h : R x es x') (hstop : R x [] x') (n : ℕ) :
    x.To R (frame.branchOut n es x') := by
  unfold CallFrame.branchOut
  split
  · cases hbranch : frame.branch n x' with
    | error t => exact hstop
    | ok r => exact hR.trans h (hR.branch hbranch)
  · exact hstop

theorem enterClause (exn : Exception) (d : ℕ) (l : Label) (c : Catch) :
    x.To R (frame.enterClause exn d l c x) := by
  unfold CallFrame.enterClause
  cases frame.unwindTo l.stackBase with
  | error t => exact hR.refl x
  | ok cut =>
    cases hk : c.kind with
    | catchTag | catchAll => exact hR.branchOut (hR.refl x) (hR.refl x) _
    | catchRef | catchAllRef =>
      cases hb : CallFrame.box exn x with
      | error t => exact hR.refl x
      | ok p => exact hR.branchOut (hR.box hb) (hR.boxed hb) _

theorem enterLegacy (exn : Exception) (d : ℕ) (l : Label) (h : LegacyCatch) :
    x.To R (frame.enterLegacy exn d l h x) := by
  unfold CallFrame.enterLegacy
  cases frame.unwindTo l.stackBase with
  | error t => exact hR.refl x
  | ok cut => exact hR.refl x

/-- An exception that finds no handler changes nothing. -/
theorem throwException_cases (frame : CallFrame) (x : Exec) (tags : List ℕ) (exn : Exception) :
    frame.throwException tags exn x = .ok none x ∨
      ∃ res, x.To R res ∧ frame.throwException tags exn x =
        match res with
        | .ok r x => .ok (some r) x
        | .error t x => .error t x := by
  unfold CallFrame.throwException
  cases findHandler frame.body tags exn 0 0 frame.labels with
  | none => exact .inl rfl
  | some handler =>
    right
    cases handler with
    | clause d l c =>
      refine ⟨frame.enterClause exn d l c x, hR.enterClause exn d l c, ?_⟩
      simp only
      cases frame.enterClause exn d l c x <;> rfl
    | legacy d l h =>
      refine ⟨frame.enterLegacy exn d l h x, hR.enterLegacy exn d l h, ?_⟩
      simp only
      cases frame.enterLegacy exn d l h x <;> rfl

theorem raise (frame : CallFrame) (x : Exec) (tags : List ℕ) (exn : Exception) :
    x.To R (frame.raise tags exn x) := by
  unfold CallFrame.raise
  obtain hnone | ⟨res, hres, heq⟩ := hR.throwException_cases frame x tags exn
  · rw [hnone]
    exact hR.pending _ _
  · rw [heq]
    cases res <;> exact hres

theorem onCallError (frame : CallFrame) (x : Exec) (tags : List ℕ) (t : Trap) :
    x.To R (frame.onCallError tags t x) := by
  unfold CallFrame.onCallError
  split
  · exact hR.refl x
  · cases hpending : x.pendingExn with
    | none => exact hR.refl x
    | some exn =>
      have hsame : R x [] { x with pendingExn := none } := hR.pending _ _
      obtain hnone | ⟨res, hres, heq⟩ :=
        hR.throwException_cases frame { x with pendingExn := none } tags exn
      · simp only [hnone]
        exact hR.pending _ _
      · simp only [heq]
        cases res with
        | ok r y => exact hR.trans hsame hres
        | error e y => exact hR.trans hsame hres

end Frames

/-! ## Instructions -/

section Instructions

variable {d : InstanceData} {pc inst : ℕ} {code : List InstanceData} {st : PlainState} {i : Instr} {fl : Flow}

include hR in
/-- Only `throw_ref` reports anything: the reference it has resolved. -/
theorem raiseFlow (h : raiseFlow d x frame st i = .ok fl) : R x fl.events x := by
  unfold Wasmrt.raiseFlow at h
  split at h
  · simp only [Except.bind_eq_ok, Except.pure_eq_ok] at h
    obtain ⟨ft, -, p, -, rfl⟩ := h
    exact hR.refl x
  · simp only [Except.bind_eq_ok, Except.pure_eq_ok, ensure_eq_ok, orError_eq_ok, bne_iff_ne] at h
    obtain ⟨_, hnull, exn, hget, rfl⟩ := h
    exact hR.throwRef hnull hget
  · simp only [Except.bind_eq_ok, Except.pure_eq_ok] at h
    obtain ⟨l, -, exn, -, rfl⟩ := h
    exact hR.refl x
  · cases h

include hR in
theorem flow {ops : Ops} (h : flow ops inst d x code frame pc i = .ok fl) : R x fl.events x := by
  have hnone : fl.events = [] → R x fl.events x := fun he => he ▸ hR.refl x
  unfold Wasmrt.flow at h
  simp only at h
  split at h
  all_goals first
    | exact hnone (blockFlow_events h)
    | exact hR.raiseFlow h
    | exact hnone (branchFlow_events h)
    | exact hnone (invokeFlow_events h)
    | skip
  -- a plain instruction only goes on
  cases hplain : execPlain ops code inst d x.pools.limits (x.isMatch inst d code) (frame.plain x) i with
  | error t =>
    rw [hplain] at h
    cases h
  | ok st =>
    rw [hplain] at h
    cases h
    exact hR.refl x

end Instructions

/-! ## Steps -/

section Steps

variable {W : Type}

include hR in
theorem applyFlow {c : Config W} {a : Activation} {tags : List ℕ} {fl : Flow} (hfl : R c.exec fl.events c.exec) :
    R c.exec (applyFlow c a tags fl).1 (applyFlow c a tags fl).2.exec := by
  cases fl with
  | next st => exact hR.pools _ _
  | jump pc st => exact hR.refl _
  | enter l pc st => exact hR.refl _
  | leave => exact hR.refl _
  | branch n st =>
    simp only [Wasmrt.applyFlow]
    cases hb : (a.goTo st a.pc).frame.branch n c.exec with
    | error t => exact hR.refl _
    | ok r => exact hR.branch hb
  | raise exn st es =>
    have hraise := hR.raise (a.goTo st a.pc).frame c.exec tags exn
    simp only [Wasmrt.applyFlow]
    cases hr : (a.goTo st a.pc).frame.raise tags exn c.exec with
    | ok r x =>
      rw [hr] at hraise
      exact hR.trans hfl hraise
    | error t x =>
      rw [hr] at hraise
      exact hR.trans hfl hraise
  | call inst func params st => exact hR.refl _
  | tailCall inst func args =>
    simp only [Wasmrt.applyFlow]
    cases ht : c.exec.tick with
    | error t => exact hR.refl _
    | ok x => exact hR.hop inst func ht

include hR in
theorem stepRun (env : Env W) (c : Config W) (a : Activation) :
    R c.exec (stepRun env c a).1 (stepRun env c a).2.exec := by
  unfold Wasmrt.stepRun
  cases a.frame.body.ir[a.pc]? with
  | none =>
    cases a.results with
    | error t => exact hR.refl _
    | ok vs => exact hR.refl _
  | some i =>
    cases env.code[a.inst]? with
    | none => exact hR.refl _
    | some d =>
      simp only
      cases hflow : Wasmrt.flow env.ops a.inst d c.exec env.code a.frame a.pc i with
      | error t => exact hR.refl _
      | ok fl => exact hR.applyFlow (hR.flow hflow)

/-- A lookup changes no more than a host function does: the pools. -/
theorem exists_pools_stepDispatch (env : Env W) (c : Config W) (inst func : ℕ) (args : List Value)
    (depth : ℕ) : ∃ p, (stepDispatch env c inst func args depth).exec = { c.exec with pools := p } := by
  unfold stepDispatch
  repeat' split
  all_goals exact ⟨_, rfl⟩

include hR in
/-- What holds of the primitive changes holds of a step of the machine. -/
theorem step {env : Env W} {c c' : Config W} {es : List Event} (h : c.step env = some (es, c')) :
    R c.exec es c'.exec := by
  unfold Config.step at h
  split at h
  · obtain ⟨rfl, rfl⟩ := Prod.mk.inj (Option.some.inj h)
    exact hR.stepRun env c _
  · split at h <;> (cases h; exact hR.refl _)
  · cases h
    obtain ⟨p, hp⟩ := exists_pools_stepDispatch env c _ _ _ _
    rw [hp]
    exact hR.pools _ _
  · cases h
    exact hR.refl _
  · rename_i t s rest _ _
    have hcaught := hR.onCallError s.activation.frame c.exec (tagsOf env s.activation.inst) t
    simp only [Option.some.injEq] at h
    cases hr : s.activation.frame.onCallError (tagsOf env s.activation.inst) t c.exec with
    | ok r x =>
      rw [hr] at h hcaught
      obtain ⟨rfl, rfl⟩ := Prod.mk.inj h
      exact hcaught
    | error t x =>
      rw [hr] at h hcaught
      obtain ⟨rfl, rfl⟩ := Prod.mk.inj h
      exact hcaught
  · cases h
  · cases h

end Steps

end Exec.Tracked

end Wasmrt
