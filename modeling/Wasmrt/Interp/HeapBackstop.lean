import Wasmrt.Interp.HeapInitialisers
import Wasmrt.Interp.Session

/-!
# The ceiling on GC objects

A store has a ceiling on the number of its objects, so that a guest that allocates in a loop does not take
all the memory of its host. The ceiling counts objects, whatever they hold. Where every length that is asked
for at run time is within what the modules state, the objects together hold no more than the ceiling times
that. A guest that asks for a longer array gets it.

## Main definitions

* `Session.RunWithin`: the runs in which every length that is stated or asked for is within a bound.
* `Session.Backstop`: what the ceiling is for.

## Main results

* `backstop_of_runWithin`: it does that in such runs.
-/

namespace Wasmrt

variable {W : Type}

namespace Session

/-- A store that holds nothing yet. -/
def new (id : ℕ) (limits : ResourceLimits) (runLimits : RunLimits) (ops : Ops) (w : W) : Session W where
  id
  env := { code := [], ops }
  phase := .idle { pools := { limits }, runLimits } w

/-- The steps in which no module states more than `B` slots for an object, and no instruction asks for more. -/
inductive StepWithin (B : ℕ) : Session W → List Event → Session W → Prop
  | invoke {s s' : Session W} {x : Exec} {w : W} (hidle : s.phase = .idle x w) (id : InstanceId)
    (func : ℕ) (args : List Value) (h : s.invoke x w id func args = .ok s') : StepWithin B s [.entry] s'
  | instantiate {s : Session W} {x : Exec} {w : W} (hidle : s.phase = .idle x w) (m : Module)
    (imports : Imports) (hosts : List (HostFunc W)) (hstatic : m.staticSlots ≤ B)
    (hasks : (s.store x).InitialisersAskWithin B m imports) :
    StepWithin B s (s.instantiate x w m imports hosts).entered (s.instantiate x w m imports hosts)
  | advance {s : Session W} {c : Config W} {outermost : Bool} (hrunning : s.phase = .running c outermost)
    (hasks : c.AsksWithin B) : StepWithin B s (s.advance c outermost).1 (s.advance c outermost).2

/-- Any number of them. -/
inductive RunWithin (B : ℕ) : Session W → List Event → Session W → Prop
  | refl (s : Session W) : RunWithin B s [] s
  | tail {s s' s'' : Session W} {es es' : List Event} (hrun : RunWithin B s es s') (hstep : StepWithin B s' es' s'') :
    RunWithin B s (es ++ es') s''

/-- They are runs. -/
theorem RunWithin.run {B : ℕ} {s s' : Session W} {es : List Event} (h : RunWithin B s es s') : Run s es s' := by
  induction h with
  | refl => exact .refl _
  | tail _ hstep ih =>
    apply Run.tail ih
    cases hstep with
    | invoke hidle id func args h => exact .invoke hidle id func args h
    | instantiate hidle m imports hosts => exact .instantiate hidle m imports hosts
    | advance hrunning => exact .advance hrunning

/-- The next steps of an invocation, when none asks for more. -/
theorem RunWithin.runFor {B n : ℕ} {s₀ s : Session W} {es : List Event} (h : RunWithin B s₀ es s)
    (hasks : ∀ k < n, ∀ (c : Config W) (outermost : Bool), (s.runFor k).2.phase = .running c outermost → c.AsksWithin B) :
    RunWithin B s₀ (es ++ (s.runFor n).1) (s.runFor n).2 := by
  induction n generalizing s es with
  | zero =>
    rw [show (s.runFor 0).1 = [] from rfl, List.append_nil]
    exact h
  | succ n ih =>
    cases hphase : s.phase with
    | idle x w =>
      simp only [Session.runFor, hphase, List.append_nil]
      exact h
    | running c outermost =>
      have hnext (k : ℕ) : (s.runFor (k + 1)).2 = ((s.advance c outermost).2.runFor k).2 := by
        simp only [Session.runFor, hphase]
      have hevents : (s.runFor (n + 1)).1 = (s.advance c outermost).1 ++ ((s.advance c outermost).2.runFor n).1 := by
        simp only [Session.runFor, hphase]
      rw [hnext, hevents, ← List.append_assoc]
      apply ih (h.tail (.advance hphase (hasks 0 (Nat.succ_pos n) c outermost hphase)))
      intro k hk c' outermost' hrunning
      exact hasks (k + 1) (Nat.succ_lt_succ hk) c' outermost' (by rw [hnext, hrunning])

/-- The ceiling on objects bounds what the guests of a session make the host hold, and an instruction that is
refused an object leaves the heap alone, in a body and in a constant expression. -/
structure Backstop (limits : ResourceLimits) (B : ℕ) (s : Session W) : Prop where
  held : s.phase.exec.pools.heldSlots ≤ limits.maxGcObjects * B
  refused : ∀ {c c' : Config W} {outermost : Bool} {a : Activation} {es : List Event},
    s.phase = .running c outermost → c.control = .run a → Steps s.env c es c' →
      c'.control = .fail .gcHeapExhausted → c'.exec.pools.gcHeap = c.exec.pools.gcHeap
  refusedConst : ∀ {globals : List Value} {inst : ℕ} {gc : Option Module} {stack : List Value} {i : Instr} {p p' : Pools},
    evalConstStep globals inst gc stack i p = .error .gcHeapExhausted p' → p'.gcHeap = p.gcHeap

/-- What holds of a session along the runs that keep to a bound. -/
structure Within (limits : ResourceLimits) (B : ℕ) (s : Session W) : Prop where
  code : ∀ d ∈ s.env.code, d.SlotsWithin B
  pools : s.phase.exec.pools.Within limits B
  traced : ∀ {c : Config W} {outermost : Bool}, s.phase = .running c outermost → ∃ hs, c.Traced s.env hs

section Within

variable {limits : ResourceLimits} {B : ℕ} {s s' : Session W} {es : List Event} {x : Exec} {w : W}

theorem within_new (id : ℕ) (limits : ResourceLimits) (runLimits : RunLimits) (ops : Ops) (w : W) (B : ℕ) :
    (new id limits runLimits ops w).Within limits B where
  code := nofun
  pools := ⟨rfl, Nat.zero_le _, nofun, nofun⟩
  traced := nofun

/-- An invocation begins with the pools as they are. -/
theorem Within.invoke {id : InstanceId} {func : ℕ} {args : List Value} (hcode : ∀ d ∈ s.env.code, d.SlotsWithin B)
    (hpools : x.pools.Within limits B) (h : s.invoke x w id func args = .ok s') : s'.Within limits B := by
  simp only [Session.invoke, Except.bind_eq_ok, Except.pure_eq_ok] at h
  obtain ⟨inst, -, ft, -, _, -, rfl⟩ := h
  have hsame : x.enter.pools = x.pools := by
    unfold Exec.enter
    split_ifs <;> rfl
  refine ⟨hcode, ?_, ?_⟩
  · show x.enter.pools.Within limits B
    rwa [hsame]
  · rintro c outermost ⟨⟩
    exact ⟨[], .start inst func args 1 x.enter w⟩

/-- A step keeps to the bound. -/
theorem Within.step (h : s.Within limits B) (hstep : StepWithin B s es s') : s'.Within limits B := by
  cases hstep with
  | invoke hidle id func args hinvoke =>
    have hpools := h.pools
    rw [hidle] at hpools
    exact .invoke h.code hpools hinvoke
  | @instantiate x w hidle m imports hosts hstatic hasks =>
    have hpools := h.pools
    rw [hidle] at hpools
    have hstore := within_instantiate (Module.slotsWithin hstatic) hasks (⟨h.code, hpools⟩ : (s.store x).Within limits B)
    unfold Session.instantiate
    cases hinst : Store.instantiate m imports (s.store x) with
    | error t st =>
      rw [hinst] at hstore
      exact ⟨hstore.code, hstore.pools, nofun⟩
    | ok id st =>
      rw [hinst] at hstore
      have hidle' : (s.withStore st hosts x w).Within limits B := ⟨hstore.code, hstore.pools, nofun⟩
      cases m.start with
      | none => exact hidle'
      | some func =>
        simp only
        cases hinvoke : (s.withStore st hosts x w).invoke { x with pools := st.pools } w id func [] with
        | error t => exact hidle'
        | ok s'' => exact .invoke hidle'.code hstore.pools hinvoke
  | @advance c outermost hrunning hasks =>
    have hpools := h.pools
    rw [hrunning] at hpools
    obtain ⟨hs, htraced⟩ := h.traced hrunning
    unfold Session.advance
    cases hc : c.step s.env with
    | none => exact ⟨h.code, hpools, nofun⟩
    | some r =>
      obtain ⟨es, c'⟩ := r
      refine ⟨h.code, ?_, ?_⟩
      · refine Config.within_step h.code (fun a ha => ?_) hasks hpools hc
        obtain ⟨_, _, -, ⟨d, hd, -, hbody⟩, -⟩ := (Activation.body_invariant s.env).of_run htraced ha
        exact ⟨d, List.mem_of_getElem? hd, List.mem_of_getElem? hbody⟩
      · rintro _ _ ⟨⟩
        exact ⟨_, htraced.step hc⟩

theorem Within.run (h : s.Within limits B) (hrun : RunWithin B s es s') : s'.Within limits B := by
  induction hrun with
  | refl => exact h
  | tail _ hstep ih => exact ih.step hstep

end Within

end Session

/-- The ceiling on objects does what it is for in every run in which no module states more than `B` slots for an
object and no instruction asks for more. -/
theorem backstop_of_runWithin {id : ℕ} {limits : ResourceLimits} {runLimits : RunLimits} {ops : Ops} {w : W} {B : ℕ}
    {es : List Event} {s : Session W} (h : Session.RunWithin B (.new id limits runLimits ops w) es s) :
    s.Backstop limits B where
  held := ((Session.within_new id limits runLimits ops w B).run h).pools.heldSlots_le
  refused _ hrun hstep hfail := congrArg Pools.gcHeap (Config.pools_of_fail hrun hstep hfail)
  refusedConst herror := congrArg Pools.gcHeap (pools_of_evalConstStep_error herror)

/-! ## An array as long as asked for -/

/-- A function that allocates an array as long as its argument says. -/
def asksLength : Module :=
  { decoded [[⟨true, none, {}, .array ⟨.val .i32, true⟩⟩], [⟨true, none, {}, .func [.i32] []⟩]] with
    functions := [1]
    code := [⟨[], [.localGet 0, .arrayNewDefault 0, .drop, .end_]⟩] }

/-- Room for one object. -/
def oneObject : ResourceLimits := {
  maxMemoryBytes := 0
  maxTableElems := 0
  maxGcObjects := 1
  memory_le := Nat.zero_le _
  table_le := Nat.zero_le _
  gc_le := one_le_usizeMax }

/-- A store with room for one object. -/
def oneObjectSession : Session Unit :=
  .new 0 oneObject { maxCallDepth := 8, maxExnBoxes := 8, maxIterations := 0, exnBoxes_le := eight_le_usizeMax }
    .unsupported ()

/-- An instance of the module in it. -/
def asksSession : Session Unit :=
  oneObjectSession.instantiate oneObjectSession.phase.exec () asksLength {} []

/-- The array is there after the fourth step of the invocation. -/
def askedSession (n : BitVec 32) : Session Unit := (asksSession.call ⟨0, 0⟩ 0 [i32Value n] 4).2

theorem heldSlots_askedSession (n : BitVec 32) : (askedSession n).phase.exec.pools.heldSlots = n.toNat := by
  have hheap : (askedSession n).phase.exec.pools.gcHeap =
      [⟨0, 0, List.replicate (asI32 (i32Value n)).toNat 0⟩] := rfl
  have hlength : asI32 (i32Value n) = n := by simp [asI32, i32Value]
  rw [Pools.heldSlots, hheap, hlength]
  simp

theorem run_askedSession (n : BitVec 32) : ∃ es, Session.Run oneObjectSession es (askedSession n) :=
  ⟨_, .trans (.tail (.refl _) (.instantiate rfl asksLength {} [])) (asksSession.run_call ⟨0, 0⟩ 0 [i32Value n] 4)⟩

/-- The types and immediates of the module give an object no slot, and there is room for one object. The host
holds as many slots as the argument says. -/
theorem held_above_static : validateWithFeatures asksLength List.length .all = .ok () ∧ asksLength.staticSlots = 0 ∧
    ∃ es s, Session.Run oneObjectSession es s ∧ s.env.code.map (·.module) = [asksLength] ∧
      oneObject.maxGcObjects * asksLength.staticSlots < s.phase.exec.pools.heldSlots ∧
        s.phase.exec.pools.heldSlots = 2 ^ 32 - 1 := by
  obtain ⟨es, hrun⟩ := run_askedSession (-1)
  have hheld := heldSlots_askedSession (-1)
  refine ⟨by decide, by decide, es, askedSession (-1), hrun, rfl, ?_, hheld⟩
  rw [hheld]
  decide

/-- Asked for three elements, the function keeps to the bound of three. -/
theorem backstop_of_three : ∃ s : Session Unit, s.Backstop oneObject 3 ∧ s.phase.exec.pools.heldSlots = 3 := by
  have hinstance : Session.RunWithin 3 oneObjectSession _ asksSession :=
    .tail (.refl _) (.instantiate rfl asksLength {} [] (by decide) ⟨trivial, fun _ _ _ => ⟨trivial, fun _ _ _ => trivial⟩⟩)
  have hentry : Session.RunWithin 3 oneObjectSession _ (asksSession.call ⟨0, 0⟩ 0 [3] 0).2 :=
    hinstance.tail (.invoke rfl ⟨0, 0⟩ 0 [3] rfl)
  refine ⟨askedSession 3, backstop_of_runWithin (hentry.runFor (n := 4) ?_), heldSlots_askedSession 3⟩
  intro k hk c outermost hrunning a i hrun hi _
  match k, hk with
  | 0, _ | 1, _ =>
    cases hrunning
    cases hrun
  | 2, _ | 3, _ =>
    cases hrunning
    cases hrun
    cases hi
    decide

end Wasmrt
