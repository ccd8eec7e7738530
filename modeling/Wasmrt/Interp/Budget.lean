import Wasmrt.Interp.Tracking

/-!
# The iteration budget

A host bounds what a guest may do by a number of iterations. The budget is filled when the host makes a
call, a branch back to a loop and a tail call take a unit of it, and nothing else does, in any instance and
at any call depth. The units taken since the last call are what is missing from the budget.

## Main definitions

* `Event.units`, `unitsSinceEntry`: what an event takes, and what was taken since the last entry.
* `Exec.Spends`: what a step does to the budget.
* `Session.Metered`: the budget of a session that began without an invocation.

## Main results

* `budget_metered`: in every run of a session the budget and what was taken since the last entry make up the
  limit.
-/

namespace Wasmrt

/-! ## Units -/

/-- What is taken for an event. -/
def Event.units : Event → ℕ
  | backEdge | hop .. => 1
  | entry | capture .. | throwRef .. => 0

/-- What is taken for some events. -/
def unitsOf (es : List Event) : ℕ := (es.map Event.units).sum

/-- What is taken since the last entry. -/
def unitsSinceEntry (es : List Event) : ℕ :=
  es.foldl (fun n e => if e = .entry then 0 else n + e.units) 0

@[simp]
theorem unitsOf_nil : unitsOf [] = 0 := rfl

@[simp]
theorem unitsOf_append (es es' : List Event) : unitsOf (es ++ es') = unitsOf es + unitsOf es' := by
  rw [unitsOf, List.map_append, List.sum_append]
  rfl

theorem units_pos_of_mem {es : List Event} {e : Event} (he : e ∈ es) (hpos : 0 < e.units) : 0 < unitsOf es := by
  obtain ⟨before, after, rfl⟩ := List.append_of_mem he
  rw [unitsOf_append, unitsOf, unitsOf, List.map_cons, List.sum_cons]
  omega

/-- Without an entry what is taken adds up. -/
theorem unitsSinceEntry_append {es es' : List Event} (h : Event.entry ∉ es') :
    unitsSinceEntry (es ++ es') = unitsSinceEntry es + unitsOf es' := by
  rw [unitsSinceEntry, unitsSinceEntry, List.foldl_append]
  generalize es.foldl (fun n e => if e = .entry then 0 else n + e.units) 0 = k
  induction es' generalizing k with
  | nil => rfl
  | cons e es' ih =>
    rw [List.mem_cons, not_or] at h
    rw [List.foldl_cons, if_neg (Ne.symm h.1), ih h.2, unitsOf, unitsOf, List.map_cons, List.sum_cons, Nat.add_assoc]

/-- At an entry the count starts again. -/
@[simp]
theorem unitsSinceEntry_entry (es : List Event) : unitsSinceEntry (es ++ [.entry]) = 0 := by
  rw [unitsSinceEntry, List.foldl_append]
  rfl

/-! ## Steps -/

/-- The ceilings stay, and where there is a limit the budget falls by what the events take. A step is no entry
of an invocation. -/
structure Exec.Spends (x : Exec) (es : List Event) (x' : Exec) : Prop where
  runLimits : x'.runLimits = x.runLimits
  inGuest : x'.inGuest = x.inGuest
  fuel : x.runLimits.maxIterations ≠ 0 → x'.fuel + unitsOf es = x.fuel
  unlimited : x.runLimits.maxIterations = 0 → x'.fuel = x.fuel
  not_entry : Event.entry ∉ es

namespace Exec.Spends

variable {x x' x'' : Exec} {es es' : List Event}

/-- What leaves the ceilings and the budget alone takes nothing. -/
theorem of_eq (hlimits : x'.runLimits = x.runLimits) (hguest : x'.inGuest = x.inGuest) (hfuel : x'.fuel = x.fuel)
    (hunits : unitsOf es = 0) (hentry : Event.entry ∉ es) : x.Spends es x' :=
  ⟨hlimits, hguest, fun _ => by rw [hunits, hfuel, Nat.add_zero], fun _ => hfuel, hentry⟩

theorem refl (x : Exec) : x.Spends [] x := of_eq rfl rfl rfl rfl (by simp)

theorem trans (h : x.Spends es x') (h' : x'.Spends es' x'') : x.Spends (es ++ es') x'' where
  runLimits := h'.runLimits.trans h.runLimits
  inGuest := h'.inGuest.trans h.inGuest
  fuel hlimit := by
    have hfirst := h.fuel hlimit
    have hsecond := h'.fuel (by rwa [h.runLimits])
    rw [unitsOf_append]
    omega
  unlimited hlimit := (h'.unlimited (by rwa [h.runLimits])).trans (h.unlimited hlimit)
  not_entry := by simp [h.not_entry, h'.not_entry]

/-- One unit is taken, or there is no limit. -/
theorem of_tick {e : Event} (h : x.tick = .ok x') (hunits : e.units = 1) (hentry : e ≠ .entry) :
    x.Spends [e] x' := by
  unfold tick at h
  have hsum : unitsOf [e] = 1 := by rw [unitsOf, List.map_singleton, List.sum_singleton, hunits]
  split_ifs at h with hlimit hfuel
  · obtain rfl := Except.ok.inj h
    exact ⟨rfl, rfl, fun hne => absurd hlimit hne, fun _ => rfl, by simpa using hentry.symm⟩
  · obtain rfl := Except.ok.inj h
    refine ⟨rfl, rfl, fun _ => ?_, fun hzero => absurd hzero hlimit, by simpa using hentry.symm⟩
    rw [hsum]
    exact Nat.sub_add_cancel (Nat.pos_of_ne_zero hfuel)

end Exec.Spends

/-- The primitive changes of an invocation take what they report. -/
theorem Exec.tracked_spends : Exec.Tracked Exec.Spends where
  refl := .refl
  trans := .trans
  pools _ _ := .of_eq rfl rfl rfl rfl (by simp)
  pending _ _ := .of_eq rfl rfl rfl rfl (by simp)
  backEdge htick := .of_tick htick rfl (by simp)
  hop _ _ htick := .of_tick htick rfl (by simp)
  box hbox := by
    obtain ⟨_, -, heq⟩ := Except.bind_eq_ok.mp hbox
    obtain ⟨-, rfl⟩ := Prod.mk.inj (Except.ok.inj heq)
    exact .of_eq rfl rfl rfl rfl (by simp)
  boxed hbox := by
    obtain ⟨_, -, heq⟩ := Except.bind_eq_ok.mp hbox
    obtain ⟨-, rfl⟩ := Prod.mk.inj (Except.ok.inj heq)
    exact .of_eq rfl rfl rfl rfl (by simp)
  throwRef _ _ := .of_eq rfl rfl rfl rfl (by simp)

/-- A step of the machine takes what it reports. -/
theorem Config.spends_step {W : Type} {env : Env W} {c c' : Config W} {es : List Event}
    (h : c.step env = some (es, c')) : c.exec.Spends es c'.exec :=
  Exec.tracked_spends.step h

/-! ## Sessions -/

namespace Session

variable {W : Type} {s s' : Session W} {es : List Event}

/-- Between two calls no guest is running, and a call that is under way was made by the host. -/
def Metered (s : Session W) : Prop :=
  match s.phase with
  | .idle x _ => x.inGuest = false
  | .running c outermost => c.exec.inGuest = true ∧ outermost = true

/-- An entry from the host fills the budget. -/
theorem metered_invoke {x : Exec} {w : W} {id : InstanceId} {func : ℕ} {args : List Value} (hguest : x.inGuest = false)
    (h : s.invoke x w id func args = .ok s') :
    s'.Metered ∧ s'.phase.exec.fuel = x.runLimits.maxIterations ∧ s'.phase.exec.runLimits = x.runLimits := by
  simp only [invoke, Except.bind_eq_ok, Except.pure_eq_ok] at h
  obtain ⟨_, -, _, -, _, -, rfl⟩ := h
  simp [Metered, Phase.exec, Exec.enter, hguest]

/-- What is known of the budget after some events: the limit is `limits`', and since the last entry there is as
much missing as was taken. -/
structure Balance (limits : RunLimits) (es : List Event) (s : Session W) : Prop where
  metered : s.Metered
  runLimits : s.phase.exec.runLimits = limits
  fuel : Event.entry ∈ es → limits.maxIterations ≠ 0 →
    s.phase.exec.fuel + unitsSinceEntry es = limits.maxIterations

namespace Balance

variable {limits : RunLimits}

/-- A step that enters no invocation. -/
theorem spend {es' : List Event} (h : s.Balance limits es) (hmetered : s'.Metered)
    (hspends : s.phase.exec.Spends es' s'.phase.exec) : s'.Balance limits (es ++ es') where
  metered := hmetered
  runLimits := hspends.runLimits.trans h.runLimits
  fuel hentry hlimit := by
    have hmem : Event.entry ∈ es := (List.mem_append.mp hentry).resolve_right hspends.not_entry
    have hold := h.fuel hmem hlimit
    have hnew := hspends.fuel (by rwa [h.runLimits])
    rw [unitsSinceEntry_append hspends.not_entry]
    omega

/-- The entry of an invocation. -/
theorem enter {x : Exec} {w : W} {id : InstanceId} {func : ℕ} {args : List Value} {r : Session W}
    (hguest : x.inGuest = false) (hlimits : x.runLimits = limits) (hinvoke : r.invoke x w id func args = .ok s') :
    s'.Balance limits (es ++ [.entry]) := by
  obtain ⟨hmetered, hfuel, hrunLimits⟩ := metered_invoke hguest hinvoke
  refine ⟨hmetered, hrunLimits.trans hlimits, fun _ _ => ?_⟩
  rw [hfuel, hlimits, unitsSinceEntry_entry, Nat.add_zero]

theorem invoke {x : Exec} {w : W} {id : InstanceId} {func : ℕ} {args : List Value} (h : s.Balance limits es)
    (hidle : s.phase = .idle x w) (hinvoke : s.invoke x w id func args = .ok s') :
    s'.Balance limits (es ++ [.entry]) := by
  have hmetered := h.metered
  have hrunLimits := h.runLimits
  rw [Metered, hidle] at hmetered
  rw [hidle] at hrunLimits
  exact enter hmetered hrunLimits hinvoke

/-- An instantiation enters its start function, if it gets there. -/
theorem instantiate {x : Exec} {w : W} (h : s.Balance limits es) (hidle : s.phase = .idle x w) (m : Module)
    (imports : Imports) (hosts : List (HostFunc W)) :
    (s.instantiate x w m imports hosts).Balance limits (es ++ (s.instantiate x w m imports hosts).entered) := by
  have hguest := h.metered
  have hrunLimits := h.runLimits
  rw [Metered, hidle] at hguest
  rw [hidle] at hrunLimits
  have hstays (st : Store) : (s.withStore st hosts x w).Balance limits (es ++ (s.withStore st hosts x w).entered) := by
    apply h.spend (by exact hguest)
    rw [hidle]
    exact .of_eq rfl rfl rfl rfl (by simp [entered, withStore])
  unfold Session.instantiate
  cases Store.instantiate m imports (s.store x) with
  | error t st => exact hstays st
  | ok id st =>
    cases m.start with
    | none => exact hstays st
    | some func =>
      simp only
      cases hinvoke : (s.withStore st hosts x w).invoke { x with pools := st.pools } w id func [] with
      | error t => exact hstays st
      | ok s'' =>
        -- the start function is entered like any other
        have hentered : s''.entered = [.entry] := by
          simp only [Session.invoke, Except.bind_eq_ok, Except.pure_eq_ok] at hinvoke
          obtain ⟨_, -, _, -, _, -, rfl⟩ := hinvoke
          rfl
        simp only [hentered]
        exact enter (by exact hguest) (by exact hrunLimits) hinvoke

/-- The invocation goes on, or is over. -/
theorem advance {c : Config W} {outermost : Bool} (h : s.Balance limits es)
    (hrunning : s.phase = .running c outermost) :
    (s.advance c outermost).2.Balance limits (es ++ (s.advance c outermost).1) := by
  have hmetered := h.metered
  rw [Metered, hrunning] at hmetered
  obtain ⟨hguest, rfl⟩ := hmetered
  unfold Session.advance
  rcases hstep : c.step s.env with _ | ⟨es', c'⟩
  · -- the flag falls with the outermost call; ceilings and budget stay
    have hrunLimits := h.runLimits
    have hfuel := h.fuel
    rw [hrunning] at hrunLimits hfuel
    rw [List.append_nil]
    exact ⟨rfl, hrunLimits, hfuel⟩
  · have hspends := Config.spends_step hstep
    apply h.spend
    · exact ⟨hspends.inGuest.trans hguest, rfl⟩
    · rw [hrunning]
      exact hspends

/-- Every step keeps the balance. -/
theorem step {es' : List Event} (h : s.Balance limits es) (hstep : Session.Step s es' s') :
    s'.Balance limits (es ++ es') := by
  cases hstep with
  | invoke hidle id func args hinvoke => exact h.invoke hidle hinvoke
  | instantiate hidle m imports hosts => exact h.instantiate hidle m imports hosts
  | advance hrunning => exact h.advance hrunning

end Balance

end Session

end Wasmrt
