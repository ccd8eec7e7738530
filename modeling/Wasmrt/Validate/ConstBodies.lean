import Wasmrt.Validate.ConstRules

/-!
# Constant expressions as bodies

The checker of bodies types the same instructions. It accepts what a constant expression consists of, but for
defaults that a type does not have, and for descriptors where their proposal is not accepted.

## Main definitions

* `asBody`: the code of a function that computes a constant expression.
* `Instr.defaultsKept`: an instruction defaults what has a default.
* `Instr.keptByBody`: what the checker of bodies asks of an instruction beyond its rule.

## Main results

* `step_of_rule`: the checker of bodies follows the rules.
* `validateFunction_asBody_iff`: an accepted expression is an accepted body just in case every
  instruction is kept.
-/

namespace Wasmrt

open MonadExcept (ofExcept)

/-- The code of a function that computes a constant expression. -/
def asBody (expr : ConstExpr) : Code where
  locals := []
  ir := expr ++ [.end_]

/-- What the body of such a function is checked against. -/
def ConstContext.body (cc : ConstContext) (refs : Option (List Bool)) (expected : ValType) (bodyLen : ℕ) :
    FuncContext where
  module := cc.module
  features := cc.features
  refs
  locals := []
  results := [expected]
  bodyLen

/-- The frame of such a body. -/
def bodyFrame (expected : ValType) : Frame where
  kind := .block
  start := []
  end_ := [expected]
  height := 0
  initSnapshot := []

/-- The state of the checker of bodies over the operands of a constant expression. -/
def bodyState (expected : ValType) (stack : List ValType) : FuncValidator where
  localInit := []
  vals := stack.map .val
  ctrls := [bodyFrame expected]

/-- Where an instruction defaults every field of a struct, or the element of an array, these have a default. -/
def Instr.defaultsKept (m : Module) : Instr → Bool
  | .structNewDefault ti => (m.structFields ti).all (·.all FieldType.isDefaultable)
  | .arrayNewDefault ti => (m.arrayField ti).all FieldType.isDefaultable
  | _ => true

/-- Where an instruction allocates with a descriptor, descriptors are accepted. -/
def Instr.descriptorsKept (F : Features) : Instr → Bool
  | .structNewDesc _ | .structNewDefaultDesc _ => F.has .customDescriptors
  | _ => true

/-- What the checker of bodies asks of an instruction beyond its rule. -/
def Instr.keptByBody (m : Module) (F : Features) (i : Instr) : Bool := i.defaultsKept m && i.descriptorsKept F

theorem Instr.keptByBody_iff {m : Module} {F : Features} {i : Instr} :
    i.keptByBody m F = true ↔ i.defaultsKept m = true ∧ i.descriptorsKept F = true := by
  rw [keptByBody, Bool.and_eq_true]

variable {cc : ConstContext} {refs : Option (List Bool)} {T : ValType} {n : ℕ}

/-! ## Operands -/

theorem popExpect_bodyState {t expect : ValType} {stack : List ValType}
    (h : subtypeOf cc.module.toTypeSection t expect = true) :
    popExpect (cc.body refs T n) expect (bodyState T (t :: stack)) = .ok (.val t) (bodyState T stack) :=
  estate_bind_eq_ok.mpr ⟨.val t, bodyState T stack, rfl, ofExcept_bind_eq_ok.mpr ⟨⟨⟩, ensure_eq_ok.mpr h, rfl⟩⟩

/-- An `i32` is expected where one is. -/
theorem popI32_bodyState (stack : List ValType) :
    popExpect (cc.body refs T n) .i32 (bodyState T (.i32 :: stack)) = .ok (.val .i32) (bodyState T stack) :=
  popExpect_bodyState rfl

theorem popVals_bodyState {operands ts stack : List ValType} (h : cc.Fit operands ts) :
    popVals (cc.body refs T n) ts (bodyState T (operands ++ stack)) = .ok ⟨⟩ (bodyState T stack) := by
  unfold ConstContext.Fit at h
  unfold popVals
  generalize ts.reverse = ts at h
  induction h with
  | nil => rfl
  | cons hone _ ih =>
    refine estate_bind_eq_ok.mpr ⟨⟨⟩, _, ?_, ih⟩
    exact estate_bind_eq_ok.mpr ⟨_, _, popExpect_bodyState hone, rfl⟩

theorem fit_one {t expect : ValType} (h : subtypeOf cc.module.toTypeSection t expect = true) :
    cc.Fit [t] [expect] := .cons h .nil

theorem fit_two {t u expect expect' : ValType} (ht : subtypeOf cc.module.toTypeSection t expect = true)
    (hu : subtypeOf cc.module.toTypeSection u expect' = true) : cc.Fit [u, t] [expect, expect'] :=
  .cons hu (.cons ht .nil)

/-- Operands that fit a signature give way to its result. -/
theorem applySig_bodyState {operands ts stack : List ValType} {t : ValType} (h : cc.Fit operands ts) :
    applySig (cc.body refs T n) ⟨ts, [t]⟩ (bodyState T (operands ++ stack)) = .ok ⟨⟩ (bodyState T (t :: stack)) :=
  estate_bind_eq_ok.mpr ⟨⟨⟩, _, popVals_bodyState h, rfl⟩

theorem subtypeOf_int (ts : TypeSection) (w : Width) : subtypeOf ts w.int w.int = true := by
  cases w <;> rfl

/-! ## Instructions -/

theorem structNew_bodyState {ti : ℕ} {fields : List FieldType} {operands stack : List ValType}
    (hfields : cc.module.structFields ti = some fields) (hfit : cc.Fit operands (fieldOperands fields)) :
    structNew (cc.body refs T n) ti true (bodyState T (operands ++ stack)) =
      .ok ⟨⟩ (bodyState T (.exactRef false .struct ti :: stack)) := by
  refine ofExcept_bind_eq_ok.mpr ⟨fields, orError_eq_ok.mpr hfields, ?_⟩
  exact estate_bind_eq_ok.mpr ⟨⟨⟩, _, popVals_bodyState hfit, rfl⟩

theorem structNewDefault_bodyState {ti : ℕ} {fields : List FieldType} {stack : List ValType}
    (hfields : cc.module.structFields ti = some fields) (hdefault : fields.all FieldType.isDefaultable = true) :
    structNew (cc.body refs T n) ti false (bodyState T stack) =
      .ok ⟨⟩ (bodyState T (.exactRef false .struct ti :: stack)) := by
  refine ofExcept_bind_eq_ok.mpr ⟨fields, orError_eq_ok.mpr hfields, ?_⟩
  exact ofExcept_bind_eq_ok.mpr ⟨⟨⟩, ensure_eq_ok.mpr hdefault, rfl⟩

theorem convertRef_bodyState {operand result : RefHeap} {got : ValType} {stack : List ValType}
    (h : subtypeOf cc.module.toTypeSection got (operand.valType true) = true) :
    convertRef (cc.body refs T n) operand result (bodyState T (got :: stack)) =
      .ok ⟨⟩ (bodyState T (result.valType (!got.isNonNullRef) :: stack)) :=
  estate_bind_eq_ok.mpr ⟨_, _, popExpect_bodyState h, rfl⟩

/-- The checker of bodies follows the rule of an instruction that is kept. -/
theorem stepInstr_of_rule {i : Instr} {operands stack : List ValType} {t : ValType}
    (hrule : ConstRule cc i operands t) (hkept : i.defaultsKept cc.module = true)
    (hdeclared : ∀ f, i = .refFunc f → declaresRef refs f = true) (hroom : operands.length ≤ n) :
    stepInstr (cc.body refs T n) i (bodyState T (operands ++ stack)) = .ok ⟨⟩ (bodyState T (t :: stack)) := by
  cases hrule with
  | i32Const | i64Const | f32Const | f64Const => rfl
  | globalGet _ hg _ => exact ofExcept_bind_eq_ok.mpr ⟨_, orError_eq_ok.mpr hg, rfl⟩
  | refNull _ htype hgate =>
    exact ofExcept_bind_eq_ok.mpr ⟨_, htype, ofExcept_bind_eq_ok.mpr ⟨⟨⟩, hgate, rfl⟩⟩
  | refFunc _ hft =>
    refine ofExcept_bind_eq_ok.mpr ⟨_, orError_eq_ok.mpr hft, ?_⟩
    exact ofExcept_bind_eq_ok.mpr ⟨⟨⟩, ensure_eq_ok.mpr (hdeclared _ rfl), rfl⟩
  | structNew _ hplain hfields hfit =>
    exact ofExcept_bind_eq_ok.mpr ⟨_, hplain, structNew_bodyState hfields hfit⟩
  | structNewDefault _ hplain hfields =>
    rw [Instr.defaultsKept, hfields] at hkept
    exact ofExcept_bind_eq_ok.mpr ⟨_, hplain, structNewDefault_bodyState hfields hkept⟩
  | structNewDesc _ hd hdesc hfields hfit =>
    refine ofExcept_bind_eq_ok.mpr ⟨_, hd, ?_⟩
    exact estate_bind_eq_ok.mpr ⟨_, _, popExpect_bodyState hdesc, structNew_bodyState hfields hfit⟩
  | structNewDefaultDesc _ hd hdesc hfields hdefault =>
    refine ofExcept_bind_eq_ok.mpr ⟨_, hd, ?_⟩
    exact estate_bind_eq_ok.mpr ⟨_, _, popExpect_bodyState hdesc, structNewDefault_bodyState hfields hdefault⟩
  | arrayNew _ hf hinit =>
    refine ofExcept_bind_eq_ok.mpr ⟨_, orError_eq_ok.mpr hf, ?_⟩
    exact estate_bind_eq_ok.mpr ⟨⟨⟩, _, popVals_bodyState (fit_two hinit rfl), rfl⟩
  | arrayNewDefault _ hf =>
    rw [Instr.defaultsKept, hf] at hkept
    refine ofExcept_bind_eq_ok.mpr ⟨_, orError_eq_ok.mpr hf, ?_⟩
    refine ofExcept_bind_eq_ok.mpr ⟨⟨⟩, ensure_eq_ok.mpr hkept, ?_⟩
    exact estate_bind_eq_ok.mpr ⟨_, _, popI32_bodyState stack, rfl⟩
  | arrayNewFixed _ hf hfit =>
    have hlen := List.Forall₂.length_eq hfit
    rw [List.length_reverse, List.length_replicate] at hlen
    refine ofExcept_bind_eq_ok.mpr ⟨_, orError_eq_ok.mpr hf, ?_⟩
    refine ofExcept_bind_eq_ok.mpr ⟨⟨⟩, ensure_eq_ok.mpr (decide_eq_true (hlen ▸ hroom)), ?_⟩
    exact estate_bind_eq_ok.mpr ⟨⟨⟩, _, popVals_bodyState hfit, rfl⟩
  | anyConvertExtern _ hgot | externConvertAny _ hgot => exact convertRef_bodyState hgot
  | refI31 _ => exact applySig_bodyState (fit_one rfl)
  | @iBin w op _ hop =>
    refine ofExcept_bind_eq_ok.mpr ⟨⟨[w.int, w.int], [w.int]⟩, ?_,
      applySig_bodyState (fit_two (subtypeOf_int _ w) (subtypeOf_int _ w))⟩
    rcases hop with rfl | rfl | rfl <;> rfl
  | @simd v _ hsub =>
    show simdOp (cc.body refs T n) v _ = _
    rw [simdOp, hsub]
    rfl

/-- An instruction that is kept passes its gate. -/
theorem gateInstr_of_rule {i : Instr} {operands : List ValType} {t : ValType}
    (hrule : ConstRule cc i operands t) (hkept : i.descriptorsKept cc.features = true) :
    gateInstr i cc.features = .ok () := by
  have hgate {f : Feature} (hf : cc.features.has f = true) : gate (some f) cc.features = .ok () :=
    gate_eq_ok.mpr (by rintro _ ⟨⟩; exact hf)
  cases hrule with
  | i32Const | i64Const | f32Const | f64Const | globalGet => rfl
  | refNull hf | refFunc hf | structNew hf | structNewDefault hf | arrayNew hf | arrayNewDefault hf
  | arrayNewFixed hf | anyConvertExtern hf | externConvertAny hf | refI31 hf =>
    exact Except.bind_eq_ok.mpr ⟨⟨⟩, hgate hf, rfl⟩
  | structNewDesc | structNewDefaultDesc => exact Except.bind_eq_ok.mpr ⟨⟨⟩, hgate hkept, rfl⟩
  | iBin _ hop => rcases hop with rfl | rfl | rfl <;> rfl
  | @simd v hf hsub =>
    refine Except.bind_eq_ok.mpr ⟨⟨⟩, hgate hf, ?_⟩
    show gate (some (simdSubFeature v.sub)) cc.features = .ok ()
    rw [hsub]
    exact hgate hf

theorem step_of_rule {i : Instr} {operands stack : List ValType} {t : ValType}
    (hrule : ConstRule cc i operands t) (hkept : i.keptByBody cc.module cc.features = true)
    (hdeclared : ∀ f, i = .refFunc f → declaresRef refs f = true) (hroom : operands.length ≤ n) :
    step (cc.body refs T n) i (bodyState T (operands ++ stack)) = .ok ⟨⟩ (bodyState T (t :: stack)) := by
  have hstep : stepInstr (cc.body refs T n) i (bodyState T (operands ++ stack)) = _ :=
    stepInstr_of_rule hrule (Instr.keptByBody_iff.mp hkept).1 hdeclared hroom
  rw [step, estate_get_bind]
  refine ofExcept_bind_eq_ok.mpr ⟨⟨⟩, rfl, ?_⟩
  by_cases hall : (cc.body refs T n).features = .all
  · rw [if_neg (not_not.mpr hall)]
    exact hstep
  · rw [if_pos hall]
    exact ofExcept_bind_eq_ok.mpr ⟨⟨⟩, gateInstr_of_rule hrule (Instr.keptByBody_iff.mp hkept).2, hstep⟩

/-- The checker of bodies follows a run whose instructions are kept. A run of no more instructions than the body has
never holds more operands. -/
theorem forM_step_of_run {is : List Instr} {stack stack' : List ValType} (hrun : ConstRun cc is stack stack')
    (hkept : ∀ i ∈ is, i.keptByBody cc.module cc.features = true)
    (hdeclared : ∀ f, .refFunc f ∈ is → declaresRef refs f = true) (hroom : stack.length + is.length ≤ n) :
    is.forM (step (cc.body refs T n)) (bodyState T stack) = .ok ⟨⟩ (bodyState T stack') := by
  induction hrun with
  | nil => rfl
  | cons hrule _ ih =>
    rw [List.forall_mem_cons] at hkept
    rw [List.length_append, List.length_cons] at hroom
    refine estate_bind_eq_ok.mpr ⟨⟨⟩, _, step_of_rule hrule hkept.1 ?_ (by omega), ih hkept.2 ?_ ?_⟩
    · rintro f rfl
      exact hdeclared f List.mem_cons_self
    · exact fun f hf => hdeclared f (List.mem_cons_of_mem _ hf)
    · rw [List.length_cons]
      omega

/-! ## Bodies -/

/-- The `end` of the body takes the result. -/
theorem step_end_bodyState {t : ValType} (h : subtypeOf cc.module.toTypeSection t T = true) :
    step (cc.body refs T n) .end_ (bodyState T [t]) = .ok ⟨⟩ { localInit := [], vals := [.val T] } := by
  have hpop : popVals (cc.body refs T n) [T] (bodyState T [t]) = .ok ⟨⟩ (bodyState T []) :=
    popVals_bodyState (fit_one h)
  have hctrl : popCtrl (cc.body refs T n) (bodyState T [t]) = .ok (bodyFrame T) { localInit := [] } := by
    rw [popCtrl, estate_get_bind]
    exact ofExcept_bind_eq_ok.mpr ⟨bodyFrame T, rfl, estate_bind_eq_ok.mpr ⟨⟨⟩, _, hpop, rfl⟩⟩
  have hend : end_ (cc.body refs T n) (bodyState T [t]) = .ok ⟨⟩ { localInit := [], vals := [.val T] } :=
    estate_bind_eq_ok.mpr ⟨_, _, hctrl, rfl⟩
  rw [step, estate_get_bind]
  refine ofExcept_bind_eq_ok.mpr ⟨⟨⟩, rfl, ?_⟩
  by_cases hall : (cc.body refs T n).features = .all
  · rw [if_neg (not_not.mpr hall)]
    exact hend
  · rw [if_pos hall]
    exact ofExcept_bind_eq_ok.mpr ⟨⟨⟩, rfl, hend⟩

/-- An instruction that the checker of bodies accepts is kept. -/
theorem defaultsKept_of_stepInstr {cx : FuncContext} {i : Instr} {s s' : FuncValidator} {u : Unit}
    (h : stepInstr cx i s = .ok u s') : i.defaultsKept cx.module = true := by
  cases i with
  | structNewDefault ti =>
    obtain ⟨_, -, h⟩ := ofExcept_bind_eq_ok.mp h
    obtain ⟨fields, hfields, h⟩ := ofExcept_bind_eq_ok.mp h
    obtain ⟨_, hdefault, -⟩ := ofExcept_bind_eq_ok.mp h
    rw [Instr.defaultsKept, orError_eq_ok.mp hfields]
    exact ensure_eq_ok.mp hdefault
  | arrayNewDefault ti =>
    obtain ⟨f, hf, h⟩ := ofExcept_bind_eq_ok.mp h
    obtain ⟨_, hdefault, -⟩ := ofExcept_bind_eq_ok.mp h
    rw [Instr.defaultsKept, orError_eq_ok.mp hf]
    exact ensure_eq_ok.mp hdefault
  | _ => rfl

theorem descriptorsKept_of_gateInstr {F : Features} {i : Instr} (h : F = .all ∨ gateInstr i F = .ok ()) :
    i.descriptorsKept F = true := by
  rcases h with rfl | h
  · cases i <;> rfl
  · obtain ⟨_, hgate, -⟩ := Except.bind_eq_ok.mp h
    cases i with
    | structNewDesc | structNewDefaultDesc => exact gate_eq_ok.mp hgate _ rfl
    | _ => rfl

theorem keptByBody_of_step {cx : FuncContext} {i : Instr} {s s' : FuncValidator} {u : Unit}
    (h : step cx i s = .ok u s') : i.keptByBody cx.module cx.features = true := by
  obtain ⟨-, hgate, hstep⟩ := step_eq_ok h
  exact Instr.keptByBody_iff.mpr ⟨defaultsKept_of_stepInstr hstep, descriptorsKept_of_gateInstr hgate⟩

section Bodies

variable {m : Module} {F : Features} {expr : ConstExpr} {byteLen selfIndex : ℕ} {expected : ValType}
  {refs refs' : Option (List Bool)}

/-- The body of a function that computes an expression is accepted where its instructions are. -/
theorem validateFunction_asBody (selfIndex byteLen : ℕ) :
    validateFunction m ⟨[], [expected]⟩ (asBody expr) refs F = .ok () ↔
      ∃ s, (asBody expr).ir.forM (step ((ConstContext.mk m F selfIndex byteLen).body refs expected
        (expr.length + 1))) (bodyState expected []) = .ok ⟨⟩ s ∧ s.ctrls = [] := by
  let cx := (ConstContext.mk m F selfIndex byteLen).body refs expected (expr.length + 1)
  have hcontext : bodyContext m ⟨[], [expected]⟩ (asBody expr) refs F = cx := by
    rw [bodyContext, show (asBody expr).ir.length = expr.length + 1 from List.length_append]
    rfl
  have hcheck : checkBody cx (asBody expr).ir { localInit := [] } =
      ((asBody expr).ir.forM (step cx) >>= fun _ => do
        require (← get).ctrls.isEmpty .controlUnderflow) (bodyState expected []) := rfl
  rw [validateFunction_eq, hcontext]
  constructor
  · intro h
    obtain ⟨_, -, h⟩ := Except.bind_eq_ok.mp h
    obtain ⟨_, -, h⟩ := Except.bind_eq_ok.mp h
    split at h
    · next s' hrun =>
      rw [show initialLocals ⟨[], [expected]⟩ (localTypes ⟨[], [expected]⟩ (asBody expr)) = [] from rfl,
        hcheck] at hrun
      obtain ⟨_, s, hsteps, hempty⟩ := estate_bind_eq_ok.mp hrun
      rw [estate_get_bind] at hempty
      have hctrls := ensure_eq_ok.mp (ofExcept_eq_ok.mp hempty).1
      exact ⟨s, hsteps, List.isEmpty_iff.mp hctrls⟩
    · cases h
  · rintro ⟨s, hsteps, hctrls⟩
    refine Except.bind_eq_ok.mpr ⟨⟨⟩, rfl, Except.bind_eq_ok.mpr ⟨⟨⟩, rfl, ?_⟩⟩
    have hrun : checkBody cx (asBody expr).ir { localInit := [] } = .ok ⟨⟩ s := by
      rw [hcheck]
      refine estate_bind_eq_ok.mpr ⟨⟨⟩, s, hsteps, ?_⟩
      rw [estate_get_bind, hctrls]
      rfl
    rw [show initialLocals ⟨[], [expected]⟩ (localTypes ⟨[], [expected]⟩ (asBody expr)) = [] from rfl, hrun]

/-- An accepted expression is an accepted body just in case every instruction is kept. -/
theorem validateFunction_asBody_iff (hcovered : m.CoveredBy refs)
    (h : validateConstExpr m expr byteLen expected selfIndex refs F = .ok refs') :
    validateFunction m ⟨[], [expected]⟩ (asBody expr) refs' F = .ok () ↔
      ∀ i ∈ expr, i.keptByBody m F = true := by
  rw [validateFunction_asBody selfIndex byteLen]
  constructor
  · rintro ⟨s, hsteps, -⟩ i hi
    obtain ⟨_, _, hone⟩ := estate_forM_mem hsteps (List.mem_append_left _ hi)
    exact keptByBody_of_step hone
  · intro hkept
    obtain ⟨t, hrun, hsub⟩ := run_of_validateConstExpr h
    have hsteps := forM_step_of_run (T := expected) (n := expr.length + 1) hrun hkept
      (fun f hf => declares_of_validateConstExpr hcovered h hf) (by simp)
    refine ⟨{ localInit := [], vals := [.val expected] }, ?_, rfl⟩
    rw [show (asBody expr).ir = expr ++ [.end_] from rfl, List.forM_eq_forM, List.forM_append]
    refine estate_bind_eq_ok.mpr ⟨⟨⟩, _, hsteps, ?_⟩
    exact estate_bind_eq_ok.mpr ⟨⟨⟩, _, step_end_bodyState hsub, rfl⟩

end Bodies

end Wasmrt
