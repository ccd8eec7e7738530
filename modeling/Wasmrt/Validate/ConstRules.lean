import Wasmrt.Validate.ConstExpr

/-!
# The rules of constant expressions

What one accepted instruction does to the operands: it pops some and pushes one. The rules say which, under
which conditions, and the rest of the development reads them in place of the checker.

## Main definitions

* `ConstRule`: the operands of a constant instruction, top first, and its result.
* `ConstRun`: a sequence of instructions, each by its rule.

## Main results

* `constStep_rule`: an accepted instruction follows its rule.
* `run_of_validateConstExpr`: an accepted expression is a run by the rules to one operand.
* `declares_of_validateConstExpr`: it declares the functions it references.
-/

namespace Wasmrt

open MonadExcept (ofExcept)

variable (cc : ConstContext)

/-! ## The rules -/

/-- Operands of the expected types, top first. -/
def ConstContext.Fit (operands expected : List ValType) : Prop :=
  List.Forall₂ (fun got expect => subtypeOf cc.module.toTypeSection got expect = true) operands expected.reverse

/-- The types of the fields of a struct, as operands. -/
def fieldOperands (fields : List FieldType) : List ValType := fields.map (·.storage.unpacked)

/-- A constant instruction with the operands it pops, top first, and the result it pushes. -/
inductive ConstRule : Instr → List ValType → ValType → Prop
  | i32Const (n : BitVec 32) : ConstRule (.i32Const n) [] .i32
  | i64Const (n : BitVec 64) : ConstRule (.i64Const n) [] .i64
  | f32Const (bits : BitVec 32) : ConstRule (.f32Const bits) [] .f32
  | f64Const (bits : BitVec 64) : ConstRule (.f64Const bits) [] .f64
  | globalGet {x : ℕ} {g : GlobalType} (hprior : x < cc.selfIndex)
      (hg : cc.module.globals[x]? = some g) (himmutable : g.mutable = false) :
      ConstRule (.globalGet x) [] g.content
  | refNull {ht : HeapType} {t : ValType} (href : cc.features.has .referenceTypes = true)
      (htype : refTypeValType cc.module.toTypeSection ⟨true, ht⟩ = .ok t)
      (hgate : gateValType t cc.features = .ok ()) : ConstRule (.refNull ht) [] t
  | refFunc {f : ℕ} {ft : FuncType} (href : cc.features.has .referenceTypes = true)
      (hft : cc.module.funcType f = some ft) : ConstRule (.refFunc f) [] (refFuncValType cc.module f)
  | structNew {ti : ℕ} {fields : List FieldType} {operands : List ValType}
      (hgc : cc.features.has .gc = true)
      (hplain : checkPlainlyAllocatable cc.module.toTypeSection ti = .ok ())
      (hfields : cc.module.structFields ti = some fields) (hfit : cc.Fit operands (fieldOperands fields)) :
      ConstRule (.structNew ti) operands (.exactRef false .struct ti)
  | structNewDefault {ti : ℕ} {fields : List FieldType} (hgc : cc.features.has .gc = true)
      (hplain : checkPlainlyAllocatable cc.module.toTypeSection ti = .ok ())
      (hfields : cc.module.structFields ti = some fields) :
      ConstRule (.structNewDefault ti) [] (.exactRef false .struct ti)
  | structNewDesc {ti d : ℕ} {fields : List FieldType} {desc : ValType} {operands : List ValType}
      (hgc : cc.features.has .gc = true) (hd : descriptorOf cc.module.toTypeSection ti = .ok d)
      (hdesc : subtypeOf cc.module.toTypeSection desc (.exactRef true .struct d) = true)
      (hfields : cc.module.structFields ti = some fields) (hfit : cc.Fit operands (fieldOperands fields)) :
      ConstRule (.structNewDesc ti) (desc :: operands) (.exactRef false .struct ti)
  | structNewDefaultDesc {ti d : ℕ} {fields : List FieldType} {desc : ValType}
      (hgc : cc.features.has .gc = true) (hd : descriptorOf cc.module.toTypeSection ti = .ok d)
      (hdesc : subtypeOf cc.module.toTypeSection desc (.exactRef true .struct d) = true)
      (hfields : cc.module.structFields ti = some fields)
      (hdefault : fields.all FieldType.isDefaultable = true) :
      ConstRule (.structNewDefaultDesc ti) [desc] (.exactRef false .struct ti)
  | arrayNew {ti : ℕ} {f : FieldType} {init : ValType} (hgc : cc.features.has .gc = true)
      (hf : cc.module.arrayField ti = some f)
      (hinit : subtypeOf cc.module.toTypeSection init f.storage.unpacked = true) :
      ConstRule (.arrayNew ti) [.i32, init] (.exactRef false .array ti)
  | arrayNewDefault {ti : ℕ} {f : FieldType} (hgc : cc.features.has .gc = true)
      (hf : cc.module.arrayField ti = some f) :
      ConstRule (.arrayNewDefault ti) [.i32] (.exactRef false .array ti)
  | arrayNewFixed {ti n : ℕ} {f : FieldType} {operands : List ValType} (hgc : cc.features.has .gc = true)
      (hf : cc.module.arrayField ti = some f)
      (hfit : cc.Fit operands (List.replicate n f.storage.unpacked)) :
      ConstRule (.arrayNewFixed ti n) operands (.exactRef false .array ti)
  | anyConvertExtern {got : ValType} (hgc : cc.features.has .gc = true)
      (hgot : subtypeOf cc.module.toTypeSection got (RefHeap.external.valType true) = true) :
      ConstRule .anyConvertExtern [got] (RefHeap.any.valType (!got.isNonNullRef))
  | externConvertAny {got : ValType} (hgc : cc.features.has .gc = true)
      (hgot : subtypeOf cc.module.toTypeSection got (RefHeap.any.valType true) = true) :
      ConstRule .externConvertAny [got] (RefHeap.external.valType (!got.isNonNullRef))
  | refI31 (hgc : cc.features.has .gc = true) : ConstRule .refI31 [.i32] (RefHeap.i31.valType false)
  | iBin {w : Width} {op : IBinOp} (hext : cc.features.has .extendedConst = true)
      (hop : op = .add ∨ op = .sub ∨ op = .mul) :
      ConstRule (.iBin w op) [w.int, w.int] w.int
  | simd {s : Simd} (hsimd : cc.features.has .simd = true) (hsub : s.sub = 0x0c) :
      ConstRule (.simd s) [] .v128

/-- The functions a body may reference, with the one an instruction references. -/
def Instr.declare : Instr → Option (List Bool) → Option (List Bool)
  | .refFunc f, refs => refs.map (·.set f true)
  | _, refs => refs

/-- The operands of the rule of an instruction give way to its result. -/
def ConstRule.Applies (i : Instr) (s s' : ConstState) : Prop :=
  ∃ operands rest t, ConstRule cc i operands t ∧ s.stack = operands ++ rest ∧
    s' = ⟨t :: rest, i.declare s.refs⟩

/-- A sequence of instructions, each by its rule. -/
inductive ConstRun : List Instr → List ValType → List ValType → Prop
  | nil (stack : List ValType) : ConstRun [] stack stack
  | cons {i : Instr} {is : List Instr} {operands rest stack : List ValType} {t : ValType}
      (hrule : ConstRule cc i operands t) (hrest : ConstRun is (t :: rest) stack) :
      ConstRun (i :: is) (operands ++ rest) stack

variable {cc} {s s' : ConstState}

/-! ## Operands -/

theorem constPush_eq_ok {t : ValType} {u : Unit} (h : constPush cc t s = .ok u s') :
    s' = { s with stack := t :: s.stack } := by
  rw [constPush, estate_get_bind] at h
  obtain ⟨_, -, h⟩ := ofExcept_bind_eq_ok.mp h
  exact (estate_set_eq_ok.mp h).symm

theorem constPop_eq_ok {t : ValType} (h : constPop s = .ok t s') : s = ⟨t :: s'.stack, s'.refs⟩ := by
  obtain ⟨stack, refs⟩ := s
  rw [constPop, estate_get_bind] at h
  cases stack with
  | nil => exact absurd h estate_throw_ne_ok
  | cons u stack =>
    obtain ⟨_, _, hset, h⟩ := estate_bind_eq_ok.mp h
    obtain ⟨rfl, rfl⟩ := estate_pure_eq_ok.mp h
    rw [← estate_set_eq_ok.mp hset]

theorem constPopExpect_eq_ok {t expect : ValType} (h : constPopExpect cc expect s = .ok t s') :
    s = ⟨t :: s'.stack, s'.refs⟩ ∧ subtypeOf cc.module.toTypeSection t expect = true := by
  obtain ⟨got, s₁, hpop, h⟩ := estate_bind_eq_ok.mp h
  obtain ⟨_, hsub, h⟩ := ofExcept_bind_eq_ok.mp h
  obtain ⟨rfl, rfl⟩ := estate_pure_eq_ok.mp h
  exact ⟨constPop_eq_ok hpop, ensure_eq_ok.mp hsub⟩

theorem constPopI32_eq_ok {u : Unit} (h : constPopI32 s = .ok u s') : s = ⟨.i32 :: s'.stack, s'.refs⟩ := by
  obtain ⟨got, s₁, hpop, h⟩ := estate_bind_eq_ok.mp h
  obtain ⟨hgot, rfl⟩ := ofExcept_eq_ok.mp h
  rw [constPop_eq_ok hpop, beq_iff_eq.mp (ensure_eq_ok.mp hgot)]

theorem constPopVals_eq_ok {ts : List ValType} {u : Unit} (h : constPopVals cc ts s = .ok u s') :
    ∃ operands, s = ⟨operands ++ s'.stack, s'.refs⟩ ∧ cc.Fit operands ts := by
  rw [constPopVals] at h
  unfold ConstContext.Fit
  generalize ts.reverse = ts at h ⊢
  induction ts generalizing s with
  | nil =>
    obtain ⟨-, rfl⟩ := estate_pure_eq_ok.mp h
    exact ⟨[], rfl, .nil⟩
  | cons t ts ih =>
    obtain ⟨_, s₁, hone, hrest⟩ := estate_bind_eq_ok.mp h
    obtain ⟨got, s₂, hpop, hone⟩ := estate_bind_eq_ok.mp hone
    obtain ⟨-, rfl⟩ := estate_pure_eq_ok.mp hone
    obtain ⟨hs, hsub⟩ := constPopExpect_eq_ok hpop
    obtain ⟨operands, hs₂, hfit⟩ := ih hrest
    exact ⟨got :: operands, by rw [hs, hs₂, List.cons_append], .cons hsub hfit⟩

/-- Two operands of a number type give way to one. -/
theorem constBinary_eq_ok {t : ValType} {u : Unit} (h : constBinary cc t s = .ok u s') :
    cc.features.has .extendedConst = true ∧
      ∃ rest, s.stack = t :: t :: rest ∧ s' = ⟨t :: rest, s.refs⟩ := by
  obtain ⟨stack, refs⟩ := s
  obtain ⟨_, hext, h⟩ := ofExcept_bind_eq_ok.mp h
  rw [estate_get_bind] at h
  refine ⟨gate_eq_ok.mp hext _ rfl, ?_⟩
  rcases stack with _ | ⟨a, _ | ⟨b, rest⟩⟩
  · exact absurd h estate_throw_ne_ok
  · exact absurd h estate_throw_ne_ok
  · obtain ⟨_, hsame, hset⟩ := ofExcept_bind_eq_ok.mp h
    rw [ensure_eq_ok, Bool.and_eq_true, beq_iff_eq, beq_iff_eq] at hsame
    obtain ⟨rfl, rfl⟩ := hsame
    exact ⟨rest, rfl, (estate_set_eq_ok.mp hset).symm⟩

/-- A conversion pushes a result that is as nullable as its operand. -/
theorem constConvertRef_eq_ok {operand result : RefHeap} {u : Unit}
    (h : constConvertRef cc operand result s = .ok u s') :
    cc.features.has .gc = true ∧ ∃ got rest,
      subtypeOf cc.module.toTypeSection got (operand.valType true) = true ∧
      s.stack = got :: rest ∧ s' = ⟨result.valType (!got.isNonNullRef) :: rest, s.refs⟩ := by
  obtain ⟨_, hgc, h⟩ := ofExcept_bind_eq_ok.mp h
  obtain ⟨got, s₁, hpop, h⟩ := estate_bind_eq_ok.mp h
  obtain ⟨hs, hgot⟩ := constPopExpect_eq_ok hpop
  rw [hs]
  exact ⟨gate_eq_ok.mp hgc _ rfl, got, s₁.stack, hgot, rfl, constPush_eq_ok h⟩

/-! ## Instructions -/

/-- A result is pushed on what the operands leave. -/
theorem applies_of_push {i : Instr} {operands : List ValType} {t : ValType} {s₁ : ConstState} {u : Unit}
    (hrule : ConstRule cc i operands t) (hs : s = ⟨operands ++ s₁.stack, s₁.refs⟩)
    (hdeclare : i.declare s₁.refs = s₁.refs) (h : constPush cc t s₁ = .ok u s') :
    ConstRule.Applies cc i s s' := by
  subst hs
  refine ⟨operands, s₁.stack, t, hrule, rfl, ?_⟩
  rw [constPush_eq_ok h, hdeclare]

theorem constStructNew_applies {ti : ℕ} {u : Unit} (h : constStructNew cc ti true s = .ok u s') :
    ConstRule.Applies cc (.structNew ti) s s' := by
  obtain ⟨_, hgc, h⟩ := ofExcept_bind_eq_ok.mp h
  obtain ⟨_, hplain, h⟩ := ofExcept_bind_eq_ok.mp h
  obtain ⟨fields, hfields, h⟩ := ofExcept_bind_eq_ok.mp h
  obtain ⟨_, s₁, hpops, h⟩ := estate_bind_eq_ok.mp h
  obtain ⟨operands, hs, hfit⟩ := constPopVals_eq_ok hpops
  exact applies_of_push (.structNew (gate_eq_ok.mp hgc _ rfl) hplain (orError_eq_ok.mp hfields) hfit) hs rfl h

theorem constStructNewDefault_applies {ti : ℕ} {u : Unit} (h : constStructNew cc ti false s = .ok u s') :
    ConstRule.Applies cc (.structNewDefault ti) s s' := by
  obtain ⟨_, hgc, h⟩ := ofExcept_bind_eq_ok.mp h
  obtain ⟨_, hplain, h⟩ := ofExcept_bind_eq_ok.mp h
  obtain ⟨fields, hfields, h⟩ := ofExcept_bind_eq_ok.mp h
  exact applies_of_push (.structNewDefault (gate_eq_ok.mp hgc _ rfl) hplain (orError_eq_ok.mp hfields)) rfl rfl h

theorem constStructNewDesc_applies {ti : ℕ} {u : Unit} (h : constStructNewDesc cc ti true s = .ok u s') :
    ConstRule.Applies cc (.structNewDesc ti) s s' := by
  obtain ⟨_, hgc, h⟩ := ofExcept_bind_eq_ok.mp h
  obtain ⟨d, hd, h⟩ := ofExcept_bind_eq_ok.mp h
  obtain ⟨desc, s₁, hpop, h⟩ := estate_bind_eq_ok.mp h
  obtain ⟨fields, hfields, h⟩ := ofExcept_bind_eq_ok.mp h
  obtain ⟨_, s₂, hpops, h⟩ := estate_bind_eq_ok.mp h
  obtain ⟨hs, hdesc⟩ := constPopExpect_eq_ok hpop
  obtain ⟨operands, hs₁, hfit⟩ := constPopVals_eq_ok hpops
  exact applies_of_push (.structNewDesc (gate_eq_ok.mp hgc _ rfl) hd hdesc (orError_eq_ok.mp hfields) hfit)
    (by rw [hs, hs₁, List.cons_append]) rfl h

theorem constStructNewDefaultDesc_applies {ti : ℕ} {u : Unit} (h : constStructNewDesc cc ti false s = .ok u s') :
    ConstRule.Applies cc (.structNewDefaultDesc ti) s s' := by
  obtain ⟨_, hgc, h⟩ := ofExcept_bind_eq_ok.mp h
  obtain ⟨d, hd, h⟩ := ofExcept_bind_eq_ok.mp h
  obtain ⟨desc, s₁, hpop, h⟩ := estate_bind_eq_ok.mp h
  obtain ⟨fields, hfields, h⟩ := ofExcept_bind_eq_ok.mp h
  obtain ⟨_, hdefault, h⟩ := ofExcept_bind_eq_ok.mp h
  obtain ⟨hs, hdesc⟩ := constPopExpect_eq_ok hpop
  exact applies_of_push (.structNewDefaultDesc (gate_eq_ok.mp hgc _ rfl) hd hdesc (orError_eq_ok.mp hfields)
    (ensure_eq_ok.mp hdefault)) hs rfl h

theorem constArrayNew_applies {ti : ℕ} {u : Unit} (h : constArrayNew cc ti true s = .ok u s') :
    ConstRule.Applies cc (.arrayNew ti) s s' := by
  obtain ⟨_, hgc, h⟩ := ofExcept_bind_eq_ok.mp h
  obtain ⟨f, hf, h⟩ := ofExcept_bind_eq_ok.mp h
  obtain ⟨_, s₁, hlen, h⟩ := estate_bind_eq_ok.mp h
  obtain ⟨init, s₂, hpop, h⟩ := estate_bind_eq_ok.mp h
  have hs := constPopI32_eq_ok hlen
  obtain ⟨hs₁, hinit⟩ := constPopExpect_eq_ok hpop
  exact applies_of_push (.arrayNew (gate_eq_ok.mp hgc _ rfl) (orError_eq_ok.mp hf) hinit)
    (by rw [hs, hs₁]; rfl) rfl h

theorem constArrayNewDefault_applies {ti : ℕ} {u : Unit} (h : constArrayNew cc ti false s = .ok u s') :
    ConstRule.Applies cc (.arrayNewDefault ti) s s' := by
  obtain ⟨_, hgc, h⟩ := ofExcept_bind_eq_ok.mp h
  obtain ⟨f, hf, h⟩ := ofExcept_bind_eq_ok.mp h
  obtain ⟨_, s₁, hlen, h⟩ := estate_bind_eq_ok.mp h
  exact applies_of_push (.arrayNewDefault (gate_eq_ok.mp hgc _ rfl) (orError_eq_ok.mp hf))
    (constPopI32_eq_ok hlen) rfl h

theorem constArrayNewFixed_applies {ti n : ℕ} {u : Unit} (h : constArrayNewFixed cc ti n s = .ok u s') :
    ConstRule.Applies cc (.arrayNewFixed ti n) s s' := by
  obtain ⟨_, hgc, h⟩ := ofExcept_bind_eq_ok.mp h
  obtain ⟨f, hf, h⟩ := ofExcept_bind_eq_ok.mp h
  obtain ⟨_, s₁, hpops, h⟩ := estate_bind_eq_ok.mp h
  obtain ⟨operands, hs, hfit⟩ := constPopVals_eq_ok hpops
  exact applies_of_push (.arrayNewFixed (gate_eq_ok.mp hgc _ rfl) (orError_eq_ok.mp hf) hfit) hs rfl h

/-- An accepted instruction follows its rule. -/
theorem constStep_rule {i : Instr} {u : Unit} (h : constStep cc i s = .ok u s') :
    ConstRule.Applies cc i s s' := by
  cases i with
  | i32Const n => exact applies_of_push (.i32Const n) rfl rfl h
  | i64Const n => exact applies_of_push (.i64Const n) rfl rfl h
  | f32Const bits => exact applies_of_push (.f32Const bits) rfl rfl h
  | f64Const bits => exact applies_of_push (.f64Const bits) rfl rfl h
  | globalGet x =>
    obtain ⟨_, hprior, h⟩ := ofExcept_bind_eq_ok.mp h
    obtain ⟨g, hg, h⟩ := ofExcept_bind_eq_ok.mp h
    obtain ⟨_, himmutable, h⟩ := ofExcept_bind_eq_ok.mp h
    rw [ensure_eq_ok, decide_eq_true_eq] at hprior
    rw [ensure_eq_ok, Bool.not_eq_true'] at himmutable
    exact applies_of_push (.globalGet hprior (orError_eq_ok.mp hg) himmutable) rfl rfl h
  | refNull ht =>
    obtain ⟨_, href, h⟩ := ofExcept_bind_eq_ok.mp h
    obtain ⟨t, htype, h⟩ := ofExcept_bind_eq_ok.mp h
    obtain ⟨_, hgate, h⟩ := ofExcept_bind_eq_ok.mp h
    exact applies_of_push (.refNull (gate_eq_ok.mp href _ rfl) htype hgate) rfl rfl h
  | refFunc f =>
    obtain ⟨_, href, h⟩ := ofExcept_bind_eq_ok.mp h
    obtain ⟨ft, hft, h⟩ := ofExcept_bind_eq_ok.mp h
    obtain ⟨_, s₁, hdeclare, h⟩ := estate_bind_eq_ok.mp h
    rw [declareRef, estate_modify_eq_ok] at hdeclare
    subst hdeclare
    exact ⟨[], s.stack, _, .refFunc (gate_eq_ok.mp href _ rfl) (orError_eq_ok.mp hft), rfl, constPush_eq_ok h⟩
  | structNew ti => exact constStructNew_applies h
  | structNewDefault ti => exact constStructNewDefault_applies h
  | structNewDesc ti => exact constStructNewDesc_applies h
  | structNewDefaultDesc ti => exact constStructNewDefaultDesc_applies h
  | arrayNew ti => exact constArrayNew_applies h
  | arrayNewDefault ti => exact constArrayNewDefault_applies h
  | arrayNewFixed ti n => exact constArrayNewFixed_applies h
  | anyConvertExtern =>
    obtain ⟨hgc, got, rest, hgot, hstack, hs'⟩ := constConvertRef_eq_ok h
    exact ⟨[got], rest, _, .anyConvertExtern hgc hgot, hstack, hs'⟩
  | externConvertAny =>
    obtain ⟨hgc, got, rest, hgot, hstack, hs'⟩ := constConvertRef_eq_ok h
    exact ⟨[got], rest, _, .externConvertAny hgc hgot, hstack, hs'⟩
  | refI31 =>
    obtain ⟨_, hgc, h⟩ := ofExcept_bind_eq_ok.mp h
    obtain ⟨_, s₁, hpop, h⟩ := estate_bind_eq_ok.mp h
    exact applies_of_push (.refI31 (gate_eq_ok.mp hgc _ rfl)) (constPopI32_eq_ok hpop) rfl h
  | iBin w op =>
    have hbinary (hop : op = .add ∨ op = .sub ∨ op = .mul) (h : constBinary cc w.int s = .ok u s') :
        ConstRule.Applies cc (.iBin w op) s s' := by
      obtain ⟨hext, rest, hstack, hs'⟩ := constBinary_eq_ok h
      exact ⟨[w.int, w.int], rest, w.int, .iBin hext hop, hstack, hs'⟩
    cases op with
    | add => exact hbinary (.inl rfl) h
    | sub => exact hbinary (.inr (.inl rfl)) h
    | mul => exact hbinary (.inr (.inr rfl)) h
    | _ => exact absurd h estate_throw_ne_ok
  | simd v =>
    obtain ⟨_, hsimd, h⟩ := ofExcept_bind_eq_ok.mp h
    obtain ⟨_, hsub, h⟩ := ofExcept_bind_eq_ok.mp h
    exact applies_of_push (.simd (gate_eq_ok.mp hsimd _ rfl) (beq_iff_eq.mp (ensure_eq_ok.mp hsub))) rfl rfl h
  | _ =>
    -- no other instruction is constant
    first
      | exact absurd h estate_throw_ne_ok
      | obtain ⟨_, _, -, h⟩ := estate_bind_eq_ok.mp h
        exact absurd h estate_throw_ne_ok

/-! ## Expressions -/

/-- An accepted sequence is a run by the rules. -/
theorem run_of_forM {is : List Instr} {u : Unit} (h : is.forM (constStep cc) s = .ok u s') :
    ConstRun cc is s.stack s'.stack ∧ s'.refs = is.foldl (fun refs i => i.declare refs) s.refs := by
  induction is generalizing s with
  | nil =>
    obtain ⟨-, rfl⟩ := estate_pure_eq_ok.mp h
    exact ⟨.nil s.stack, rfl⟩
  | cons i is ih =>
    obtain ⟨_, s₁, hone, hrest⟩ := estate_bind_eq_ok.mp h
    obtain ⟨operands, rest, t, hrule, hstack, rfl⟩ := constStep_rule hone
    obtain ⟨hrun, hrefs⟩ := ih hrest
    rw [hstack]
    exact ⟨.cons hrule hrun, hrefs⟩

/-! ## Functions that are referenced -/

/-- The functions a body may reference, in a set that covers the index space. -/
def Module.CoveredBy (m : Module) (refs : Option (List Bool)) : Prop :=
  ∀ set ∈ refs, m.importedFuncCount + m.functions.length ≤ set.length

theorem Module.lt_of_funcType {m : Module} {f : ℕ} {ft : FuncType} (h : m.funcType f = some ft) :
    f < m.importedFuncCount + m.functions.length := by
  unfold Module.funcType at h
  split at h
  · next hf =>
    have hlt := (List.getElem?_eq_some_iff.mp hf).1
    rw [Module.funcImports, ← List.countP_eq_length_filter] at hlt
    exact Nat.lt_add_right _ hlt
  · obtain ⟨ti, hti, -⟩ := Option.bind_eq_some_iff.mp h
    have hlt := (List.getElem?_eq_some_iff.mp hti).1
    omega

theorem declaresRef_set {set : List Bool} {f g : ℕ} :
    declaresRef (some (set.set f true)) g = true ↔
      f = g ∧ f < set.length ∨ declaresRef (some set) g = true := by
  simp only [declaresRef, Option.all_some, List.getElem?_set]
  by_cases hfg : f = g
  · subst hfg
    by_cases hf : f < set.length <;> simp [hf]
  · simp [hfg]

/-- What is declared stays so. -/
theorem declaresRef_declare {refs : Option (List Bool)} {g : ℕ} (i : Instr)
    (h : declaresRef refs g = true) : declaresRef (i.declare refs) g = true := by
  cases i with
  | refFunc f =>
    cases refs with
    | none => rfl
    | some set => exact declaresRef_set.mpr (.inr h)
  | _ => exact h

theorem Module.CoveredBy.declare {m : Module} {refs : Option (List Bool)} (h : m.CoveredBy refs) (i : Instr) :
    m.CoveredBy (i.declare refs) := by
  cases i with
  | refFunc f =>
    cases refs with
    | none => exact h
    | some set =>
      rintro _ ⟨⟩
      rw [List.length_set]
      exact h set rfl
  | _ => exact h

/-- The functions a run references are declared after it. -/
theorem ConstRun.declares {is : List Instr} {stack stack' : List ValType} (h : ConstRun cc is stack stack')
    {refs : Option (List Bool)} (hcovered : cc.module.CoveredBy refs) {f : ℕ}
    (hf : declaresRef refs f = true ∨ .refFunc f ∈ is) :
    declaresRef (is.foldl (fun refs i => i.declare refs) refs) f = true := by
  induction h generalizing refs with
  | nil => exact hf.resolve_right List.not_mem_nil
  | @cons i is _ _ _ _ hrule _ ih =>
    refine ih (hcovered.declare i) ?_
    rw [List.mem_cons] at hf
    rcases hf with hf | rfl | hf
    · exact .inl (declaresRef_declare i hf)
    · -- the reference itself, to a function of the index space
      cases hrule with
      | refFunc _ hft =>
        cases refs with
        | none => exact .inl rfl
        | some set =>
          have hlt := (Module.lt_of_funcType hft).trans_le (hcovered set rfl)
          exact .inl (declaresRef_set.mpr (.inl ⟨rfl, hlt⟩))
    · exact .inr hf

section Expressions

variable {m : Module} {F : Features} {expr : ConstExpr} {byteLen selfIndex : ℕ} {expected : ValType}
  {refs refs' : Option (List Bool)}

theorem validateConstExpr_eq_ok
    (h : validateConstExpr m expr byteLen expected selfIndex refs F = .ok refs') :
    ∃ t, expr.forM (constStep ⟨m, F, selfIndex, byteLen⟩) { refs } = .ok ⟨⟩ ⟨[t], refs'⟩ ∧
      subtypeOf m.toTypeSection t expected = true := by
  unfold validateConstExpr at h
  split at h
  · next s hrun =>
    obtain ⟨stack, refs₁⟩ := s
    obtain ⟨_, hone, h⟩ := Except.bind_eq_ok.mp h
    obtain rfl := Except.pure_eq_ok.mp h
    rw [ensure_eq_ok, Bool.and_eq_true, beq_iff_eq, List.length_eq_one_iff] at hone
    obtain ⟨⟨t, rfl⟩, hsub⟩ := hone
    exact ⟨t, hrun, hsub⟩
  · cases h

/-- An accepted expression is a run by the rules, to one operand of the expected type. -/
theorem run_of_validateConstExpr
    (h : validateConstExpr m expr byteLen expected selfIndex refs F = .ok refs') :
    ∃ t, ConstRun ⟨m, F, selfIndex, byteLen⟩ expr [] [t] ∧ subtypeOf m.toTypeSection t expected = true := by
  obtain ⟨t, hrun, hsub⟩ := validateConstExpr_eq_ok h
  exact ⟨t, (run_of_forM hrun).1, hsub⟩

/-- The functions an accepted expression references are declared. -/
theorem declares_of_validateConstExpr (hcovered : m.CoveredBy refs)
    (h : validateConstExpr m expr byteLen expected selfIndex refs F = .ok refs') {f : ℕ}
    (hf : .refFunc f ∈ expr) : declaresRef refs' f = true := by
  obtain ⟨t, hrun, -⟩ := validateConstExpr_eq_ok h
  obtain ⟨hrun, hrefs⟩ := run_of_forM hrun
  rw [show refs' = _ from hrefs]
  exact hrun.declares hcovered (.inr hf)

end Expressions

end Wasmrt
