import Wasmrt.Interp.VectorArithmetic
import Wasmrt.Store.ConstEval

/-!
# Integer arithmetic is exact

Every integer instruction, on numbers or on vectors, computes its operation on exact integers. Division and remainder
trap where the operation has no value, and nothing else traps or overflows. Constant expressions add, subtract and
multiply as function bodies do.

## Main definitions

* `execInteger`: a scalar instruction on the operands.
* `NumbersExact`, `VectorsExact`, `ConstantsExact`: what it is for an execution to be exact.

## Main results

* `integers_exact`: the interpreter's is.
-/

namespace Wasmrt

open MachineInt

/-- A scalar instruction on the operands; `float` runs what is no integer instruction. -/
def execInteger (float : Instr → List Value → Except Fault (List Value)) (i : Instr) (st : List Value) :
    Except Fault (List Value) :=
  match i with
  | .wide op => .ok (execWide op st)
  | i =>
    match i.code with
    | some c => execNumeric (fun _ => float i) c st
    | none => float i st

/-! ## What is exact -/

/-- The two halves of a number on the stack, the low one below. -/
def pushed (z : ℤ) (st : List Value) : List Value := i64Value (halves z).2 :: i64Value (halves z).1 :: st

/-- Numbers: an instruction pushes the word of the integer it is about. -/
structure NumbersExact (exec : Instr → List Value → Except Fault (List Value)) : Prop where
  eqz : ∀ (w : Width) (a : BitVec w.size) st,
    exec (.iEqz w) (w.value a :: st) = .ok (boolValue (decide (readInt false a = 0)) :: st)
  rel : ∀ (w : Width) op (a b : BitVec w.size) st,
    exec (.iRel w op) (w.value b :: w.value a :: st) = .ok (boolValue (op.Holds a b) :: st)
  un : ∀ (w : Width) op (a : BitVec w.size) st,
    exec (.iUn w op) (w.value a :: st) = .ok (w.value (BitVec.ofInt w.size (op.result a)) :: st)
  bin : ∀ (w : Width) op (a b : BitVec w.size) st,
    exec (.iBin w op) (w.value b :: w.value a :: st) =
      (outcome w.size (op.result a b)).map fun r => w.value r :: st
  wrap : ∀ (a : BitVec 64) st,
    exec (.cvt .i32WrapI64) (i64Value a :: st) = .ok (i32Value (BitVec.ofInt 32 (readInt false a)) :: st)
  extendS : ∀ (a : BitVec 32) st,
    exec (.cvt .i64ExtendI32S) (i32Value a :: st) = .ok (i64Value (BitVec.ofInt 64 (readInt true a)) :: st)
  extendU : ∀ (a : BitVec 32) st,
    exec (.cvt .i64ExtendI32U) (i32Value a :: st) = .ok (i64Value (BitVec.ofInt 64 (readInt false a)) :: st)
  extend32 : ∀ (a : BitVec 64) st,
    exec (.cvt .i64Extend32S) (i64Value a :: st) =
      .ok (i64Value (BitVec.ofInt 64 (signedOf 32 (readInt false a))) :: st)
  wide : ∀ (lo hi lo' hi' : BitVec 64) st,
    exec (.wide .add128) (i64Value hi' :: i64Value lo' :: i64Value hi :: i64Value lo :: st) =
        .ok (pushed (joined lo hi + joined lo' hi') st) ∧
      exec (.wide .sub128) (i64Value hi' :: i64Value lo' :: i64Value hi :: i64Value lo :: st) =
        .ok (pushed (joined lo hi - joined lo' hi') st) ∧
      exec (.wide .mulWideS) (i64Value lo' :: i64Value lo :: st) =
        .ok (pushed (readInt true lo * readInt true lo') st) ∧
      exec (.wide .mulWideU) (i64Value lo' :: i64Value lo :: st) =
        .ok (pushed (readInt false lo * readInt false lo') st)

/-- Vectors: an instruction pushes the vector, or the word, of the integers it is about. -/
structure VectorsExact (exec : Simd → List Value → Except Fault (List Value)) : Prop where
  un : ∀ s (op : VUnOp), op.sub? = some s.sub → ∀ a st, exec s (a :: st) = .ok (op.result a :: st)
  bin : ∀ s (op : VBinOp), op.sub? = some s.sub → ∀ a b st,
    exec s (b :: a :: st) = .ok (op.result a b s.bytes :: st)
  tern : ∀ s (op : VTernOp), op.sub? = some s.sub → ∀ a b c st,
    exec s (c :: b :: a :: st) = .ok (op.result a b c :: st)
  test : ∀ s (op : VTestOp), op.sub? = some s.sub → ∀ a st,
    exec s (a :: st) = .ok (i32Value (BitVec.ofInt 32 (op.result a)) :: st)
  shift : ∀ s (op : VShiftOp) (sh : Shape), op.sub sh = s.sub → ∀ (amount : BitVec 32) a st,
    exec s (i32Value amount :: a :: st) = .ok (op.result a sh amount :: st)
  splat : ∀ s (sh : Shape), sh.splatSub = s.sub → ∀ (x : BitVec sh.number.size) st,
    exec s (sh.number.value x :: st) = .ok (sh.vector (fun _ => readInt false x) :: st)
  extract : ∀ s (sh : Shape) (sg : Bool), sh.extractSub sg = s.sub → s.lane < sh.count → ∀ a st,
    exec s (a :: st) = .ok (sh.number.value (BitVec.ofInt sh.number.size (sh.lane sg a s.lane)) :: st)
  replace : ∀ s (sh : Shape), sh.replaceSub = s.sub → s.lane < sh.count → ∀ (x : BitVec sh.number.size) a st,
    exec s (sh.number.value x :: a :: st) =
      .ok (sh.vector (fun i => if i = s.lane then readInt false x else sh.lane false a i) :: st)

/-- Constant expressions: they add, subtract and multiply as function bodies do. -/
def ConstantsExact (exec : Instr → List Value → Except Fault (List Value)) : Prop :=
  ∀ (w : Width), ∀ op ∈ [IBinOp.add, .sub, .mul], ∀ (a b : BitVec w.size) st globals inst gc p, ∃ r,
    exec (.iBin w op) (w.value b :: w.value a :: st) = .ok (r :: st) ∧
      evalConstStep globals inst gc (w.value b :: w.value a :: st) (.iBin w op) p = .ok (r :: st) p

/-- A division or a remainder traps on a zero divisor, a signed division also on the least integer by -1. -/
theorem IBinOp.result_eq_error_iff {w : ℕ} (a b : BitVec w) (op : IBinOp) (t : Trap) :
    op.result a b = .error t ↔
      (op = divS ∨ op = divU ∨ op = remS ∨ op = remU) ∧ b = 0 ∧ t = .divByZero ∨
        op = divS ∧ b ≠ 0 ∧ readInt true a = minInt true w ∧ readInt true b = -1 ∧ t = .intOverflow := by
  cases op with
  | divS =>
    simp only [result, readInt_eq_zero]
    by_cases hb : b = 0
    · simp [hb, @eq_comm _ t]
    · rw [if_neg hb]
      split <;> rename_i hover
      · simp [hb, hover.1, hover.2, @eq_comm _ t, -BitVec.ofNat_eq_ofNat]
      · have hnot (hmin : readInt true a = minInt true w) (hneg : readInt true b = -1) : False := hover ⟨hmin, hneg⟩
        simp only [reduceCtorEq, hb, false_and, and_false, false_or, false_iff]
        rintro ⟨-, -, hmin, hneg, -⟩
        exact hnot hmin hneg
  | divU | remS | remU =>
    simp only [result, readInt_eq_zero]
    by_cases hb : b = 0 <;> simp [hb, @eq_comm _ t, -BitVec.ofNat_eq_ofNat]
  | add | sub | mul | and | or | xor | shl | shrS | shrU | rotl | rotr => simp [result]

theorem outcome_eq_error_iff {w : ℕ} (r : Except Trap ℤ) (f : BitVec w → List Value) (e : Fault) :
    (outcome w r).map f = .error e ↔ ∃ t, r = .error t ∧ e = .trap t := by
  cases r with
  | error t =>
    constructor
    · intro h
      exact ⟨t, rfl, (Except.error.inj h).symm⟩
    · rintro ⟨t', h, rfl⟩
      cases h
      rfl
  | ok z =>
    constructor
    · intro h
      cases h
    · rintro ⟨_, h, _⟩
      cases h

/-! ## The interpreter -/

variable (float : Instr → List Value → Except Fault (List Value))

theorem asI32_i32Value (x : BitVec 32) : asI32 (i32Value x) = x := Width.w32.read_value x

theorem asI64_i64Value (x : BitVec 64) : asI64 (i64Value x) = x := Width.w64.read_value x

/-- A word is zero just in case its integer is. -/
theorem beq_zero_eq {w : ℕ} (a : BitVec w) : (a == 0) = decide (readInt false a = 0) := by
  rw [Bool.eq_iff_iff, beq_iff_eq, decide_eq_true_iff, readInt_eq_zero]

theorem execWide_add128 (lo hi lo' hi' : BitVec 64) (st : List Value) :
    execWide .add128 (i64Value hi' :: i64Value lo' :: i64Value hi :: i64Value lo :: st) =
      pushed (joined lo hi + joined lo' hi') st := by
  have harm : execWide .add128 (i64Value hi' :: i64Value lo' :: i64Value hi :: i64Value lo :: st) =
      pushHalves (joinHalves (i64Value lo) (i64Value hi) + joinHalves (i64Value lo') (i64Value hi')) st := rfl
  rw [harm, joinHalves_eq, joinHalves_eq, ← BitVec.ofInt_add, pushHalves_eq, pushed]

theorem execWide_sub128 (lo hi lo' hi' : BitVec 64) (st : List Value) :
    execWide .sub128 (i64Value hi' :: i64Value lo' :: i64Value hi :: i64Value lo :: st) =
      pushed (joined lo hi - joined lo' hi') st := by
  have harm : execWide .sub128 (i64Value hi' :: i64Value lo' :: i64Value hi :: i64Value lo :: st) =
      pushHalves (joinHalves (i64Value lo) (i64Value hi) - joinHalves (i64Value lo') (i64Value hi')) st := rfl
  rw [harm, joinHalves_eq, joinHalves_eq, BitVec.sub_eq_add_neg, ← BitVec.ofInt_neg, ← BitVec.ofInt_add,
    ← Int.sub_eq_add_neg, pushHalves_eq, pushed]

theorem execWide_mulWideS (a b : BitVec 64) (st : List Value) :
    execWide .mulWideS (i64Value b :: i64Value a :: st) = pushed (readInt true a * readInt true b) st := by
  have harm : execWide .mulWideS (i64Value b :: i64Value a :: st) =
      pushHalves (castInt true 128 (asI64 (i64Value a)) * castInt true 128 (asI64 (i64Value b))) st := rfl
  rw [harm, asI64_i64Value, asI64_i64Value, castInt, castInt, ← BitVec.ofInt_mul, pushHalves_eq, pushed]

theorem execWide_mulWideU (a b : BitVec 64) (st : List Value) :
    execWide .mulWideU (i64Value b :: i64Value a :: st) = pushed (readInt false a * readInt false b) st := by
  have harm : execWide .mulWideU (i64Value b :: i64Value a :: st) =
      pushHalves (castInt false 128 (asI64 (i64Value a)) * castInt false 128 (asI64 (i64Value b))) st := rfl
  rw [harm, asI64_i64Value, asI64_i64Value, castInt, castInt, ← BitVec.ofInt_mul, pushHalves_eq, pushed]

theorem numbersExact : NumbersExact (execInteger float) where
  eqz w a st := by
    have harm : execInteger float (.iEqz w) (w.value a :: st) =
        .ok (boolValue (w.read (w.value a) == 0) :: st) := by cases w <;> rfl
    rw [harm, Width.read_value, beq_zero_eq]
  rel w op a b st := execNumeric_iRel (fun _ => float (.iRel w op)) w st op a b
  un w op a st := execNumeric_iUn (fun _ => float (.iUn w op)) w st op a
  bin w op a b st := execNumeric_iBin (fun _ => float (.iBin w op)) w st op a b
  wrap a st := by
    have harm : execInteger float (.cvt .i32WrapI64) (i64Value a :: st) =
        .ok (i32Value ((asI64 (i64Value a)).setWidth 32) :: st) := rfl
    rw [harm, asI64_i64Value, readInt_false, BitVec.ofInt_natCast, BitVec.ofNat_toNat]
  extendS a st := by
    have harm : execInteger float (.cvt .i64ExtendI32S) (i32Value a :: st) =
        .ok (i64Value (castInt true 64 (asI32 (i32Value a))) :: st) := rfl
    rw [harm, asI32_i32Value, castInt]
  extendU a st := by
    have harm : execInteger float (.cvt .i64ExtendI32U) (i32Value a :: st) =
        .ok (i64Value (castInt false 64 (asI32 (i32Value a))) :: st) := rfl
    rw [harm, asI32_i32Value, castInt]
  extend32 a st := by
    have harm : execInteger float (.cvt .i64Extend32S) (i64Value a :: st) =
        .ok (i64Value (castInt true 64 ((asI64 (i64Value a)).setWidth 32)) :: st) := rfl
    rw [harm, asI64_i64Value, castInt_setWidth]
  wide lo hi lo' hi' st :=
    ⟨congrArg Except.ok (execWide_add128 lo hi lo' hi' st), congrArg Except.ok (execWide_sub128 lo hi lo' hi' st),
      congrArg Except.ok (execWide_mulWideS lo lo' st), congrArg Except.ok (execWide_mulWideU lo lo' st)⟩

theorem vectorsExact (floats : Simd → List Value → Except Fault (List Value)) : VectorsExact (execLanes floats) where
  un _ _ h a st := execLanes_un floats a st h
  bin _ _ h a b st := execLanes_bin floats a b st h
  tern _ _ h a b c st := execLanes_tern floats a b c st h
  test _ _ h a st := execLanes_test floats a st h
  shift _ _ _ h amount a st := execLanes_shift floats a st h amount
  splat _ _ h x st := execLanes_splat floats st h x
  extract _ _ _ h hlane a st := execLanes_extract floats a st h hlane
  replace _ _ h hlane x a st := execLanes_replace floats a st h hlane x

/-- The arm of a binary operation in a constant expression. -/
theorem evalConstStep_iBin_arm (w : Width) {op : IBinOp} {x y : Value} {r : BitVec w.size}
    (h : constBinOp op (w.read x) (w.read y) = .ok r) (st globals : List Value) (inst : ℕ) (gc : Option Module)
    (p : Pools) : evalConstStep globals inst gc (y :: x :: st) (.iBin w op) p = .ok (w.value r :: st) p := by
  cases w with
  | w32 =>
    have harm : evalConstStep globals inst gc (y :: x :: st) (.iBin .w32 op) p =
        ((MonadExcept.ofExcept (constBinOp op (asI32 x) (asI32 y)) : EStateM Trap Pools (BitVec 32)) >>=
          fun r => pure (i32Value r :: st)) p := rfl
    have hop : constBinOp op (asI32 x) (asI32 y) = .ok r := h
    rw [harm, hop]
    rfl
  | w64 =>
    have harm : evalConstStep globals inst gc (y :: x :: st) (.iBin .w64 op) p =
        ((MonadExcept.ofExcept (constBinOp op (asI64 x) (asI64 y)) : EStateM Trap Pools (BitVec 64)) >>=
          fun r => pure (i64Value r :: st)) p := rfl
    have hop : constBinOp op (asI64 x) (asI64 y) = .ok r := h
    rw [harm, hop]
    rfl

/-- A sum, a difference or a product in a constant expression. -/
theorem evalConstStep_iBin (w : Width) {op : IBinOp} (hop : op ∈ [IBinOp.add, .sub, .mul]) (x y : Value)
    (st globals : List Value) (inst : ℕ) (gc : Option Module) (p : Pools) :
    ∃ r, binInt op.place (w.read x) (w.read y) = .ok r ∧
      evalConstStep globals inst gc (y :: x :: st) (.iBin w op) p = .ok (w.value r :: st) p := by
  simp only [List.mem_cons, List.not_mem_nil, or_false] at hop
  rcases hop with rfl | rfl | rfl
  · exact ⟨w.read x + w.read y, rfl, evalConstStep_iBin_arm w rfl st globals inst gc p⟩
  · exact ⟨w.read x - w.read y, rfl, evalConstStep_iBin_arm w rfl st globals inst gc p⟩
  · exact ⟨w.read x * w.read y, rfl, evalConstStep_iBin_arm w rfl st globals inst gc p⟩

theorem constantsExact : ConstantsExact (execInteger float) := by
  intro w op hop a b st globals inst gc p
  obtain ⟨r, hbin, heval⟩ := evalConstStep_iBin w hop (w.value a) (w.value b) st globals inst gc p
  refine ⟨w.value r, ?_, heval⟩
  have hexec := execNumeric_iBin_arm (fun _ => float (.iBin w op)) w (w.value a) (w.value b) st op
  rw [hbin] at hexec
  exact hexec

/-- Integer arithmetic is that of the exact integers. -/
theorem integers_exact (floats : Simd → List Value → Except Fault (List Value)) :
    NumbersExact (execInteger float) ∧ VectorsExact (execLanes floats) ∧ ConstantsExact (execInteger float) ∧
      ∀ (w : Width) (op : IBinOp) (a b : BitVec w.size) st e,
        execInteger float (.iBin w op) (w.value b :: w.value a :: st) = .error e ↔
          (op = .divS ∨ op = .divU ∨ op = .remS ∨ op = .remU) ∧ b = 0 ∧ e = .trap .divByZero ∨
            op = .divS ∧ b ≠ 0 ∧ readInt true a = minInt true w.size ∧ readInt true b = -1 ∧ e = .trap .intOverflow := by
  refine ⟨numbersExact float, vectorsExact floats, constantsExact float, fun w op a b st e => ?_⟩
  rw [(numbersExact float).bin w op a b st, outcome_eq_error_iff]
  simp only [IBinOp.result_eq_error_iff]
  constructor
  · rintro ⟨t, ⟨hop, hb, rfl⟩ | ⟨hop, hb, hmin, hneg, rfl⟩, rfl⟩
    · exact Or.inl ⟨hop, hb, rfl⟩
    · exact Or.inr ⟨hop, hb, hmin, hneg, rfl⟩
  · rintro (⟨hop, hb, rfl⟩ | ⟨hop, hb, hmin, hneg, rfl⟩)
    · exact ⟨_, Or.inl ⟨hop, hb, rfl⟩, rfl⟩
    · exact ⟨_, Or.inr ⟨hop, hb, hmin, hneg, rfl⟩, rfl⟩

end Wasmrt
