import Wasmrt.Interp.Numeric

/-!
# The arithmetic of integers

What an integer instruction computes, on exact integers: its operands are read as unsigned or as signed, and the result
is reduced to the width. Only division and remainder may trap.

## Main definitions

* `IRelOp.Holds`, `IUnOp.result`, `IBinOp.result`: the operations.

## Main results

* `execNumeric_iRel`, `execNumeric_iUn`, `execNumeric_iBin`: an instruction computes its operation.
-/

namespace Wasmrt

open MachineInt

/-! ## The operations -/

/-- A comparison of the integers two words stand for. -/
def IRelOp.Holds {w : ℕ} (a b : BitVec w) : IRelOp → Prop
  | eq => readInt false a = readInt false b
  | ne => readInt false a ≠ readInt false b
  | ltS => readInt true a < readInt true b
  | ltU => readInt false a < readInt false b
  | gtS => readInt true a > readInt true b
  | gtU => readInt false a > readInt false b
  | leS => readInt true a ≤ readInt true b
  | leU => readInt false a ≤ readInt false b
  | geS => readInt true a ≥ readInt true b
  | geU => readInt false a ≥ readInt false b

instance {w : ℕ} (a b : BitVec w) : (op : IRelOp) → Decidable (op.Holds a b)
  | .eq | .ne | .ltS | .ltU | .gtS | .gtU | .leS | .leU | .geS | .geU => by unfold IRelOp.Holds; infer_instance

/-- The integer `n` read in two's complement of `w` bits. -/
def signedOf (w : ℕ) (n : ℤ) : ℤ := n.bmod (2 ^ w)

/-- A unary operation. -/
def IUnOp.result {w : ℕ} (a : BitVec w) : IUnOp → ℤ
  | clz => Nat.findGreatest (fun k => a.toNat < 2 ^ (w - k)) w
  | ctz => Nat.findGreatest (fun k => 2 ^ k ∣ a.toNat) w
  | popcnt => (((List.range w).map fun i => a.toNat / 2 ^ i % 2).sum : ℕ)
  | extend8S => signedOf 8 (readInt false a)
  | extend16S => signedOf 16 (readInt false a)

/-- A binary operation. Shifts and rotations are by the second operand modulo the width. -/
def IBinOp.result {w : ℕ} (a b : BitVec w) (op : IBinOp) : Except Trap ℤ :=
  let k := b.toNat % w
  match op with
  | add => .ok (readInt false a + readInt false b)
  | sub => .ok (readInt false a - readInt false b)
  | mul => .ok (readInt false a * readInt false b)
  | divS =>
    if readInt true b = 0 then .error .divByZero
    else if readInt true a = minInt true w ∧ readInt true b = -1 then .error .intOverflow
    else .ok ((readInt true a).tdiv (readInt true b))
  | divU => if readInt false b = 0 then .error .divByZero else .ok (readInt false a / readInt false b)
  | remS => if readInt true b = 0 then .error .divByZero else .ok ((readInt true a).tmod (readInt true b))
  | remU => if readInt false b = 0 then .error .divByZero else .ok (readInt false a % readInt false b)
  | and => .ok (a.toNat &&& b.toNat : ℕ)
  | or => .ok (a.toNat ||| b.toNat : ℕ)
  | xor => .ok (a.toNat ^^^ b.toNat : ℕ)
  | shl => .ok (readInt false a * 2 ^ k)
  | shrS => .ok (readInt true a / 2 ^ k)
  | shrU => .ok (readInt false a / 2 ^ k)
  | rotl => .ok (readInt false a * 2 ^ k + readInt false a / 2 ^ (w - k))
  | rotr => .ok (readInt false a / 2 ^ k + readInt false a * 2 ^ (w - k))

/-- The number of two halves, the low one first. -/
def joined (lo hi : BitVec 64) : ℤ := readInt false lo + readInt false hi * 2 ^ 64

/-- The halves of a number, the low one first. -/
def halves (z : ℤ) : BitVec 64 × BitVec 64 := (BitVec.ofInt 64 z, BitVec.ofInt 64 (z / 2 ^ 64))

/-! ## The arms of the source -/

section
variable {w : ℕ} (a b : BitVec w)

/-- The place of a comparison in its group. -/
def IRelOp.place : IRelOp → ℕ
  | eq => 0 | ne => 1 | ltS => 2 | ltU => 3 | gtS => 4 | gtU => 5 | leS => 6 | leU => 7 | geS => 8 | geU => 9

/-- The place of a binary operation in its group. -/
def IBinOp.place : IBinOp → ℕ
  | add => 0 | sub => 1 | mul => 2 | divS => 3 | divU => 4 | remS => 5 | remU => 6 | and => 7 | or => 8 | xor => 9
  | shl => 10 | shrS => 11 | shrU => 12 | rotl => 13 | rotr => 14

theorem cmpInt_place (op : IRelOp) : cmpInt op.place a b = decide (op.Holds a b) := by
  have heq : a = b ↔ readInt false a = readInt false b := readInt_inj.symm
  rw [Bool.eq_iff_iff, decide_eq_true_iff]
  cases op with
  | eq => exact beq_iff_eq.trans heq
  | ne => exact bne_iff_ne.trans (not_congr heq)
  | ltS | gtS | leS | geS => exact decide_eq_true_iff
  | ltU | gtU => exact decide_eq_true_iff.trans Int.ofNat_lt.symm
  | leU | geU => exact decide_eq_true_iff.trans Int.ofNat_le.symm

theorem readInt_eq_zero {sg : Bool} : readInt sg b = 0 ↔ b = 0 := by
  have hzero : readInt sg (0 : BitVec w) = 0 := by cases sg <;> simp
  rw [← hzero, readInt_inj]

theorem eq_neg_one_iff (hw : 0 < w) : b = -1 ↔ readInt true b = -1 := by
  have hone : (-1 : BitVec w) = BitVec.ofInt w (-1) := by
    rw [BitVec.ofInt_neg]
    exact congrArg _ (BitVec.ofInt_ofNat w 1).symm
  have hpos : (0 : ℤ) < 2 ^ (w - 1) := by positivity
  rw [hone]
  exact eq_ofInt_iff hw (by simp only [minInt, if_pos]; omega) (by simp only [maxInt, if_pos]; omega)

theorem divChecked_of_ne {sg : Bool} (hb : b ≠ 0)
    (hover : sg = true → ¬ (readInt true a = minInt true w ∧ readInt true b = -1)) :
    divChecked sg a b = some (BitVec.ofInt w ((readInt sg a).tdiv (readInt sg b))) := by
  obtain ⟨hmin, hmax⟩ := tdiv_mem a b hover
  rw [divChecked, if_neg hb, fitInt_of_mem hmin hmax]

theorem remChecked_of_ne {sg : Bool} (hb : b ≠ 0)
    (hover : sg = true → ¬ (readInt true a = minInt true w ∧ readInt true b = -1)) :
    remChecked sg a b = some (BitVec.ofInt w ((readInt sg a).tmod (readInt sg b))) := by
  obtain ⟨hmin, hmax⟩ := tmod_mem (s := sg) a b
  rw [remChecked, divChecked_of_ne a b hb hover]
  exact fitInt_of_mem hmin hmax

/-- What an operation pushes, or why it stops. -/
def outcome (w : ℕ) (r : Except Trap ℤ) : Except Fault (BitVec w) := (r.mapError .trap).map (BitVec.ofInt w)

theorem binInt_divS (hw : 0 < w) : binInt 3 a b = outcome w (IBinOp.divS.result a b) := by
  have hmin : a = BitVec.intMin w ↔ readInt true a = minInt true w := by
    rw [BitVec.intMin_eq_neg_two_pow]
    exact eq_ofInt_iff hw le_rfl minInt_le_maxInt
  have hover : a = BitVec.intMin w ∧ b = -1 ↔ readInt true a = minInt true w ∧ readInt true b = -1 :=
    and_congr hmin (eq_neg_one_iff b hw)
  by_cases hb : b = 0
  · have hcode : binInt 3 a b = .error (.trap .divByZero) := if_pos hb
    have hresult : IBinOp.divS.result a b = .error .divByZero := if_pos ((readInt_eq_zero b).mpr hb)
    rw [hcode, hresult]
    rfl
  · have hb' : ¬ readInt true b = 0 := mt (readInt_eq_zero b).mp hb
    by_cases h : a = BitVec.intMin w ∧ b = -1
    · have hcode : binInt 3 a b = .error (.trap .intOverflow) := (if_neg hb).trans (if_pos h)
      have hresult : IBinOp.divS.result a b = .error .intOverflow := (if_neg hb').trans (if_pos (hover.mp h))
      rw [hcode, hresult]
      rfl
    · have hcode : binInt 3 a b = orPanic (divChecked true a b) := (if_neg hb).trans (if_neg h)
      have hresult : IBinOp.divS.result a b = .ok ((readInt true a).tdiv (readInt true b)) :=
        (if_neg hb').trans (if_neg (mt hover.mpr h))
      rw [hcode, hresult, divChecked_of_ne a b hb fun _ => mt hover.mpr h]
      rfl

theorem binInt_divU : binInt 4 a b = outcome w (IBinOp.divU.result a b) := by
  by_cases hb : b = 0
  · have hcode : binInt 4 a b = .error (.trap .divByZero) := if_pos hb
    have hresult : IBinOp.divU.result a b = .error .divByZero := if_pos ((readInt_eq_zero b).mpr hb)
    rw [hcode, hresult]
    rfl
  · have hcode : binInt 4 a b = orPanic (divChecked false a b) := if_neg hb
    have hresult : IBinOp.divU.result a b = .ok (readInt false a / readInt false b) :=
      if_neg (mt (readInt_eq_zero b).mp hb)
    rw [hcode, hresult, divChecked_of_ne a b hb fun h => absurd h Bool.false_ne_true]
    rfl

theorem binInt_remS (hw : 0 < w) : binInt 5 a b = outcome w (IBinOp.remS.result a b) := by
  by_cases hb : b = 0
  · have hcode : binInt 5 a b = .error (.trap .divByZero) := if_pos hb
    have hresult : IBinOp.remS.result a b = .error .divByZero := if_pos ((readInt_eq_zero b).mpr hb)
    rw [hcode, hresult]
    rfl
  · have hresult : IBinOp.remS.result a b = .ok ((readInt true a).tmod (readInt true b)) :=
      if_neg (mt (readInt_eq_zero b).mp hb)
    rw [hresult]
    by_cases hneg : b = -1
    · have hcode : binInt 5 a b = .ok 0 := (if_neg hb).trans (if_pos hneg)
      rw [hcode, (eq_neg_one_iff b hw).mp hneg, Int.tmod_neg, Int.tmod_one]
      exact congrArg Except.ok (BitVec.ofInt_ofNat w 0).symm
    · have hcode : binInt 5 a b = orPanic (remChecked true a b) := (if_neg hb).trans (if_neg hneg)
      rw [hcode, remChecked_of_ne a b hb fun _ h => hneg ((eq_neg_one_iff b hw).mpr h.2)]
      rfl

theorem binInt_remU : binInt 6 a b = outcome w (IBinOp.remU.result a b) := by
  by_cases hb : b = 0
  · have hcode : binInt 6 a b = .error (.trap .divByZero) := if_pos hb
    have hresult : IBinOp.remU.result a b = .error .divByZero := if_pos ((readInt_eq_zero b).mpr hb)
    rw [hcode, hresult]
    rfl
  · have hcode : binInt 6 a b = orPanic (remChecked false a b) := if_neg hb
    have hresult : IBinOp.remU.result a b = .ok (readInt false a % readInt false b) :=
      if_neg (mt (readInt_eq_zero b).mp hb)
    rw [hcode, hresult, remChecked_of_ne a b hb fun h => absurd h Bool.false_ne_true]
    rfl

theorem binInt_place (op : IBinOp) (hw : 0 < w) : binInt op.place a b = outcome w (op.result a b) := by
  have hk : b.toNat % w < w := Nat.mod_lt _ hw
  have hofNat {x : BitVec w} {n : ℕ} (h : x.toNat = n) : x = BitVec.ofInt w (n : ℕ) := by
    rw [BitVec.ofInt_natCast, ← h, BitVec.ofNat_toNat, BitVec.setWidth_eq]
  cases op with
  | add => exact congrArg Except.ok (add_eq_ofInt a b)
  | sub => exact congrArg Except.ok (sub_eq_ofInt a b)
  | mul => exact congrArg Except.ok (mul_eq_ofInt a b)
  | divS => exact binInt_divS a b hw
  | divU => exact binInt_divU a b
  | remS => exact binInt_remS a b hw
  | remU => exact binInt_remU a b
  | and => exact congrArg Except.ok (hofNat (BitVec.toNat_and a b))
  | or => exact congrArg Except.ok (hofNat (BitVec.toNat_or a b))
  | xor => exact congrArg Except.ok (hofNat (BitVec.toNat_xor a b))
  | shl =>
    have hcode : shlChecked a (b.toNat % w) = some (a <<< (b.toNat % w)) := if_pos hk
    show orPanic (shlChecked a (b.toNat % w)) = _
    rw [hcode]
    exact congrArg Except.ok (shiftLeft_eq_ofInt a _)
  | shrS =>
    have hcode : shrChecked true a (b.toNat % w) = some (a.sshiftRight (b.toNat % w)) := if_pos hk
    show orPanic (shrChecked true a (b.toNat % w)) = _
    rw [hcode]
    exact congrArg Except.ok (shiftRight_eq_ofInt true a _)
  | shrU =>
    have hcode : shrChecked false a (b.toNat % w) = some (a >>> (b.toNat % w)) := if_pos hk
    show orPanic (shrChecked false a (b.toNat % w)) = _
    rw [hcode]
    exact congrArg Except.ok (shiftRight_eq_ofInt false a _)
  | rotl => exact congrArg Except.ok (rotateLeft_eq_ofInt a hk)
  | rotr => exact congrArg Except.ok (rotateRight_eq_ofInt a hk)

theorem castInt_setWidth (n : ℕ) : castInt true w (a.setWidth n) = BitVec.ofInt w (signedOf n (readInt false a)) := by
  have hread : readInt true (a.setWidth n) = signedOf n (readInt false a) := by
    rw [readInt_true, BitVec.toInt_setWidth]
    rfl
  rw [castInt, hread]

/-- What the arm of a unary operation computes. -/
def IUnOp.compute : IUnOp → BitVec w
  | clz => a.clz
  | ctz => a.ctz
  | popcnt => a.cpop
  | extend8S => castInt true w (a.setWidth 8)
  | extend16S => castInt true w (a.setWidth 16)

theorem compute_eq (op : IUnOp) : op.compute a = BitVec.ofInt w (op.result a) := by
  have hcount {n : ℕ} {x : BitVec w} (h : x.toNat = n) : x = BitVec.ofInt w n := by
    rw [BitVec.ofInt_natCast, ← h, BitVec.ofNat_toNat, BitVec.setWidth_eq]
  cases op with
  | clz => exact hcount (toNat_clz a)
  | ctz => exact hcount (toNat_ctz a)
  | popcnt => exact hcount (toNat_cpop a)
  | extend8S | extend16S => exact castInt_setWidth a _

end

/-! ## Instructions -/

namespace Width

variable (w : Width)

/-- A number as it is pushed. -/
def value (x : BitVec w.size) : Value := x.setWidth 128

/-- A slot as a number. -/
def read (v : Value) : BitVec w.size := v.setWidth w.size

theorem size_pos : 0 < w.size := by cases w <;> decide

theorem size_le : w.size ≤ 128 := by cases w <;> decide

@[simp]
theorem read_value (x : BitVec w.size) : w.read (w.value x) = x := by
  rw [read, value, BitVec.setWidth_setWidth_of_le x w.size_le, BitVec.setWidth_eq]

end Width

section
variable (float : ℕ → List Value → Except Fault (List Value)) (w : Width) (x y : Value) (st : List Value)

/-- The arm of a comparison. -/
theorem execNumeric_iRel_arm (op : IRelOp) :
    execNumeric float (op.code w) (y :: x :: st) = .ok (boolValue (cmpInt op.place (w.read x) (w.read y)) :: st) := by
  cases w <;> cases op <;> rfl

/-- The arm of a unary operation. -/
theorem execNumeric_iUn_arm (op : IUnOp) :
    execNumeric float (op.code w) (x :: st) = .ok (w.value (op.compute (w.read x)) :: st) := by
  cases w <;> cases op <;> rfl

/-- The arm of a binary operation. -/
theorem execNumeric_iBin_arm (op : IBinOp) :
    execNumeric float (op.code w) (y :: x :: st) =
      (binInt op.place (w.read x) (w.read y)).map fun r => w.value r :: st := by
  have harm : execNumeric float (op.code w) (y :: x :: st) =
      onTopTwo (fun x y => w.value <$> binInt op.place (w.read x) (w.read y)) (y :: x :: st) := by
    cases w <;> cases op <;> rfl
  rw [harm, onTopTwo, List.tail_cons, List.headD_cons, List.headD_cons]
  cases binInt op.place (w.read x) (w.read y) <;> rfl

/-- A comparison pushes whether it holds. -/
theorem execNumeric_iRel (op : IRelOp) (a b : BitVec w.size) :
    execNumeric float (op.code w) (w.value b :: w.value a :: st) = .ok (boolValue (op.Holds a b) :: st) := by
  rw [execNumeric_iRel_arm, Width.read_value, Width.read_value, cmpInt_place]

/-- A unary operation pushes its result. -/
theorem execNumeric_iUn (op : IUnOp) (a : BitVec w.size) :
    execNumeric float (op.code w) (w.value a :: st) = .ok (w.value (BitVec.ofInt w.size (op.result a)) :: st) := by
  rw [execNumeric_iUn_arm, Width.read_value, compute_eq]

/-- A binary operation pushes its result, or traps. -/
theorem execNumeric_iBin (op : IBinOp) (a b : BitVec w.size) :
    execNumeric float (op.code w) (w.value b :: w.value a :: st) =
      (outcome w.size (op.result a b)).map fun r => w.value r :: st := by
  rw [execNumeric_iBin_arm, Width.read_value, Width.read_value, binInt_place _ _ op w.size_pos]

end

/-! ## Pairs of halves -/

section
variable (lo hi : BitVec 64)

/-- The number two halves make. -/
theorem joinHalves_eq : joinHalves (i64Value lo) (i64Value hi) = BitVec.ofInt 128 (joined lo hi) := by
  have hread (x : BitVec 64) : asI64 (i64Value x) = x := Width.w64.read_value x
  have hcast : joined lo hi = ((lo.toNat + hi.toNat * 2 ^ 64 : ℕ) : ℤ) := by
    push_cast
    rfl
  have hshl : (i64Value hi <<< 64).toNat = hi.toNat <<< 64 := by
    have hlt := hi.isLt
    simp only [i64Value, BitVec.toNat_shiftLeft, BitVec.toNat_setWidth, Nat.shiftLeft_eq]
    omega
  have hlo : (i64Value lo).toNat = lo.toNat := by
    rw [i64Value, BitVec.toNat_setWidth, Nat.mod_eq_of_lt (lo.isLt.trans (by decide))]
  apply BitVec.eq_of_toNat_eq
  rw [joinHalves, hread, hread, BitVec.toNat_or, hshl, hlo, Nat.or_comm, ← Nat.shiftLeft_add_eq_or_of_lt lo.isLt, hcast,
    BitVec.ofInt_natCast, BitVec.toNat_ofNat, Nat.shiftLeft_eq, Nat.add_comm, Nat.mod_eq_of_lt]
  have hlt := lo.isLt
  have hlt' := hi.isLt
  omega

/-- The halves of a number are pushed. -/
theorem pushHalves_eq (z : ℤ) (st : List Value) :
    pushHalves (BitVec.ofInt 128 z) st = i64Value (halves z).2 :: i64Value (halves z).1 :: st := by
  have hlow : (BitVec.ofInt 128 z).setWidth 64 = (halves z).1 := by
    apply BitVec.eq_of_toNat_eq
    simp only [halves, BitVec.toNat_setWidth, BitVec.toNat_ofInt]
    omega
  have hhigh : (BitVec.ofInt 128 z >>> 64).setWidth 64 = (halves z).2 := by
    apply BitVec.eq_of_toNat_eq
    simp only [halves, BitVec.toNat_setWidth, BitVec.toNat_ushiftRight, BitVec.toNat_ofInt, Nat.shiftRight_eq_div_pow]
    omega
  rw [pushHalves, hlow, hhigh]

end

end Wasmrt
