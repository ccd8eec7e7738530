import Wasmrt.Interp.Plain
import Wasmrt.Library.MachineInt

/-!
# Integer instructions

`exec_numeric` runs the scalar instructions. It dispatches on the number of an instruction, as the arms of the source do,
and hands what is none of its integer arms to the floating-point ones, a parameter here. A step of the host that would
overflow its type is a fault of its own, apart from the traps.

## Main definitions

* `Fault`: why an instruction stops.
* `cmpI32`, `cmpI64`, `binI32`, `binI64`: comparisons and binary operations.
* `execNumeric`: one instruction on the operands.
* `execWide`: the arithmetic on pairs of halves.
-/

namespace Wasmrt

open MachineInt

/-- Why an instruction stops: a trap, or a panic of the host, which overflow and an index out of range cause. -/
inductive Fault
  | trap (t : Trap) | panic
  deriving DecidableEq, Repr

/-- A result of the host, whose absence is a panic. -/
def orPanic {α : Type} : Option α → Except Fault α := orError .panic

/-! ## Numbers of instructions -/

/-- The number of bits of a width. -/
def Width.size : Width → ℕ
  | w32 => 32
  | w64 => 64

/-- What a width picks of two. -/
def Width.pick {α : Type} (w : Width) (a b : α) : α :=
  match w with
  | w32 => a
  | w64 => b

/-- The number of a comparison. -/
def IRelOp.code (w : Width) : IRelOp → ℕ
  | eq => w.pick 0x46 0x51
  | ne => w.pick 0x47 0x52
  | ltS => w.pick 0x48 0x53
  | ltU => w.pick 0x49 0x54
  | gtS => w.pick 0x4a 0x55
  | gtU => w.pick 0x4b 0x56
  | leS => w.pick 0x4c 0x57
  | leU => w.pick 0x4d 0x58
  | geS => w.pick 0x4e 0x59
  | geU => w.pick 0x4f 0x5a

/-- The number of a unary operation. -/
def IUnOp.code (w : Width) : IUnOp → ℕ
  | clz => w.pick 0x67 0x79
  | ctz => w.pick 0x68 0x7a
  | popcnt => w.pick 0x69 0x7b
  | extend8S => w.pick 0xc0 0xc2
  | extend16S => w.pick 0xc1 0xc3

/-- The number of a binary operation. -/
def IBinOp.code (w : Width) : IBinOp → ℕ
  | add => w.pick 0x6a 0x7c
  | sub => w.pick 0x6b 0x7d
  | mul => w.pick 0x6c 0x7e
  | divS => w.pick 0x6d 0x7f
  | divU => w.pick 0x6e 0x80
  | remS => w.pick 0x6f 0x81
  | remU => w.pick 0x70 0x82
  | and => w.pick 0x71 0x83
  | or => w.pick 0x72 0x84
  | xor => w.pick 0x73 0x85
  | shl => w.pick 0x74 0x86
  | shrS => w.pick 0x75 0x87
  | shrU => w.pick 0x76 0x88
  | rotl => w.pick 0x77 0x89
  | rotr => w.pick 0x78 0x8a

/-- The number of an instruction of integers. -/
def Instr.code : Instr → Option ℕ
  | iEqz w => some (w.pick 0x45 0x50)
  | iRel w op => some (op.code w)
  | iUn w op => some (op.code w)
  | iBin w op => some (op.code w)
  | cvt .i32WrapI64 => some 0xa7
  | cvt .i64ExtendI32S => some 0xac
  | cvt .i64ExtendI32U => some 0xad
  | cvt .i64Extend32S => some 0xc4
  | _ => none

/-! ## Operations of the host -/

/-- A shift to the left, by less than the width. -/
def shlChecked {w : ℕ} (x : BitVec w) (n : ℕ) : Option (BitVec w) := if n < w then some (x <<< n) else none

/-- A shift to the right, by less than the width; it keeps the sign of a signed word. -/
def shrChecked {w : ℕ} (sg : Bool) (x : BitVec w) (n : ℕ) : Option (BitVec w) :=
  if n < w then some (if sg then x.sshiftRight n else x >>> n) else none

/-- A division, by other than zero and without overflow. -/
def divChecked {w : ℕ} (sg : Bool) (x y : BitVec w) : Option (BitVec w) :=
  if y = 0 then none else fitInt sg w ((readInt sg x).tdiv (readInt sg y))

/-- A remainder, which overflows where the division does. -/
def remChecked {w : ℕ} (sg : Bool) (x y : BitVec w) : Option (BitVec w) := do
  let _ ← divChecked sg x y
  fitInt sg w ((readInt sg x).tmod (readInt sg y))

/-! ## Comparisons and binary operations -/

/-- The comparison of the given place in its group. -/
def cmpInt {w : ℕ} (place : ℕ) (a b : BitVec w) : Bool :=
  match place with
  | 0 => a == b
  | 1 => a != b
  | 2 => a.toInt < b.toInt
  | 3 => a.toNat < b.toNat
  | 4 => b.toInt < a.toInt
  | 5 => b.toNat < a.toNat
  | 6 => a.toInt ≤ b.toInt
  | 7 => a.toNat ≤ b.toNat
  | 8 => b.toInt ≤ a.toInt
  | _ => b.toNat ≤ a.toNat

/-- The binary operation of the given place in its group. -/
def binInt {w : ℕ} (place : ℕ) (a b : BitVec w) : Except Fault (BitVec w) :=
  match place with
  | 0 => .ok (a + b)
  | 1 => .ok (a - b)
  | 2 => .ok (a * b)
  | 3 =>
    if b = 0 then .error (.trap .divByZero)
    else if a = BitVec.intMin w ∧ b = -1 then .error (.trap .intOverflow)
    else orPanic (divChecked true a b)
  | 4 => if b = 0 then .error (.trap .divByZero) else orPanic (divChecked false a b)
  | 5 =>
    if b = 0 then .error (.trap .divByZero)
    -- the remainder of the least number by -1 would overflow
    else if b = -1 then .ok 0
    else orPanic (remChecked true a b)
  | 6 => if b = 0 then .error (.trap .divByZero) else orPanic (remChecked false a b)
  | 7 => .ok (a &&& b)
  | 8 => .ok (a ||| b)
  | 9 => .ok (a ^^^ b)
  | 10 => orPanic (shlChecked a (b.toNat % w))
  | 11 => orPanic (shrChecked true a (b.toNat % w))
  | 12 => orPanic (shrChecked false a (b.toNat % w))
  | 13 => .ok (a.rotateLeft (b.toNat % w))
  | _ => .ok (a.rotateRight (b.toNat % w))

def cmpI32 (op : ℕ) (a b : BitVec 32) : Bool := cmpInt (op - 0x46) a b
def cmpI64 (op : ℕ) (a b : BitVec 64) : Bool := cmpInt (op - 0x51) a b
def binI32 (op : ℕ) (a b : BitVec 32) : Except Fault (BitVec 32) := binInt (op - 0x6a) a b
def binI64 (op : ℕ) (a b : BitVec 64) : Except Fault (BitVec 64) := binInt (op - 0x7c) a b

/-! ## One instruction -/

/-- A truth value as it is pushed. -/
def boolValue (b : Bool) : Value := i32Value (if b then 1 else 0)

/-- An instruction of one operand. -/
def onTop (f : Value → Value) (st : List Value) : List Value := f (st.headD 0) :: st.tail

/-- An instruction of two operands, the second on top. -/
def onTopTwo (f : Value → Value → Except Fault Value) (st : List Value) : Except Fault (List Value) := do
  let r ← f (st.tail.headD 0) (st.headD 0)
  pure (r :: st.tail.tail)

/-- The instruction of a number; `float` runs what is no integer instruction. -/
def execNumeric (float : ℕ → List Value → Except Fault (List Value)) (op : ℕ) (st : List Value) :
    Except Fault (List Value) :=
  if op = 0x45 then .ok (onTop (fun v => boolValue (asI32 v == 0)) st)
  else if op = 0x67 then .ok (onTop (fun v => i32Value (asI32 v).clz) st)
  else if op = 0x68 then .ok (onTop (fun v => i32Value (asI32 v).ctz) st)
  else if op = 0x69 then .ok (onTop (fun v => i32Value (asI32 v).cpop) st)
  else if 0x46 ≤ op ∧ op ≤ 0x4f then
    onTopTwo (fun a b => .ok (boolValue (cmpI32 op (asI32 a) (asI32 b)))) st
  else if 0x6a ≤ op ∧ op ≤ 0x78 then
    onTopTwo (fun a b => i32Value <$> binI32 op (asI32 a) (asI32 b)) st
  else if op = 0xc0 then .ok (onTop (fun v => i32Value (castInt true 32 ((asI32 v).setWidth 8))) st)
  else if op = 0xc1 then .ok (onTop (fun v => i32Value (castInt true 32 ((asI32 v).setWidth 16))) st)
  else if op = 0xa7 then .ok (onTop (fun v => i32Value ((asI64 v).setWidth 32)) st)
  else if op = 0x50 then .ok (onTop (fun v => boolValue (asI64 v == 0)) st)
  else if op = 0x79 then .ok (onTop (fun v => i64Value (asI64 v).clz) st)
  else if op = 0x7a then .ok (onTop (fun v => i64Value (asI64 v).ctz) st)
  else if op = 0x7b then .ok (onTop (fun v => i64Value (asI64 v).cpop) st)
  else if 0x51 ≤ op ∧ op ≤ 0x5a then
    onTopTwo (fun a b => .ok (boolValue (cmpI64 op (asI64 a) (asI64 b)))) st
  else if 0x7c ≤ op ∧ op ≤ 0x8a then
    onTopTwo (fun a b => i64Value <$> binI64 op (asI64 a) (asI64 b)) st
  else if op = 0xc2 then .ok (onTop (fun v => i64Value (castInt true 64 ((asI64 v).setWidth 8))) st)
  else if op = 0xc3 then .ok (onTop (fun v => i64Value (castInt true 64 ((asI64 v).setWidth 16))) st)
  else if op = 0xc4 then .ok (onTop (fun v => i64Value (castInt true 64 ((asI64 v).setWidth 32))) st)
  else if op = 0xac then .ok (onTop (fun v => i64Value (castInt true 64 (asI32 v))) st)
  else if op = 0xad then .ok (onTop (fun v => i64Value (castInt false 64 (asI32 v))) st)
  else float op st

/-- A pair of halves as one number, the low half first. -/
def joinHalves (lo hi : Value) : BitVec 128 := i64Value (asI64 lo) ||| i64Value (asI64 hi) <<< 64

/-- Push the halves of a number, the low one first. -/
def pushHalves (r : BitVec 128) (st : List Value) : List Value :=
  i64Value ((r >>> 64).setWidth 64) :: i64Value (r.setWidth 64) :: st

/-- The arithmetic on pairs of halves. -/
def execWide (op : WideOp) (st : List Value) : List Value :=
  let operand (n : ℕ) : Value := (st.drop n).headD 0
  match op with
  | .add128 => pushHalves (joinHalves (operand 3) (operand 2) + joinHalves (operand 1) (operand 0)) (st.drop 4)
  | .sub128 => pushHalves (joinHalves (operand 3) (operand 2) - joinHalves (operand 1) (operand 0)) (st.drop 4)
  | .mulWideS =>
    pushHalves (castInt true 128 (asI64 (operand 1)) * castInt true 128 (asI64 (operand 0))) (st.drop 2)
  | .mulWideU =>
    pushHalves (castInt false 128 (asI64 (operand 1)) * castInt false 128 (asI64 (operand 0))) (st.drop 2)

end Wasmrt
