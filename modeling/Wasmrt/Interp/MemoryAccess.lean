import Wasmrt.Interp.Bulk
import Wasmrt.Interp.Vectors

/-!
# Memory accesses, written in place

The instructions that read or write a few bytes of a memory: loads and stores of numbers, those of vectors, and the
atomic ones. Each of the three families computes and checks its address on its own. They are steps that keep what they
have written when they abort, and an index outside a memory or a vector is a panic.

## Main definitions

* `InPlace.loadBytes`, `InPlace.storeBytes`: loads and stores of numbers.
* `InPlace.simdMemEa`, `InPlace.simdMemory`: those of vectors.
* `InPlace.atomicEa`, `InPlace.atomic`: the atomic instructions.
* `InPlace.access`: any of them.
-/

namespace Wasmrt

open BlockMove MachineInt

namespace InPlace

variable (d : InstanceData)

def push (v : Value) : InPlace Unit := modify fun st => st.push v

/-- The bytes `[ea, ea + n)` of a memory. -/
def bytesAt (slot ea n : ℕ) : InPlace (List UInt8) := do
  let st ← get
  let mem ← orPanic st.contents.memories[slot]?
  orPanic (slice mem.bytes ea n)

/-- The bytes from `ea` on replaced by the low `n` of a value. -/
def writeBytes (slot ea n : ℕ) (v : Value) : InPlace Unit := onBytes slot fun bytes => overwrite bytes ea (leBytes n v)

/-! ## Numbers -/

/-- The bytes put together from the lowest on. -/
def gather (bytes : List UInt8) : BitVec 64 :=
  bytes.zipIdx.foldl (fun v (b, i) => v ||| b.toBitVec.setWidth 64 <<< (8 * i)) 0

def loadBytes (ma : MemArg) (n : ℕ) : InPlace (BitVec 64) := do
  let mem ← memory (d.maps.mem ma.memory)
  let addr ← popAddr mem.is64
  let ea ← orTrap .memoryOutOfBounds (checkedAdd addr ma.offset)
  let last ← orTrap .memoryOutOfBounds (checkedAdd ea n)
  trapIf (last > mem.bytes.length) .memoryOutOfBounds
  let bytes ← orPanic (slice mem.bytes ea n)
  pure (gather bytes)

def storeBytes (ma : MemArg) (n : ℕ) (val : BitVec 64) : InPlace Unit := do
  let slot := d.maps.mem ma.memory
  let mem ← memory slot
  let addr ← popAddr mem.is64
  let ea ← orTrap .memoryOutOfBounds (checkedAdd addr ma.offset)
  let last ← orTrap .memoryOutOfBounds (checkedAdd ea n)
  trapIf (last > mem.bytes.length) .memoryOutOfBounds
  writeBytes slot ea n (val.setWidth 128)

def load (op : LoadOp) (ma : MemArg) : InPlace Unit := do
  let v ← loadBytes d ma op.width
  push (op.extend v)

/-- What a store keeps of its operand. -/
def stored (op : StoreOp) (v : Value) : BitVec 64 :=
  match op with
  | .i32 | .i32Store8 | .i32Store16 => (asI32 v).setWidth 64
  | .i64 | .i64Store8 | .i64Store16 | .i64Store32 => asI64 v
  | .f32 => v.setWidth 64 &&& 0xffffffff
  | .f64 => v.setWidth 64

def store (op : StoreOp) (ma : MemArg) : InPlace Unit := do
  let v ← pop
  storeBytes d ma op.width (stored op v)

/-! ## Vectors -/

/-- The address of a vector access of `n` bytes. -/
def simdMemEa (ma : MemArg) (n : ℕ) : InPlace ℕ := do
  let mem ← memory (d.maps.mem ma.memory)
  let addr ← popAddr mem.is64
  let ea ← orTrap .memoryOutOfBounds (checkedAdd addr ma.offset)
  let last ← orTrap .memoryOutOfBounds (checkedAdd ea n)
  trapIf (last > mem.bytes.length) .memoryOutOfBounds
  pure ea

/-- The number of the bytes from the address of an access on. -/
def simdRead (ma : MemArg) (n : ℕ) : InPlace ℕ := do
  let ea ← simdMemEa d ma n
  let bytes ← bytesAt (d.maps.mem ma.memory) ea n
  pure (leValue bytes)

def simdLoad (ma : MemArg) : InPlace Unit := do
  let n ← simdRead d ma 16
  push (BitVec.ofNat 128 n)

def simdStore (ma : MemArg) : InPlace Unit := do
  let v ← pop
  let ea ← simdMemEa d ma 16
  writeBytes (d.maps.mem ma.memory) ea 16 v

/-- Eight bytes as lanes of `sh`, each widened to a lane of `dst`. -/
def simdLoadExtend (ma : MemArg) (sg : Bool) (sh dst : Shape) : InPlace Unit := do
  let ea ← simdMemEa d ma 8
  let lanes ← (List.range dst.count).mapM fun i => do
    let bytes ← bytesAt (d.maps.mem ma.memory) (ea + i * sh.bytes) sh.bytes
    pure (castInt sg dst.width (BitVec.ofNat sh.width (leValue bytes)))
  push (packed dst lanes)

/-- One number in every lane. -/
def simdLoadSplat (ma : MemArg) (sh : Shape) : InPlace Unit := do
  let n ← simdRead d ma sh.bytes
  push (packed sh (List.replicate sh.count (BitVec.ofNat sh.width n)))

/-- The bytes of a number, zeros above. -/
def simdLoadZero (ma : MemArg) (sh : Shape) : InPlace Unit := do
  let ea ← simdMemEa d ma sh.bytes
  let bytes ← bytesAt (d.maps.mem ma.memory) ea sh.bytes
  push (BitVec.ofNat 128 (leValue (bytes ++ List.replicate (16 - sh.bytes) 0)))

def simdLoadLane (ma : MemArg) (lane : ℕ) (sh : Shape) : InPlace Unit := do
  let v ← pop
  let n ← simdRead d ma sh.bytes
  let lanes ← orPanic (storeAt (unpack sh v) lane (BitVec.ofNat sh.width n))
  push (packed sh lanes)

def simdStoreLane (ma : MemArg) (lane : ℕ) (sh : Shape) : InPlace Unit := do
  let v ← pop
  let ea ← simdMemEa d ma sh.bytes
  let x ← orPanic (unpack sh v)[lane]?
  writeBytes (d.maps.mem ma.memory) ea sh.bytes (x.setWidth 128)

/-- The arms of `exec_simd` that access a memory. -/
def simdMemory (s : Simd) : InPlace Unit :=
  match s.sub with
  | 0x00 => simdLoad d s.mem
  | 0x0b => simdStore d s.mem
  | 0x01 => simdLoadExtend d s.mem true .i8x16 .i16x8
  | 0x02 => simdLoadExtend d s.mem false .i8x16 .i16x8
  | 0x03 => simdLoadExtend d s.mem true .i16x8 .i32x4
  | 0x04 => simdLoadExtend d s.mem false .i16x8 .i32x4
  | 0x05 => simdLoadExtend d s.mem true .i32x4 .i64x2
  | 0x06 => simdLoadExtend d s.mem false .i32x4 .i64x2
  | 0x07 => simdLoadSplat d s.mem .i8x16
  | 0x08 => simdLoadSplat d s.mem .i16x8
  | 0x09 => simdLoadSplat d s.mem .i32x4
  | 0x0a => simdLoadSplat d s.mem .i64x2
  | 0x5c => simdLoadZero d s.mem .i32x4
  | 0x5d => simdLoadZero d s.mem .i64x2
  | 0x54 => simdLoadLane d s.mem s.lane .i8x16
  | 0x55 => simdLoadLane d s.mem s.lane .i16x8
  | 0x56 => simdLoadLane d s.mem s.lane .i32x4
  | 0x57 => simdLoadLane d s.mem s.lane .i64x2
  | 0x58 => simdStoreLane d s.mem s.lane .i8x16
  | 0x59 => simdStoreLane d s.mem s.lane .i16x8
  | 0x5a => simdStoreLane d s.mem s.lane .i32x4
  | 0x5b => simdStoreLane d s.mem s.lane .i64x2
  | _ => throw (.trap .unsupportedInstruction)

/-! ## Atomics -/

/-- The bytes an atomic access of the given width touches. -/
def atomicBytes : ℕ → ℕ
  | 1 => 1
  | 2 => 2
  | 4 => 4
  | _ => 8

def atomicRead (slot ea width : ℕ) : InPlace (BitVec 64) := do
  let bytes ← bytesAt slot ea (atomicBytes width)
  pure (BitVec.ofNat 64 (leValue bytes))

def atomicWrite (slot ea width : ℕ) (v : BitVec 64) : InPlace Unit :=
  writeBytes slot ea (atomicBytes width) (v.setWidth 128)

/-- The low `width` bytes of a word. -/
def maskWidth (v : BitVec 64) (width : ℕ) : BitVec 64 :=
  if 8 ≤ width then v else v &&& ((1 <<< (width * 8)) - 1)

/-- Does the instruction operate on an `i64`? -/
def atomicIs64 (sub : ℕ) : Bool :=
  if sub ∈ [0x11, 0x14, 0x15, 0x16, 0x18, 0x1b, 0x1c, 0x1d] then true
  else if sub ∈ [0x10, 0x12, 0x13, 0x17, 0x19, 0x1a] then false
  else (sub - 0x1e) % 7 ∈ [1, 4, 5, 6]

/-- The binary logarithm of the bytes of an access. -/
def atomicAlignLog2 (sub : ℕ) : ℕ :=
  match sub with
  | 0x00 | 0x01 => 2
  | 0x02 => 3
  | 0x03 => 0
  | 0x10 | 0x17 => 2
  | 0x11 | 0x18 => 3
  | 0x12 | 0x19 => 0
  | 0x13 | 0x1a => 1
  | 0x14 | 0x1b => 0
  | 0x15 | 0x1c => 1
  | 0x16 | 0x1d => 2
  | _ =>
    match (sub + 2 ^ 32 - 0x1e) % 2 ^ 32 % 7 with
    | 0 => 2
    | 1 => 3
    | 2 => 0
    | 3 => 1
    | 4 => 0
    | 5 => 1
    | _ => 2

/-- The address of an atomic access, which must be aligned. -/
def atomicEa (ma : MemArg) (width : ℕ) (needShared : Bool) : InPlace ℕ := do
  let mem ← memory (d.maps.mem ma.memory)
  let base ← popAddr mem.is64
  trapIf (needShared && !mem.shared) .expectedSharedMemory
  let ea ← orTrap .memoryOutOfBounds (checkedAdd base ma.offset)
  let last ← orTrap .memoryOutOfBounds (checkedAdd ea width)
  trapIf (last > mem.bytes.length) .memoryOutOfBounds
  trapIf (ea % width != 0) .unalignedAtomic
  pure ea

/-- Pop an operand of the type an instruction operates on. -/
def popInt (is64 : Bool) : InPlace (BitVec 64) := do
  let v ← pop
  pure (if is64 then asI64 v else (asI32 v).setWidth 64)

def pushInt (is64 : Bool) (v : BitVec 64) : InPlace Unit := push (if is64 then i64Value v else i32Value (v.setWidth 32))

/-- The operation of a group of read-modify-writes. -/
def rmwNew (group : ℕ) (old val : BitVec 64) : BitVec 64 :=
  match group with
  | 0 => old + val
  | 1 => old - val
  | 2 => old &&& val
  | 3 => old ||| val
  | 4 => old ^^^ val
  | _ => val

def atomicNotify (ma : MemArg) (w : ℕ) : InPlace Unit := do
  let _ ← popI32
  let _ ← atomicEa d ma w false
  push (i32Value 0)

def atomicWait (ma : MemArg) (w : ℕ) (is64 : Bool) : InPlace Unit := do
  let _ ← pop
  let expected ← popInt is64
  let ea ← atomicEa d ma w true
  let cur ← atomicRead (d.maps.mem ma.memory) ea w
  push (i32Value (if cur != expected then 1 else 2))

def atomicLoad (ma : MemArg) (w : ℕ) (is64 : Bool) : InPlace Unit := do
  let ea ← atomicEa d ma w false
  let v ← atomicRead (d.maps.mem ma.memory) ea w
  pushInt is64 v

def atomicStore (ma : MemArg) (w : ℕ) (is64 : Bool) : InPlace Unit := do
  let val ← popInt is64
  let ea ← atomicEa d ma w false
  atomicWrite (d.maps.mem ma.memory) ea w val

def atomicCmpxchg (ma : MemArg) (w : ℕ) (is64 : Bool) : InPlace Unit := do
  let repl ← popInt is64
  let expected ← popInt is64
  let ea ← atomicEa d ma w false
  let old ← atomicRead (d.maps.mem ma.memory) ea w
  if old = maskWidth expected w then atomicWrite (d.maps.mem ma.memory) ea w repl
  pushInt is64 old

def atomicRmw (ma : MemArg) (w : ℕ) (is64 : Bool) (group : ℕ) : InPlace Unit := do
  let val ← popInt is64
  let ea ← atomicEa d ma w false
  let old ← atomicRead (d.maps.mem ma.memory) ea w
  atomicWrite (d.maps.mem ma.memory) ea w (rmwNew group old val)
  pushInt is64 old

def atomic (at' : Atomic) : InPlace Unit :=
  let sub := at'.sub
  let w := 2 ^ atomicAlignLog2 sub
  let group := (sub - 0x1e) / 7
  if sub = 0x03 then pure ()
  else if sub = 0x00 then atomicNotify d at'.mem w
  else if sub = 0x01 ∨ sub = 0x02 then atomicWait d at'.mem w (sub != 0x01)
  else if 0x10 ≤ sub ∧ sub ≤ 0x16 then atomicLoad d at'.mem w (atomicIs64 sub)
  else if 0x17 ≤ sub ∧ sub ≤ 0x1d then atomicStore d at'.mem w (atomicIs64 sub)
  else if 0x1e ≤ sub ∧ sub ≤ 0x4e then
    if group = 6 then atomicCmpxchg d at'.mem w (atomicIs64 sub) else atomicRmw d at'.mem w (atomicIs64 sub) group
  else throw (.trap .unsupportedInstruction)

/-! ## Any of them -/

/-- An instruction that accesses a memory. -/
def access : Instr → InPlace Unit
  | .load op ma => load d op ma
  | .store op ma => store d op ma
  | .simd s => simdMemory d s
  | .atomic a => atomic d a
  | _ => throw (.trap .unsupportedInstruction)

end InPlace

end Wasmrt
