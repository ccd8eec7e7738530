import Wasmrt.Interp.MemoryAccess
import Wasmrt.Interp.VectorArithmetic

/-!
# What an access does

An access is about a run of bytes of one memory: it starts at the sum of an address and a static offset, and fails where
the run does not fit, or where it must be aligned and is not. Otherwise the bytes are read as one number, the lowest
first. What is pushed and what is written depend on that number and on the operands above the address.

## Main definitions

* `AccessInstr`: the instructions that access a memory.
* `Access`: the run of bytes, and what becomes of the number found there.
* `AccessInstr.access`: the access of an instruction.
* `Access.Exact`: a step does what the access says.
-/

namespace Wasmrt

open BlockMove MachineInt

/-! ## The instructions -/

/-- Accesses of vectors. -/
inductive VMemOp
  | load | store
  | loadExtend (sh : Shape) (sg : Bool)
  | loadSplat (sh : Shape) | loadZero (sh : Shape) | loadLane (sh : Shape) | storeLane (sh : Shape)
  deriving DecidableEq, Repr

/-- The sub-opcode; `loadExtend` names the shape that is read, and none of `i64x2` is. -/
def VMemOp.sub? : VMemOp → Option ℕ
  | load => some 0x00
  | store => some 0x0b
  | loadExtend .i64x2 _ => none
  | loadExtend sh true => some (sh.pick 0x01 0x03 0x05 0)
  | loadExtend sh false => some (sh.pick 0x02 0x04 0x06 0)
  | loadSplat sh => some (sh.pick 0x07 0x08 0x09 0x0a)
  | loadZero .i32x4 => some 0x5c
  | loadZero .i64x2 => some 0x5d
  | loadZero _ => none
  | loadLane sh => some (sh.pick 0x54 0x55 0x56 0x57)
  | storeLane sh => some (sh.pick 0x58 0x59 0x5a 0x5b)

/-- The types of an atomic access: a number, and how many of its bits are in memory. -/
inductive AtomicType
  | i32 | i64 | i32Low8 | i32Low16 | i64Low8 | i64Low16 | i64Low32
  deriving DecidableEq, Repr

namespace AtomicType

/-- The place in a group of instructions. -/
def place : AtomicType → ℕ
  | i32 => 0 | i64 => 1 | i32Low8 => 2 | i32Low16 => 3 | i64Low8 => 4 | i64Low16 => 5 | i64Low32 => 6

/-- The bytes in memory. -/
def bytes : AtomicType → ℕ
  | i32 | i64Low32 => 4
  | i64 => 8
  | i32Low8 | i64Low8 => 1
  | i32Low16 | i64Low16 => 2

/-- The number on the stack. -/
def number : AtomicType → Width
  | i32 | i32Low8 | i32Low16 => .w32
  | i64 | i64Low8 | i64Low16 | i64Low32 => .w64

end AtomicType

/-- The operations of a read-modify-write. -/
inductive RmwOp
  | add | sub | and | or | xor | xchg
  deriving DecidableEq, Repr

namespace RmwOp

/-- The place of the group. -/
def place : RmwOp → ℕ
  | add => 0 | sub => 1 | and => 2 | or => 3 | xor => 4 | xchg => 5

/-- The operation, modulo `2 ^ bits`. -/
def result (bits : ℕ) (old v : ℕ) (op : RmwOp) : ℕ :=
  match op with
  | add => (old + v) % 2 ^ bits
  | sub => (((old : ℤ) - v) % 2 ^ bits).toNat
  | and => (old &&& v) % 2 ^ bits
  | or => (old ||| v) % 2 ^ bits
  | xor => (old ^^^ v) % 2 ^ bits
  | xchg => v % 2 ^ bits

end RmwOp

/-- Atomic accesses. -/
inductive AtomicOp
  | load (t : AtomicType) | store (t : AtomicType) | rmw (op : RmwOp) (t : AtomicType) | cmpxchg (t : AtomicType)
  deriving DecidableEq, Repr

/-- The sub-opcode. -/
def AtomicOp.sub : AtomicOp → ℕ
  | load t => 0x10 + t.place
  | store t => 0x17 + t.place
  | rmw op t => 0x1e + 7 * op.place + t.place
  | cmpxchg t => 0x48 + t.place

/-- The instructions that access a memory. -/
inductive AccessInstr
  | load (op : LoadOp) (ma : MemArg)
  | store (op : StoreOp) (ma : MemArg)
  | vector (op : VMemOp) (s : Simd)
  | atomic (op : AtomicOp) (ma : MemArg)

namespace AccessInstr

/-- The instruction in a body. -/
def instr : AccessInstr → Instr
  | load op ma => .load op ma
  | store op ma => .store op ma
  | vector _ s => .simd s
  | atomic op ma => .atomic ⟨op.sub, ma⟩

/-- The sub-opcode is that of the instruction, and the lane is one of the vector. -/
def Valid : AccessInstr → Prop
  | vector (.loadLane sh) s => (VMemOp.loadLane sh).sub? = some s.sub ∧ s.lane < sh.count
  | vector (.storeLane sh) s => (VMemOp.storeLane sh).sub? = some s.sub ∧ s.lane < sh.count
  | vector op s => op.sub? = some s.sub
  | _ => True

end AccessInstr

/-! ## Accesses -/

/-- An access: the memory, the static offset and the number of bytes; how many operands are above the address; and, from
these operands and the number found, what is pushed and what is written. -/
structure Access where
  memory : ℕ
  offset : ℕ
  width : ℕ
  aligned : Bool
  operands : ℕ
  pushed : (ℕ → Value) → ℕ → Option Value
  written : (ℕ → Value) → ℕ → Option ℕ

namespace Access

/-- A load of `width` bytes. -/
def read (ma : MemArg) (width : ℕ) (push : ℕ → Value) : Access :=
  ⟨ma.memory, ma.offset, width, false, 0, fun _ n => some (push n), fun _ _ => none⟩

/-- A store of `width` bytes of the operand. -/
def write (ma : MemArg) (width : ℕ) (put : Value → ℕ) : Access :=
  ⟨ma.memory, ma.offset, width, false, 1, fun _ _ => none, fun v _ => some (put (v 0))⟩

end Access

namespace LoadOp

/-- The number a load pushes. -/
def number : LoadOp → Width
  | .i32 | .f32 | .i32Load8 _ | .i32Load16 _ => .w32
  | .i64 | .f64 | .i64Load8 _ | .i64Load16 _ | .i64Load32 _ => .w64

/-- Is what is read signed? -/
def signed : LoadOp → Bool
  | .i32Load8 sg | .i32Load16 sg | .i64Load8 sg | .i64Load16 sg | .i64Load32 sg => sg
  | .i32 | .i64 | .f32 | .f64 => false

/-- What a load pushes for the number it found. -/
def result (op : LoadOp) (n : ℕ) : Value :=
  op.number.value (BitVec.ofInt op.number.size (readInt op.signed (BitVec.ofNat (8 * op.width) n)))

end LoadOp

/-- The access of a vector instruction. -/
def VMemOp.access (ma : MemArg) (lane : ℕ) : VMemOp → Access
  | load => .read ma 16 fun n => BitVec.ofNat 128 n
  | store => .write ma 16 fun v => v.toNat
  | loadExtend sh sg =>
    .read ma 8 fun n => sh.wider.vector fun i => readInt sg (BitVec.ofNat sh.width (n / 2 ^ (sh.width * i)))
  | loadSplat sh => .read ma sh.bytes fun n => sh.vector fun _ => n
  | loadZero sh => .read ma sh.bytes fun n => BitVec.ofNat 128 n
  | loadLane sh =>
    ⟨ma.memory, ma.offset, sh.bytes, false, 1,
      fun v n => some (sh.vector fun i => if i = lane then n else sh.lane false (v 0) i), fun _ _ => none⟩
  | storeLane sh => .write ma sh.bytes fun v => (sh.lane false v lane).toNat

/-- The number an atomic instruction pushes. -/
def AtomicType.value (t : AtomicType) (n : ℕ) : Value := t.number.value (BitVec.ofNat t.number.size n)

/-- The access of an atomic instruction. -/
def AtomicOp.access (ma : MemArg) : AtomicOp → Access
  | load t => { Access.read ma t.bytes t.value with aligned := true }
  | store t => { Access.write ma t.bytes (fun v => v.toNat) with aligned := true }
  | rmw op t =>
    ⟨ma.memory, ma.offset, t.bytes, true, 1, fun _ n => some (t.value n),
      fun v n => some (op.result (8 * t.bytes) n (v 0).toNat)⟩
  | cmpxchg t =>
    ⟨ma.memory, ma.offset, t.bytes, true, 2, fun _ n => some (t.value n),
      fun v n => if n = (v 1).toNat % 2 ^ (8 * t.bytes) then some (v 0).toNat else none⟩

/-- The access of an instruction. -/
def AccessInstr.access : AccessInstr → Access
  | load op ma => .read ma op.width op.result
  | store op ma => .write ma op.width fun v => v.toNat
  | vector op s => op.access s.mem s.lane
  | atomic op ma => op.access ma

/-! ## What it is to do an access -/

namespace Access

variable (a : Access) (mem : Memory) (st : PlainState)

/-- The effective address. -/
def address : ℕ := popMem mem.is64 (st.operand a.operands) + a.offset

/-- The access runs past the end, or is misaligned. -/
def Fails : Prop :=
  mem.bytes.length < a.address mem st + a.width ∨ a.aligned = true ∧ ¬a.width ∣ a.address mem st

/-- The trap of an access that fails. -/
def trap : Trap := if mem.bytes.length < a.address mem st + a.width then .memoryOutOfBounds else .unalignedAtomic

/-- The number in the memory, the lowest byte first. -/
def found : ℕ := leValue ((mem.bytes.drop (a.address mem st)).take a.width)

/-- What is pushed. -/
def push : Option Value := a.pushed st.operand (a.found mem st)

/-- What is written. -/
def put : Option ℕ := a.written st.operand (a.found mem st)

/-- The contents after the access: only the bytes of the access are written, and they are those of the number. -/
def Puts (slot : ℕ) (c : Contents) : Prop :=
  match a.put mem st with
  | none => c = st.contents
  | some n =>
    ∃ bytes, c = st.contents.putBytes slot mem bytes ∧
      Moved mem.bytes bytes (a.address mem st) a.width fun k => some (UInt8.ofNat (n / 256 ^ k))

/-- The step does the access, or fails before it has written anything. -/
structure Exact (d : InstanceData) (run : InPlace Unit) : Prop where
  fails : a.Fails mem st → run st = .error (.trap (a.trap mem st)) (st.popped (a.operands + 1))
  done : ¬a.Fails mem st → ∃ c, a.Puts mem st (d.maps.mem a.memory) c ∧
    run st = .ok () ⟨st.locals, (a.push mem st).toList ++ st.vstack.drop (a.operands + 1), c⟩

end Access

/-- The instruction is well-formed, and its memory is there and no longer than the address space. -/
structure AccessInstr.On (i : AccessInstr) (d : InstanceData) (st : PlainState) (mem : Memory) : Prop where
  valid : i.Valid
  memory : st.contents.memories[d.maps.mem i.access.memory]? = some mem
  length : mem.bytes.length < 2 ^ 64

/-- A load, the operation and a store, as one step. -/
def InPlace.rmwSequence (d : InstanceData) (op : RmwOp) (t : AtomicType) (ma : MemArg) : InPlace Unit := do
  let v ← pop
  let addr ← pop
  push addr
  access d (.atomic ⟨(AtomicOp.load t).sub, ma⟩)
  let old ← pop
  push addr
  push (t.value (op.result (8 * t.bytes) old.toNat v.toNat))
  access d (.atomic ⟨(AtomicOp.store t).sub, ma⟩)
  push old

open InPlace in
/-- What the accesses of an instance are to be like. -/
structure MemoryExact (d : InstanceData) : Prop where
  traps_iff {i : AccessInstr} {st : PlainState} {mem : Memory} : i.On d st mem →
    ((∃ e st', access d i.instr st = .error e st') ↔ i.access.Fails mem st)
  trapped {i : AccessInstr} {st st' : PlainState} {mem : Memory} {e : Abort} : i.On d st mem →
    access d i.instr st = .error e st' → st'.contents = st.contents ∧ e = .trap (i.access.trap mem st)
  done {i : AccessInstr} {st st' : PlainState} {mem : Memory} : i.On d st mem → access d i.instr st = .ok () st' →
    st'.locals = st.locals ∧
      st'.vstack = (i.access.push mem st).toList ++ st.vstack.drop (i.access.operands + 1) ∧
      i.access.Puts mem st (d.maps.mem i.access.memory) st'.contents
  load_store {i j : AccessInstr} {st st₁ st₂ : PlainState} {mem : Memory} {n : ℕ} : i.On d st mem →
    i.access.put mem st = some n → access d i.instr st = .ok () st₁ →
    j.Valid → d.maps.mem j.access.memory = d.maps.mem i.access.memory → j.access.width = i.access.width →
    j.access.address mem st₂ = i.access.address mem st → st₂.contents = st₁.contents →
    (j.access.aligned = true → j.access.width ∣ j.access.address mem st₂) →
    ∃ st₃, access d j.instr st₂ = .ok () st₃ ∧
      st₃.vstack = (j.access.pushed st₂.operand (n % 256 ^ i.access.width)).toList ++
        st₂.vstack.drop (j.access.operands + 1)
  rmw {op : RmwOp} {t : AtomicType} {ma : MemArg} {st : PlainState} {mem : Memory} :
    (AccessInstr.atomic (.rmw op t) ma).On d st mem →
    access d (.atomic ⟨(AtomicOp.rmw op t).sub, ma⟩) st = rmwSequence d op t ma st

end Wasmrt
