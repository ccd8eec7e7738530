import Wasmrt.Interp.References

/-!
# Plain instructions

An instruction that falls through to the next one reads and writes its operands, the locals, and the
contents of the pools. It sees neither the type registry, except through the test of a cast, nor the
state of the invocation, so these have no place in its type.

The arithmetic of numbers and vectors and the atomic accesses are a parameter: what is proved holds
whatever they compute. A stack has its top first. Popping an empty stack yields 0, which a validated
body never does.

## Main definitions

* `Contents`: what a guest reads and writes of the pools.
* `Ops`: the instructions taken as a parameter.
* `PlainState`, `execPlain`: the operands, locals and contents, and one plain instruction on them.
-/

namespace Wasmrt

/-! ## What a guest reads and writes -/

/-- The contents of the pools. -/
structure Contents where
  globals : List Value
  memories : List Memory
  tables : List Table
  dataDropped : List Bool
  elemValues : List (List Value)
  elemDropped : List Bool
  gcHeap : List HeapObject
  deriving DecidableEq

namespace Pools

def contents (p : Pools) : Contents where
  globals := p.globals
  memories := p.memories
  tables := p.tables
  dataDropped := p.dataDropped
  elemValues := p.elemValues
  elemDropped := p.elemDropped
  gcHeap := p.gcHeap

def withContents (p : Pools) (c : Contents) : Pools :=
  { p with
    globals := c.globals
    memories := c.memories
    tables := c.tables
    dataDropped := c.dataDropped
    elemValues := c.elemValues
    elemDropped := c.elemDropped
    gcHeap := c.gcHeap }

@[simp]
theorem contents_withContents (p : Pools) (c : Contents) : (p.withContents c).contents = c := rfl

@[simp]
theorem withContents_contents (p : Pools) : p.withContents p.contents = p := rfl

@[simp]
theorem types_withContents (p : Pools) (c : Contents) : (p.withContents c).types = p.types := rfl

@[simp]
theorem limits_withContents (p : Pools) (c : Contents) : (p.withContents c).limits = p.limits := rfl

end Pools

/-- The instructions whose meaning is a parameter. A numeric one sees the operands only; the others
access memories too. -/
structure Ops where
  numeric : Instr → List Value → Except Trap (List Value)
  simd : IndexMaps → Simd → List Value → List Memory → Except Trap (List Value × List Memory)
  atomic : IndexMaps → Atomic → List Value → List Memory → Except Trap (List Value × List Memory)

/-- No instruction of these families is supported. -/
def Ops.unsupported : Ops where
  numeric _ _ := .error .unsupportedInstruction
  simd _ _ _ _ := .error .unsupportedInstruction
  atomic _ _ _ _ := .error .unsupportedInstruction

/-- What a plain instruction reads and writes. -/
structure PlainState where
  locals : List Value
  vstack : List Value
  contents : Contents
  deriving DecidableEq

namespace PlainState

variable (st : PlainState)

def push (v : Value) : PlainState := { st with vstack := v :: st.vstack }

/-- Pop one slot; a short stack yields 0. -/
def pop : Value × PlainState := (st.vstack.headD 0, { st with vstack := st.vstack.tail })

def popI32 : BitVec 32 × PlainState := (asI32 st.pop.1, st.pop.2)

/-- Pop an address or a count of a memory or table. -/
def popAddr (is64 : Bool) : ℕ × PlainState := (popMem is64 st.pop.1, st.pop.2)

/-- The top of the stack, which stays there. -/
def top : Except Trap Value := orError .stackUnderflow st.vstack.head?

/-- Pop `n` operands, in the order they were pushed. -/
def popN (n : ℕ) : Except Trap (List Value × PlainState) := do
  ensure (decide (n ≤ st.vstack.length)) .stackUnderflow
  pure ((st.vstack.take n).reverse, { st with vstack := st.vstack.drop n })

end PlainState

/-- The contents of one slot of a list replaced. -/
def setSlot {α : Type} (l : List α) (i : ℕ) (a : α) (e : Trap) : Except Trap (List α) := do
  ensure (decide (i < l.length)) e
  pure (l.set i a)

/-! ## Linear memory -/

/-- The number of bytes a load reads. -/
def LoadOp.width : LoadOp → ℕ
  | .i32 | .f32 => 4
  | .i64 | .f64 => 8
  | .i32Load8 _ | .i64Load8 _ => 1
  | .i32Load16 _ | .i64Load16 _ => 2
  | .i64Load32 _ => 4

/-- The slot a load pushes for the bytes it read. -/
def LoadOp.extend (op : LoadOp) (v : BitVec 64) : Value :=
  match op with
  | .i32 | .f32 => i32Value (v.setWidth 32)
  | .i64 | .f64 => i64Value v
  | .i32Load8 signed =>
    i32Value (if signed then (v.setWidth 8).signExtend 32 else (v.setWidth 8).setWidth 32)
  | .i32Load16 signed =>
    i32Value (if signed then (v.setWidth 16).signExtend 32 else (v.setWidth 16).setWidth 32)
  | .i64Load8 signed =>
    i64Value (if signed then (v.setWidth 8).signExtend 64 else (v.setWidth 8).setWidth 64)
  | .i64Load16 signed =>
    i64Value (if signed then (v.setWidth 16).signExtend 64 else (v.setWidth 16).setWidth 64)
  | .i64Load32 signed =>
    i64Value (if signed then (v.setWidth 32).signExtend 64 else (v.setWidth 32).setWidth 64)

/-- The number of bytes a store writes. -/
def StoreOp.width : StoreOp → ℕ
  | .i32 | .f32 | .i64Store32 => 4
  | .i64 | .f64 => 8
  | .i32Store8 | .i64Store8 => 1
  | .i32Store16 | .i64Store16 => 2

/-- Bytes in memory order as a number. -/
def leValue (bytes : List UInt8) : ℕ := bytes.foldr (fun b acc => b.toNat + 256 * acc) 0

/-- The low `n` bytes of a value in memory order. -/
def leBytes (n : ℕ) (v : Value) : List UInt8 :=
  (List.range n).map fun i => UInt8.ofNat ((v >>> (8 * i)).toNat % 256)

/-- The start of an access of `n` bytes at an address and a static offset; neither sum may pass the
64-bit range. -/
def effectiveAddress (mem : Memory) (addr offset n : ℕ) : Except Trap ℕ := do
  ensure (decide (addr + offset + n < 2 ^ 64)) .memoryOutOfBounds
  ensure (decide (addr + offset + n ≤ mem.bytes.length)) .memoryOutOfBounds
  pure (addr + offset)

/-- Is `[base, base + n)` in range? -/
def memRange (base n len : ℕ) : Except Trap Unit :=
  ensure (decide (base + n < 2 ^ 64 ∧ base + n ≤ len)) .memoryOutOfBounds

/-- A page count as a memory pushes it. -/
def Memory.pushPages (mem : Memory) (pages : ℕ) : Value :=
  if mem.is64 then i64Value (BitVec.ofNat 64 pages) else i32Value (BitVec.ofNat 32 pages)

/-- The bytes of a data segment, none once it is dropped. -/
def dataSegment (d : InstanceData) (c : Contents) (seg : ℕ) : Except Trap (List UInt8) := do
  let dropped ← orError .undefinedData c.dataDropped[IndexMaps.get d.maps.data seg]?
  if dropped then pure [] else
    let segment ← orError .undefinedData d.module.data[seg]?
    pure segment.bytes

/-- Loads, stores, `memory.size`, `memory.grow` and the bulk instructions. -/
def execMemory (d : InstanceData) (limits : ResourceLimits) (st : PlainState) :
    Instr → Except Trap PlainState
  | .memorySize mi => do
    let mem ← orError .noMemory st.contents.memories[d.maps.mem mi]?
    pure (st.push (mem.pushPages mem.pages))
  | .memoryGrow mi => do
    let pools : Pools := { limits, memories := st.contents.memories }
    let (delta, st) := st.pop
    let (v, p) ← pools.memoryGrow (d.maps.mem mi) delta
    pure ({ st with contents.memories := p.memories }.push v)
  | .load op ma => do
    let mem ← orError .noMemory st.contents.memories[d.maps.mem ma.memory]?
    let (addr, st) := st.popAddr mem.is64
    let start ← effectiveAddress mem addr ma.offset op.width
    let v := leValue ((mem.bytes.drop start).take op.width)
    pure (st.push (op.extend (BitVec.ofNat 64 v)))
  | .store op ma => do
    let (v, st) := st.pop
    let mem ← orError .noMemory st.contents.memories[d.maps.mem ma.memory]?
    let (addr, st) := st.popAddr mem.is64
    let start ← effectiveAddress mem addr ma.offset op.width
    let mem' := { mem with bytes := writeAt mem.bytes start (leBytes op.width v) }
    pure { st with contents.memories := st.contents.memories.set (d.maps.mem ma.memory) mem' }
  | .memoryCopy dst src => do
    let dstMem ← orError .noMemory st.contents.memories[d.maps.mem dst]?
    let srcMem ← orError .noMemory st.contents.memories[d.maps.mem src]?
    let (n, st) := st.popAddr (dstMem.is64 && srcMem.is64)
    let (si, st) := st.popAddr srcMem.is64
    let (di, st) := st.popAddr dstMem.is64
    memRange si n srcMem.bytes.length
    memRange di n dstMem.bytes.length
    let dstMem' := { dstMem with bytes := writeAt dstMem.bytes di ((srcMem.bytes.drop si).take n) }
    pure { st with contents.memories := st.contents.memories.set (d.maps.mem dst) dstMem' }
  | .memoryFill mi => do
    let mem ← orError .noMemory st.contents.memories[d.maps.mem mi]?
    let (n, st) := st.popAddr mem.is64
    let (byte, st) := st.popI32
    let (di, st) := st.popAddr mem.is64
    memRange di n mem.bytes.length
    let fill := List.replicate n (UInt8.ofNat (byte.toNat % 256))
    let mem' := { mem with bytes := writeAt mem.bytes di fill }
    pure { st with contents.memories := st.contents.memories.set (d.maps.mem mi) mem' }
  | .memoryInit data mi => do
    let mem ← orError .noMemory st.contents.memories[d.maps.mem mi]?
    let seg ← dataSegment d st.contents data
    let (n, st) := st.popI32
    let (src, st) := st.popI32
    let (di, st) := st.popAddr mem.is64
    memRange src.toNat n.toNat seg.length
    memRange di n.toNat mem.bytes.length
    let mem' := { mem with bytes := writeAt mem.bytes di ((seg.drop src.toNat).take n.toNat) }
    pure { st with contents.memories := st.contents.memories.set (d.maps.mem mi) mem' }
  | .dataDrop seg => do
    let dropped ← setSlot st.contents.dataDropped (IndexMaps.get d.maps.data seg) true .undefinedData
    pure { st with contents.dataDropped := dropped }
  | _ => .error .unsupportedInstruction

/-! ## Tables -/

/-- A table size as it is pushed. -/
def Table.pushLen (t : Table) (len : ℕ) : Value :=
  if t.is64 then i64Value (BitVec.ofNat 64 len) else i32Value (BitVec.ofNat 32 len)

/-- The values of an element segment, none once it is dropped. -/
def elemSegmentValues (d : InstanceData) (c : Contents) (seg : ℕ) : Except Trap (List Value) := do
  let ei := IndexMaps.get d.maps.elems seg
  let dropped ← orError .undefinedElement c.elemDropped[ei]?
  if dropped then pure [] else orError .undefinedElement c.elemValues[ei]?

/-- The table instructions. -/
def execTable (d : InstanceData) (limits : ResourceLimits) (st : PlainState) :
    Instr → Except Trap PlainState
  | .tableGet x => do
    let t ← orError .noTable st.contents.tables[d.maps.table x]?
    let (i, st) := st.popAddr t.is64
    let v ← orError .tableOutOfBounds t.entries[i]?
    pure (st.push v)
  | .tableSet x => do
    let t ← orError .noTable st.contents.tables[d.maps.table x]?
    let (v, st) := st.pop
    let (i, st) := st.popAddr t.is64
    let entries ← setSlot t.entries i v .tableOutOfBounds
    pure { st with contents.tables := st.contents.tables.set (d.maps.table x) { t with entries } }
  | .tableSize x => do
    let t ← orError .noTable st.contents.tables[d.maps.table x]?
    pure (st.push (t.pushLen t.entries.length))
  | .tableGrow x => do
    let pools : Pools := { limits, tables := st.contents.tables }
    let (delta, st) := st.pop
    let (init, st) := st.pop
    let (v, p) ← pools.tableGrow (d.maps.table x) delta init
    pure ({ st with contents.tables := p.tables }.push v)
  | .tableFill x => do
    let t ← orError .noTable st.contents.tables[d.maps.table x]?
    let (n, st) := st.popAddr t.is64
    let (v, st) := st.pop
    let (dst, st) := st.popAddr t.is64
    ensure (decide (dst + n ≤ t.entries.length)) .tableOutOfBounds
    let t' := { t with entries := writeAt t.entries dst (List.replicate n v) }
    pure { st with contents.tables := st.contents.tables.set (d.maps.table x) t' }
  | .tableInit elem x => do
    let ei := IndexMaps.get d.maps.elems elem
    let dropped ← orError .undefinedElement st.contents.elemDropped[ei]?
    let t ← orError .noTable st.contents.tables[d.maps.table x]?
    let (n, st) := st.popI32
    let (src, st) := st.popI32
    let (dst, st) := st.popAddr t.is64
    let seg := if dropped then [] else st.contents.elemValues.getD ei []
    ensure (decide (src.toNat + n.toNat ≤ seg.length ∧ dst + n.toNat ≤ t.entries.length))
      .tableOutOfBounds
    let t' := { t with entries := writeAt t.entries dst ((seg.drop src.toNat).take n.toNat) }
    pure { st with contents.tables := st.contents.tables.set (d.maps.table x) t' }
  | .elemDrop elem => do
    let dropped ← setSlot st.contents.elemDropped (IndexMaps.get d.maps.elems elem) true
      .undefinedElement
    pure { st with contents.elemDropped := dropped }
  | .tableCopy dst src => do
    let dt ← orError .noTable st.contents.tables[d.maps.table dst]?
    let stt ← orError .noTable st.contents.tables[d.maps.table src]?
    let (n, st) := st.popAddr (dt.is64 && stt.is64)
    let (si, st) := st.popAddr stt.is64
    let (di, st) := st.popAddr dt.is64
    ensure (decide (si + n ≤ stt.entries.length ∧ di + n ≤ dt.entries.length)) .tableOutOfBounds
    let dt' := { dt with entries := writeAt dt.entries di ((stt.entries.drop si).take n) }
    pure { st with contents.tables := st.contents.tables.set (d.maps.table dst) dt' }
  | _ => .error .unsupportedInstruction

/-! ## Objects -/

/-- Widen a stored field; a packed one is extended as told. -/
def unpackField (storage : StorageType) (v : Value) (signed : Bool) : Value :=
  match storage with
  | .val _ => v
  | .i8 => i32Value (if signed then (v.setWidth 8).signExtend 32 else (v.setWidth 8).setWidth 32)
  | .i16 => i32Value (if signed then (v.setWidth 16).signExtend 32 else (v.setWidth 16).setWidth 32)

/-- The heap index of a non-null object reference, with the object. -/
def gcObjectIndex (c : Contents) (r : Value) : Except Trap (ℕ × HeapObject) := do
  ensure (r != nullRef) .nullReference
  let obj ← orError .gcOutOfBounds c.gcHeap[r.toNat]?
  pure (r.toNat, obj)

namespace PlainState

/-- Allocate an object and push its reference. -/
def alloc (st : PlainState) (limits : ResourceLimits) (owner ti : ℕ) (fields : List Value) :
    Except Trap PlainState := do
  let c := st.contents
  ensure (decide (c.gcHeap.length < limits.maxGcObjects)) .gcHeapExhausted
  let c' := { c with gcHeap := c.gcHeap ++ [HeapObject.mk owner ti fields] }
  pure ({ st with contents := c' }.push (BitVec.ofNat 128 c.gcHeap.length))

/-- Replace the slots of an object. -/
def setFields (st : PlainState) (index : ℕ) (obj : HeapObject) (fields : List Value) : PlainState :=
  { st with contents.gcHeap := st.contents.gcHeap.set index { obj with fields } }

end PlainState

/-- The descriptor of an object: its last slot, if its type declares one. -/
def objectDescriptor (code : List InstanceData) (obj : HeapObject) : Option Value := do
  let owner ← code[obj.owner]?
  let links ← owner.module.typeLinks[obj.typeIndex]?
  let _ ← links.descriptor
  obj.fields.getLast?

/-- Does `v` pass a cast by descriptor? A null does if the target admits it, an object if its descriptor
is the given one. -/
def descEqMatches (code : List InstanceData) (c : Contents) (v desc : Value) (rt : RefType) : Bool :=
  if v = nullRef then rt.nullable
  else if v &&& (i31Tag ||| hostTag ||| externTag) ≠ 0 then false
  else ((c.gcHeap[v.toNat]?).bind (objectDescriptor code)).any (· == desc)

/-- The allocation and access of structs. -/
def execStruct (code : List InstanceData) (inst : ℕ) (d : InstanceData) (limits : ResourceLimits)
    (st : PlainState) : Instr → Except Trap PlainState
  | .structNew ti => do
    let sf ← orError .undefinedType (d.module.structFields ti)
    let (vs, st) ← st.popN sf.length
    st.alloc limits inst ti (sf.zipWith (fun f v => packField f.storage v) vs)
  | .structNewDefault ti => do
    let sf ← orError .undefinedType (d.module.structFields ti)
    st.alloc limits inst ti (sf.map fun f => defaultField f.storage)
  | .structNewDesc ti => do
    let (desc, st) := st.pop
    ensure (desc != nullRef) .nullDescriptor
    let sf ← orError .undefinedType (d.module.structFields ti)
    let (vs, st) ← st.popN sf.length
    st.alloc limits inst ti (sf.zipWith (fun f v => packField f.storage v) vs ++ [desc])
  | .structNewDefaultDesc ti => do
    let (desc, st) := st.pop
    ensure (desc != nullRef) .nullDescriptor
    let sf ← orError .undefinedType (d.module.structFields ti)
    st.alloc limits inst ti (sf.map (fun f => defaultField f.storage) ++ [desc])
  | .refGetDesc _ => do
    let (r, st) := st.pop
    let (_, obj) ← gcObjectIndex st.contents r
    let desc ← orError .undefinedType (objectDescriptor code obj)
    pure (st.push desc)
  | .structGet ext ti field => do
    let (r, st) := st.pop
    let (_, obj) ← gcObjectIndex st.contents r
    let sf ← orError .undefinedType (d.module.structFields ti)
    let f ← orError .gcOutOfBounds sf[field]?
    let v ← orError .gcOutOfBounds obj.fields[field]?
    pure (st.push (unpackField f.storage v (ext == .signed)))
  | .structSet ti field => do
    let (v, st) := st.pop
    let (r, st) := st.pop
    let (idx, obj) ← gcObjectIndex st.contents r
    let sf ← orError .undefinedType (d.module.structFields ti)
    let f ← orError .gcOutOfBounds sf[field]?
    let fields ← setSlot obj.fields field (packField f.storage v) .gcOutOfBounds
    pure (st.setFields idx obj fields)
  | _ => .error .unsupportedInstruction

/-- The width of an array element in a data segment; a reference has none. -/
def dataElemWidth : StorageType → Option ℕ
  | .i8 => some 1
  | .i16 => some 2
  | .val .i32 | .val .f32 => some 4
  | .val .i64 | .val .f64 => some 8
  | .val .v128 => some 16
  | .val _ => none

/-- Read array elements from the bytes of a data segment. -/
def readDataElems (s : StorageType) (bytes : List UInt8) (off n : ℕ) : Except Trap (List Value) := do
  let w ← orError .unsupportedInstruction (dataElemWidth s)
  ensure (decide (off + n * w ≤ bytes.length)) .memoryOutOfBounds
  pure ((List.range n).map fun k =>
    packField s (BitVec.ofNat 128 (leValue ((bytes.drop (off + k * w)).take w))))

/-- The run of array elements a segment instruction reads. -/
def segmentRun (d : InstanceData) (c : Contents) (s : StorageType) (ofData : Bool) (seg off n : ℕ) :
    Except Trap (List Value) := do
  if ofData then
    let bytes ← dataSegment d c seg
    readDataElems s bytes off n
  else
    let vals ← elemSegmentValues d c seg
    ensure (decide (off + n ≤ vals.length)) .tableOutOfBounds
    pure ((vals.drop off).take n)

/-- `array.new_data` and `array.new_elem`. -/
def execArrayNewSeg (inst : ℕ) (d : InstanceData) (limits : ResourceLimits) (st : PlainState)
    (ofData : Bool) (ti seg : ℕ) : Except Trap PlainState := do
  let f ← orError .undefinedType (d.module.arrayField ti)
  let (n, st) := st.popI32
  let (off, st) := st.popI32
  let fields ← segmentRun d st.contents f.storage ofData seg off.toNat n.toNat
  st.alloc limits inst ti fields

/-- `array.init_data` and `array.init_elem`. -/
def execArrayInitSeg (d : InstanceData) (st : PlainState) (ofData : Bool) (ti seg : ℕ) :
    Except Trap PlainState := do
  let f ← orError .undefinedType (d.module.arrayField ti)
  let (n, st) := st.popI32
  let (soff, st) := st.popI32
  let (doff, st) := st.popI32
  let (r, st) := st.pop
  let (idx, obj) ← gcObjectIndex st.contents r
  ensure (decide (doff.toNat + n.toNat ≤ obj.fields.length)) .gcOutOfBounds
  let run ← segmentRun d st.contents f.storage ofData seg soff.toNat n.toNat
  pure (st.setFields idx obj (writeAt obj.fields doff.toNat (run.map (packField f.storage))))

/-- The allocation and access of arrays. -/
def execArray (inst : ℕ) (d : InstanceData) (limits : ResourceLimits) (st : PlainState) :
    Instr → Except Trap PlainState
  | .arrayNew ti => do
    let f ← orError .undefinedType (d.module.arrayField ti)
    let (n, st) := st.popI32
    let (init, st) := st.pop
    st.alloc limits inst ti (List.replicate n.toNat (packField f.storage init))
  | .arrayNewDefault ti => do
    let f ← orError .undefinedType (d.module.arrayField ti)
    let (n, st) := st.popI32
    st.alloc limits inst ti (List.replicate n.toNat (defaultField f.storage))
  | .arrayNewFixed ti n => do
    let f ← orError .undefinedType (d.module.arrayField ti)
    let (vs, st) ← st.popN n
    st.alloc limits inst ti (vs.map (packField f.storage))
  | .arrayNewData ti seg => execArrayNewSeg inst d limits st true ti seg
  | .arrayNewElem ti seg => execArrayNewSeg inst d limits st false ti seg
  | .arrayInitData ti seg => execArrayInitSeg d st true ti seg
  | .arrayInitElem ti seg => execArrayInitSeg d st false ti seg
  | .arrayGet ext ti => do
    let f ← orError .undefinedType (d.module.arrayField ti)
    let (index, st) := st.popI32
    let (r, st) := st.pop
    let (_, obj) ← gcObjectIndex st.contents r
    let v ← orError .gcOutOfBounds obj.fields[index.toNat]?
    pure (st.push (unpackField f.storage v (ext == .signed)))
  | .arraySet ti => do
    let f ← orError .undefinedType (d.module.arrayField ti)
    let (v, st) := st.pop
    let (index, st) := st.popI32
    let (r, st) := st.pop
    let (idx, obj) ← gcObjectIndex st.contents r
    let fields ← setSlot obj.fields index.toNat (packField f.storage v) .gcOutOfBounds
    pure (st.setFields idx obj fields)
  | .arrayLen => do
    let (r, st) := st.pop
    let (_, obj) ← gcObjectIndex st.contents r
    pure (st.push (i32Value (BitVec.ofNat 32 obj.fields.length)))
  | .arrayFill ti => do
    let f ← orError .undefinedType (d.module.arrayField ti)
    let (n, st) := st.popI32
    let (v, st) := st.pop
    let (off, st) := st.popI32
    let (r, st) := st.pop
    let (idx, obj) ← gcObjectIndex st.contents r
    ensure (decide (off.toNat + n.toNat ≤ obj.fields.length)) .gcOutOfBounds
    let fill := List.replicate n.toNat (packField f.storage v)
    pure (st.setFields idx obj (writeAt obj.fields off.toNat fill))
  | .arrayCopy dst src => do
    let df ← orError .undefinedType (d.module.arrayField dst)
    let sf ← orError .undefinedType (d.module.arrayField src)
    let (n, st) := st.popI32
    let (soff, st) := st.popI32
    let (sr, st) := st.pop
    let (_, sobj) ← gcObjectIndex st.contents sr
    let (doff, st) := st.popI32
    let (dr, st) := st.pop
    let (didx, dobj) ← gcObjectIndex st.contents dr
    ensure (decide (doff.toNat + n.toNat ≤ dobj.fields.length ∧
      soff.toNat + n.toNat ≤ sobj.fields.length)) .gcOutOfBounds
    -- the source is read whole before anything is written
    let run := ((sobj.fields.drop soff.toNat).take n.toNat).map fun raw =>
      packField df.storage (unpackField sf.storage raw false)
    pure (st.setFields didx dobj (writeAt dobj.fields doff.toNat run))
  | _ => .error .unsupportedInstruction

/-! ## One plain instruction -/

/-- Constants, parametric instructions and variables. -/
def execVariable (d : InstanceData) (st : PlainState) : Instr → Except Trap PlainState
  | .drop => pure st.pop.2
  | .select | .selectT _ =>
    let (c, st) := st.popI32
    let (b, st) := st.pop
    let (a, st) := st.pop
    pure (st.push (if c ≠ 0 then a else b))
  | .i32Const n => pure (st.push (i32Value n))
  | .i64Const n => pure (st.push (i64Value n))
  | .f32Const bits => pure (st.push (i32Value bits))
  | .f64Const bits => pure (st.push (i64Value bits))
  | .localGet x => do
    let v ← orError .stackUnderflow st.locals[x]?
    pure (st.push v)
  | .localSet x => do
    let (v, st) := st.pop
    let locals ← setSlot st.locals x v .stackUnderflow
    pure { st with locals }
  | .localTee x => do
    let v ← st.top
    let locals ← setSlot st.locals x v .stackUnderflow
    pure { st with locals }
  | .globalGet x => do
    let v ← orError .undefinedGlobal st.contents.globals[IndexMaps.get d.maps.globals x]?
    pure (st.push v)
  | .globalSet x => do
    let (v, st) := st.pop
    let globals ← setSlot st.contents.globals (IndexMaps.get d.maps.globals x) v .undefinedGlobal
    pure { st with contents.globals := globals }
  | _ => .error .unsupportedInstruction

/-- The instructions on references that neither branch nor call. `isMatch` is the test against a
reference type. -/
def execReference (code : List InstanceData) (inst : ℕ) (isMatch : Value → RefType → Bool)
    (st : PlainState) : Instr → Except Trap PlainState
  | .refNull _ => pure (st.push nullRef)
  | .refIsNull =>
    let (r, st) := st.pop
    pure (st.push (i32Value (if r = nullRef then 1 else 0)))
  | .refFunc f => pure (st.push (packFuncref inst f))
  | .refEq =>
    let (b, st) := st.pop
    let (a, st) := st.pop
    pure (st.push (i32Value (if a = b then 1 else 0)))
  | .refAsNonNull => do
    let (r, st) := st.pop
    ensure (r != nullRef) .nullReference
    pure (st.push r)
  | .refTest rt =>
    let (v, st) := st.pop
    pure (st.push (i32Value (if isMatch v rt then 1 else 0)))
  | .refCast rt => do
    let v ← st.top
    ensure (isMatch v rt) .castFailure
    pure st
  | .refCastDescEq rt => do
    let (desc, st) := st.pop
    ensure (desc != nullRef) .nullDescriptor
    let v ← st.top
    ensure (descEqMatches code st.contents v desc rt) .castFailure
    pure st
  | .refI31 =>
    let (x, st) := st.popI32
    pure (st.push (i31Tag ||| i32Value (x &&& 0x7fffffff)))
  | .i31Get signed => do
    let (r, st) := st.pop
    ensure (r != nullRef) .nullReference
    let n := asI32 r
    pure (st.push (i32Value (if signed then (n <<< 1).sshiftRight 1 else n &&& 0x7fffffff)))
  | .anyConvertExtern =>
    let (r, st) := st.pop
    pure (st.push (internalize r))
  | .externConvertAny =>
    let (r, st) := st.pop
    pure (st.push (externalize r))
  | _ => .error .unsupportedInstruction

/-- A vector or atomic instruction, on the operands and the memories. -/
def execOnMemories (st : PlainState)
    (f : List Value → List Memory → Except Trap (List Value × List Memory)) :
    Except Trap PlainState := do
  let (vstack, memories) ← f st.vstack st.contents.memories
  pure { st with vstack, contents.memories := memories }

/-- One plain instruction of instance `inst`, whose data are `d`. -/
def execPlain (ops : Ops) (code : List InstanceData) (inst : ℕ) (d : InstanceData)
    (limits : ResourceLimits) (isMatch : Value → RefType → Bool) (st : PlainState) (i : Instr) :
    Except Trap PlainState :=
  match i with
  | .nop => pure st
  | .unreachable => .error .unreachable
  | .drop | .select | .selectT _ | .i32Const _ | .i64Const _ | .f32Const _ | .f64Const _
  | .localGet _ | .localSet _ | .localTee _ | .globalGet _ | .globalSet _ => execVariable d st i
  | .load .. | .store .. | .memorySize _ | .memoryGrow _ | .memoryInit .. | .dataDrop _
  | .memoryCopy .. | .memoryFill _ => execMemory d limits st i
  | .tableGet _ | .tableSet _ | .tableInit .. | .elemDrop _ | .tableCopy .. | .tableGrow _
  | .tableSize _ | .tableFill _ => execTable d limits st i
  | .refNull _ | .refIsNull | .refFunc _ | .refEq | .refAsNonNull | .refTest _ | .refCast _
  | .refCastDescEq _ | .refI31 | .i31Get _ | .anyConvertExtern | .externConvertAny =>
    execReference code inst isMatch st i
  | .structNew _ | .structNewDefault _ | .structGet .. | .structSet .. | .structNewDesc _
  | .structNewDefaultDesc _ | .refGetDesc _ => execStruct code inst d limits st i
  | .arrayNew _ | .arrayNewDefault _ | .arrayNewFixed .. | .arrayNewData .. | .arrayNewElem ..
  | .arrayGet .. | .arraySet _ | .arrayLen | .arrayFill _ | .arrayCopy .. | .arrayInitData ..
  | .arrayInitElem .. => execArray inst d limits st i
  | .simd s => execOnMemories st (ops.simd d.maps s)
  | .atomic a => execOnMemories st (ops.atomic d.maps a)
  | _ => do
    let vstack ← ops.numeric i st.vstack
    pure { st with vstack }

end Wasmrt
