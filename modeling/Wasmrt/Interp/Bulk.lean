import Wasmrt.Interp.Plain
import Wasmrt.Library.BlockMove

/-!
# Bulk instructions, written in place

The interpreter writes memories, tables and arrays in place, so an instruction that trapped halfway would
leave a part of its writes behind. The ten bulk instructions are therefore modelled once more, as steps
that keep what they have written when they abort: a copy within one memory, a copy through a buffer, and
the loops that store one slot a turn are what the source has. An index outside a slice is a panic.

## Main definitions

* `InPlace`: a step on a state that is kept when the step aborts.
* `InPlace.memoryCopy` to `InPlace.arrayInitSeg`: the instructions.
* `AllOrNothing`: an instruction moves one run of slots, or traps and changes nothing.
* `BulkSpec`: what each of the ten instructions does.

## Main results

* `bulk_all_or_nothing`: every bulk instruction does what `BulkSpec` says, in every state.
-/

namespace Wasmrt

open BlockMove

/-- How an instruction ends early: with a trap, or with a panic of the host. -/
inductive Abort
  | trap (t : Trap)
  | panic
  deriving DecidableEq

/-- A step that writes in place: what it has written stays when it aborts. -/
abbrev InPlace := EStateM Abort PlainState

/-! ## Machine words -/

/-- A sum that is no machine word is refused. -/
def checkedAdd (a b : ℕ) : Option ℕ := if a + b < 2 ^ 64 then some (a + b) else none

/-- A product that is no machine word is refused. -/
def checkedMul (a b : ℕ) : Option ℕ := if a * b < 2 ^ 64 then some (a * b) else none

/-- Does the range of `n` slots from `base` end past `len`? -/
def endsPast (base n len : ℕ) : Bool := (checkedAdd base n).all (· > len)

namespace InPlace

variable {α : Type}

def orTrap (t : Trap) : Option α → InPlace α
  | some a => pure a
  | none => throw (.trap t)

def orPanic : Option α → InPlace α
  | some a => pure a
  | none => throw .panic

/-- Trap when the test holds. -/
def trapIf (c : Bool) (t : Trap) : InPlace Unit := if c then throw (.trap t) else pure ()

/-! ## What the instructions read and write -/

def pop : InPlace Value := modifyGet PlainState.pop

def popI32 : InPlace ℕ := do
  let v ← pop
  pure (asI32 v).toNat

def popAddr (is64 : Bool) : InPlace ℕ := do
  let v ← pop
  pure (popMem is64 v)

/-- The start of a range of bytes that ends within `len`. -/
def memRange (base n len : ℕ) : InPlace ℕ :=
  orTrap .memoryOutOfBounds ((checkedAdd base n).bind fun last => if last > len then none else some base)

def memory (slot : ℕ) : InPlace Memory := do
  let st ← get
  orTrap .noMemory st.contents.memories[slot]?

def table (slot : ℕ) : InPlace Table := do
  let st ← get
  orTrap .noTable st.contents.tables[slot]?

/-- The heap index of a non-null object reference. -/
def gcObjectIndex (r : Value) : InPlace ℕ := do
  trapIf (r = nullRef) .nullReference
  let st ← get
  trapIf (st.contents.gcHeap.length ≤ r.toNat) .gcOutOfBounds
  pure r.toNat

/-- The slots of an object on the heap. -/
def fields (index : ℕ) : InPlace (List Value) := do
  let st ← get
  orPanic ((st.contents.gcHeap[index]?).map (·.fields))

/-- The bytes of a data segment, none once it is dropped. -/
def dataBytes (d : InstanceData) (seg : ℕ) : InPlace (List UInt8) := do
  let st ← get
  let dropped ← orTrap .undefinedData st.contents.dataDropped[IndexMaps.get d.maps.data seg]?
  if dropped then pure [] else
    let segment ← orTrap .undefinedData d.module.data[seg]?
    pure segment.bytes

/-- The values of an element segment, none once it is dropped. -/
def elemSegmentValues (d : InstanceData) (seg : ℕ) : InPlace (List Value) := do
  let st ← get
  let ei := IndexMaps.get d.maps.elems seg
  let dropped ← orTrap .undefinedElement st.contents.elemDropped[ei]?
  if dropped then pure [] else orTrap .undefinedElement st.contents.elemValues[ei]?

/-- Write into the bytes of a memory. -/
def onBytes (slot : ℕ) (write : List UInt8 → Option (List UInt8)) : InPlace Unit := do
  let st ← get
  let mem ← orPanic st.contents.memories[slot]?
  let bytes ← orPanic (write mem.bytes)
  set { st with contents.memories := st.contents.memories.set slot { mem with bytes } }

/-- Write into the entries of a table. -/
def onEntries (slot : ℕ) (write : List Value → Option (List Value)) : InPlace Unit := do
  let st ← get
  let t ← orPanic st.contents.tables[slot]?
  let entries ← orPanic (write t.entries)
  set { st with contents.tables := st.contents.tables.set slot { t with entries } }

/-- Write into the slots of an object. -/
def onFields (index : ℕ) (write : List Value → Option (List Value)) : InPlace Unit := do
  let st ← get
  let obj ← orPanic st.contents.gcHeap[index]?
  let fields ← orPanic (write obj.fields)
  set { st with contents.gcHeap := st.contents.gcHeap.set index { obj with fields } }

/-! ## Memories -/

variable (d : InstanceData)

def memoryCopy (dst src : ℕ) : InPlace Unit := do
  let dst := d.maps.mem dst
  let src := d.maps.mem src
  let dstMem ← memory dst
  let srcMem ← memory src
  let n ← popAddr (dstMem.is64 && srcMem.is64)
  let srca ← popAddr srcMem.is64
  let dsta ← popAddr dstMem.is64
  let si ← memRange srca n srcMem.bytes.length
  let di ← memRange dsta n dstMem.bytes.length
  if dst = src then onBytes dst fun bytes => copyWithin bytes si n di
  else do
    let tmp ← orPanic (slice srcMem.bytes si n)
    onBytes dst fun bytes => overwrite bytes di tmp

def memoryFill (mi : ℕ) : InPlace Unit := do
  let mi := d.maps.mem mi
  let mem ← memory mi
  let n ← popAddr mem.is64
  let byte ← popI32
  let dst ← popAddr mem.is64
  let di ← memRange dst n mem.bytes.length
  onBytes mi fun bytes => overwrite bytes di (List.replicate n (UInt8.ofNat (byte % 256)))

def memoryInit (data mem : ℕ) : InPlace Unit := do
  let mi := d.maps.mem mem
  let mem ← memory mi
  let seg ← dataBytes d data
  let n ← popI32
  let src ← popI32
  let dst ← popAddr mem.is64
  let si ← memRange src n seg.length
  let di ← memRange dst n mem.bytes.length
  let run ← orPanic (slice seg si n)
  onBytes mi fun bytes => overwrite bytes di run

/-! ## Tables -/

def tableFill (x : ℕ) : InPlace Unit := do
  let ti := d.maps.table x
  let t ← table ti
  let n ← popAddr t.is64
  let val ← pop
  let dst ← popAddr t.is64
  trapIf (endsPast dst n t.entries.length) .tableOutOfBounds
  onEntries ti fun entries => overwrite entries dst (List.replicate n val)

/-- One turn of the loop of `table.init`. -/
def tableInitTurn (dropped : Bool) (vals : List Value) (ti src dst k : ℕ) : InPlace Unit := do
  let v ← (if dropped then pure nullRef else orPanic vals[src + k]?)
  onEntries ti fun entries => storeAt entries (dst + k) v

def tableInit (elem x : ℕ) : InPlace Unit := do
  let ei := IndexMaps.get d.maps.elems elem
  let ti := d.maps.table x
  let st ← get
  let dropped ← orTrap .undefinedElement st.contents.elemDropped[ei]?
  let t ← table ti
  let n ← popI32
  let src ← popI32
  let dst ← popAddr t.is64
  let vals ← (if dropped then pure [] else orPanic st.contents.elemValues[ei]?)
  trapIf (endsPast src n vals.length || endsPast dst n t.entries.length) .tableOutOfBounds
  (List.range n).forM (tableInitTurn dropped vals ti src dst)

def tableCopy (dst src : ℕ) : InPlace Unit := do
  let di := d.maps.table dst
  let si := d.maps.table src
  let dt ← table di
  let st ← table si
  let n ← popAddr (dt.is64 && st.is64)
  let s ← popAddr st.is64
  let dsto ← popAddr dt.is64
  trapIf (endsPast s n st.entries.length || endsPast dsto n dt.entries.length) .tableOutOfBounds
  if di = si then onEntries di fun entries => copyWithin entries s n dsto
  else do
    let tmp ← orPanic (slice st.entries s n)
    onEntries di fun entries => overwrite entries dsto tmp

/-! ## Arrays -/

/-- Store one value into `n` slots of an object, slot by slot. -/
def fillRun (index off n : ℕ) (v : Value) : InPlace Unit :=
  (List.range n).forM fun k => onFields index fun slots => storeAt slots (off + k) v

/-- Store the values of a run into an object, slot by slot. -/
def storeRun (index off : ℕ) (pack : Value → Value) (run : List Value) : InPlace Unit :=
  run.zipIdx.forM fun (v, k) => onFields index fun slots => storeAt slots (off + k) (pack v)

def arrayFill (ti : ℕ) : InPlace Unit := do
  let f ← orTrap .undefinedType (d.module.arrayField ti)
  let n ← popI32
  let v ← pop
  let off ← popI32
  let idx ← gcObjectIndex (← pop)
  let slots ← fields idx
  trapIf (endsPast off n slots.length) .gcOutOfBounds
  fillRun idx off n (packField f.storage v)

/-- The slot `array.copy` stores for a slot it reads: packed again for the destination. -/
def copied (dst src : StorageType) (raw : Value) : Value := packField dst (unpackField src raw false)

def arrayCopy (dst src : ℕ) : InPlace Unit := do
  let df ← orTrap .undefinedType (d.module.arrayField dst)
  let sf ← orTrap .undefinedType (d.module.arrayField src)
  let n ← popI32
  let soff ← popI32
  let sidx ← gcObjectIndex (← pop)
  let doff ← popI32
  let didx ← gcObjectIndex (← pop)
  let dslots ← fields didx
  let sslots ← fields sidx
  trapIf (endsPast doff n dslots.length || endsPast soff n sslots.length) .gcOutOfBounds
  -- the source is read whole before anything is written
  let run ← (List.range n).mapM fun k => copied df.storage sf.storage <$> orPanic sslots[soff + k]?
  storeRun didx doff id run

/-- Read one array element from its bytes in a data segment. -/
def readDataElem (s : StorageType) (bytes : List UInt8) : Value :=
  packField s (BitVec.ofNat 128 (leValue bytes))

/-- The run a data segment gives `array.init_data`. -/
def dataRun (s : StorageType) (seg soff n : ℕ) : InPlace (List Value) := do
  let bytes ← dataBytes d seg
  let w ← orTrap .unsupportedInstruction (dataElemWidth s)
  let size ← orTrap .memoryOutOfBounds (checkedMul n w)
  let last ← orTrap .memoryOutOfBounds (checkedAdd soff size)
  trapIf (last > bytes.length) .memoryOutOfBounds
  (List.range n).mapM fun k => readDataElem s <$> orPanic (slice bytes (soff + k * w) w)

/-- The run an element segment gives `array.init_elem`. -/
def elemRun (seg soff n : ℕ) : InPlace (List Value) := do
  let vals ← elemSegmentValues d seg
  let last ← orTrap .tableOutOfBounds (checkedAdd soff n)
  trapIf (last > vals.length) .tableOutOfBounds
  orPanic (slice vals soff n)

/-- `array.init_data` and `array.init_elem`. -/
def arrayInitSeg (ofData : Bool) (ti seg : ℕ) : InPlace Unit := do
  let f ← orTrap .undefinedType (d.module.arrayField ti)
  let n ← popI32
  let soff ← popI32
  let doff ← popI32
  let idx ← gcObjectIndex (← pop)
  let slots ← fields idx
  trapIf (endsPast doff n slots.length) .gcOutOfBounds
  let run ← (if ofData then dataRun d f.storage seg soff n else elemRun d seg soff n)
  storeRun idx doff (packField f.storage) run

end InPlace

/-! ## All or nothing -/

namespace Contents

def putBytes (c : Contents) (slot : ℕ) (mem : Memory) (bytes : List UInt8) : Contents :=
  { c with memories := c.memories.set slot { mem with bytes } }

def putEntries (c : Contents) (slot : ℕ) (t : Table) (entries : List Value) : Contents :=
  { c with tables := c.tables.set slot { t with entries } }

def putFields (c : Contents) (index : ℕ) (obj : HeapObject) (fields : List Value) : Contents :=
  { c with gcHeap := c.gcHeap.set index { obj with fields } }

/-- Putting back what a table holds changes nothing. -/
theorem putEntries_self {c : Contents} {slot : ℕ} {t : Table} (h : c.tables[slot]? = some t) :
    c.putEntries slot t t.entries = c := by
  obtain ⟨hlt, ht⟩ := List.getElem?_eq_some_iff.mp h
  rw [putEntries, ← ht, List.set_getElem_self]

/-- Putting back what an object holds changes nothing. -/
theorem putFields_self {c : Contents} {index : ℕ} {obj : HeapObject}
    (h : c.gcHeap[index]? = some obj) : c.putFields index obj obj.fields = c := by
  obtain ⟨hlt, hobj⟩ := List.getElem?_eq_some_iff.mp h
  rw [putFields, ← hobj, List.set_getElem_self]

end Contents

namespace PlainState

/-- The `k`-th operand from the top. -/
def operand (st : PlainState) (k : ℕ) : Value := st.vstack.getD k 0

/-- The state with `k` operands popped. -/
def popped (st : PlainState) (k : ℕ) : PlainState := { st with vstack := st.vstack.drop k }

@[simp]
theorem contents_popped (st : PlainState) (k : ℕ) : (st.popped k).contents = st.contents := rfl

theorem popped_zero (st : PlainState) : st.popped 0 = st := rfl

end PlainState

/-- The instruction traps, and has done nothing but pop operands. -/
def TrapsUnchanged (outcome : EStateM.Result Abort PlainState Unit) (st : PlainState) : Prop :=
  ∃ t k, outcome = .error (.trap t) (st.popped k)

/-- The instruction pops its operands and moves a run of `n` slots from `source` to the slots from `dst`
on of a list, which `put` puts back into the contents; or, when the source or the destination does not
fit, it traps and changes nothing. -/
def AllOrNothing {α : Type} (outcome : EStateM.Result Abort PlainState Unit) (st : PlainState)
    (pops : ℕ) (sourceFits : Prop) (before : List α) (dst n : ℕ) (source : ℕ → Option α)
    (put : List α → Contents) : Prop :=
  (sourceFits ∧ dst + n ≤ before.length →
    ∃ after, outcome = .ok () { st.popped pops with contents := put after } ∧
      Moved before after dst n source) ∧
  (¬(sourceFits ∧ dst + n ≤ before.length) → TrapsUnchanged outcome st)

namespace InPlace

variable {α β : Type}

/-! ### Running a step -/

theorem bind_run (x : InPlace α) (f : α → InPlace β) (st : PlainState) :
    (x >>= f) st = match x st with
      | .ok a st' => f a st'
      | .error e st' => .error e st' := by
  cases h : x st <;> simp [bind, EStateM.bind, h]

theorem bind_of_ok {x : InPlace α} {f : α → InPlace β} {st st' : PlainState} {a : α}
    (h : x st = .ok a st') : (x >>= f) st = f a st' := by
  rw [bind_run, h]

theorem orPanic_some_bind (a : α) (f : α → InPlace β) : (orPanic (some a) >>= f) = f a := rfl

theorem orTrap_some_bind (t : Trap) (a : α) (f : α → InPlace β) : (orTrap t (some a) >>= f) = f a := rfl

theorem pop_popped (st : PlainState) (k : ℕ) :
    pop (st.popped k) = .ok (st.operand k) (st.popped (k + 1)) := by
  show EStateM.Result.ok _ _ = _
  simp [PlainState.popped, PlainState.operand, List.getD_eq_getElem?_getD,
    List.headD_eq_head?_getD, List.head?_drop]

theorem popI32_popped (st : PlainState) (k : ℕ) :
    popI32 (st.popped k) = .ok (asI32 (st.operand k)).toNat (st.popped (k + 1)) := by
  rw [popI32, bind_of_ok (pop_popped st k)]
  rfl

theorem popAddr_popped (is64 : Bool) (st : PlainState) (k : ℕ) :
    popAddr is64 (st.popped k) = .ok (popMem is64 (st.operand k)) (st.popped (k + 1)) := by
  rw [popAddr, bind_of_ok (pop_popped st k)]
  rfl

theorem memory_run {st : PlainState} {slot : ℕ} {mem : Memory}
    (h : st.contents.memories[slot]? = some mem) (k : ℕ) :
    memory slot (st.popped k) = .ok mem (st.popped k) := by
  show orTrap .noMemory st.contents.memories[slot]? (st.popped k) = _
  rw [h]
  rfl

theorem table_run {st : PlainState} {slot : ℕ} {t : Table}
    (h : st.contents.tables[slot]? = some t) (k : ℕ) :
    table slot (st.popped k) = .ok t (st.popped k) := by
  show orTrap .noTable st.contents.tables[slot]? (st.popped k) = _
  rw [h]
  rfl

theorem trapIf_bind (c : Bool) (t : Trap) (f : Unit → InPlace α) (st : PlainState) :
    (trapIf c t >>= f) st = if c then .error (.trap t) st else f () st := by
  cases c <;> rfl

/-- A sum that is no machine word is past every length that is one. -/
theorem endsPast_eq {base n len : ℕ} (hlen : len < 2 ^ 64) :
    endsPast base n len = !decide (base + n ≤ len) := by
  rw [endsPast, checkedAdd]
  split
  · simp only [Option.all_some, ← decide_not, not_le, gt_iff_lt]
  · rw [Option.all_none, decide_eq_false (by omega), Bool.not_false]

theorem trapIf_endsPast_bind {base n len : ℕ} (hlen : len < 2 ^ 64) (t : Trap) (f : Unit → InPlace α)
    (st : PlainState) :
    (trapIf (endsPast base n len) t >>= f) st =
      if base + n ≤ len then f () st else .error (.trap t) st := by
  rw [trapIf_bind, endsPast_eq hlen]
  by_cases h : base + n ≤ len <;> simp [h]

theorem trapIf_or_bind {base n len base' len' : ℕ} (hlen : len < 2 ^ 64) (hlen' : len' < 2 ^ 64)
    (t : Trap) (f : Unit → InPlace α) (st : PlainState) :
    (trapIf (endsPast base n len || endsPast base' n len') t >>= f) st =
      if base + n ≤ len ∧ base' + n ≤ len' then f () st else .error (.trap t) st := by
  rw [trapIf_bind, endsPast_eq hlen, endsPast_eq hlen']
  by_cases h : base + n ≤ len <;> by_cases h' : base' + n ≤ len' <;> simp [h, h']

theorem memRange_bind {base n len : ℕ} (hlen : len < 2 ^ 64) (f : ℕ → InPlace α) (st : PlainState) :
    (memRange base n len >>= f) st =
      if base + n ≤ len then f base st else .error (.trap .memoryOutOfBounds) st := by
  rw [memRange, checkedAdd]
  by_cases h : base + n ≤ len
  · rw [if_pos (by omega), if_pos h, Option.bind_some, if_neg (by omega)]
    rfl
  · rw [if_neg h]
    split
    · rw [Option.bind_some, if_pos (by omega)]
      rfl
    · rfl

theorem onBytes_run {st : PlainState} {slot : ℕ} {mem : Memory}
    (h : st.contents.memories[slot]? = some mem) {write : List UInt8 → Option (List UInt8)}
    {bytes : List UInt8} (hw : write mem.bytes = some bytes) (k : ℕ) :
    onBytes slot write (st.popped k) =
      .ok () { st.popped k with contents := st.contents.putBytes slot mem bytes } := by
  show (orPanic st.contents.memories[slot]? >>= _) (st.popped k) = _
  rw [h]
  show (orPanic (write mem.bytes) >>= _) (st.popped k) = _
  rw [hw]
  rfl

theorem onEntries_run {st : PlainState} {slot : ℕ} {t : Table}
    (h : st.contents.tables[slot]? = some t) {write : List Value → Option (List Value)}
    {entries : List Value} (hw : write t.entries = some entries) (k : ℕ) :
    onEntries slot write (st.popped k) =
      .ok () { st.popped k with contents := st.contents.putEntries slot t entries } := by
  show (orPanic st.contents.tables[slot]? >>= _) (st.popped k) = _
  rw [h]
  show (orPanic (write t.entries) >>= _) (st.popped k) = _
  rw [hw]
  rfl

theorem onFields_run {st : PlainState} {index : ℕ} {obj : HeapObject}
    (h : st.contents.gcHeap[index]? = some obj) {write : List Value → Option (List Value)}
    {slots : List Value} (hw : write obj.fields = some slots) (k : ℕ) :
    onFields index write (st.popped k) =
      .ok () { st.popped k with contents := st.contents.putFields index obj slots } := by
  show (orPanic st.contents.gcHeap[index]? >>= _) (st.popped k) = _
  rw [h]
  show (orPanic (write obj.fields) >>= _) (st.popped k) = _
  rw [hw]
  rfl

/-- One turn of a loop that stores into a table. -/
theorem onEntries_storeAt {st : PlainState} {slot i : ℕ} {t : Table} {l : List Value}
    (h : st.contents.tables[slot]? = some t) (hi : i < l.length) (v : Value) (k : ℕ) :
    onEntries slot (fun entries => storeAt entries i v)
        { st.popped k with contents := st.contents.putEntries slot t l } =
      .ok () { st.popped k with contents := st.contents.putEntries slot t (l.set i v) } := by
  have hlt : slot < st.contents.tables.length := (List.getElem?_eq_some_iff.mp h).1
  have hslot : (st.contents.putEntries slot t l).tables[slot]? = some { t with entries := l } :=
    List.getElem?_set_self hlt
  show (orPanic (st.contents.putEntries slot t l).tables[slot]? >>= _) _ = _
  rw [hslot, orPanic_some_bind]
  show (orPanic (if i < l.length then some (l.set i v) else none) >>= _) _ = _
  rw [if_pos hi, orPanic_some_bind]
  show EStateM.Result.ok _ _ = _
  simp only [Contents.putEntries, List.set_set]

/-- One turn of a loop that stores into an array. -/
theorem onFields_storeAt {st : PlainState} {index i : ℕ} {obj : HeapObject} {l : List Value}
    (h : st.contents.gcHeap[index]? = some obj) (hi : i < l.length) (v : Value) (k : ℕ) :
    onFields index (fun slots => storeAt slots i v)
        { st.popped k with contents := st.contents.putFields index obj l } =
      .ok () { st.popped k with contents := st.contents.putFields index obj (l.set i v) } := by
  have hlt : index < st.contents.gcHeap.length := (List.getElem?_eq_some_iff.mp h).1
  have hslot : (st.contents.putFields index obj l).gcHeap[index]? = some { obj with fields := l } :=
    List.getElem?_set_self hlt
  show (orPanic (st.contents.putFields index obj l).gcHeap[index]? >>= _) _ = _
  rw [hslot, orPanic_some_bind]
  show (orPanic (if i < l.length then some (l.set i v) else none) >>= _) _ = _
  rw [if_pos hi, orPanic_some_bind]
  show EStateM.Result.ok _ _ = _
  simp only [Contents.putFields, List.set_set]

theorem dataBytes_run {st : PlainState} {d : InstanceData} {seg : ℕ} {bytes : List UInt8}
    (h : dataSegment d st.contents seg = .ok bytes) (k : ℕ) :
    dataBytes d seg (st.popped k) = .ok bytes (st.popped k) := by
  simp only [dataSegment, Except.bind_eq_ok, orError_eq_ok] at h
  obtain ⟨dropped, hdropped, h⟩ := h
  show (orTrap .undefinedData st.contents.dataDropped[IndexMaps.get d.maps.data seg]? >>= _) _ = _
  rw [hdropped, orTrap_some_bind]
  cases dropped with
  | true =>
    obtain rfl := Except.pure_eq_ok.mp h
    rfl
  | false =>
    simp only [Bool.false_eq_true, if_false, Except.bind_eq_ok, orError_eq_ok, Except.pure_eq_ok] at h
    obtain ⟨segment, hsegment, rfl⟩ := h
    show (orTrap .undefinedData d.module.data[seg]? >>= _) _ = _
    rw [hsegment]
    rfl

theorem elemSegmentValues_run {st : PlainState} {d : InstanceData} {seg : ℕ} {vals : List Value}
    (h : Wasmrt.elemSegmentValues d st.contents seg = .ok vals) (k : ℕ) :
    elemSegmentValues d seg (st.popped k) = .ok vals (st.popped k) := by
  simp only [Wasmrt.elemSegmentValues, Except.bind_eq_ok, orError_eq_ok] at h
  obtain ⟨dropped, hdropped, h⟩ := h
  show (orTrap .undefinedElement st.contents.elemDropped[IndexMaps.get d.maps.elems seg]? >>= _) _ = _
  rw [hdropped, orTrap_some_bind]
  cases dropped with
  | true =>
    obtain rfl := Except.pure_eq_ok.mp h
    rfl
  | false =>
    simp only [Bool.false_eq_true, if_false, orError_eq_ok] at h
    show orTrap .undefinedElement st.contents.elemValues[IndexMaps.get d.maps.elems seg]? _ = _
    rw [h]
    rfl

theorem gcObjectIndex_run {st : PlainState} {r : Value} {index : ℕ} {obj : HeapObject}
    (h : Wasmrt.gcObjectIndex st.contents r = .ok (index, obj)) (k : ℕ) :
    gcObjectIndex r (st.popped k) = .ok index (st.popped k) ∧
      fields index (st.popped k) = .ok obj.fields (st.popped k) ∧
      st.contents.gcHeap[index]? = some obj := by
  simp only [Wasmrt.gcObjectIndex, Except.bind_eq_ok, ensure_eq_ok, orError_eq_ok, Except.pure_eq_ok,
    bne_iff_ne, Prod.mk.injEq] at h
  obtain ⟨-, hnull, obj, hobj, rfl, rfl⟩ := h
  have hlt : r.toNat < st.contents.gcHeap.length := (List.getElem?_eq_some_iff.mp hobj).1
  refine ⟨?_, ?_, hobj⟩
  · rw [gcObjectIndex, trapIf_bind, decide_eq_false hnull]
    show (trapIf (st.contents.gcHeap.length ≤ r.toNat) .gcOutOfBounds >>= _) _ = _
    rw [trapIf_bind, decide_eq_false (not_le.mpr hlt)]
    rfl
  · show orPanic ((st.contents.gcHeap[r.toNat]?).map (·.fields)) _ = _
    rw [hobj]
    rfl

/-- An operand that is no array traps. -/
theorem gcObjectIndex_error {st : PlainState} {r : Value} {t : Trap}
    (h : Wasmrt.gcObjectIndex st.contents r = .error t) (k : ℕ) :
    gcObjectIndex r (st.popped k) = .error (.trap t) (st.popped k) := by
  by_cases hnull : r = nullRef
  · rw [Wasmrt.gcObjectIndex, hnull] at h
    obtain rfl : Trap.nullReference = t := Except.error.inj h
    rw [gcObjectIndex, trapIf_bind, decide_eq_true hnull]
    rfl
  · have hne : (r != nullRef) = true := bne_iff_ne.mpr hnull
    rw [Wasmrt.gcObjectIndex, hne] at h
    cases hobj : st.contents.gcHeap[r.toNat]? with
    | some obj =>
      rw [hobj] at h
      cases h
    | none =>
      rw [hobj] at h
      obtain rfl : Trap.gcOutOfBounds = t := Except.error.inj h
      rw [gcObjectIndex, trapIf_bind, decide_eq_false hnull]
      show (trapIf (st.contents.gcHeap.length ≤ r.toNat) .gcOutOfBounds >>= _) _ = _
      rw [trapIf_bind, decide_eq_true (List.getElem?_eq_none_iff.mp hobj)]
      rfl

/-- A loop that reads one slot a turn, all of which are there. -/
theorem mapM_orPanic (g : α → β) {read : ℕ → Option α} {value : ℕ → α} {n : ℕ}
    (h : ∀ k < n, read k = some (value k)) (st : PlainState) :
    ((List.range n).mapM fun k => g <$> orPanic (read k)) st =
      .ok ((List.range n).map fun k => g (value k)) st := by
  refine mapM_of_ok (List.range n) fun k hk => ?_
  rw [h k (List.mem_range.mp hk)]
  rfl

theorem fillRun_run {st : PlainState} {index off n : ℕ} {obj : HeapObject}
    (h : st.contents.gcHeap[index]? = some obj) (v : Value) (hd : off + n ≤ obj.fields.length) (k : ℕ) :
    ∃ after, fillRun index off n v (st.popped k) =
      .ok () { st.popped k with contents := st.contents.putFields index obj after } ∧
      Moved obj.fields after off n fun _ => some v := by
  have hlen : (List.range n).length = n := List.length_range
  have hturn : ∀ j b, (List.range n)[j]? = some b → ∀ l' : List Value, l'.length = obj.fields.length →
      onFields index (fun slots => storeAt slots (off + b) v)
        { st.popped k with contents := st.contents.putFields index obj l' } =
      .ok ⟨⟩ { st.popped k with contents := st.contents.putFields index obj (l'.set (off + j) v) } := by
    intro j b hj l' hl'
    obtain ⟨hjn, rfl⟩ : j < n ∧ j = b := by simpa [List.getElem?_eq_some_iff] using hj
    exact onFields_storeAt h (by omega) _ k
  obtain ⟨after, hrun, hmoved⟩ := forM_moved (List.range n) hturn (by rwa [hlen])
  rw [hlen] at hmoved
  rw [Contents.putFields_self h] at hrun
  refine ⟨after, hrun, hmoved.congr fun j hj => ?_⟩
  rw [List.getElem?_range hj]
  rfl

theorem storeRun_run {st : PlainState} {index off : ℕ} {obj : HeapObject}
    (h : st.contents.gcHeap[index]? = some obj) (run : List Value) (pack : Value → Value)
    (hd : off + run.length ≤ obj.fields.length) (k : ℕ) :
    ∃ after, storeRun index off pack run (st.popped k) =
      .ok () { st.popped k with contents := st.contents.putFields index obj after } ∧
      Moved obj.fields after off run.length fun k => run[k]?.map pack := by
  have hlen : run.zipIdx.length = run.length := List.length_zipIdx
  have hget (j : ℕ) : run.zipIdx[j]? = (run[j]?).map fun v => (v, j) := by
    rw [List.getElem?_zipIdx, Nat.zero_add]
  have hturn : ∀ j b, run.zipIdx[j]? = some b → ∀ l' : List Value, l'.length = obj.fields.length →
      onFields index (fun slots => storeAt slots (off + b.2) (pack b.1))
        { st.popped k with contents := st.contents.putFields index obj l' } =
      .ok ⟨⟩ { st.popped k with
        contents := st.contents.putFields index obj (l'.set (off + j) (pack b.1)) } := by
    intro j b hj l' hl'
    have hjn : j < run.length := hlen ▸ (List.getElem?_eq_some_iff.mp hj).1
    obtain ⟨v, -, rfl⟩ := Option.map_eq_some_iff.mp ((hget j).symm.trans hj)
    exact onFields_storeAt h (by omega) _ k
  obtain ⟨after, hrun, hmoved⟩ := forM_moved run.zipIdx hturn (by rwa [hlen])
  rw [hlen] at hmoved
  rw [Contents.putFields_self h] at hrun
  refine ⟨after, hrun, hmoved.congr fun j _ => ?_⟩
  rw [hget, Option.map_map]
  rfl

end InPlace

open InPlace

/-- An outcome decided by one test, which holds when both ranges fit. -/
theorem AllOrNothing.of_ite {α : Type} {good : EStateM.Result Abort PlainState Unit} {st : PlainState}
    {pops : ℕ} {sourceFits P : Prop} [Decidable P] {before : List α} {dst n : ℕ}
    {source : ℕ → Option α} {put : List α → Contents} {t : Trap} (hP : P ↔ sourceFits ∧ dst + n ≤ before.length)
    (hgood : sourceFits → dst + n ≤ before.length →
      ∃ after, good = .ok () { st.popped pops with contents := put after } ∧
        Moved before after dst n source) :
    AllOrNothing (if P then good else .error (.trap t) (st.popped pops)) st pops sourceFits before dst n
      source put := by
  refine ⟨fun h => ?_, fun h => ?_⟩
  · rw [if_pos (hP.mpr h)]
    exact hgood h.1 h.2
  · rw [if_neg (mt hP.mp h)]
    exact ⟨t, pops, rfl⟩

/-- What is moved may be described another way. -/
theorem AllOrNothing.congr {α : Type} {outcome : EStateM.Result Abort PlainState Unit} {st : PlainState}
    {pops : ℕ} {sourceFits : Prop} {before : List α} {dst n : ℕ} {source source' : ℕ → Option α}
    {put : List α → Contents} (h : AllOrNothing outcome st pops sourceFits before dst n source put)
    (hs : ∀ k < n, source k = source' k) :
    AllOrNothing outcome st pops sourceFits before dst n source' put := by
  refine ⟨fun hfits => ?_, h.2⟩
  obtain ⟨after, hrun, hmoved⟩ := h.1 hfits
  exact ⟨after, hrun, hmoved.congr hs⟩

section Memories

variable {d : InstanceData} {st : PlainState}

theorem memoryCopy_allOrNothing {dst src : ℕ} {dm sm : Memory}
    (hdm : st.contents.memories[d.maps.mem dst]? = some dm)
    (hsm : st.contents.memories[d.maps.mem src]? = some sm)
    (hdl : dm.bytes.length < 2 ^ 64) (hsl : sm.bytes.length < 2 ^ 64) {n si di : ℕ}
    (hn : n = popMem (dm.is64 && sm.is64) (st.operand 0)) (hsi : si = popMem sm.is64 (st.operand 1))
    (hdi : di = popMem dm.is64 (st.operand 2)) :
    AllOrNothing (InPlace.memoryCopy d dst src st) st 3 (si + n ≤ sm.bytes.length) dm.bytes di n
      (fun k => sm.bytes[si + k]?) (st.contents.putBytes (d.maps.mem dst) dm) := by
  show AllOrNothing (InPlace.memoryCopy d dst src (st.popped 0)) _ _ _ _ _ _ _ _
  rw [InPlace.memoryCopy, bind_of_ok (memory_run hdm 0), bind_of_ok (memory_run hsm 0),
    bind_of_ok (popAddr_popped _ st 0), ← hn, bind_of_ok (popAddr_popped _ st 1), ← hsi,
    bind_of_ok (popAddr_popped _ st 2), ← hdi, memRange_bind hsl, memRange_bind hdl, ← ite_and]
  refine .of_ite Iff.rfl fun hs hd => ?_
  obtain ⟨after, hafter, hmoved⟩ := moved_slice hs hd
  refine ⟨after, ?_, hmoved⟩
  split
  · rename_i heq
    obtain rfl : dm = sm := Option.some.inj (hdm.symm.trans (heq ▸ hsm))
    exact onBytes_run hdm (by rw [copyWithin_eq hs, hafter]) 3
  · rw [slice_of_le hs, orPanic_some_bind]
    exact onBytes_run hdm hafter 3

theorem memoryFill_allOrNothing {mi : ℕ} {mem : Memory}
    (hmem : st.contents.memories[d.maps.mem mi]? = some mem) (hlen : mem.bytes.length < 2 ^ 64) {n di : ℕ}
    (hn : n = popMem mem.is64 (st.operand 0)) (hdi : di = popMem mem.is64 (st.operand 2)) :
    AllOrNothing (InPlace.memoryFill d mi st) st 3 True mem.bytes di n
      (fun _ => some (UInt8.ofNat ((asI32 (st.operand 1)).toNat % 256)))
      (st.contents.putBytes (d.maps.mem mi) mem) := by
  show AllOrNothing (InPlace.memoryFill d mi (st.popped 0)) _ _ _ _ _ _ _ _
  rw [InPlace.memoryFill, bind_of_ok (memory_run hmem 0), bind_of_ok (popAddr_popped _ st 0), ← hn,
    bind_of_ok (popI32_popped st 1), bind_of_ok (popAddr_popped _ st 2), ← hdi, memRange_bind hlen]
  refine .of_ite (and_iff_right trivial).symm fun _ hd => ?_
  obtain ⟨after, hafter, hmoved⟩ := moved_replicate _ hd
  exact ⟨after, onBytes_run hmem hafter 3, hmoved⟩

theorem memoryInit_allOrNothing {data mi : ℕ} {mem : Memory} {seg : List UInt8}
    (hmem : st.contents.memories[d.maps.mem mi]? = some mem)
    (hseg : dataSegment d st.contents data = .ok seg)
    (hlen : mem.bytes.length < 2 ^ 64) (hsl : seg.length < 2 ^ 64) {n si di : ℕ}
    (hn : n = (asI32 (st.operand 0)).toNat) (hsi : si = (asI32 (st.operand 1)).toNat)
    (hdi : di = popMem mem.is64 (st.operand 2)) :
    AllOrNothing (InPlace.memoryInit d data mi st) st 3 (si + n ≤ seg.length) mem.bytes di n
      (fun k => seg[si + k]?) (st.contents.putBytes (d.maps.mem mi) mem) := by
  show AllOrNothing (InPlace.memoryInit d data mi (st.popped 0)) _ _ _ _ _ _ _ _
  rw [InPlace.memoryInit, bind_of_ok (memory_run hmem 0), bind_of_ok (dataBytes_run hseg 0),
    bind_of_ok (popI32_popped st 0), ← hn, bind_of_ok (popI32_popped st 1), ← hsi, bind_of_ok (popAddr_popped _ st 2), ← hdi,
    memRange_bind hsl, memRange_bind hlen, ← ite_and]
  refine .of_ite Iff.rfl fun hs hd => ?_
  obtain ⟨after, hafter, hmoved⟩ := moved_slice hs hd
  refine ⟨after, ?_, hmoved⟩
  rw [slice_of_le hs, orPanic_some_bind]
  exact onBytes_run hmem hafter 3

end Memories

section Tables

variable {d : InstanceData} {st : PlainState}

theorem tableFill_allOrNothing {x : ℕ} {t : Table} (ht : st.contents.tables[d.maps.table x]? = some t)
    (hlen : t.entries.length < 2 ^ 64) {n di : ℕ} (hn : n = popMem t.is64 (st.operand 0))
    (hdi : di = popMem t.is64 (st.operand 2)) :
    AllOrNothing (InPlace.tableFill d x st) st 3 True t.entries di n (fun _ => some (st.operand 1))
      (st.contents.putEntries (d.maps.table x) t) := by
  show AllOrNothing (InPlace.tableFill d x (st.popped 0)) _ _ _ _ _ _ _ _
  rw [InPlace.tableFill, bind_of_ok (table_run ht 0), bind_of_ok (popAddr_popped _ st 0), ← hn,
    bind_of_ok (pop_popped st 1), bind_of_ok (popAddr_popped _ st 2), ← hdi, trapIf_endsPast_bind hlen]
  refine .of_ite (and_iff_right trivial).symm fun _ hd => ?_
  obtain ⟨after, hafter, hmoved⟩ := moved_replicate _ hd
  exact ⟨after, onEntries_run ht hafter 3, hmoved⟩

theorem tableCopy_allOrNothing {dst src : ℕ} {dt sr : Table}
    (hdt : st.contents.tables[d.maps.table dst]? = some dt)
    (hsr : st.contents.tables[d.maps.table src]? = some sr)
    (hdl : dt.entries.length < 2 ^ 64) (hsl : sr.entries.length < 2 ^ 64) {n si di : ℕ}
    (hn : n = popMem (dt.is64 && sr.is64) (st.operand 0)) (hsi : si = popMem sr.is64 (st.operand 1))
    (hdi : di = popMem dt.is64 (st.operand 2)) :
    AllOrNothing (InPlace.tableCopy d dst src st) st 3 (si + n ≤ sr.entries.length) dt.entries di n
      (fun k => sr.entries[si + k]?) (st.contents.putEntries (d.maps.table dst) dt) := by
  show AllOrNothing (InPlace.tableCopy d dst src (st.popped 0)) _ _ _ _ _ _ _ _
  rw [InPlace.tableCopy, bind_of_ok (table_run hdt 0), bind_of_ok (table_run hsr 0),
    bind_of_ok (popAddr_popped _ st 0), ← hn, bind_of_ok (popAddr_popped _ st 1), ← hsi,
    bind_of_ok (popAddr_popped _ st 2), ← hdi, trapIf_or_bind hsl hdl]
  refine .of_ite Iff.rfl fun hs hd => ?_
  obtain ⟨after, hafter, hmoved⟩ := moved_slice hs hd
  refine ⟨after, ?_, hmoved⟩
  split
  · rename_i heq
    obtain rfl : dt = sr := Option.some.inj (hdt.symm.trans (heq ▸ hsr))
    exact onEntries_run hdt (by rw [copyWithin_eq hs, hafter]) 3
  · rw [slice_of_le hs, orPanic_some_bind]
    exact onEntries_run hdt hafter 3

/-- The loop of `table.init` moves the run. -/
theorem tableInit_loop {x : ℕ} {t : Table} {vals : List Value} {dropped : Bool}
    (ht : st.contents.tables[d.maps.table x]? = some t) (hdropped : dropped = true → vals = [])
    {n si di : ℕ} (hs : si + n ≤ vals.length) (hd : di + n ≤ t.entries.length) (k : ℕ) :
    ∃ after, (List.range n).forM (tableInitTurn dropped vals (d.maps.table x) si di) (st.popped k) =
      .ok () { st.popped k with contents := st.contents.putEntries (d.maps.table x) t after } ∧
      Moved t.entries after di n fun k => vals[si + k]? := by
  have hlen : (List.range n).length = n := List.length_range
  have hturn : ∀ j b, (List.range n)[j]? = some b → ∀ l', l'.length = t.entries.length →
      tableInitTurn dropped vals (d.maps.table x) si di b
        { st.popped k with contents := st.contents.putEntries (d.maps.table x) t l' } =
      .ok ⟨⟩ { st.popped k with
        contents := st.contents.putEntries (d.maps.table x) t (l'.set (di + j) (vals.getD (si + b) 0)) } := by
    intro j b hj l' hl'
    obtain ⟨hjn, rfl⟩ : j < n ∧ j = b := by simpa [List.getElem?_eq_some_iff] using hj
    have hget : vals[si + j]? = some (vals.getD (si + j) 0) := by
      rw [List.getD_eq_getElem?_getD, List.getElem?_eq_getElem (by omega), Option.getD_some]
    cases dropped with
    | true => exact absurd hs (by simp [hdropped rfl]; omega)
    | false =>
      show (orPanic vals[si + j]? >>= _) _ = _
      rw [hget, orPanic_some_bind]
      exact onEntries_storeAt ht (by omega) _ k
  obtain ⟨after, hrun, hmoved⟩ := forM_moved (List.range n) hturn (by rwa [hlen])
  rw [hlen] at hmoved
  rw [Contents.putEntries_self ht] at hrun
  refine ⟨after, hrun, hmoved.congr fun j hj => ?_⟩
  rw [List.getElem?_range hj, Option.map_some, List.getD_eq_getElem?_getD,
    List.getElem?_eq_getElem (by omega), Option.getD_some]

theorem tableInit_allOrNothing {elem x : ℕ} {t : Table} {seg : List Value}
    (ht : st.contents.tables[d.maps.table x]? = some t)
    (hseg : Wasmrt.elemSegmentValues d st.contents elem = .ok seg)
    (hlen : t.entries.length < 2 ^ 64) (hsl : seg.length < 2 ^ 64) {n si di : ℕ}
    (hn : n = (asI32 (st.operand 0)).toNat) (hsi : si = (asI32 (st.operand 1)).toNat)
    (hdi : di = popMem t.is64 (st.operand 2)) :
    AllOrNothing (InPlace.tableInit d elem x st) st 3 (si + n ≤ seg.length) t.entries di n
      (fun k => seg[si + k]?) (st.contents.putEntries (d.maps.table x) t) := by
  simp only [Wasmrt.elemSegmentValues, Except.bind_eq_ok, orError_eq_ok] at hseg
  obtain ⟨dropped, hdropped, hvals⟩ := hseg
  show AllOrNothing ((orTrap .undefinedElement st.contents.elemDropped[IndexMaps.get d.maps.elems elem]?
    >>= _) (st.popped 0)) _ _ _ _ _ _ _ _
  rw [hdropped, orTrap_some_bind, bind_of_ok (table_run ht 0), bind_of_ok (popI32_popped st 0), ← hn,
    bind_of_ok (popI32_popped st 1), ← hsi, bind_of_ok (popAddr_popped _ st 2), ← hdi]
  have hread : (if dropped then pure [] else
      orPanic st.contents.elemValues[IndexMaps.get d.maps.elems elem]? : InPlace (List Value))
      (st.popped 3) = .ok seg (st.popped 3) ∧ (dropped = true → seg = []) := by
    cases dropped with
    | true =>
      obtain rfl := Except.pure_eq_ok.mp hvals
      exact ⟨rfl, fun _ => rfl⟩
    | false =>
      simp only [Bool.false_eq_true, if_false, orError_eq_ok] at hvals
      refine ⟨?_, fun h => absurd h Bool.false_ne_true⟩
      rw [hvals]
      rfl
  rw [bind_of_ok hread.1, trapIf_or_bind hsl hlen]
  refine .of_ite Iff.rfl fun hs hd => ?_
  obtain ⟨after, hrun, hmoved⟩ := tableInit_loop ht hread.2 hs hd 3
  exact ⟨after, hrun, hmoved⟩

end Tables

section Arrays

variable {d : InstanceData} {st : PlainState}

theorem arrayFill_allOrNothing {ti index : ℕ} {f : FieldType} {obj : HeapObject}
    (hf : d.module.arrayField ti = some f)
    (hobj : Wasmrt.gcObjectIndex st.contents (st.operand 3) = .ok (index, obj))
    (hlen : obj.fields.length < 2 ^ 64) {n di : ℕ} (hn : n = (asI32 (st.operand 0)).toNat)
    (hdi : di = (asI32 (st.operand 2)).toNat) :
    AllOrNothing (InPlace.arrayFill d ti st) st 4 True obj.fields di n
      (fun _ => some (packField f.storage (st.operand 1))) (st.contents.putFields index obj) := by
  obtain ⟨hindex, hfields, hheap⟩ := gcObjectIndex_run hobj 4
  show AllOrNothing (InPlace.arrayFill d ti (st.popped 0)) _ _ _ _ _ _ _ _
  rw [InPlace.arrayFill, hf, orTrap_some_bind, bind_of_ok (popI32_popped st 0), ← hn,
    bind_of_ok (pop_popped st 1), bind_of_ok (popI32_popped st 2), ← hdi, bind_of_ok (pop_popped st 3),
    bind_of_ok hindex, bind_of_ok hfields, trapIf_endsPast_bind hlen]
  refine .of_ite (and_iff_right trivial).symm fun _ hd => ?_
  obtain ⟨after, hrun, hmoved⟩ := fillRun_run hheap (packField f.storage (st.operand 1)) hd 4
  exact ⟨after, hrun, hmoved⟩

theorem arrayCopy_allOrNothing {dst src sindex dindex : ℕ} {df sf : FieldType} {sobj dobj : HeapObject}
    (hdf : d.module.arrayField dst = some df) (hsf : d.module.arrayField src = some sf)
    (hsobj : Wasmrt.gcObjectIndex st.contents (st.operand 2) = .ok (sindex, sobj))
    (hdobj : Wasmrt.gcObjectIndex st.contents (st.operand 4) = .ok (dindex, dobj))
    (hdl : dobj.fields.length < 2 ^ 64) (hsl : sobj.fields.length < 2 ^ 64) {n si di : ℕ}
    (hn : n = (asI32 (st.operand 0)).toNat) (hsi : si = (asI32 (st.operand 1)).toNat)
    (hdi : di = (asI32 (st.operand 3)).toNat) :
    AllOrNothing (InPlace.arrayCopy d dst src st) st 5 (si + n ≤ sobj.fields.length) dobj.fields di n
      (fun k => (sobj.fields[si + k]?).map (copied df.storage sf.storage))
      (st.contents.putFields dindex dobj) := by
  obtain ⟨hsindex, -, hsheap⟩ := gcObjectIndex_run hsobj 3
  have hsfields := (gcObjectIndex_run hsobj 5).2.1
  obtain ⟨hdindex, hdfields, hdheap⟩ := gcObjectIndex_run hdobj 5
  show AllOrNothing (InPlace.arrayCopy d dst src (st.popped 0)) _ _ _ _ _ _ _ _
  rw [InPlace.arrayCopy, hdf, orTrap_some_bind, hsf, orTrap_some_bind, bind_of_ok (popI32_popped st 0),
    ← hn, bind_of_ok (popI32_popped st 1), ← hsi, bind_of_ok (pop_popped st 2), bind_of_ok hsindex,
    bind_of_ok (popI32_popped st 3), ← hdi, bind_of_ok (pop_popped st 4), bind_of_ok hdindex,
    bind_of_ok hdfields, bind_of_ok hsfields, trapIf_or_bind hdl hsl]
  refine .of_ite and_comm fun hs hd => ?_
  have hget : ∀ k < n, sobj.fields[si + k]? = some (sobj.fields.getD (si + k) 0) := fun k hk => by
    rw [List.getD_eq_getElem?_getD, List.getElem?_eq_getElem (by omega), Option.getD_some]
  rw [bind_of_ok (mapM_orPanic _ hget (st.popped 5))]
  obtain ⟨after, hrun, hmoved⟩ := storeRun_run hdheap ((List.range n).map fun k =>
    copied df.storage sf.storage (sobj.fields.getD (si + k) 0)) id (by simpa using hd) 5
  rw [List.length_map, List.length_range] at hmoved
  refine ⟨after, hrun, hmoved.congr fun k hk => ?_⟩
  rw [List.getElem?_map, List.getElem?_range hk, hget k hk]
  rfl

theorem dataRun_run {s : StorageType} {seg soff n w : ℕ} {bytes : List UInt8}
    (hseg : dataSegment d st.contents seg = .ok bytes) (hw : dataElemWidth s = some w)
    (hlen : bytes.length < 2 ^ 64) (k : ℕ) :
    dataRun d s seg soff n (st.popped k) =
      if soff + n * w ≤ bytes.length then
        .ok ((List.range n).map fun k => readDataElem s ((bytes.drop (soff + k * w)).take w)) (st.popped k)
      else .error (.trap .memoryOutOfBounds) (st.popped k) := by
  rw [dataRun, bind_of_ok (dataBytes_run hseg k), hw, orTrap_some_bind, checkedMul]
  split
  · rw [orTrap_some_bind, checkedAdd]
    split
    · rw [orTrap_some_bind, trapIf_bind]
      by_cases h : soff + n * w ≤ bytes.length
      · rw [if_pos h, decide_eq_false (by omega)]
        refine mapM_orPanic _ (fun k hk => slice_of_le ?_) _
        have hkw : (k + 1) * w ≤ n * w := Nat.mul_le_mul_right w hk
        rw [Nat.succ_mul] at hkw
        omega
      · rw [if_neg h, decide_eq_true (by omega)]
        rfl
    · rw [if_neg (by omega)]
      rfl
  · rw [if_neg (by omega)]
    rfl

theorem elemRun_run {seg soff n : ℕ} {vals : List Value}
    (hseg : Wasmrt.elemSegmentValues d st.contents seg = .ok vals) (hlen : vals.length < 2 ^ 64) (k : ℕ) :
    elemRun d seg soff n (st.popped k) =
      if soff + n ≤ vals.length then .ok ((vals.drop soff).take n) (st.popped k)
      else .error (.trap .tableOutOfBounds) (st.popped k) := by
  rw [elemRun, bind_of_ok (elemSegmentValues_run hseg k), checkedAdd]
  split
  · rw [orTrap_some_bind, trapIf_bind]
    by_cases h : soff + n ≤ vals.length
    · rw [if_pos h, decide_eq_false (by omega), slice_of_le h]
      rfl
    · rw [if_neg h, decide_eq_true (by omega)]
      rfl
  · rw [if_neg (by omega)]
    rfl

/-- Both `array.init_data` and `array.init_elem`, over a run that is read whole or traps. -/
theorem arrayInitSeg_allOrNothing {ofData : Bool} {ti seg index : ℕ} {f : FieldType} {obj : HeapObject}
    {sourceFits : Prop} [Decidable sourceFits] {n si di : ℕ} {run : List Value} {t : Trap}
    (hf : d.module.arrayField ti = some f)
    (hobj : Wasmrt.gcObjectIndex st.contents (st.operand 3) = .ok (index, obj))
    (hn : n = (asI32 (st.operand 0)).toNat) (hsi : si = (asI32 (st.operand 1)).toNat)
    (hdi : di = (asI32 (st.operand 2)).toNat)
    (hrun : (if ofData then dataRun d f.storage seg si n else elemRun d seg si n) (st.popped 4) =
      if sourceFits then .ok run (st.popped 4) else .error (.trap t) (st.popped 4))
    (hlen : obj.fields.length < 2 ^ 64) (hlrun : sourceFits → run.length = n) :
    AllOrNothing (InPlace.arrayInitSeg d ofData ti seg st) st 4 sourceFits obj.fields di n
      (fun k => (run[k]?).map (packField f.storage)) (st.contents.putFields index obj) := by
  obtain ⟨hindex, hfields, hheap⟩ := gcObjectIndex_run hobj 4
  show AllOrNothing (InPlace.arrayInitSeg d ofData ti seg (st.popped 0)) _ _ _ _ _ _ _ _
  rw [InPlace.arrayInitSeg, hf, orTrap_some_bind, bind_of_ok (popI32_popped st 0), ← hn,
    bind_of_ok (popI32_popped st 1), ← hsi, bind_of_ok (popI32_popped st 2), ← hdi,
    bind_of_ok (pop_popped st 3), bind_of_ok hindex, bind_of_ok hfields, trapIf_endsPast_bind hlen,
    bind_run, hrun]
  refine ⟨fun ⟨hs, hd⟩ => ?_, fun h => ?_⟩
  · rw [if_pos hd, if_pos hs]
    obtain ⟨after, hstore, hmoved⟩ := storeRun_run hheap run (packField f.storage) (hlrun hs ▸ hd) 4
    exact ⟨after, hstore, hlrun hs ▸ hmoved⟩
  · by_cases hd : di + n ≤ obj.fields.length
    · rw [if_pos hd, if_neg fun hs => h ⟨hs, hd⟩]
      exact ⟨t, 4, rfl⟩
    · rw [if_neg hd]
      exact ⟨_, 4, rfl⟩

theorem arrayInitData_allOrNothing {ti seg index w : ℕ} {f : FieldType} {obj : HeapObject}
    {bytes : List UInt8} (hf : d.module.arrayField ti = some f) (hw : dataElemWidth f.storage = some w)
    (hobj : Wasmrt.gcObjectIndex st.contents (st.operand 3) = .ok (index, obj))
    (hseg : dataSegment d st.contents seg = .ok bytes) (hlen : obj.fields.length < 2 ^ 64)
    (hsl : bytes.length < 2 ^ 64) {n si di : ℕ} (hn : n = (asI32 (st.operand 0)).toNat)
    (hsi : si = (asI32 (st.operand 1)).toNat) (hdi : di = (asI32 (st.operand 2)).toNat) :
    AllOrNothing (InPlace.arrayInitSeg d true ti seg st) st 4 (si + n * w ≤ bytes.length) obj.fields di n
      (fun k => some (packField f.storage (readDataElem f.storage ((bytes.drop (si + k * w)).take w))))
      (st.contents.putFields index obj) := by
  have hread : (if true then dataRun d f.storage seg si n else elemRun d seg si n) (st.popped 4) = _ :=
    dataRun_run hseg hw hsl 4
  refine (arrayInitSeg_allOrNothing hf hobj hn hsi hdi hread hlen fun _ => ?_).congr fun k hk => ?_
  · rw [List.length_map, List.length_range]
  · rw [List.getElem?_map, List.getElem?_range hk]
    rfl

theorem arrayInitElem_allOrNothing {ti seg index : ℕ} {f : FieldType} {obj : HeapObject}
    {vals : List Value} (hf : d.module.arrayField ti = some f)
    (hobj : Wasmrt.gcObjectIndex st.contents (st.operand 3) = .ok (index, obj))
    (hseg : Wasmrt.elemSegmentValues d st.contents seg = .ok vals) (hlen : obj.fields.length < 2 ^ 64)
    (hsl : vals.length < 2 ^ 64) {n si di : ℕ} (hn : n = (asI32 (st.operand 0)).toNat)
    (hsi : si = (asI32 (st.operand 1)).toNat) (hdi : di = (asI32 (st.operand 2)).toNat) :
    AllOrNothing (InPlace.arrayInitSeg d false ti seg st) st 4 (si + n ≤ vals.length) obj.fields di n
      (fun k => (vals[si + k]?).map (packField f.storage)) (st.contents.putFields index obj) := by
  have hread : (if false then dataRun d f.storage seg si n else elemRun d seg si n) (st.popped 4) = _ :=
    elemRun_run hseg hsl 4
  refine (arrayInitSeg_allOrNothing hf hobj hn hsi hdi hread hlen length_slice).congr fun k hk => ?_
  rw [getElem?_slice hk]

theorem arrayInitSeg_noArray {ofData : Bool} {ti seg : ℕ} {f : FieldType} {t : Trap}
    (hf : d.module.arrayField ti = some f)
    (h : Wasmrt.gcObjectIndex st.contents (st.operand 3) = .error t) :
    TrapsUnchanged (InPlace.arrayInitSeg d ofData ti seg st) st := by
  refine ⟨t, 4, ?_⟩
  show InPlace.arrayInitSeg d ofData ti seg (st.popped 0) = _
  rw [InPlace.arrayInitSeg, hf, orTrap_some_bind, bind_of_ok (popI32_popped st 0),
    bind_of_ok (popI32_popped st 1), bind_of_ok (popI32_popped st 2), bind_of_ok (pop_popped st 3),
    bind_run, gcObjectIndex_error h]

theorem arrayFill_noArray {ti : ℕ} {f : FieldType} {t : Trap} (hf : d.module.arrayField ti = some f)
    (h : Wasmrt.gcObjectIndex st.contents (st.operand 3) = .error t) :
    TrapsUnchanged (InPlace.arrayFill d ti st) st := by
  refine ⟨t, 4, ?_⟩
  show InPlace.arrayFill d ti (st.popped 0) = _
  rw [InPlace.arrayFill, hf, orTrap_some_bind, bind_of_ok (popI32_popped st 0),
    bind_of_ok (pop_popped st 1), bind_of_ok (popI32_popped st 2), bind_of_ok (pop_popped st 3),
    bind_run, gcObjectIndex_error h]

theorem arrayCopy_noArray {dst src : ℕ} {df sf : FieldType} {t : Trap}
    (hdf : d.module.arrayField dst = some df) (hsf : d.module.arrayField src = some sf)
    (h : Wasmrt.gcObjectIndex st.contents (st.operand 2) = .error t ∨
      Wasmrt.gcObjectIndex st.contents (st.operand 4) = .error t) :
    TrapsUnchanged (InPlace.arrayCopy d dst src st) st := by
  show TrapsUnchanged (InPlace.arrayCopy d dst src (st.popped 0)) st
  rw [InPlace.arrayCopy, hdf, orTrap_some_bind, hsf, orTrap_some_bind, bind_of_ok (popI32_popped st 0),
    bind_of_ok (popI32_popped st 1), bind_of_ok (pop_popped st 2)]
  cases hsrc : Wasmrt.gcObjectIndex st.contents (st.operand 2) with
  | error t' => exact ⟨t', 3, by rw [bind_run, gcObjectIndex_error hsrc]⟩
  | ok found =>
    have hdst := h.resolve_left (by simp [hsrc])
    rw [bind_of_ok (gcObjectIndex_run hsrc 3).1, bind_of_ok (popI32_popped st 3),
      bind_of_ok (pop_popped st 4)]
    exact ⟨t, 5, by rw [bind_run, gcObjectIndex_error hdst]⟩

end Arrays

/-! ## The ten instructions -/

/-- Every list is shorter than the address space, as those of the host are. -/
structure Addressable (d : InstanceData) (c : Contents) : Prop where
  memories : ∀ mem ∈ c.memories, mem.bytes.length < 2 ^ 64
  tables : ∀ t ∈ c.tables, t.entries.length < 2 ^ 64
  objects : ∀ obj ∈ c.gcHeap, obj.fields.length < 2 ^ 64
  elems : ∀ vals ∈ c.elemValues, vals.length < 2 ^ 64
  data : ∀ segment ∈ d.module.data, segment.bytes.length < 2 ^ 64

namespace Addressable

variable {d : InstanceData} {c : Contents}

theorem memory (h : Addressable d c) {slot : ℕ} {mem : Memory} (hmem : c.memories[slot]? = some mem) :
    mem.bytes.length < 2 ^ 64 := h.memories mem (List.mem_of_getElem? hmem)

theorem table (h : Addressable d c) {slot : ℕ} {t : Table} (ht : c.tables[slot]? = some t) :
    t.entries.length < 2 ^ 64 := h.tables t (List.mem_of_getElem? ht)

theorem object (h : Addressable d c) {r : Value} {index : ℕ} {obj : HeapObject}
    (hobj : gcObjectIndex c r = .ok (index, obj)) : obj.fields.length < 2 ^ 64 := by
  simp only [gcObjectIndex, Except.bind_eq_ok, orError_eq_ok, Except.pure_eq_ok, Prod.mk.injEq] at hobj
  obtain ⟨-, -, obj', hget, -, rfl⟩ := hobj
  exact h.objects obj' (List.mem_of_getElem? hget)

theorem dataSegment (h : Addressable d c) {seg : ℕ} {bytes : List UInt8}
    (hseg : dataSegment d c seg = .ok bytes) : bytes.length < 2 ^ 64 := by
  simp only [Wasmrt.dataSegment, Except.bind_eq_ok, orError_eq_ok] at hseg
  obtain ⟨dropped, -, hseg⟩ := hseg
  split at hseg
  · obtain rfl := Except.pure_eq_ok.mp hseg
    exact Nat.two_pow_pos 64
  · simp only [Except.bind_eq_ok, orError_eq_ok, Except.pure_eq_ok] at hseg
    obtain ⟨segment, hget, rfl⟩ := hseg
    exact h.data segment (List.mem_of_getElem? hget)

theorem elemSegment (h : Addressable d c) {seg : ℕ} {vals : List Value}
    (hseg : elemSegmentValues d c seg = .ok vals) : vals.length < 2 ^ 64 := by
  simp only [elemSegmentValues, Except.bind_eq_ok, orError_eq_ok] at hseg
  obtain ⟨dropped, -, hseg⟩ := hseg
  split at hseg
  · obtain rfl := Except.pure_eq_ok.mp hseg
    exact Nat.two_pow_pos 64
  · exact h.elems vals (List.mem_of_getElem? (orError_eq_ok.mp hseg))

end Addressable

namespace PlainState

/-- The `k`-th operand as an `i32`, unsigned. -/
def i32 (st : PlainState) (k : ℕ) : ℕ := (asI32 (st.operand k)).toNat

/-- The `k`-th operand as an address or count of a memory or table. -/
def addr (st : PlainState) (is64 : Bool) (k : ℕ) : ℕ := popMem is64 (st.operand k)

end PlainState

/-- What the ten bulk instructions do in a state. A segment is that of `dataSegment` and
`elemSegmentValues`, empty once it is dropped; an operand that is no array is one that `gcObjectIndex`
refuses. -/
structure BulkSpec (d : InstanceData) (st : PlainState) : Prop where
  memoryCopy {dst src : ℕ} {dm sm : Memory} :
    st.contents.memories[d.maps.mem dst]? = some dm → st.contents.memories[d.maps.mem src]? = some sm →
    AllOrNothing (InPlace.memoryCopy d dst src st) st 3
      (st.addr sm.is64 1 + st.addr (dm.is64 && sm.is64) 0 ≤ sm.bytes.length)
      dm.bytes (st.addr dm.is64 2) (st.addr (dm.is64 && sm.is64) 0)
      (fun k => sm.bytes[st.addr sm.is64 1 + k]?) (st.contents.putBytes (d.maps.mem dst) dm)
  memoryFill {mi : ℕ} {mem : Memory} : st.contents.memories[d.maps.mem mi]? = some mem →
    AllOrNothing (InPlace.memoryFill d mi st) st 3 True mem.bytes (st.addr mem.is64 2)
      (st.addr mem.is64 0) (fun _ => some (UInt8.ofNat (st.i32 1 % 256)))
      (st.contents.putBytes (d.maps.mem mi) mem)
  memoryInit {data mi : ℕ} {mem : Memory} {seg : List UInt8} :
    st.contents.memories[d.maps.mem mi]? = some mem → dataSegment d st.contents data = .ok seg →
    AllOrNothing (InPlace.memoryInit d data mi st) st 3 (st.i32 1 + st.i32 0 ≤ seg.length) mem.bytes
      (st.addr mem.is64 2) (st.i32 0) (fun k => seg[st.i32 1 + k]?)
      (st.contents.putBytes (d.maps.mem mi) mem)
  tableCopy {dst src : ℕ} {dt sr : Table} :
    st.contents.tables[d.maps.table dst]? = some dt → st.contents.tables[d.maps.table src]? = some sr →
    AllOrNothing (InPlace.tableCopy d dst src st) st 3
      (st.addr sr.is64 1 + st.addr (dt.is64 && sr.is64) 0 ≤ sr.entries.length)
      dt.entries (st.addr dt.is64 2) (st.addr (dt.is64 && sr.is64) 0)
      (fun k => sr.entries[st.addr sr.is64 1 + k]?) (st.contents.putEntries (d.maps.table dst) dt)
  tableFill {x : ℕ} {t : Table} : st.contents.tables[d.maps.table x]? = some t →
    AllOrNothing (InPlace.tableFill d x st) st 3 True t.entries (st.addr t.is64 2) (st.addr t.is64 0)
      (fun _ => some (st.operand 1)) (st.contents.putEntries (d.maps.table x) t)
  tableInit {elem x : ℕ} {t : Table} {seg : List Value} :
    st.contents.tables[d.maps.table x]? = some t → elemSegmentValues d st.contents elem = .ok seg →
    AllOrNothing (InPlace.tableInit d elem x st) st 3 (st.i32 1 + st.i32 0 ≤ seg.length) t.entries
      (st.addr t.is64 2) (st.i32 0) (fun k => seg[st.i32 1 + k]?)
      (st.contents.putEntries (d.maps.table x) t)
  arrayCopy {dst src sindex dindex : ℕ} {df sf : FieldType} {sobj dobj : HeapObject} :
    d.module.arrayField dst = some df → d.module.arrayField src = some sf →
    gcObjectIndex st.contents (st.operand 2) = .ok (sindex, sobj) →
    gcObjectIndex st.contents (st.operand 4) = .ok (dindex, dobj) →
    AllOrNothing (InPlace.arrayCopy d dst src st) st 5 (st.i32 1 + st.i32 0 ≤ sobj.fields.length)
      dobj.fields (st.i32 3) (st.i32 0)
      (fun k => (sobj.fields[st.i32 1 + k]?).map (copied df.storage sf.storage))
      (st.contents.putFields dindex dobj)
  arrayFill {ti index : ℕ} {f : FieldType} {obj : HeapObject} :
    d.module.arrayField ti = some f → gcObjectIndex st.contents (st.operand 3) = .ok (index, obj) →
    AllOrNothing (InPlace.arrayFill d ti st) st 4 True obj.fields (st.i32 2) (st.i32 0)
      (fun _ => some (packField f.storage (st.operand 1))) (st.contents.putFields index obj)
  arrayInitData {ti seg index w : ℕ} {f : FieldType} {obj : HeapObject} {bytes : List UInt8} :
    d.module.arrayField ti = some f → dataElemWidth f.storage = some w →
    dataSegment d st.contents seg = .ok bytes →
    gcObjectIndex st.contents (st.operand 3) = .ok (index, obj) →
    AllOrNothing (InPlace.arrayInitSeg d true ti seg st) st 4 (st.i32 1 + st.i32 0 * w ≤ bytes.length)
      obj.fields (st.i32 2) (st.i32 0)
      (fun k => some (packField f.storage (readDataElem f.storage ((bytes.drop (st.i32 1 + k * w)).take w))))
      (st.contents.putFields index obj)
  arrayInitElem {ti seg index : ℕ} {f : FieldType} {obj : HeapObject} {vals : List Value} :
    d.module.arrayField ti = some f → elemSegmentValues d st.contents seg = .ok vals →
    gcObjectIndex st.contents (st.operand 3) = .ok (index, obj) →
    AllOrNothing (InPlace.arrayInitSeg d false ti seg st) st 4 (st.i32 1 + st.i32 0 ≤ vals.length)
      obj.fields (st.i32 2) (st.i32 0)
      (fun k => (vals[st.i32 1 + k]?).map (packField f.storage)) (st.contents.putFields index obj)
  arrayCopy_noArray {dst src : ℕ} {df sf : FieldType} {t : Trap} :
    d.module.arrayField dst = some df → d.module.arrayField src = some sf →
    gcObjectIndex st.contents (st.operand 2) = .error t ∨
      gcObjectIndex st.contents (st.operand 4) = .error t →
    TrapsUnchanged (InPlace.arrayCopy d dst src st) st
  arrayFill_noArray {ti : ℕ} {f : FieldType} {t : Trap} : d.module.arrayField ti = some f →
    gcObjectIndex st.contents (st.operand 3) = .error t →
    TrapsUnchanged (InPlace.arrayFill d ti st) st
  arrayInitSeg_noArray {ofData : Bool} {ti seg : ℕ} {f : FieldType} {t : Trap} :
    d.module.arrayField ti = some f → gcObjectIndex st.contents (st.operand 3) = .error t →
    TrapsUnchanged (InPlace.arrayInitSeg d ofData ti seg st) st

/-- Two storage types a copy is accepted between: both packed alike, or neither packed. -/
def SamePacking : StorageType → StorageType → Prop
  | .i8, .i8 | .i16, .i16 | .val _, .val _ => True
  | _, _ => False

/-- Packing keeps the bits a packed slot is read from. -/
theorem setWidth_packed {w : ℕ} (hw : w ≤ 32) {mask : Value} (hmask : mask.toNat = 2 ^ w - 1)
    (raw : Value) :
    (i32Value ((raw.setWidth w).setWidth 32) &&& mask).setWidth w = raw.setWidth w := by
  apply BitVec.eq_of_toNat_eq
  have hlt : raw.toNat % 2 ^ w < 2 ^ 32 :=
    lt_of_lt_of_le (Nat.mod_lt _ (Nat.two_pow_pos w)) (Nat.pow_le_pow_right (by decide) hw)
  simp only [i32Value, BitVec.toNat_setWidth, BitVec.toNat_and, hmask, Nat.and_two_pow_sub_one_eq_mod]
  rw [Nat.mod_eq_of_lt hlt, Nat.mod_eq_of_lt (lt_trans hlt (by decide)), Nat.mod_mod, Nat.mod_mod]

/-- A copied slot reads as the slot it was copied from. -/
theorem unpackField_copied {dst src : StorageType} (h : SamePacking dst src) (raw : Value) (signed : Bool) :
    unpackField dst (copied dst src raw) signed = unpackField src raw signed := by
  cases dst with
  | val t =>
    cases src with
    | val t' => rfl
    | _ => cases h
  | i8 =>
    cases src with
    | i8 =>
      have hbits : (copied .i8 .i8 raw).setWidth 8 = raw.setWidth 8 :=
        setWidth_packed (by decide) (by decide) raw
      simp only [unpackField, hbits]
    | _ => cases h
  | i16 =>
    cases src with
    | i16 =>
      have hbits : (copied .i16 .i16 raw).setWidth 16 = raw.setWidth 16 :=
        setWidth_packed (by decide) (by decide) raw
      simp only [unpackField, hbits]
    | _ => cases h

/-- Every bulk instruction moves exactly one run of slots, as the source was before, or traps and changes
nothing; and a slot copied between arrays reads as the slot it was copied from. -/
theorem bulk_all_or_nothing (d : InstanceData) (st : PlainState) (hst : Addressable d st.contents) :
    BulkSpec d st ∧ ∀ dst src raw signed, SamePacking dst src →
      unpackField dst (copied dst src raw) signed = unpackField src raw signed := by
  refine ⟨?_, fun dst src raw signed h => unpackField_copied h raw signed⟩
  exact {
    memoryCopy := fun hdm hsm =>
      memoryCopy_allOrNothing hdm hsm (hst.memory hdm) (hst.memory hsm) rfl rfl rfl
    memoryFill := fun hmem => memoryFill_allOrNothing hmem (hst.memory hmem) rfl rfl
    memoryInit := fun hmem hseg =>
      memoryInit_allOrNothing hmem hseg (hst.memory hmem) (hst.dataSegment hseg) rfl rfl rfl
    tableCopy := fun hdt hsr =>
      tableCopy_allOrNothing hdt hsr (hst.table hdt) (hst.table hsr) rfl rfl rfl
    tableFill := fun ht => tableFill_allOrNothing ht (hst.table ht) rfl rfl
    tableInit := fun ht hseg =>
      tableInit_allOrNothing ht hseg (hst.table ht) (hst.elemSegment hseg) rfl rfl rfl
    arrayCopy := fun hdf hsf hsobj hdobj =>
      arrayCopy_allOrNothing hdf hsf hsobj hdobj (hst.object hdobj) (hst.object hsobj) rfl rfl rfl
    arrayFill := fun hf hobj => arrayFill_allOrNothing hf hobj (hst.object hobj) rfl rfl
    arrayInitData := fun hf hw hseg hobj =>
      arrayInitData_allOrNothing hf hw hobj hseg (hst.object hobj) (hst.dataSegment hseg) rfl rfl rfl
    arrayInitElem := fun hf hseg hobj =>
      arrayInitElem_allOrNothing hf hobj hseg (hst.object hobj) (hst.elemSegment hseg) rfl rfl rfl
    arrayCopy_noArray := arrayCopy_noArray
    arrayFill_noArray := arrayFill_noArray
    arrayInitSeg_noArray := arrayInitSeg_noArray }

/-- A 32-bit memory of four bytes. -/
def fourBytes : Memory := ⟨[1, 2, 3, 4], none, false, false, 16⟩

/-- Three of the four bytes are to be copied one byte up. -/
def overlapState : PlainState where
  locals := []
  vstack := [3, 0, 1]
  contents := ⟨[], [fourBytes], [], [], [], [], []⟩

/-- An instance whose only memory is the first of its store. -/
def oneMemory : InstanceData := ⟨{}, [], [], { memories := [0] }, []⟩

theorem bulk_all_or_nothing_overlap :
    ∃ after, InPlace.memoryCopy oneMemory 0 0 overlapState =
        .ok () { overlapState.popped 3 with contents := overlapState.contents.putBytes 0 fourBytes after } ∧
      Moved [1, 2, 3, 4] after 1 3 fun k => [1, 2, 3, 4][0 + k]? := by
  have hmem : overlapState.contents.memories[oneMemory.maps.mem 0]? = some fourBytes := rfl
  have hst : Addressable oneMemory overlapState.contents :=
    ⟨by decide, by decide, by decide, by decide, by decide⟩
  exact ((bulk_all_or_nothing oneMemory overlapState hst).1.memoryCopy hmem hmem).1 (by decide)

/-- An instance with one array type, of mutable bytes. -/
def byteArrays : InstanceData := ⟨{ compTypes := [.array ⟨.i8, true⟩] }, [], [], {}, []⟩

/-- No slot of a null array is to be filled. -/
def nullArrayState : PlainState where
  locals := []
  vstack := [0, 0, 0, nullRef]
  contents := ⟨[], [], [], [], [], [], []⟩

/-- A null array traps although no range ends past a bound. -/
theorem arrayFill_null :
    nullArrayState.i32 0 = 0 ∧ nullArrayState.i32 2 = 0 ∧
      InPlace.arrayFill byteArrays 0 nullArrayState =
        .error (.trap .nullReference) (nullArrayState.popped 4) :=
  ⟨rfl, rfl, rfl⟩

end Wasmrt
