import Wasmrt.Library.Checks
import Wasmrt.Module
import Wasmrt.Store.Value
import Wasmrt.TypeIdentity.Registry

/-!
# The resource pools of a store

Every memory, table, global and GC object of a linking group lives in one of the pools of its store;
an instance reaches them through index maps. Growing a memory or a table is the only operation that
changes a size once the resource exists.

Host sizes are those of a 64-bit host. Left out of `Pools` are the fields of a running invocation
(fuel, pending and boxed exceptions, backtrace) and from `ResourceLimits` the ceilings that only they
consult.

## Main definitions

* `ResourceLimits`: the ceilings a store enforces.
* `Memory`, `Table`, `HeapObject`, `Pools`: the pools and their entries.
* `Pools.memoryGrow`, `Pools.tableGrow`: the two growing instructions on a slot.

## Main results

* `Pools.memoryGrow_cases`, `Pools.tableGrow_cases`: what a growing instruction does to the pools.
-/

namespace Wasmrt

/-- A runtime trap or an execution-setup error. -/
inductive Trap
  | unreachable | iterationLimitExceeded (limit : ℕ)
  | divByZero | intOverflow | invalidConversionToInt
  | callStackExhausted | undefinedExport | badArgCount
  | undefinedFunc | undefinedGlobal | undefinedLabel | undefinedTag | undefinedType
  | undefinedData | undefinedElement
  | stackUnderflow | unbalancedControl
  | noMemory | memoryOutOfBounds | memoryLimitExceeded | unalignedAtomic | expectedSharedMemory
  | noTable | tableOutOfBounds | tableLimitExceeded | uninitializedElement | indirectTypeMismatch
  | nullReference | nullDescriptor | gcOutOfBounds | gcHeapExhausted | castFailure
  | uncaughtException | exnStoreExhausted
  | constantExpr | unsupportedInstruction
  | missingImport | incompatibleImport | hostTrap
  deriving DecidableEq, Repr

/-- The largest host size. -/
def usizeMax : ℕ := 2 ^ 64 - 1

theorem one_le_usizeMax : 1 ≤ usizeMax := by decide

theorem eight_le_usizeMax : 8 ≤ usizeMax := by decide

/-- The resource ceilings a store enforces on the guests it runs. Each is a host size. -/
structure ResourceLimits where
  /-- Total linear-memory bytes an instance may hold, summed across its memories. -/
  maxMemoryBytes : ℕ
  /-- Total table entries an instance may hold, summed across its tables. -/
  maxTableElems : ℕ
  /-- Maximum live GC objects. -/
  maxGcObjects : ℕ
  memory_le : maxMemoryBytes ≤ usizeMax := by decide
  table_le : maxTableElems ≤ usizeMax := by decide
  gc_le : maxGcObjects ≤ usizeMax := by decide

/-- The shipped defaults. -/
def ResourceLimits.defaults : ResourceLimits where
  maxMemoryBytes := 2 ^ 30
  maxTableElems := 2 ^ 27
  maxGcObjects := 2 ^ 24

/-- A shared linear memory; `max` counts pages of `2 ^ pageSizeLog2` bytes. -/
structure Memory where
  bytes : List UInt8
  max : Option ℕ
  is64 : Bool
  shared : Bool
  pageSizeLog2 : ℕ
  deriving DecidableEq

/-- `pages` pages in bytes; `none` when that is no host size. -/
def pagesToBytes (pages pageSizeLog2 : ℕ) : Option ℕ :=
  if pageSizeLog2 < 64 ∧ pages * 2 ^ pageSizeLog2 ≤ usizeMax then some (pages * 2 ^ pageSizeLog2)
  else none

/-- The current size in pages. -/
def Memory.pages (m : Memory) : ℕ := m.bytes.length >>> m.pageSizeLog2

/-- `pages` pages of this memory in bytes. -/
def Memory.pageBytes (m : Memory) (pages : ℕ) : Option ℕ := pagesToBytes pages m.pageSizeLog2

/-- A reference table. Function and external references share one representation. -/
structure Table where
  entries : List Value
  max : Option ℕ
  element : ValType
  is64 : Bool
  deriving DecidableEq

/-- A GC object: the instance whose module numbers its type, the type, and its slots. -/
structure HeapObject where
  owner : ℕ
  typeIndex : ℕ
  fields : List Value
  deriving DecidableEq

/-- The resource pools shared by every instance of a linking group. -/
structure Pools where
  limits : ResourceLimits := .defaults
  globals : List Value := []
  memories : List Memory := []
  tables : List Table := []
  dataDropped : List Bool := []
  elemValues : List (List Value) := []
  elemDropped : List Bool := []
  tags : List ℕ := []
  gcHeap : List HeapObject := []
  types : TypeRegistry := {}

/-- Cut or extend a list to a length. -/
def resize {α : Type*} (l : List α) (n : ℕ) (fill : α) : List α :=
  l.take n ++ List.replicate (n - l.length) fill

@[simp]
theorem length_resize {α : Type*} (l : List α) (n : ℕ) (fill : α) :
    (resize l n fill).length = n := by
  simp [resize]
  omega

/-! ## Growing a memory -/

/-- The size in bytes `memory.grow` by `delta` pages reaches; `none` when growth is refused. -/
def Memory.growTarget (m : Memory) (byteCeiling delta : ℕ) : Option ℕ :=
  let cap := maxPages m.is64 m.pageSizeLog2
  let limit := min (m.max.getD cap) cap
  let pages := m.pages + delta
  if pages < 2 ^ 64 ∧ pages ≤ limit then (m.pageBytes pages).filter (· ≤ byteCeiling) else none

namespace Pools

/-- `memory.grow` on a store slot: the pushed result and the pools after it. -/
def memoryGrow (p : Pools) (mi : ℕ) (operand : Value) : Except Trap (Value × Pools) := do
  let mem ← orError .noMemory p.memories[mi]?
  let result (pages : ℤ) : Value :=
    if mem.is64 then i64Value (BitVec.ofInt 64 pages) else i32Value (BitVec.ofInt 32 pages)
  match mem.growTarget p.limits.maxMemoryBytes (popMem mem.is64 operand) with
  | some nbytes =>
    let mem' := { mem with bytes := resize mem.bytes nbytes 0 }
    pure (result mem.pages, { p with memories := p.memories.set mi mem' })
  | none => pure (result (-1), p)

/-- What `memory.grow` does: nothing, or it gives one memory the size it reached. -/
theorem memoryGrow_cases {p p' : Pools} {mi : ℕ} {operand v : Value}
    (h : p.memoryGrow mi operand = .ok (v, p')) :
    p' = p ∨ ∃ mem nbytes, p.memories[mi]? = some mem ∧
      mem.growTarget p.limits.maxMemoryBytes (popMem mem.is64 operand) = some nbytes ∧
      p' = { p with memories := p.memories.set mi { mem with bytes := resize mem.bytes nbytes 0 } } := by
  simp only [memoryGrow, Except.bind_eq_ok, orError_eq_ok] at h
  obtain ⟨mem, hmem, h⟩ := h
  cases ht : mem.growTarget p.limits.maxMemoryBytes (popMem mem.is64 operand) with
  | none =>
    simp only [ht, Except.pure_eq_ok, Prod.mk.injEq] at h
    exact .inl h.2.symm
  | some nbytes =>
    simp only [ht, Except.pure_eq_ok, Prod.mk.injEq] at h
    exact .inr ⟨mem, nbytes, hmem, ht, h.2.symm⟩

/-! ## Growing a table -/

end Pools

/-- The length `table.grow` by `delta` entries reaches; `none` when growth is refused. -/
def Table.growTarget (t : Table) (ceiling delta : ℕ) : Option ℕ :=
  let limit := min (t.max.getD ceiling) ceiling
  let n := t.entries.length + delta
  if n ≤ usizeMax ∧ n ≤ limit then some n else none

namespace Pools

/-- `table.grow` on a store slot, new entries set to `init`. -/
def tableGrow (p : Pools) (ti : ℕ) (operand init : Value) : Except Trap (Value × Pools) := do
  let t ← orError .noTable p.tables[ti]?
  let result (len : ℤ) : Value :=
    if t.is64 then i64Value (BitVec.ofInt 64 len) else i32Value (BitVec.ofInt 32 len)
  match t.growTarget p.limits.maxTableElems (popMem t.is64 operand) with
  | some newLen =>
    let t' := { t with entries := resize t.entries newLen init }
    pure (result t.entries.length, { p with tables := p.tables.set ti t' })
  | none => pure (result (-1), p)

/-- What `table.grow` does: nothing, or it gives one table the length it reached. -/
theorem tableGrow_cases {p p' : Pools} {ti : ℕ} {operand init v : Value}
    (h : p.tableGrow ti operand init = .ok (v, p')) :
    p' = p ∨ ∃ t newLen, p.tables[ti]? = some t ∧
      t.growTarget p.limits.maxTableElems (popMem t.is64 operand) = some newLen ∧
      p' = { p with tables := p.tables.set ti { t with entries := resize t.entries newLen init } } := by
  simp only [tableGrow, Except.bind_eq_ok, orError_eq_ok] at h
  obtain ⟨t, ht, h⟩ := h
  cases hg : t.growTarget p.limits.maxTableElems (popMem t.is64 operand) with
  | none =>
    simp only [hg, Except.pure_eq_ok, Prod.mk.injEq] at h
    exact .inl h.2.symm
  | some newLen =>
    simp only [hg, Except.pure_eq_ok, Prod.mk.injEq] at h
    exact .inr ⟨t, newLen, ht, hg, h.2.symm⟩

end Pools

end Wasmrt
