import Mathlib.Algebra.Group.Action.Defs
import Mathlib.Algebra.Order.BigOperators.Group.List
import Mathlib.Algebra.Order.Ring.Nat
import Mathlib.Data.BitVec
import Mathlib.Data.FinEnum
import Mathlib.Data.List.MinMax
import Mathlib.Tactic.Common
import Wasmrt.Interp.LocalInit

/-!
# The slots of GC objects

An object has a slot for each of its fields or elements. The types, the immediates and the segments of a
module say how many for most of the instructions that allocate. `array.new` and `array.new_default` take
the number from an operand.

## Main definitions

* `Module.staticSlots`: the most slots that a module by itself gives an object.
* `Instr.askedSlots`: the length an instruction takes from an operand.
* `Contents.Within`: the objects are no more than they may be, and none has more slots than a bound.

## Main results

* `within_execPlain`, `Config.within_step`: an instruction and a step of the machine keep to the bound, if
  the length it asks for does.
* `Config.pools_of_fail`: an instruction that traps leaves the pools alone.
-/

namespace Wasmrt

/-! ## How many slots an object gets -/

/-- The most slots a type by itself gives an object: the fields of a struct, and its descriptor. -/
def CompType.slots : CompType → ℕ
  | .struct fields => fields.length + 1
  | _ => 0

/-- The number of elements an instruction states. -/
def Instr.statedSlots : Instr → ℕ
  | .arrayNewFixed _ n => n
  | _ => 0

/-- The length an instruction takes from the operand on top. -/
def Instr.askedSlots (i : Instr) (vstack : List Value) : ℕ :=
  match i with
  | .arrayNew _ | .arrayNewDefault _ => (asI32 (vstack.headD 0)).toNat
  | _ => 0

namespace Module

variable (m : Module)

/-- The constant expressions in which objects may be allocated. -/
def initialisers : List ConstExpr :=
  m.globalInits ++ m.tables.filterMap (·.init) ++ m.elements.flatMap (·.exprs)

/-- The numbers of slots that a module states: by a struct type, by an immediate of a body or of a constant
expression, or by a segment. -/
def statedSlots : List ℕ :=
  m.compTypes.map CompType.slots ++ (m.code.flatMap (·.ir)).map Instr.statedSlots ++
    m.initialisers.flatten.map Instr.statedSlots ++ m.data.map (·.bytes.length) ++
      m.elements.map fun e => e.funcs.length + e.exprs.length

/-- The most slots that a module by itself gives an object. -/
def staticSlots : ℕ := m.statedSlots.foldr max 0

end Module

/-- No number of slots a module states is above `B`. -/
structure Module.SlotsWithin (m : Module) (B : ℕ) : Prop where
  struct : ∀ {ti : ℕ} {sf : List FieldType}, m.structFields ti = some sf → sf.length + 1 ≤ B
  code : ∀ c ∈ m.code, ∀ i ∈ c.ir, i.statedSlots ≤ B
  initialiser : ∀ expr ∈ m.initialisers, ∀ i ∈ expr, i.statedSlots ≤ B
  data : ∀ seg ∈ m.data, seg.bytes.length ≤ B
  element : ∀ e ∈ m.elements, e.funcs.length + e.exprs.length ≤ B

theorem Module.slotsWithin {m : Module} {B : ℕ} (h : m.staticSlots ≤ B) : m.SlotsWithin B := by
  have hle {n : ℕ} (hn : n ∈ m.statedSlots) : n ≤ B := (List.le_max_of_le' 0 hn le_rfl).trans h
  simp only [statedSlots, List.mem_append, List.mem_map] at hle
  refine ⟨fun {ti sf} hsf => ?_, fun c hc i hi => ?_, fun expr hexpr i hi => ?_, fun seg hseg => ?_, fun e he => ?_⟩
  · apply hle
    refine .inl (.inl (.inl (.inl ⟨.struct sf, ?_, rfl⟩)))
    unfold TypeSection.structFields at hsf
    split at hsf
    · next heq =>
      obtain rfl := Option.some.inj hsf
      exact List.mem_of_getElem? heq
    · cases hsf
  · exact hle (.inl (.inl (.inl (.inr ⟨i, List.mem_flatMap.mpr ⟨c, hc, hi⟩, rfl⟩))))
  · exact hle (.inl (.inl (.inr ⟨i, List.mem_flatten.mpr ⟨expr, hexpr, hi⟩, rfl⟩)))
  · exact hle (.inl (.inr ⟨seg, hseg, rfl⟩))
  · exact hle (.inr ⟨e, he, rfl⟩)

/-- The slots of all objects. -/
def Pools.heldSlots (p : Pools) : ℕ := (p.gcHeap.map (·.fields.length)).sum

/-- There are no more objects than there may be, and no object and no element segment has more slots than `B`. -/
structure Contents.Within (limits : ResourceLimits) (B : ℕ) (c : Contents) : Prop where
  count : c.gcHeap.length ≤ limits.maxGcObjects
  object : ∀ o ∈ c.gcHeap, o.fields.length ≤ B
  segment : ∀ vals ∈ c.elemValues, vals.length ≤ B

/-- The pools of a store with these limits, whose contents keep to the bound. -/
structure Pools.Within (limits : ResourceLimits) (B : ℕ) (p : Pools) : Prop where
  limits_eq : p.limits = limits
  contents : p.contents.Within limits B

/-- All objects together hold no more than the ceiling times the bound. -/
theorem Pools.Within.heldSlots_le {limits : ResourceLimits} {B : ℕ} {p : Pools} (h : p.Within limits B) :
    p.heldSlots ≤ limits.maxGcObjects * B := by
  have hsum : p.heldSlots ≤ (p.gcHeap.map (·.fields.length)).length • B := by
    apply List.sum_le_card_nsmul
    intro n hn
    obtain ⟨o, ho, rfl⟩ := List.mem_map.mp hn
    exact h.contents.object o ho
  rw [List.length_map, smul_eq_mul] at hsum
  exact hsum.trans (Nat.mul_le_mul_right B h.contents.count)

/-! ## Plain instructions -/

namespace Contents.Within

variable {limits : ResourceLimits} {B : ℕ} {st : PlainState}

theorem alloc (h : st.contents.Within limits B) {owner ti : ℕ} {fields : List Value}
    (hfields : st.contents.gcHeap.length < limits.maxGcObjects → fields.length ≤ B) :
    (st.alloc limits owner ti fields).Gives (·.contents.Within limits B) := by
  refine .bind fun _ hroom => .pure ⟨?_, ?_, h.segment⟩
  · rw [ensure_eq_ok, decide_eq_true_eq] at hroom
    show (st.contents.gcHeap ++ [_]).length ≤ _
    rw [List.length_append]
    exact hroom
  · rw [ensure_eq_ok, decide_eq_true_eq] at hroom
    intro o ho
    rcases List.mem_append.mp ho with ho | ho
    · exact h.object o ho
    · obtain rfl := List.mem_singleton.mp ho
      exact hfields hroom

theorem setFields (h : st.contents.Within limits B) {idx : ℕ} {obj : HeapObject} {fields : List Value}
    (hobj : st.contents.gcHeap[idx]? = some obj) (hlength : fields.length = obj.fields.length) :
    (st.setFields idx obj fields).contents.Within limits B := by
  refine ⟨?_, ?_, h.segment⟩
  · exact (List.length_set ..).trans_le h.count
  · intro o ho
    rcases List.mem_or_eq_of_mem_set ho with ho | rfl
    · exact h.object o ho
    · exact hlength.trans_le (h.object obj (List.mem_of_getElem? hobj))

/-- Nothing but the heap and the element segments is bounded. -/
theorem congr {c c' : Contents} (h : c.Within limits B)
    (hheap : c'.gcHeap = c.gcHeap) (helems : c'.elemValues = c.elemValues) : c'.Within limits B :=
  ⟨hheap ▸ h.count, hheap ▸ h.object, helems ▸ h.segment⟩

end Contents.Within

/-- The object an index stands for. -/
theorem gcObjectIndex_gives {c : Contents} {r : Value} :
    (gcObjectIndex c r).Gives fun p => c.gcHeap[p.1]? = some p.2 :=
  .bind fun _ _ => .bind fun _ hobj => .pure (orError_eq_ok.mp hobj)

theorem popN_gives {st : PlainState} {n : ℕ} :
    (st.popN n).Gives fun p => p.1.length = n ∧ p.2.contents = st.contents := by
  refine .bind fun _ hroom => .pure ⟨?_, rfl⟩
  rw [ensure_eq_ok, decide_eq_true_eq] at hroom
  rw [List.length_reverse, List.length_take, Nat.min_eq_left hroom]

theorem setSlot_gives {α : Type} {l : List α} {i : ℕ} {a : α} {e : Trap} :
    (setSlot l i a e).Gives fun l' => l'.length = l.length :=
  .bind fun _ _ => .pure (List.length_set ..)

section Plain

variable {ops : Ops} {code : List InstanceData} {inst : ℕ} {d : InstanceData} {limits : ResourceLimits} {B : ℕ}
  {isMatch : Value → RefType → Bool} {st : PlainState} {i : Instr}

theorem within_execVariable (h : st.contents.Within limits B) :
    (execVariable d st i).Gives (·.contents.Within limits B) := by
  cases i with
  | drop | select | selectT _ | i32Const _ | i64Const _ | f32Const _ | f64Const _ => exact .pure h
  | localGet _ | localSet _ => exact .bind fun _ _ => .pure h
  | localTee _ => exact .bind fun _ _ => .bind fun _ _ => .pure h
  | globalGet _ => exact .bind fun _ _ => .pure h
  | globalSet _ => exact .bind fun _ _ => .pure ⟨h.count, h.object, h.segment⟩
  | _ => exact .error

theorem within_execMemory (h : st.contents.Within limits B) :
    (execMemory d limits st i).Gives (·.contents.Within limits B) := by
  cases i with
  | memorySize _ | memoryGrow _ | dataDrop _ => exact .bind fun _ _ => .pure (h.congr rfl rfl)
  | load _ _ | store _ _ | memoryFill _ => exact .bind fun _ _ => .bind fun _ _ => .pure (h.congr rfl rfl)
  | memoryCopy _ _ | memoryInit _ _ =>
    exact .bind fun _ _ => .bind fun _ _ => .bind fun _ _ => .bind fun _ _ => .pure (h.congr rfl rfl)
  | _ => exact .error

theorem within_execTable (h : st.contents.Within limits B) :
    (execTable d limits st i).Gives (·.contents.Within limits B) := by
  cases i with
  | tableSize _ | tableGrow _ | elemDrop _ => exact .bind fun _ _ => .pure (h.congr rfl rfl)
  | tableGet _ | tableSet _ | tableFill _ => exact .bind fun _ _ => .bind fun _ _ => .pure (h.congr rfl rfl)
  | tableInit _ _ | tableCopy _ _ =>
    exact .bind fun _ _ => .bind fun _ _ => .bind fun _ _ => .pure (h.congr rfl rfl)
  | _ => exact .error

theorem within_execReference (h : st.contents.Within limits B) :
    (execReference code inst isMatch st i).Gives (·.contents.Within limits B) := by
  cases i with
  | refNull _ | refIsNull | refFunc _ | refEq | refTest _ | refI31 | anyConvertExtern | externConvertAny =>
    exact .pure h
  | refAsNonNull | i31Get _ => exact .bind fun _ _ => .pure h
  | refCast _ => exact .bind fun _ _ => .bind fun _ _ => .pure h
  | refCastDescEq _ => exact .bind fun _ _ => .bind fun _ _ => .bind fun _ _ => .pure h
  | _ => exact .error

/-- A struct has the slots of its type, and one for its descriptor. -/
theorem within_execStruct (hm : d.module.SlotsWithin B) (h : st.contents.Within limits B) :
    (execStruct code inst d limits st i).Gives (·.contents.Within limits B) := by
  cases i with
  | structNew ti =>
    refine .bind fun sf hsf => .bind fun ⟨vs, st'⟩ hp => ?_
    obtain ⟨hlength, hcontents⟩ := popN_gives hp
    refine Contents.Within.alloc (hcontents ▸ h) fun _ => ?_
    have hle := hm.struct (orError_eq_ok.mp hsf)
    rw [List.length_zipWith]
    omega
  | structNewDefault ti =>
    refine .bind fun sf hsf => Contents.Within.alloc h fun _ => ?_
    have hle := hm.struct (orError_eq_ok.mp hsf)
    rw [List.length_map]
    omega
  | structNewDesc ti =>
    refine .bind fun _ _ => .bind fun sf hsf => .bind fun ⟨vs, st'⟩ hp => ?_
    obtain ⟨hlength, hcontents⟩ := popN_gives hp
    have hwithin : st'.contents.Within limits B := hcontents ▸ h
    refine hwithin.alloc fun _ => ?_
    have hle := hm.struct (orError_eq_ok.mp hsf)
    rw [List.length_append, List.length_zipWith, List.length_singleton]
    omega
  | structNewDefaultDesc ti =>
    refine .bind fun _ _ => .bind fun sf hsf => ?_
    have hwithin : st.pop.2.contents.Within limits B := h
    refine hwithin.alloc fun _ => ?_
    have hle := hm.struct (orError_eq_ok.mp hsf)
    rwa [List.length_append, List.length_map, List.length_singleton]
  | refGetDesc _ => exact .bind fun _ _ => .bind fun _ _ => .pure h
  | structGet _ _ _ => exact .bind fun _ _ => .bind fun _ _ => .bind fun _ _ => .bind fun _ _ => .pure h
  | structSet _ _ =>
    refine .bind fun ⟨idx, obj⟩ hobj => .bind fun _ _ => .bind fun _ _ => .bind fun fields hfields => .pure ?_
    have hwithin : st.pop.2.pop.2.contents.Within limits B := h
    exact hwithin.setFields (gcObjectIndex_gives hobj) (setSlot_gives hfields)
  | _ => exact .error

theorem dataSegment_gives (hm : d.module.SlotsWithin B) {c : Contents} {seg : ℕ} :
    (dataSegment d c seg).Gives fun bytes => bytes.length ≤ B := by
  refine .bind fun dropped _ => ?_
  split
  · exact .pure (Nat.zero_le B)
  · exact .bind fun segment hsegment => .pure (hm.data segment (List.mem_of_getElem? (orError_eq_ok.mp hsegment)))

theorem elemSegmentValues_gives {c : Contents} (h : c.Within limits B) {seg : ℕ} :
    (elemSegmentValues d c seg).Gives fun vals => vals.length ≤ B := by
  refine .bind fun dropped _ => ?_
  split
  · exact .pure (Nat.zero_le B)
  · exact fun vals hvals => h.segment vals (List.mem_of_getElem? (orError_eq_ok.mp hvals))

theorem one_le_dataElemWidth {s : StorageType} {w : ℕ} (h : dataElemWidth s = some w) : 1 ≤ w := by
  unfold dataElemWidth at h
  split at h <;> cases h <;> decide

/-- A run of elements is no longer than the segment it is read from. -/
theorem segmentRun_gives (hm : d.module.SlotsWithin B) {c : Contents} (h : c.Within limits B) {s : StorageType}
    {ofData : Bool} {seg off n : ℕ} : (segmentRun d c s ofData seg off n).Gives fun run => run.length = n ∧ n ≤ B := by
  unfold segmentRun
  split
  · refine .bind fun bytes hbytes => .bind fun w hw => .bind fun _ hroom => .pure ?_
    have hle := dataSegment_gives hm hbytes
    have hpos := Nat.le_mul_of_pos_right n (one_le_dataElemWidth (orError_eq_ok.mp hw))
    rw [ensure_eq_ok, decide_eq_true_eq] at hroom
    rw [List.length_map, List.length_range]
    omega
  · refine .bind fun vals hvals => .bind fun _ hroom => .pure ?_
    have hle := elemSegmentValues_gives h hvals
    rw [ensure_eq_ok, decide_eq_true_eq] at hroom
    rw [List.length_take, List.length_drop]
    omega

theorem within_execArrayNewSeg (hm : d.module.SlotsWithin B) (h : st.contents.Within limits B) {ofData : Bool}
    {ti seg : ℕ} : (execArrayNewSeg inst d limits st ofData ti seg).Gives (·.contents.Within limits B) := by
  refine .bind fun _ _ => .bind fun fields hfields => ?_
  have hwithin : st.popI32.2.popI32.2.contents.Within limits B := h
  obtain ⟨hlength, hle⟩ := segmentRun_gives hm h hfields
  exact hwithin.alloc fun _ => hlength.trans_le hle

theorem within_execArrayInitSeg (hm : d.module.SlotsWithin B) (h : st.contents.Within limits B) {ofData : Bool}
    {ti seg : ℕ} : (execArrayInitSeg d st ofData ti seg).Gives (·.contents.Within limits B) := by
  refine .bind fun _ _ => .bind fun ⟨idx, obj⟩ hobj => .bind fun _ hroom => .bind fun run hrun => .pure ?_
  have hwithin : st.popI32.2.popI32.2.popI32.2.pop.2.contents.Within limits B := h
  refine hwithin.setFields (gcObjectIndex_gives hobj) (length_writeAt ?_)
  rw [ensure_eq_ok, decide_eq_true_eq] at hroom
  rwa [List.length_map, (segmentRun_gives hm h hrun).1]

/-- The operand on top, a number in the module or a segment says how long an array is. -/
theorem within_execArray (hm : d.module.SlotsWithin B) (hstated : i.statedSlots ≤ B)
    (hasked : st.contents.gcHeap.length < limits.maxGcObjects → i.askedSlots st.vstack ≤ B)
    (h : st.contents.Within limits B) : (execArray inst d limits st i).Gives (·.contents.Within limits B) := by
  cases i with
  | arrayNew ti =>
    have hwithin : st.popI32.2.pop.2.contents.Within limits B := h
    exact .bind fun _ _ => hwithin.alloc fun hroom => List.length_replicate.trans_le (hasked hroom)
  | arrayNewDefault ti =>
    have hwithin : st.popI32.2.contents.Within limits B := h
    exact .bind fun _ _ => hwithin.alloc fun hroom => List.length_replicate.trans_le (hasked hroom)
  | arrayNewFixed ti n =>
    refine .bind fun _ _ => .bind fun ⟨vs, st'⟩ hp => ?_
    obtain ⟨hlength, hcontents⟩ := popN_gives hp
    have hwithin : st'.contents.Within limits B := hcontents ▸ h
    exact hwithin.alloc fun _ => ((List.length_map _).trans hlength).trans_le hstated
  | arrayNewData _ _ | arrayNewElem _ _ => exact within_execArrayNewSeg hm h
  | arrayInitData _ _ | arrayInitElem _ _ => exact within_execArrayInitSeg hm h
  | arrayLen => exact .bind fun _ _ => .pure h
  | arrayGet _ _ => exact .bind fun _ _ => .bind fun _ _ => .bind fun _ _ => .pure h
  | arraySet _ =>
    refine .bind fun _ _ => .bind fun ⟨idx, obj⟩ hobj => .bind fun fields hfields => .pure ?_
    have hwithin : st.pop.2.popI32.2.pop.2.contents.Within limits B := h
    exact hwithin.setFields (gcObjectIndex_gives hobj) (setSlot_gives hfields)
  | arrayFill _ =>
    refine .bind fun _ _ => .bind fun ⟨idx, obj⟩ hobj => .bind fun _ hroom => .pure ?_
    have hwithin : st.popI32.2.pop.2.popI32.2.pop.2.contents.Within limits B := h
    refine hwithin.setFields (gcObjectIndex_gives hobj) (length_writeAt ?_)
    rw [ensure_eq_ok, decide_eq_true_eq] at hroom
    rwa [List.length_replicate]
  | arrayCopy _ _ =>
    refine .bind fun _ _ => .bind fun _ _ => .bind fun ⟨_, sobj⟩ _ => .bind fun ⟨idx, obj⟩ hobj =>
      .bind fun _ hroom => .pure ?_
    have hwithin : st.popI32.2.popI32.2.pop.2.popI32.2.pop.2.contents.Within limits B := h
    refine hwithin.setFields (gcObjectIndex_gives hobj) (length_writeAt ?_)
    rw [ensure_eq_ok, decide_eq_true_eq] at hroom
    rw [List.length_map, List.length_take, List.length_drop]
    omega
  | _ => exact .error

/-- A plain instruction keeps to the bound, if what its module states and what it asks for do. -/
theorem within_execPlain (hm : d.module.SlotsWithin B) (hstated : i.statedSlots ≤ B)
    (hasked : st.contents.gcHeap.length < limits.maxGcObjects → i.askedSlots st.vstack ≤ B)
    (h : st.contents.Within limits B) :
    (execPlain ops code inst d limits isMatch st i).Gives (·.contents.Within limits B) := by
  cases i with
  | nop => exact .pure h
  | unreachable => exact .error
  | drop | select | selectT _ | i32Const _ | i64Const _ | f32Const _ | f64Const _ | localGet _ | localSet _ | localTee _
  | globalGet _ | globalSet _ =>
    unfold execPlain
    exact within_execVariable h
  | load _ _ | store _ _ | memorySize _ | memoryGrow _ | memoryInit _ _ | dataDrop _ | memoryCopy _ _ | memoryFill _ =>
    unfold execPlain
    exact within_execMemory h
  | tableGet _ | tableSet _ | tableInit _ _ | elemDrop _ | tableCopy _ _ | tableGrow _ | tableSize _ | tableFill _ =>
    unfold execPlain
    exact within_execTable h
  | refNull _ | refIsNull | refFunc _ | refEq | refAsNonNull | refTest _ | refCast _ | refCastDescEq _ | refI31
  | i31Get _ | anyConvertExtern | externConvertAny =>
    unfold execPlain
    exact within_execReference h
  | structNew _ | structNewDefault _ | structGet _ _ _ | structSet _ _ | structNewDesc _ | structNewDefaultDesc _
  | refGetDesc _ =>
    unfold execPlain
    exact within_execStruct hm h
  | arrayNew _ | arrayNewDefault _ | arrayNewFixed _ _ | arrayNewData _ _ | arrayNewElem _ _ | arrayGet _ _
  | arraySet _ | arrayLen | arrayFill _ | arrayCopy _ _ | arrayInitData _ _ | arrayInitElem _ _ =>
    unfold execPlain
    exact within_execArray hm hstated hasked h
  | _ => exact .bind fun _ _ => .pure ⟨h.count, h.object, h.segment⟩

end Plain

/-! ## Flow -/

/-- The contents an instruction leaves, where it leaves new ones. -/
def Flow.Within (limits : ResourceLimits) (B : ℕ) : Flow → Prop
  | .next st => st.contents.Within limits B
  | _ => True

theorem Flow.Within.ite {limits : ResourceLimits} {B : ℕ} {fl fl' : Flow} (p : Prop) [Decidable p]
    (h : fl.Within limits B) (h' : fl'.Within limits B) : (if p then fl else fl').Within limits B := by
  split_ifs
  · exact h
  · exact h'

section Flow

variable {ops : Ops} {inst : ℕ} {d : InstanceData} {x : Exec} {code : List InstanceData} {frame : CallFrame} {pc : ℕ}
  {st : PlainState} {limits : ResourceLimits} {B : ℕ} {i : Instr}

theorem within_blockFlow : (blockFlow d frame pc st i).Gives (·.Within limits B) := by
  cases i with
  | block _ | loop _ | if_ _ | tryTable _ _ | tryLegacy _ => exact .bind fun _ _ => .pure trivial
  | else_ | catchLegacy _ | catchAll | end_ | delegate _ => exact .pure trivial
  | _ => exact .error

theorem within_raiseFlow : (raiseFlow d x frame st i).Gives (·.Within limits B) := by
  cases i with
  | throw _ | throwRef | rethrow _ => exact .bind fun _ _ => .bind fun _ _ => .pure trivial
  | _ => exact .error

/-- A branch that is not taken goes on with the contents as they are. -/
theorem within_branchFlow (h : st.contents.Within limits B) :
    (branchFlow inst d x code frame st i).Gives (·.Within limits B) := by
  cases i with
  | br _ | brTable _ _ | return_ => exact .pure trivial
  | brIf _ | brOnNull _ => exact .pure (.ite _ trivial h)
  | brOnNonNull _ => exact .pure (.ite _ h trivial)
  | brOnCast _ _ _ => exact .bind fun _ _ => .pure (.ite _ trivial h)
  | brOnCastFail _ _ _ => exact .bind fun _ _ => .pure (.ite _ h trivial)
  | brOnCastDescEq _ _ _ => exact .bind fun _ _ => .bind fun _ _ => .pure (.ite _ trivial h)
  | brOnCastDescEqFail _ _ _ => exact .bind fun _ _ => .bind fun _ _ => .pure (.ite _ h trivial)
  | _ => exact .error

theorem within_invokeFlow : (invokeFlow inst d x code st i).Gives (·.Within limits B) := by
  cases i with
  | call _ | callRef _ | callIndirect _ _ | returnCall _ | returnCallRef _ | returnCallIndirect _ _ =>
    exact .bind fun _ _ => .bind fun _ _ => .pure trivial
  | _ => exact .error

/-- What an instruction does to its activation keeps to the bound. -/
theorem within_flow (hm : d.module.SlotsWithin B) (hstated : i.statedSlots ≤ B)
    (hasked : x.pools.gcHeap.length < x.pools.limits.maxGcObjects → i.askedSlots frame.vstack ≤ B)
    (h : x.pools.Within limits B) : (flow ops inst d x code frame pc i).Gives (·.Within limits B) := by
  obtain ⟨rfl, h⟩ := h
  cases i with
  | block _ | loop _ | if_ _ | else_ | tryLegacy _ | catchLegacy _ | catchAll | delegate _ | tryTable _ _ | end_ =>
    unfold flow
    exact within_blockFlow
  | throw _ | rethrow _ | throwRef =>
    unfold flow
    exact within_raiseFlow
  | br _ | brIf _ | brTable _ _ | return_ | brOnNull _ | brOnNonNull _ | brOnCast _ _ _ | brOnCastFail _ _ _
  | brOnCastDescEq _ _ _ | brOnCastDescEqFail _ _ _ =>
    unfold flow
    exact within_branchFlow h
  | call _ | callIndirect _ _ | returnCall _ | returnCallIndirect _ _ | callRef _ | returnCallRef _ =>
    unfold flow
    exact within_invokeFlow
  | _ =>
    apply Except.Gives.map
    have hplain : (frame.plain x).contents.Within x.pools.limits B := h
    exact within_execPlain hm hstated hasked hplain

end Flow

/-! ## Frames -/

namespace CallFrame

variable {frame : CallFrame} {x x' : Exec} {exn : Exception} {tags : List ℕ}

theorem pools_branch {n : ℕ} {r : Resume} (h : frame.branch n x = .ok (r, x')) : x'.pools = x.pools := by
  obtain ⟨l, -, -, ⟨-, htick, -, -⟩ | ⟨-, rfl, -, -⟩⟩ := frame.branch_ok h
  · obtain ⟨fuel, rfl⟩ := Exec.tick_ok htick
    rfl
  · rfl

theorem pools_branchOut (n : ℕ) (events : List Event) : (frame.branchOut n events x).state.pools = x.pools := by
  unfold branchOut
  split
  · cases hbranch : frame.branch n x with
    | error t => rfl
    | ok r => exact pools_branch hbranch
  · rfl

theorem pools_enterClause (d : ℕ) (l : Label) (c : Catch) :
    (frame.enterClause exn d l c x).state.pools = x.pools := by
  unfold enterClause
  cases frame.unwindTo l.stackBase with
  | error t => rfl
  | ok cut =>
    cases hk : c.kind with
    | catchTag | catchAll => exact pools_branchOut _ _
    | catchRef | catchAllRef =>
      dsimp only
      rw [box_eq]
      split_ifs
      · exact pools_branchOut _ _
      · rfl

theorem pools_throwException : (frame.throwException tags exn x).state.pools = x.pools := by
  unfold throwException
  cases findHandler frame.body tags exn 0 0 frame.labels with
  | none => rfl
  | some handler =>
    cases handler with
    | clause d l c =>
      have hsame := @pools_enterClause frame x exn d l c
      simp only
      cases henter : frame.enterClause exn d l c x with
      | error t y | ok r y =>
        rw [henter] at hsame
        exact hsame
    | legacy d l h =>
      simp only [enterLegacy_eq]
      split_ifs <;> rfl

theorem pools_raise : (frame.raise tags exn x).state.pools = x.pools := by
  have hsame := @pools_throwException frame x exn tags
  unfold raise
  cases hthrow : frame.throwException tags exn x with
  | error t y =>
    rw [hthrow] at hsame
    exact hsame
  | ok o y =>
    rw [hthrow] at hsame
    cases o with
    | none | some r => exact hsame

theorem pools_onCallError {t : Trap} : (frame.onCallError tags t x).state.pools = x.pools := by
  unfold onCallError
  split_ifs
  · rfl
  · cases x.pendingExn with
    | none => rfl
    | some exn =>
      have hsame := @pools_throwException frame { x with pendingExn := none } exn tags
      simp only
      cases hthrow : frame.throwException tags exn { x with pendingExn := none } with
      | error t y =>
        rw [hthrow] at hsame
        exact hsame
      | ok o y =>
        rw [hthrow] at hsame
        cases o with
        | none | some r => exact hsame

end CallFrame

/-! ## Steps -/

/-- No number of slots that the module of an instance or one of its bodies states is above `B`. -/
structure InstanceData.SlotsWithin (d : InstanceData) (B : ℕ) : Prop where
  module : d.module.SlotsWithin B
  body : ∀ body ∈ d.funcBodies, ∀ i ∈ body.ir, i.statedSlots ≤ B

/-- While there is room for an object, the length that the current instruction asks for is at most `B`. -/
def Config.AsksWithin {W : Type} (c : Config W) (B : ℕ) : Prop :=
  ∀ ⦃a i⦄, c.control = .run a → a.frame.body.ir[a.pc]? = some i →
    c.exec.pools.gcHeap.length < c.exec.pools.limits.maxGcObjects → i.askedSlots a.frame.vstack ≤ B

section Steps

variable {W : Type} {env : Env W} {c c' : Config W} {es : List Event} {a : Activation} {limits : ResourceLimits}
  {B : ℕ}

/-- A host function writes to memories only. -/
theorem within_hostWrites {maps : IndexMaps} {p : Pools} (h : p.Within limits B) (ws : List (ℕ × ℕ × List UInt8)) :
    (ws.foldl (Pools.hostWrite maps) p).Within limits B := by
  induction ws generalizing p with
  | nil => exact h
  | cons w ws ih =>
    apply ih
    unfold Pools.hostWrite
    split
    · split_ifs
      · exact ⟨h.limits_eq, h.contents.count, h.contents.object, h.contents.segment⟩
      · exact h
    · exact h

theorem within_stepDispatch (h : c.exec.pools.Within limits B) (inst func : ℕ) (args : List Value) (depth : ℕ) :
    (stepDispatch env c inst func args depth).exec.pools.Within limits B := by
  unfold stepDispatch
  repeat' split
  all_goals first
    | exact h
    | exact within_hostWrites h _

/-- What an instruction does leaves the pools alone, unless it goes on to the next one. -/
theorem pools_applyFlow {tags : List ℕ} {fl : Flow} (hfl : ∀ st, fl ≠ .next st) :
    (applyFlow c a tags fl).2.exec.pools = c.exec.pools := by
  cases fl with
  | next st => exact absurd rfl (hfl st)
  | jump pc st | enter l pc st | leave | call inst func params st => rfl
  | branch n st =>
    simp only [applyFlow]
    cases hbranch : (a.goTo st a.pc).frame.branch n c.exec with
    | error t => rfl
    | ok r => exact CallFrame.pools_branch hbranch
  | raise exn st events =>
    have hsame := @CallFrame.pools_raise (a.goTo st a.pc).frame c.exec exn tags
    simp only [applyFlow]
    cases hraise : (a.goTo st a.pc).frame.raise tags exn c.exec with
    | error t x | ok r x =>
      rw [hraise] at hsame
      exact hsame
  | tailCall inst func args =>
    simp only [applyFlow]
    cases htick : c.exec.tick with
    | error t => rfl
    | ok x =>
      obtain ⟨fuel, rfl⟩ := Exec.tick_ok htick
      rfl

/-- A step of a running body leaves the pools alone, or executes an instruction and goes on to the next. -/
theorem pools_stepRun (env : Env W) (c : Config W) (a : Activation) :
    (stepRun env c a).2.exec.pools = c.exec.pools ∨
      ∃ d i st, env.code[a.inst]? = some d ∧ a.frame.body.ir[a.pc]? = some i ∧
        flow env.ops a.inst d c.exec env.code a.frame a.pc i = .ok (.next st) ∧
          stepRun env c a = applyFlow c a d.maps.tags (.next st) := by
  unfold stepRun
  cases hi : a.frame.body.ir[a.pc]? with
  | none =>
    left
    cases a.results <;> rfl
  | some i =>
    cases hd : env.code[a.inst]? with
    | none => exact .inl rfl
    | some d =>
      simp only
      cases hfl : flow env.ops a.inst d c.exec env.code a.frame a.pc i with
      | error t => exact .inl rfl
      | ok fl =>
        by_cases hnext : ∃ st, fl = .next st
        · obtain ⟨st, rfl⟩ := hnext
          exact .inr ⟨d, i, st, rfl, rfl, hfl, rfl⟩
        · exact .inl (pools_applyFlow fun st hst => hnext ⟨st, hst⟩)

/-- An instruction that traps leaves the pools alone. -/
theorem Config.pools_of_fail {t : Trap} (hrun : c.control = .run a) (hstep : c.step env = some (es, c'))
    (hfail : c'.control = .fail t) : c'.exec.pools = c.exec.pools := by
  have hdone : stepRun env c a = (es, c') := by
    unfold Config.step at hstep
    simpa only [hrun, Option.some.injEq] using hstep
  obtain rfl : (stepRun env c a).2 = c' := by rw [hdone]
  rcases pools_stepRun env c a with hsame | ⟨d, i, st, -, -, -, heq⟩
  · exact hsame
  · rw [heq] at hfail
    cases hfail

/-- A step of the machine keeps to the bound, if the length it asks for does. -/
theorem Config.within_step (hcode : ∀ d ∈ env.code, d.SlotsWithin B)
    (hbody : ∀ a, c.control = .run a → ∃ d ∈ env.code, a.frame.body ∈ d.funcBodies) (hasked : c.AsksWithin B)
    (h : c.exec.pools.Within limits B) (hstep : c.step env = some (es, c')) : c'.exec.pools.Within limits B := by
  unfold Config.step at hstep
  split at hstep
  · next _ _ a hrun =>
    obtain rfl : (stepRun env c a).2 = c' := by rw [Option.some.inj hstep]
    rcases pools_stepRun env c a with hsame | ⟨d, i, st, hd, hi, hfl, heq⟩
    · rwa [hsame]
    · rw [heq]
      obtain ⟨d', hd', hbody'⟩ := hbody a hrun
      have hstated := (hcode d' hd').body _ hbody' i (List.mem_of_getElem? hi)
      exact ⟨h.limits_eq, within_flow (hcode d (List.mem_of_getElem? hd)).module hstated (hasked hrun hi) h hfl⟩
  · split at hstep <;> (cases hstep; exact h)
  · cases hstep
    exact within_stepDispatch h _ _ _ _
  · cases hstep
    exact h
  · next t s rest _ _ =>
    have hsame := @CallFrame.pools_onCallError s.activation.frame c.exec (tagsOf env s.activation.inst) t
    simp only [Option.some.injEq] at hstep
    cases hcatch : s.activation.frame.onCallError (tagsOf env s.activation.inst) t c.exec with
    | error t' x | ok r x =>
      rw [hcatch] at hstep hsame
      obtain ⟨-, rfl⟩ := Prod.mk.inj hstep
      exact hsame ▸ h
  · cases hstep
  · cases hstep

end Steps

end Wasmrt
