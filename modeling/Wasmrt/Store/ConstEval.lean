import Wasmrt.Library.StateChecks
import Wasmrt.Store.Pools

/-!
# Evaluating constant expressions

`eval_const_expr` runs the initialisers of globals, tables and element segments and the offsets of
active segments. Its stack is a list with the top first. The GC forms allocate into the heap of the
store, so an evaluation changes the pools even when it fails.

## Main definitions

* `allocObject`, `packField`, `defaultField`: allocation of GC objects.
* `evalConstExpr`, `evalConstOffset`: the evaluator.

## Main results

* `keeps_evalConstExpr`: an evaluation, however it ends, at most appends objects to the heap.
-/

namespace Wasmrt

/-- Narrow a value to the width of a field. -/
def packField (storage : StorageType) (v : Value) : Value :=
  match storage with
  | .val _ => v
  | .i8 => v &&& 0xff
  | .i16 => v &&& 0xffff

/-- The default slot of a field: null for a reference, otherwise 0. -/
def defaultField (storage : StorageType) : Value :=
  if storage.unpacked.isRef then nullRef else 0

/-- Allocate a GC object; its reference is its index in the heap. -/
def allocObject (owner typeIndex : ℕ) (fields : List Value) : EStateM Trap Pools Value := do
  let p ← get
  if p.limits.maxGcObjects ≤ p.gcHeap.length then throw .gcHeapExhausted
  set { p with gcHeap := p.gcHeap ++ [HeapObject.mk owner typeIndex fields] }
  pure (BitVec.ofNat 128 p.gcHeap.length)

/-- Pop one operand of a constant expression. -/
def popConst : List Value → Except Trap (Value × List Value)
  | v :: stack => .ok (v, stack)
  | [] => .error .constantExpr

/-- Pop `n` operands, in the order they were pushed. -/
def popConsts (n : ℕ) (stack : List Value) : Except Trap (List Value × List Value) :=
  if n ≤ stack.length then .ok ((stack.take n).reverse, stack.drop n) else .error .constantExpr

/-- The binary integer operations constant expressions admit. -/
def constBinOp {w : ℕ} (op : IBinOp) (a b : BitVec w) : Except Trap (BitVec w) :=
  match op with
  | .add => .ok (a + b)
  | .sub => .ok (a - b)
  | .mul => .ok (a * b)
  | _ => .error .constantExpr

open MonadExcept in
/-- The GC forms; `ofFields` packs the operands of a struct or array. -/
def evalConstGc (m : Module) (inst : ℕ) (stack : List Value) :
    Instr → EStateM Trap Pools (List Value)
  | .structNew ti => do
    let sf ← ofExcept (orError .undefinedType (m.structFields ti))
    let (vs, stack) ← ofExcept (popConsts sf.length stack)
    let v ← allocObject inst ti (sf.zipWith (fun f v => packField f.storage v) vs)
    pure (v :: stack)
  | .structNewDesc ti => do
    let (desc, stack) ← ofExcept (popConst stack)
    ofExcept (ensure (desc != nullRef) .nullDescriptor)
    let sf ← ofExcept (orError .undefinedType (m.structFields ti))
    let (vs, stack) ← ofExcept (popConsts sf.length stack)
    let v ← allocObject inst ti (sf.zipWith (fun f v => packField f.storage v) vs ++ [desc])
    pure (v :: stack)
  | .structNewDefaultDesc ti => do
    let (desc, stack) ← ofExcept (popConst stack)
    ofExcept (ensure (desc != nullRef) .nullDescriptor)
    let sf ← ofExcept (orError .undefinedType (m.structFields ti))
    let v ← allocObject inst ti (sf.map (fun f => defaultField f.storage) ++ [desc])
    pure (v :: stack)
  | .structNewDefault ti => do
    let sf ← ofExcept (orError .undefinedType (m.structFields ti))
    let v ← allocObject inst ti (sf.map fun f => defaultField f.storage)
    pure (v :: stack)
  | .arrayNew ti => do
    let f ← ofExcept (orError .undefinedType (m.arrayField ti))
    let (n, stack) ← ofExcept (popConst stack)
    let (init, stack) ← ofExcept (popConst stack)
    let v ← allocObject inst ti (List.replicate (asI32 n).toNat (packField f.storage init))
    pure (v :: stack)
  | .arrayNewDefault ti => do
    let f ← ofExcept (orError .undefinedType (m.arrayField ti))
    let (n, stack) ← ofExcept (popConst stack)
    let v ← allocObject inst ti (List.replicate (asI32 n).toNat (defaultField f.storage))
    pure (v :: stack)
  | .arrayNewFixed ti n => do
    let f ← ofExcept (orError .undefinedType (m.arrayField ti))
    let (vs, stack) ← ofExcept (popConsts n stack)
    let v ← allocObject inst ti (vs.map (packField f.storage))
    pure (v :: stack)
  | .anyConvertExtern => do
    let (r, stack) ← ofExcept (popConst stack)
    pure (internalize r :: stack)
  | .externConvertAny => do
    let (r, stack) ← ofExcept (popConst stack)
    pure (externalize r :: stack)
  | .refI31 => do
    let (x, stack) ← ofExcept (popConst stack)
    pure ((i31Tag ||| i32Value (asI32 x &&& 0x7fffffff)) :: stack)
  | _ => throw .constantExpr

open MonadExcept in
/-- One instruction of a constant expression. `gc` is the module whose layouts the GC forms read,
absent where none may occur. -/
def evalConstStep (globals : List Value) (inst : ℕ) (gc : Option Module) (stack : List Value) :
    Instr → EStateM Trap Pools (List Value)
  | .i32Const n => pure (i32Value n :: stack)
  | .i64Const n => pure (i64Value n :: stack)
  | .f32Const bits => pure (i32Value bits :: stack)
  | .f64Const bits => pure (i64Value bits :: stack)
  | .globalGet x => do
    let v ← ofExcept (orError .undefinedGlobal globals[x]?)
    pure (v :: stack)
  | .refNull _ => pure (nullRef :: stack)
  | .refFunc f => pure (packFuncref inst f :: stack)
  | .iBin .w32 op => do
    let (b, stack) ← ofExcept (popConst stack)
    let (a, stack) ← ofExcept (popConst stack)
    let r ← ofExcept (constBinOp op (asI32 a) (asI32 b))
    pure (i32Value r :: stack)
  | .iBin .w64 op => do
    let (b, stack) ← ofExcept (popConst stack)
    let (a, stack) ← ofExcept (popConst stack)
    let r ← ofExcept (constBinOp op (asI64 a) (asI64 b))
    pure (i64Value r :: stack)
  | .simd s => do
    ofExcept (ensure (s.sub == 0x0c) .constantExpr)
    pure (s.bytes :: stack)
  | i => do
    let m ← ofExcept (orError .constantExpr gc)
    evalConstGc m inst stack i

open MonadExcept in
/-- Evaluate a constant expression of instance `inst`: its value is the top of the final stack. -/
def evalConstExpr (globals : List Value) (inst : ℕ) (gc : Option Module) (expr : ConstExpr) :
    EStateM Trap Pools Value := do
  let stack ← expr.foldlM (evalConstStep globals inst gc) []
  let (v, _) ← ofExcept (popConst stack)
  pure v

/-- Evaluate the offset of an active segment as an address. -/
def evalConstOffset (globals : List Value) (is64 : Bool) (expr : ConstExpr) :
    EStateM Trap Pools ℕ := do
  let v ← evalConstExpr globals 0 none expr
  pure (popMem is64 v)

/-! ## What an evaluation changes -/

/-- The pools differ in objects appended to the heap at most. -/
def Pools.HeapGrows (p p' : Pools) : Prop := ∃ objs, p' = { p with gcHeap := p.gcHeap ++ objs }

namespace Pools.HeapGrows

theorem refl (p : Pools) : p.HeapGrows p := ⟨[], by simp⟩

theorem trans ⦃p q r : Pools⦄ (h : p.HeapGrows q) (h' : q.HeapGrows r) : p.HeapGrows r := by
  obtain ⟨xs, rfl⟩ := h
  obtain ⟨ys, rfl⟩ := h'
  exact ⟨xs ++ ys, by simp⟩

variable {p p' : Pools} (h : p.HeapGrows p')

include h

theorem limits_eq : p'.limits = p.limits := by obtain ⟨objs, rfl⟩ := h; rfl
theorem types_eq : p'.types = p.types := by obtain ⟨objs, rfl⟩ := h; rfl
theorem memories_eq : p'.memories = p.memories := by obtain ⟨objs, rfl⟩ := h; rfl
theorem tables_eq : p'.tables = p.tables := by obtain ⟨objs, rfl⟩ := h; rfl

end Pools.HeapGrows

open Pools

/-- An allocation without room. -/
theorem allocObject_of_full {owner ti : ℕ} {fields : List Value} {p : Pools}
    (h : p.limits.maxGcObjects ≤ p.gcHeap.length) :
    allocObject owner ti fields p = .error .gcHeapExhausted p := by
  rw [allocObject, estate_get_bind, if_pos h]
  rfl

/-- An allocation puts the object at the end of the heap. -/
theorem allocObject_of_room {owner ti : ℕ} {fields : List Value} {p : Pools}
    (h : ¬ p.limits.maxGcObjects ≤ p.gcHeap.length) :
    allocObject owner ti fields p =
      .ok (BitVec.ofNat 128 p.gcHeap.length) { p with gcHeap := p.gcHeap ++ [⟨owner, ti, fields⟩] } := by
  rw [allocObject, estate_get_bind, if_neg h]
  rfl

theorem keeps_allocObject (owner ti : ℕ) (fields : List Value) :
    Keeps HeapGrows (allocObject owner ti fields) := by
  intro p
  by_cases h : p.limits.maxGcObjects ≤ p.gcHeap.length
  · rw [allocObject_of_full h]
    exact .refl p
  · rw [allocObject_of_room h]
    exact ⟨[⟨owner, ti, fields⟩], rfl⟩

/-- A check leaves the pools alone. -/
theorem keeps_check {α : Type} (x : Except Trap α) :
    Keeps HeapGrows (MonadExcept.ofExcept x : EStateM Trap Pools α) := .ofExcept .refl x

theorem keeps_pure {α : Type} (a : α) : Keeps HeapGrows (pure a : EStateM Trap Pools α) :=
  .pure .refl a

/-- Every GC form runs checks and then allocates at most once. -/
theorem keeps_evalConstGc (m : Module) (inst : ℕ) (stack : List Value) (i : Instr) :
    Keeps HeapGrows (evalConstGc m inst stack i) := by
  cases i <;> first
    | exact .throw .refl _
    | repeat' first
        | exact keeps_pure _
        | exact keeps_check _
        | exact keeps_allocObject _ _ _
        | refine .bind HeapGrows.trans ?_ fun _ => ?_

theorem keeps_evalConstStep (globals : List Value) (inst : ℕ) (gc : Option Module)
    (stack : List Value) (i : Instr) : Keeps HeapGrows (evalConstStep globals inst gc stack i) := by
  have hgc : ∀ i, Keeps HeapGrows (do
      let m ← MonadExcept.ofExcept (orError .constantExpr gc)
      evalConstGc m inst stack i : EStateM Trap Pools (List Value)) :=
    fun i => .bind HeapGrows.trans (keeps_check _) fun m => keeps_evalConstGc m inst stack i
  cases i
  case iBin w op =>
    cases w <;> exact .bind HeapGrows.trans (keeps_check _) fun _ => .bind HeapGrows.trans
      (keeps_check _) fun _ => .bind HeapGrows.trans (keeps_check _) fun _ => keeps_pure _
  all_goals first
    | exact keeps_pure _
    | exact hgc _
    | exact .bind HeapGrows.trans (keeps_check _) fun _ => keeps_pure _

/-- An evaluation, however it ends, at most appends objects to the heap. -/
theorem keeps_evalConstExpr (globals : List Value) (inst : ℕ) (gc : Option Module)
    (expr : ConstExpr) : Keeps HeapGrows (evalConstExpr globals inst gc expr) :=
  .bind HeapGrows.trans
    (.foldlM .refl HeapGrows.trans (keeps_evalConstStep globals inst gc) expr [])
    fun _ => .bind HeapGrows.trans (keeps_check _) fun _ => keeps_pure _

theorem keeps_evalConstOffset (globals : List Value) (is64 : Bool) (expr : ConstExpr) :
    Keeps HeapGrows (evalConstOffset globals is64 expr) :=
  .bind HeapGrows.trans (keeps_evalConstExpr globals 0 none expr) fun _ => keeps_pure _

end Wasmrt
