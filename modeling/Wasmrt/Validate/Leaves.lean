import Wasmrt.Interp.Nesting
import Wasmrt.Validate.Function

/-!
# What a check leaves alone

Of the state of the checker of bodies most rules touch the operands only, or make the innermost frame
unreachable. What is seen of a state without these is the same after any such rule.

## Main definitions

* `Blind`, `BlindToInit`: a view of a state that does not see the operands, nor the locals initialised.
* `Leaves`: a check that leaves a view as it is.

## Main results

* `Leaves.stepInstr`: the rule of a flat instruction does so.
-/

namespace Wasmrt

open MonadExcept (ofExcept)

/-- The local an instruction sets. -/
def Instr.sets : Instr → Option ℕ
  | .localSet x | .localTee x => some x
  | _ => none

/-- A view of the state that sees neither the operands nor whether the innermost frame is unreachable. -/
class Blind {β : Type} (g : FuncValidator → β) : Prop where
  vals : ∀ s vals, g { s with vals } = g s
  unreachable : ∀ s top rest, s.ctrls = top :: rest →
    ∀ vals, g { s with vals, ctrls := { top with isUnreachable := true } :: rest } = g s

/-- Nor does it see the locals that are initialised. -/
class BlindToInit {β : Type} (g : FuncValidator → β) : Prop where
  localInit : ∀ s localInit, g { s with localInit } = g s

variable {cx : FuncContext} {α β γ δ : Type} {g : FuncValidator → δ}

/-- Two states with one view. -/
def SameView (g : FuncValidator → δ) (s t : FuncValidator) : Prop := g t = g s

theorem SameView.refl (s : FuncValidator) : SameView g s s := rfl

theorem SameView.trans ⦃s t u : FuncValidator⦄ (h : SameView g s t) (h' : SameView g t u) : SameView g s u :=
  Eq.trans h' h

/-- A check that leaves a view of the state as it is. -/
class Leaves (g : FuncValidator → δ) (x : Validation α) : Prop where
  keeps : Keeps (SameView g) x

theorem Leaves.eq_of_ok {x : Validation α} (h : Leaves g x) {s s' : FuncValidator} {a : α} (hx : x s = .ok a s') :
    g s' = g s :=
  h.keeps.of_eq_ok hx

variable [hg : Blind g]

namespace Leaves

instance (a : α) : Leaves g (pure a : Validation α) := ⟨.pure SameView.refl a⟩
instance (e : ValidateError) : Leaves g (throw e : Validation α) := ⟨.throw SameView.refl e⟩
instance (x : ValidateResult α) : Leaves g (ofExcept x : Validation α) := ⟨.ofExcept SameView.refl x⟩
instance (ok : Bool) (e : ValidateError) : Leaves g (require ok e) := ⟨.ofExcept SameView.refl _⟩
instance : Leaves g (get : Validation FuncValidator) := ⟨.get SameView.refl⟩
instance (v : StackType) : Leaves g (pushVal v) := ⟨fun s => hg.vals s _⟩
instance (t : ValType) : Leaves g (pushValT t) := ⟨fun s => hg.vals s _⟩

instance bind (x : Validation α) (f : α → Validation β) [hx : Leaves g x] [hf : ∀ a, Leaves g (f a)] :
    Leaves g (x >>= f) :=
  ⟨.bind SameView.trans hx.keeps fun a => (hf a).keeps⟩

omit hg in
theorem of_bind {x : Validation α} {f : α → Validation β} (hx : Leaves g x) (hf : ∀ a, Leaves g (f a)) :
    Leaves g (x >>= f) :=
  bind x f

instance ite (P : Prop) [Decidable P] (x y : Validation α) [hx : Leaves g x] [hy : Leaves g y] :
    Leaves g (if P then x else y) := by
  split
  · exact hx
  · exact hy

instance forM (f : γ → Validation PUnit) (l : List γ) [hf : ∀ c, Leaves g (f c)] : Leaves g (l.forM f) :=
  ⟨.forM SameView.refl SameView.trans (fun c => (hf c).keeps) l⟩

instance mapM (f : γ → Validation α) (l : List γ) [hf : ∀ c, Leaves g (f c)] : Leaves g (l.mapM f) := by
  induction l with
  | nil => exact inferInstanceAs (Leaves g (pure []))
  | cons c l ih =>
    rw [List.mapM_cons]
    infer_instance

instance : Leaves g popVal where
  keeps := by
    rintro ⟨localInit, vals, ctrls⟩
    unfold popVal
    rw [estate_get_bind]
    simp only [Bind.bind, EStateM.bind]
    cases ctrls with
    | nil => rfl
    | cons top rest =>
      simp only [List.head?_cons, orError, MonadExcept.ofExcept, Pure.pure, EStateM.pure]
      split
      · split <;> rfl
      · cases vals with
        | nil => rfl
        | cons v vals => exact hg.vals ⟨localInit, v :: vals, top :: rest⟩ vals

instance : Leaves g setUnreachable where
  keeps := by
    rintro ⟨localInit, vals, ctrls⟩
    cases ctrls with
    | nil => rfl
    | cons top rest => exact hg.unreachable ⟨localInit, vals, top :: rest⟩ top rest rfl _

instance (t : ValType) : Leaves g (popExpect cx t) := of_bind inferInstance fun v => by cases v <;> infer_instance
instance : Leaves g popRef := of_bind inferInstance fun v => by cases v <;> infer_instance
instance (ts : List ValType) : Leaves g (popVals cx ts) := inferInstanceAs (Leaves g (List.forM _ _))
instance (ts : List ValType) : Leaves g (pushVals ts) := inferInstanceAs (Leaves g (List.forM _ _))
instance (s : Sig) : Leaves g (applySig cx s) := inferInstanceAs (Leaves g (_ >>= _))
instance (label : ℕ) : Leaves g (frameAt label) := inferInstanceAs (Leaves g (_ >>= _))
instance (label : ℕ) : Leaves g (labelTypesAt label) := inferInstanceAs (Leaves g (_ >>= _))

/-! ### What an instruction names -/

instance (x : ℕ) : Leaves g (localAt cx x) := inferInstanceAs (Leaves g (ofExcept _))
instance (x : ℕ) : Leaves g (globalAt cx x) := inferInstanceAs (Leaves g (ofExcept _))
instance (x : ℕ) : Leaves g (funcAt cx x) := inferInstanceAs (Leaves g (ofExcept _))
instance (x : ℕ) : Leaves g (sigAt cx x) := inferInstanceAs (Leaves g (ofExcept _))
instance (x : ℕ) : Leaves g (tagAt cx x) := inferInstanceAs (Leaves g (ofExcept _))
instance (x : ℕ) : Leaves g (tableElemType cx x) := inferInstanceAs (Leaves g (_ >>= _))
instance (x : ℕ) : Leaves g (requireMemory cx x) := inferInstanceAs (Leaves g (require _ _))
instance (x offset : ℕ) : Leaves g (checkMemOffset cx x offset) := inferInstanceAs (Leaves g (require _ _))
instance (x : ℕ) : Leaves g (elemAt cx x) := inferInstanceAs (Leaves g (ofExcept _))
instance (x : ℕ) : Leaves g (requireData cx x) := inferInstanceAs (Leaves g (require _ _))
instance (ti : ℕ) : Leaves g (structFieldsAt cx ti) := inferInstanceAs (Leaves g (ofExcept _))
instance (ti x : ℕ) : Leaves g (structField cx ti x) := inferInstanceAs (Leaves g (_ >>= _))
instance (ti : ℕ) : Leaves g (arrayFieldAt cx ti) := inferInstanceAs (Leaves g (ofExcept _))
instance (ti : ℕ) : Leaves g (mutableArrayFieldAt cx ti) := inferInstanceAs (Leaves g (_ >>= _))
instance (ext : Extension) (st : StorageType) : Leaves g (requirePacking ext st) := inferInstanceAs (Leaves g (require _ _))
instance (ts : List ValType) : Leaves g (checkTailResults cx ts) := inferInstanceAs (Leaves g (require _ _))
instance (rt : RefType) : Leaves g (castTarget cx rt) := inferInstanceAs (Leaves g (ofExcept _))

/-! ### Rules -/

instance (tag : ℕ) : Leaves g (throw_ cx tag) := inferInstanceAs (Leaves g (_ >>= _))
instance (label : ℕ) : Leaves g (rethrow label) := inferInstanceAs (Leaves g (_ >>= _))
instance (ts : List ValType) : Leaves g (popAndRestore cx ts) := inferInstanceAs (Leaves g (_ >>= _))
instance (labels : List ℕ) (default : ℕ) : Leaves g (brTable cx labels default) := inferInstanceAs (Leaves g (_ >>= _))
instance (ti table : ℕ) : Leaves g (indirectCallee cx ti table) := inferInstanceAs (Leaves g (_ >>= _))
instance (ti : ℕ) : Leaves g (refCallee cx ti) := inferInstanceAs (Leaves g (_ >>= _))
instance (ft : FuncType) : Leaves g (callSig cx ft) := inferInstanceAs (Leaves g (applySig _ _))
instance (ft : FuncType) : Leaves g (tailCallSig cx ft) := inferInstanceAs (Leaves g (_ >>= _))

instance (operand result : RefHeap) : Leaves g (convertRef cx operand result) :=
  of_bind inferInstance fun v => by cases v <;> infer_instance

instance (f : ℕ) : Leaves g (refFunc cx f) := inferInstanceAs (Leaves g (_ >>= _))
instance (v : StackType) : Leaves g (pushNonNull v) := by cases v <;> exact inferInstanceAs (Leaves g (pushVal _))
instance (label : ℕ) : Leaves g (brOnNull cx label) := inferInstanceAs (Leaves g (_ >>= _))
instance (label : ℕ) : Leaves g (brOnNonNull cx label) := inferInstanceAs (Leaves g (_ >>= _))
instance (rt : RefType) : Leaves g (popDescriptor cx rt) := inferInstanceAs (Leaves g (_ >>= _))
instance (t : ValType) : Leaves g (popCastOperand cx t) := inferInstanceAs (Leaves g (_ >>= _))

instance (onMatch desc : Bool) (label : ℕ) (src dst : RefType) :
    Leaves g (brOnCast cx onMatch desc label src dst) := by
  unfold brOnCast
  dsimp only
  split
  · refine of_bind inferInstance fun _ => of_bind inferInstance fun _ => of_bind inferInstance fun _ =>
      of_bind inferInstance fun _ => of_bind inferInstance fun _ => ?_
    infer_instance
  · refine of_bind inferInstance fun _ => of_bind inferInstance fun _ => of_bind inferInstance fun _ =>
      of_bind inferInstance fun _ => ?_
    infer_instance

instance (ti : ℕ) : Leaves g (refGetDesc cx ti) :=
  of_bind inferInstance fun d => of_bind inferInstance fun v => by cases v <;> infer_instance

instance (ti : ℕ) (fromOperands : Bool) : Leaves g (structNew cx ti fromOperands) := by
  unfold structNew
  infer_instance

instance (ti : ℕ) (fromOperands : Bool) : Leaves g (structNewPlain cx ti fromOperands) :=
  inferInstanceAs (Leaves g (_ >>= _))

instance (ti : ℕ) (fromOperands : Bool) : Leaves g (structNewWithDesc cx ti fromOperands) :=
  inferInstanceAs (Leaves g (_ >>= _))

instance (ext : Extension) (ti x : ℕ) : Leaves g (structGet cx ext ti x) := inferInstanceAs (Leaves g (_ >>= _))
instance (ti x : ℕ) : Leaves g (structSet cx ti x) := inferInstanceAs (Leaves g (_ >>= _))
instance (ti : ℕ) : Leaves g (arrayNew cx ti) := inferInstanceAs (Leaves g (_ >>= _))
instance (ti : ℕ) : Leaves g (arrayNewDefault cx ti) := inferInstanceAs (Leaves g (_ >>= _))
instance (ti n : ℕ) : Leaves g (arrayNewFixed cx ti n) := inferInstanceAs (Leaves g (_ >>= _))
instance (ext : Extension) (ti : ℕ) : Leaves g (arrayGet cx ext ti) := inferInstanceAs (Leaves g (_ >>= _))
instance (f : FieldType) (seg : ℕ) : Leaves g (checkDataSegment cx f seg) := inferInstanceAs (Leaves g (_ >>= _))
instance (f : FieldType) (seg : ℕ) : Leaves g (checkElemSegment cx f seg) := inferInstanceAs (Leaves g (_ >>= _))

instance (check : FieldType → ℕ → Validation Unit) [∀ f seg, Leaves g (check f seg)] (ti seg : ℕ) :
    Leaves g (arrayNewSeg cx check ti seg) :=
  inferInstanceAs (Leaves g (_ >>= _))

instance (check : FieldType → ℕ → Validation Unit) [∀ f seg, Leaves g (check f seg)] (ti seg : ℕ) :
    Leaves g (arrayInitSeg cx check ti seg) :=
  inferInstanceAs (Leaves g (_ >>= _))

instance (dst src : ℕ) : Leaves g (arrayCopy cx dst src) := inferInstanceAs (Leaves g (_ >>= _))
instance (elem table : ℕ) : Leaves g (tableInit cx elem table) := inferInstanceAs (Leaves g (_ >>= _))
instance (dst src : ℕ) : Leaves g (tableCopy cx dst src) := inferInstanceAs (Leaves g (_ >>= _))
instance (dst src : ℕ) : Leaves g (memoryCopy cx dst src) := inferInstanceAs (Leaves g (_ >>= _))
instance (data mem : ℕ) : Leaves g (memoryInit cx data mem) := inferInstanceAs (Leaves g (_ >>= _))
instance (n : ℕ) (mem : MemArg) (s : Sig) : Leaves g (memAccess cx n mem s) := inferInstanceAs (Leaves g (_ >>= _))

instance (v : Simd) : Leaves g (simdOp cx v) := by
  unfold simdOp
  infer_instance

instance (a : Atomic) : Leaves g (atomicOp cx a) := by
  unfold atomicOp
  dsimp only
  split
  · infer_instance
  · refine of_bind inferInstance fun _ => of_bind inferInstance fun _ => of_bind inferInstance fun _ => ?_
    repeat' split
    all_goals infer_instance

instance : Leaves g (select cx) := by
  refine of_bind inferInstance fun _ => of_bind inferInstance fun t1 => of_bind inferInstance fun t2 =>
    of_bind inferInstance fun _ => ?_
  cases t1 <;> cases t2 <;> infer_instance

instance (types : List BlockType) : Leaves g (selectT cx types) := by
  unfold selectT
  split <;> infer_instance

instance (x : ℕ) : Leaves g (localGet cx x) := inferInstanceAs (Leaves g (_ >>= _))

instance (x : ℕ) [hinit : BlindToInit g] : Leaves g (localSet cx x) :=
  of_bind inferInstance fun _ => of_bind inferInstance fun _ => ⟨fun s => hinit.localInit s _⟩

instance (x : ℕ) : Leaves g (globalSet cx x) := inferInstanceAs (Leaves g (_ >>= _))

/-- What an instruction does to a local. -/
theorem stepInstr {i : Instr} (h : i.isFlat = true) (hset : i.sets = none ∨ BlindToInit g) :
    Leaves g (stepInstr cx i) := by
  cases i with
  | block _ | loop _ | if_ _ | else_ | tryTable _ _ | tryLegacy _ | catchLegacy _ | catchAll | delegate _
  | end_ => cases h
  | localSet x | localTee x =>
    rcases hset with hset | hinit
    · cases hset
    · unfold Wasmrt.stepInstr
      infer_instance
  | _ =>
    unfold Wasmrt.stepInstr
    infer_instance

end Leaves

end Wasmrt
