import Mathlib.Data.List.Forall2
import Wasmrt.Store.Instantiate
import Wasmrt.Validate.ConstBodies
import Wasmrt.Validate.Module

/-!
# Nulls in constant expressions

An accepted constant expression whose defaults are defaults evaluates to a value its type admits, and so do the
fields of the objects it allocates: where a type has no null, there is none. The globals it reads are the
hypothesis of this, and the conclusion for those it defines.

## Main definitions

* `NonNull`: a value that is null on neither side of the bridge between `anyref` and `externref`.
* `GlobalsNotNull`, `AppendsNotNull`: the globals and the objects whose types admit no null hold none.
* `NeverNull`: an expression that evaluates to such values.

## Main results

* `neverNull_of_kept`: an accepted expression that defaults no type without a default never is null.
* `validateConstExpr_isBody_iff`: constant expressions are as strict as bodies just in case they are kept.
-/

namespace Wasmrt

open MonadExcept (ofExcept)

/-! ## Values that are not null -/

/-- Null on neither side of the bridge between `anyref` and `externref`. -/
def NonNull (v : Value) : Prop := internalize v ≠ nullRef

theorem nonNull_iff {v : Value} : NonNull v ↔ v &&& ~~~externTag ≠ nullRef := by
  unfold NonNull internalize
  split
  · next h =>
    subst h
    exact iff_of_false (not_not.mpr rfl) (by decide)
  · rfl

theorem nonNull_of_lt {v : Value} (h : v.toNat < 2 ^ 64 - 1) : NonNull v := by
  rw [nonNull_iff]
  intro hnull
  have hle : (v &&& ~~~externTag).toNat ≤ v.toNat := by
    rw [BitVec.toNat_and]
    exact Nat.and_le_left
  rw [hnull, show nullRef.toNat = 2 ^ 64 - 1 from rfl] at hle
  omega

theorem ne_nullRef_of_nonNull {v : Value} (h : NonNull v) : v ≠ nullRef := by
  rintro rfl
  exact h rfl

/-- The bridge leads to no null from either side. -/
theorem nonNull_internalize {v : Value} (h : NonNull v) : NonNull (internalize v) := by
  rw [internalize, if_neg (ne_nullRef_of_nonNull h)]
  rw [nonNull_iff] at h ⊢
  rwa [BitVec.and_assoc, BitVec.and_self]

theorem nonNull_externalize {v : Value} (h : NonNull v) : NonNull (externalize v) := by
  rw [externalize, if_neg (ne_nullRef_of_nonNull h)]
  rw [nonNull_iff] at h ⊢
  rwa [BitVec.and_or_distrib_right, show externTag &&& ~~~externTag = 0 by decide, BitVec.ofNat_eq_ofNat,
    BitVec.or_zero]

theorem nonNull_packFuncref {inst f : ℕ} (hinst : inst < maxInstances) (hf : f < 2 ^ 32) :
    NonNull (packFuncref inst f) := by
  have hinst' : inst < 2 ^ 31 := hinst
  refine nonNull_of_lt ?_
  rw [toNat_packFuncref hinst hf]
  omega

theorem nonNull_i31 (x : BitVec 32) : NonNull (i31Tag ||| i32Value (x &&& 0x7fffffff)) := by
  refine nonNull_of_lt ?_
  have hx : (i32Value (x &&& 0x7fffffff)).toNat ≤ 0x7fffffff := by
    have hlt := (x &&& 0x7fffffff).isLt
    rw [i32Value, BitVec.toNat_setWidth, BitVec.toNat_and] at *
    rw [Nat.mod_eq_of_lt (by omega)]
    exact Nat.and_le_right
  have hadd := Nat.two_pow_add_eq_or_of_lt (show (i32Value (x &&& 0x7fffffff)).toNat < 2 ^ 63 by omega) 1
  rw [Nat.mul_one] at hadd
  rw [BitVec.toNat_or, show i31Tag.toNat = 2 ^ 63 from rfl, ← hadd]
  omega

/-! ## Types without null -/

/-- The value is not null where its type has no null. -/
def ValType.NotNullAt (t : ValType) (v : Value) : Prop := t.isNonNullRef = true → NonNull v

/-- A supertype without null has no null below it. -/
theorem isNonNullRef_below {ts : TypeSection} {a b : ValType} (h : subtypeOf ts a b = true)
    (hb : b.isNonNullRef = true) : a.isNonNullRef = true := by
  unfold subtypeOf at h
  split at h
  · next heq => rwa [beq_iff_eq.mp heq]
  · split at h
    · cases h
    · split at h
      · cases h
      · next hnull => simpa [hb] using hnull

theorem ValType.NotNullAt.below {ts : TypeSection} {a b : ValType} {v : Value} (hv : a.NotNullAt v)
    (h : subtypeOf ts a b = true) : b.NotNullAt v := fun hb => hv (isNonNullRef_below h hb)

/-- The slot of a field holds what the field has as an operand. -/
theorem notNullAt_packField {f : FieldType} {v : Value} (hv : f.storage.unpacked.NotNullAt v) :
    f.storage.unpacked.NotNullAt (packField f.storage v) := by
  cases hf : f.storage with
  | val t =>
    rw [hf] at hv
    exact hv
  | i8 | i16 => exact fun h => absurd h (by decide)

theorem notNullAt_of_isDefaultable {f : FieldType} (h : f.isDefaultable = true) (v : Value) :
    f.storage.unpacked.NotNullAt v := by
  intro hnull
  rw [FieldType.isDefaultable, hnull] at h
  cases h

/-! ## Objects -/

/-- What an object holds is not null where its type admits no null. -/
def HeapObject.NotNull (m : Module) (o : HeapObject) : Prop :=
  (∀ fields, m.structFields o.typeIndex = some fields → ∀ (k : ℕ) f v,
    fields[k]? = some f → o.fields[k]? = some v → f.storage.unpacked.NotNullAt v) ∧
  ∀ f, m.arrayField o.typeIndex = some f → ∀ v ∈ o.fields, f.storage.unpacked.NotNullAt v

/-- Objects are added to the heap, and none holds a null its type does not admit. -/
def AppendsNotNull (m : Module) (p p' : Pools) : Prop :=
  ∃ objs, p' = { p with gcHeap := p.gcHeap ++ objs } ∧ ∀ o ∈ objs, o.NotNull m

theorem AppendsNotNull.refl (m : Module) (p : Pools) : AppendsNotNull m p p :=
  ⟨[], by simp, fun o ho => absurd ho List.not_mem_nil⟩

theorem AppendsNotNull.trans {m : Module} {p q r : Pools} (h : AppendsNotNull m p q) (h' : AppendsNotNull m q r) :
    AppendsNotNull m p r := by
  obtain ⟨objs, rfl, hobjs⟩ := h
  obtain ⟨objs', rfl, hobjs'⟩ := h'
  refine ⟨objs ++ objs', by simp, fun o ho => ?_⟩
  exact (List.mem_append.mp ho).elim (hobjs o) (hobjs' o)

/-- An allocation gives a reference to an object at the end of the heap. -/
theorem allocObject_eq_ok {inst ti : ℕ} {slots : List Value} {p p' : Pools} {v : Value}
    (h : allocObject inst ti slots p = .ok v p') :
    NonNull v ∧ p' = { p with gcHeap := p.gcHeap ++ [⟨inst, ti, slots⟩] } := by
  by_cases hfull : p.limits.maxGcObjects ≤ p.gcHeap.length
  · rw [allocObject_of_full hfull] at h
    cases h
  · rw [allocObject_of_room hfull] at h
    obtain ⟨rfl, rfl⟩ := estate_pure_eq_ok.mp h
    refine ⟨nonNull_of_lt ?_, rfl⟩
    have hle := p.limits.gc_le
    rw [usizeMax] at hle
    rw [BitVec.toNat_ofNat]
    omega

/-- A struct type is no array type. -/
theorem arrayField_of_structFields {ts : TypeSection} {ti : ℕ} {fields : List FieldType}
    (h : ts.structFields ti = some fields) : ts.arrayField ti = none := by
  unfold TypeSection.structFields at h
  split at h
  · next hct => rw [TypeSection.arrayField, hct]
  · cases h

/-- A struct whose slots hold what its fields admit, with its descriptor behind them. -/
theorem notNull_struct {m : Module} {inst ti : ℕ} {fields : List FieldType} {slots descriptor : List Value}
    (hfields : m.structFields ti = some fields)
    (hslots : List.Forall₂ (fun v f => f.storage.unpacked.NotNullAt v) slots fields) :
    (HeapObject.mk inst ti (slots ++ descriptor)).NotNull m := by
  constructor
  · intro fields' hfields' k f v hf hv
    obtain rfl := Option.some.inj (hfields.symm.trans hfields')
    have hk := (List.getElem?_eq_some_iff.mp hf).1
    rw [← hslots.length_eq] at hk
    rw [List.getElem?_append_left hk] at hv
    obtain ⟨f', hf', hnotNull⟩ := exists_getElem?_of_forall₂ hslots hv
    obtain rfl := Option.some.inj (hf.symm.trans hf')
    exact hnotNull
  · intro f hf
    rw [arrayField_of_structFields hfields] at hf
    cases hf

theorem notNull_plainStruct {m : Module} {inst ti : ℕ} {fields : List FieldType} {slots : List Value}
    (hfields : m.structFields ti = some fields)
    (hslots : List.Forall₂ (fun v f => f.storage.unpacked.NotNullAt v) slots fields) :
    (HeapObject.mk inst ti slots).NotNull m := by
  have h := @notNull_struct m inst ti fields slots [] hfields hslots
  rwa [List.append_nil] at h

/-- An array whose slots hold what its element admits. -/
theorem notNull_array {m : Module} {inst ti : ℕ} {f : FieldType} {slots : List Value}
    (hf : m.arrayField ti = some f) (hslots : ∀ v ∈ slots, f.storage.unpacked.NotNullAt v) :
    (HeapObject.mk inst ti slots).NotNull m := by
  constructor
  · intro fields hfields
    rw [arrayField_of_structFields hfields] at hf
    cases hf
  · intro f' hf'
    obtain rfl := Option.some.inj (hf.symm.trans hf')
    exact hslots

/-! ## Instructions -/

section Instructions

variable {cc : ConstContext} {globals stack stack' : List Value} {inst : ℕ} {p p' : Pools}

/-- The globals whose types admit no null hold none. -/
def GlobalsNotNull (m : Module) (globals : List Value) : Prop :=
  ∀ (x : ℕ) g v, m.globals[x]? = some g → globals[x]? = some v → g.content.NotNullAt v

/-- Values that are not null where their types admit no null. -/
def NotNullAll (values : List Value) (types : List ValType) : Prop :=
  List.Forall₂ (fun v t => ValType.NotNullAt t v) values types

/-- An evaluation step over operands of a rule gives its result, and objects that hold no null. -/
def StepsNotNull (m : Module) (x : EStateM Trap Pools (List Value)) (types : List ValType) : Prop :=
  ∀ ⦃p stack p'⦄, x p = .ok stack p' → NotNullAll stack types ∧ AppendsNotNull m p p'

theorem StepsNotNull.pure {m : Module} {values : List Value} {types : List ValType} (h : NotNullAll values types) :
    StepsNotNull m (Pure.pure values) types := by
  intro p stack p' hx
  obtain ⟨rfl, rfl⟩ := estate_pure_eq_ok.mp hx
  exact ⟨h, .refl m p⟩

/-- A check before a step is known to have passed. -/
theorem StepsNotNull.check {m : Module} {α : Type} {e : Except Trap α} {f : α → EStateM Trap Pools (List Value)}
    {types : List ValType} (h : ∀ a, e = .ok a → StepsNotNull m (f a) types) :
    StepsNotNull m (ofExcept e >>= f) types := by
  intro p stack p' hx
  obtain ⟨a, ha, hx⟩ := ofExcept_bind_eq_ok.mp hx
  exact h a ha hx

/-- An allocation of an object that holds no null. -/
theorem StepsNotNull.alloc {m : Module} {ti : ℕ} {slots values : List Value} {types : List ValType} {t : ValType}
    (hobject : (HeapObject.mk inst ti slots).NotNull m) (h : NotNullAll values types) :
    StepsNotNull m (allocObject inst ti slots >>= fun v => Pure.pure (v :: values)) (t :: types) := by
  intro p stack p' hx
  obtain ⟨v, p₁, hv, hx⟩ := estate_bind_eq_ok.mp hx
  obtain ⟨rfl, rfl⟩ := estate_pure_eq_ok.mp hx
  obtain ⟨hnonNull, rfl⟩ := allocObject_eq_ok hv
  refine ⟨.cons (fun _ => hnonNull) h, [⟨inst, ti, slots⟩], rfl, ?_⟩
  rintro o ho
  rwa [List.mem_singleton.mp ho]

/-- The top operand. -/
theorem NotNullAll.popConst {t : ValType} {types : List ValType} {v : Value} (h : NotNullAll stack (t :: types))
    (hpop : popConst stack = .ok (v, stack')) : t.NotNullAt v ∧ NotNullAll stack' types := by
  cases h with
  | cons hv hrest =>
    cases hpop
    exact ⟨hv, hrest⟩

theorem NotNullAll.below {ts : TypeSection} {values : List Value} {types expected : List ValType}
    (h : NotNullAll values types)
    (hsub : List.Forall₂ (fun got expect => subtypeOf ts got expect = true) types expected) :
    NotNullAll values expected := by
  induction h generalizing expected with
  | nil =>
    cases hsub
    exact .nil
  | cons hv _ ih =>
    cases hsub with
    | cons hone hrest => exact .cons (hv.below hone) (ih hrest)

/-- Operands that fit, in the order they were pushed. -/
theorem NotNullAll.popConsts {operands expected types : List ValType} {vs : List Value}
    (h : NotNullAll stack (operands ++ types)) (hfit : cc.Fit operands expected)
    (hpop : popConsts expected.length stack = .ok (vs, stack')) :
    NotNullAll vs expected ∧ NotNullAll stack' types := by
  have hlen := hfit.length_eq
  rw [List.length_reverse] at hlen
  rw [← hlen, Wasmrt.popConsts] at hpop
  split at hpop
  · cases hpop
    have hvs := (NotNullAll.below (List.forall₂_take_append _ _ _ h) hfit)
    refine ⟨?_, List.forall₂_drop_append _ _ _ h⟩
    rw [← List.reverse_reverse expected]
    exact List.forall₂_reverse_iff.mpr hvs
  · cases hpop

/-- Operands of one type. -/
theorem NotNullAll.of_replicate {values : List Value} {t : ValType} {n : ℕ} (h : NotNullAll values (List.replicate n t))
    {v : Value} (hv : v ∈ values) : t.NotNullAt v := by
  obtain ⟨k, hk⟩ := List.getElem?_of_mem hv
  obtain ⟨t', ht', hnotNull⟩ := exists_getElem?_of_forall₂ h hk
  rwa [List.eq_of_mem_replicate (List.mem_of_getElem? ht')] at hnotNull

/-- A conversion is as nullable as its operand. -/
theorem isNonNullRef_convert {heap : RefHeap} {got : ValType} :
    (heap.valType (!got.isNonNullRef)).isNonNullRef = true ↔ got.isNonNullRef = true := by
  rw [RefHeap.valType, ValType.isNonNullRef, Bool.not_not]

theorem notNull_packed {fields : List FieldType} {vs : List Value}
    (h : NotNullAll vs (fieldOperands fields)) :
    List.Forall₂ (fun v f => f.storage.unpacked.NotNullAt v)
      (fields.zipWith (fun f v => packField f.storage v) vs) fields := by
  rw [NotNullAll, fieldOperands, List.forall₂_map_right_iff] at h
  induction h with
  | nil => exact .nil
  | cons hv _ ih => exact .cons (notNullAt_packField hv) ih

theorem notNull_defaults {fields : List FieldType} (h : fields.all FieldType.isDefaultable = true) :
    List.Forall₂ (fun v f => f.storage.unpacked.NotNullAt v)
      (fields.map fun f => defaultField f.storage) fields := by
  rw [List.all_eq_true] at h
  rw [List.forall₂_map_left_iff]
  exact List.forall₂_same.mpr fun f hf => notNullAt_of_isDefaultable (h f hf) _

/-- The GC forms. -/
theorem stepsNotNull_evalConstGc {i : Instr} {operands types : List ValType} {t : ValType}
    (hrule : ConstRule cc i operands t) (hkept : i.defaultsKept cc.module = true)
    (h : NotNullAll stack (operands ++ types)) :
    StepsNotNull cc.module (evalConstGc cc.module inst stack i) (t :: types) := by
  -- the layout the evaluator reads is the one of the rule
  have hlayout {α : Type} {x : Option α} {a b : α} (hx : x = some a)
      (hb : orError Trap.undefinedType x = .ok b) : b = a :=
    Option.some.inj ((orError_eq_ok.mp hb).symm.trans hx)
  cases hrule with
  | @structNew ti fields _ _ _ hfields hfit =>
    refine .check fun sf hsf => ?_
    obtain rfl := hlayout hfields hsf
    refine .check ?_
    rintro ⟨vs, rest⟩ hpop
    obtain ⟨hvs, hrest⟩ := h.popConsts hfit (by rwa [fieldOperands, List.length_map])
    exact .alloc (notNull_plainStruct hfields (notNull_packed hvs)) hrest
  | structNewDefault _ _ hfields =>
    refine .check fun sf hsf => ?_
    obtain rfl := hlayout hfields hsf
    rw [Instr.defaultsKept, hfields] at hkept
    exact .alloc (notNull_plainStruct hfields (notNull_defaults hkept)) h
  | structNewDesc _ _ _ hfields hfit =>
    refine .check ?_
    rintro ⟨desc, rest⟩ hdesc
    obtain ⟨-, hrest⟩ := NotNullAll.popConst h hdesc
    refine .check fun _ _ => .check fun sf hsf => ?_
    obtain rfl := hlayout hfields hsf
    refine .check ?_
    rintro ⟨vs, rest'⟩ hpop
    obtain ⟨hvs, hrest'⟩ := hrest.popConsts hfit (by rwa [fieldOperands, List.length_map])
    exact .alloc (notNull_struct hfields (notNull_packed hvs)) hrest'
  | structNewDefaultDesc _ _ _ hfields hdefault =>
    refine .check ?_
    rintro ⟨desc, rest⟩ hdesc
    obtain ⟨-, hrest⟩ := NotNullAll.popConst h hdesc
    refine .check fun _ _ => .check fun sf hsf => ?_
    obtain rfl := hlayout hfields hsf
    exact .alloc (notNull_struct hfields (notNull_defaults hdefault)) hrest
  | arrayNew _ hf hinit =>
    refine .check fun f hf' => ?_
    obtain rfl := hlayout hf hf'
    refine .check ?_
    rintro ⟨len, rest⟩ hlen
    obtain ⟨-, hrest⟩ := NotNullAll.popConst h hlen
    refine .check ?_
    rintro ⟨init, rest'⟩ hpop
    obtain ⟨hv, hrest'⟩ := hrest.popConst hpop
    refine .alloc (notNull_array hf fun v hmem => ?_) hrest'
    rw [List.eq_of_mem_replicate hmem]
    exact notNullAt_packField (hv.below hinit)
  | arrayNewDefault _ hf =>
    refine .check fun f hf' => ?_
    obtain rfl := hlayout hf hf'
    rw [Instr.defaultsKept, hf] at hkept
    refine .check ?_
    rintro ⟨len, rest⟩ hlen
    obtain ⟨-, hrest⟩ := NotNullAll.popConst h hlen
    exact .alloc (notNull_array hf fun v _ => notNullAt_of_isDefaultable hkept v) hrest
  | @arrayNewFixed ti n f _ _ hf hfit =>
    refine .check fun f' hf' => ?_
    obtain rfl := hlayout hf hf'
    refine .check ?_
    rintro ⟨vs, rest⟩ hpop
    obtain ⟨hvs, hrest⟩ := h.popConsts hfit (by rwa [List.length_replicate])
    refine .alloc (notNull_array hf fun v hmem => ?_) hrest
    obtain ⟨operand, hoperand, rfl⟩ := List.mem_map.mp hmem
    exact notNullAt_packField (hvs.of_replicate hoperand)
  | anyConvertExtern _ hgot =>
    refine .check ?_
    rintro ⟨v, rest⟩ hpop
    obtain ⟨hv, hrest⟩ := NotNullAll.popConst h hpop
    exact .pure (.cons (fun hnull => nonNull_internalize (hv (isNonNullRef_convert.mp hnull))) hrest)
  | externConvertAny _ hgot =>
    refine .check ?_
    rintro ⟨v, rest⟩ hpop
    obtain ⟨hv, hrest⟩ := NotNullAll.popConst h hpop
    exact .pure (.cons (fun hnull => nonNull_externalize (hv (isNonNullRef_convert.mp hnull))) hrest)
  | refI31 _ =>
    refine .check ?_
    rintro ⟨x, rest⟩ hpop
    obtain ⟨-, hrest⟩ := NotNullAll.popConst h hpop
    exact .pure (.cons (fun _ => nonNull_i31 _) hrest)
  | _ =>
    intro p stack p' hx
    exact absurd hx estate_throw_ne_ok

/-- The type of a stated null admits it. -/
theorem isNonNullRef_refTypeValType {ts : TypeSection} {ht : HeapType} {t : ValType}
    (h : refTypeValType ts ⟨true, ht⟩ = .ok t) : t.isNonNullRef = false := by
  cases ht <;>
    · obtain ⟨_, -, h⟩ := Except.bind_eq_ok.mp h
      rw [← Except.pure_eq_ok.mp h]
      rfl

/-- An instruction of an accepted expression, over operands that are not null where their types admit no null, gives
such a result and such objects. -/
theorem stepsNotNull_evalConstStep {i : Instr} {operands types : List ValType} {t : ValType}
    (hrule : ConstRule cc i operands t) (hkept : i.defaultsKept cc.module = true) (hinst : inst < maxInstances)
    (hindex : ∀ f, i = .refFunc f → f < 2 ^ 32) (hglobals : GlobalsNotNull cc.module globals)
    (h : NotNullAll stack (operands ++ types)) :
    StepsNotNull cc.module (evalConstStep globals inst (some cc.module) stack i) (t :: types) := by
  -- a number is no null
  have hnumber {t : ValType} (ht : t.isNonNullRef = false) (v : Value) : t.NotNullAt v :=
    fun hnull => absurd (ht.symm.trans hnull) (by decide)
  have hgc : StepsNotNull cc.module (evalConstGc cc.module inst stack i) (t :: types) :=
    stepsNotNull_evalConstGc hrule hkept h
  cases hrule with
  | i32Const | i64Const | f32Const | f64Const => exact .pure (.cons (hnumber rfl _) h)
  | globalGet _ hg _ =>
    exact .check fun v hv => .pure (.cons (hglobals _ _ v hg (orError_eq_ok.mp hv)) h)
  | refNull _ htype _ => exact .pure (.cons (hnumber (isNonNullRef_refTypeValType htype) _) h)
  | refFunc _ _ => exact .pure (.cons (fun _ => nonNull_packFuncref hinst (hindex _ rfl)) h)
  | @iBin w op _ hop =>
    have hint (r : Value) {rest : List Value} (hrest : NotNullAll rest types) :
        NotNullAll (r :: rest) (w.int :: types) := .cons (hnumber (by cases w <;> rfl) r) hrest
    cases w <;>
      · refine .check ?_
        rintro ⟨b, rest⟩ hb
        obtain ⟨-, hrest⟩ := NotNullAll.popConst h hb
        refine .check ?_
        rintro ⟨a, rest'⟩ ha
        obtain ⟨-, hrest'⟩ := hrest.popConst ha
        exact .check fun r _ => .pure (hint _ hrest')
  | simd _ _ => exact .check fun _ _ => .pure (.cons (hnumber rfl _) h)
  | _ =>
    refine .check fun m hm => ?_
    cases orError_eq_ok.mp hm
    exact hgc

/-! ## Expressions -/

/-- A run gives operands that are not null where their types admit no null, and such objects. -/
theorem stepsNotNull_foldlM {is : List Instr} {types types' : List ValType} (hrun : ConstRun cc is types types')
    (hkept : ∀ i ∈ is, i.defaultsKept cc.module = true) (hinst : inst < maxInstances)
    (hindex : ∀ f, .refFunc f ∈ is → f < 2 ^ 32) (hglobals : GlobalsNotNull cc.module globals)
    (h : NotNullAll stack types) :
    StepsNotNull cc.module (is.foldlM (evalConstStep globals inst (some cc.module)) stack) types' := by
  induction hrun generalizing stack with
  | nil => exact .pure h
  | cons hrule _ ih =>
    rw [List.forall_mem_cons] at hkept
    intro p stack' p' hx
    rw [List.foldlM_cons] at hx
    obtain ⟨stack₁, p₁, hone, hrest⟩ := estate_bind_eq_ok.mp hx
    obtain ⟨h₁, happends⟩ := stepsNotNull_evalConstStep hrule hkept.1 hinst
      (by rintro f rfl; exact hindex f List.mem_cons_self) hglobals h hone
    obtain ⟨h', happends'⟩ := ih hkept.2 (fun f hf => hindex f (List.mem_cons_of_mem _ hf)) h₁ hrest
    exact ⟨h', happends.trans happends'⟩

end Instructions

/-- Evaluated in any instance of its module, an expression gives a value that is not null where its type admits no
null, and so are the slots of the objects it allocates. -/
def NeverNull (m : Module) (expr : ConstExpr) (t : ValType) : Prop :=
  ∀ (inst : ℕ) (globals : List Value) (p : Pools) (v : Value) (p' : Pools), inst < maxInstances →
    GlobalsNotNull m globals → evalConstExpr globals inst (some m) expr p = .ok v p' →
    t.NotNullAt v ∧ AppendsNotNull m p p'

section Expressions

variable {m : Module} {F : Features} {expr : ConstExpr} {byteLen selfIndex : ℕ} {expected : ValType}
  {refs refs' : Option (List Bool)}

/-- An accepted expression that defaults no type without a default never is null. -/
theorem neverNull_of_kept (h : validateConstExpr m expr byteLen expected selfIndex refs F = .ok refs')
    (hkept : ∀ i ∈ expr, i.defaultsKept m = true) (hindex : ∀ f, .refFunc f ∈ expr → f < 2 ^ 32) :
    NeverNull m expr expected := by
  intro inst globals p v p' hinst hglobals heval
  obtain ⟨t, hrun, hsub⟩ := run_of_validateConstExpr h
  obtain ⟨stack, p₁, hsteps, heval⟩ := estate_bind_eq_ok.mp heval
  obtain ⟨⟨v', rest⟩, hpop, heval⟩ := ofExcept_bind_eq_ok.mp heval
  obtain ⟨rfl, rfl⟩ := estate_pure_eq_ok.mp heval
  obtain ⟨hstack, happends⟩ := stepsNotNull_foldlM hrun hkept hinst hindex hglobals .nil hsteps
  exact ⟨(hstack.popConst hpop).1.below hsub, happends⟩

end Expressions

/-! ## Modules and their instances -/

section Instances

variable {m : Module} {exprLen : ConstExpr → ℕ} {F : Features} {inst : ℕ} {p p' : Pools}

/-- What the initialisers of globals and the entries of element segments default has a default, and the functions they
reference have a 32-bit index. -/
structure Module.InitialisersKept (m : Module) : Prop where
  globals : ∀ init ∈ m.globalInits, (∀ i ∈ init, i.defaultsKept m = true) ∧ ∀ f, .refFunc f ∈ init → f < 2 ^ 32
  elements : ∀ elem ∈ m.elements, (∀ f ∈ elem.funcs, f < 2 ^ 32) ∧
    ∀ ex ∈ elem.exprs, (∀ i ∈ ex, i.defaultsKept m = true) ∧ ∀ f, .refFunc f ∈ ex → f < 2 ^ 32

theorem neverNull_of_validateDeclaring {expected : ValType} {selfIndex : ℕ} {refs r : List Bool} {expr : ConstExpr}
    (h : validateDeclaring m exprLen F expected selfIndex refs expr = .ok r)
    (hkept : (∀ i ∈ expr, i.defaultsKept m = true) ∧ ∀ f, .refFunc f ∈ expr → f < 2 ^ 32) :
    NeverNull m expr expected := by
  obtain ⟨_, h, -⟩ := Except.bind_eq_ok.mp h
  exact neverNull_of_kept h hkept.1 hkept.2

/-- The initialiser of a global of an accepted module never is null where the global admits no null. -/
theorem neverNull_globalInit (h : validateWithFeatures m exprLen F = .ok ()) (hkept : m.InitialisersKept)
    {k : ℕ} {init : ConstExpr} (hinit : m.globalInits[k]? = some init) :
    ∃ g, m.globals[m.importedGlobalCount + k]? = some g ∧ NeverNull m init g.content := by
  iterate 5 obtain ⟨_, -, h⟩ := Except.bind_eq_ok.mp h
  obtain ⟨refs, h, -⟩ := Except.bind_eq_ok.mp h
  obtain ⟨_, hglobals, -⟩ := Except.bind_eq_ok.mp h
  obtain ⟨_, _, hone⟩ := exists_of_foldlM_eq_ok hglobals
    (show (init, k) ∈ m.globalInits.zipIdx from List.mem_zipIdx_iff_getElem?.mpr hinit)
  obtain ⟨g, hg, hone⟩ := Except.bind_eq_ok.mp hone
  exact ⟨g, orError_eq_ok.mp hg,
    neverNull_of_validateDeclaring hone (hkept.globals init (List.mem_of_getElem? hinit))⟩

theorem neverNull_element (h : validateWithFeatures m exprLen F = .ok ()) (hkept : m.InitialisersKept)
    {elem : Element} (helem : elem ∈ m.elements) {ex : ConstExpr} (hex : ex ∈ elem.exprs) :
    NeverNull m ex elem.elemType := by
  iterate 5 obtain ⟨_, -, h⟩ := Except.bind_eq_ok.mp h
  obtain ⟨refs, h, -⟩ := Except.bind_eq_ok.mp h
  obtain ⟨_, -, h⟩ := Except.bind_eq_ok.mp h
  obtain ⟨_, helems, -⟩ := Except.bind_eq_ok.mp h
  obtain ⟨_, _, hone⟩ := exists_of_foldlM_eq_ok helems helem
  obtain ⟨_, -, hone⟩ := Except.bind_eq_ok.mp hone
  obtain ⟨_, hexprs, -⟩ := Except.bind_eq_ok.mp hone
  obtain ⟨_, _, hone⟩ := exists_of_foldlM_eq_ok hexprs hex
  exact neverNull_of_validateDeclaring hone ((hkept.elements elem helem).2 ex hex)

/-- A global joins those before it. -/
theorem GlobalsNotNull.append {globals : List Value} {v : Value} (h : GlobalsNotNull m globals)
    (hv : ∀ g, m.globals[globals.length]? = some g → g.content.NotNullAt v) : GlobalsNotNull m (globals ++ [v]) := by
  intro x g w hg hw
  rw [List.getElem?_append] at hw
  split at hw
  · exact h x g w hg hw
  · next hx =>
    obtain ⟨hlt, rfl⟩ := List.getElem?_eq_some_iff.mp hw
    rw [List.length_singleton] at hlt
    obtain rfl : x = globals.length := by omega
    simpa using hv g hg

/-- Each initialiser is evaluated against the globals before it, none of which is null where its type admits no
null. -/
theorem globalsNotNull_foldlM {inits : List ConstExpr} {globals globals' : List Value}
    (hinits : ∀ k init, inits[k]? = some init →
      ∃ g, m.globals[globals.length + k]? = some g ∧ NeverNull m init g.content)
    (hinst : inst < maxInstances) (hglobals : GlobalsNotNull m globals)
    (h : (inits.foldlM (fun globals init => do
      let v ← evalConstExpr globals inst (some m) init
      pure (globals ++ [v])) globals : EStateM Trap Pools (List Value)) p = .ok globals' p') :
    GlobalsNotNull m globals' ∧ AppendsNotNull m p p' := by
  induction inits generalizing globals p with
  | nil =>
    obtain ⟨rfl, rfl⟩ := estate_pure_eq_ok.mp h
    exact ⟨hglobals, .refl m p⟩
  | cons init inits ih =>
    rw [List.foldlM_cons] at h
    obtain ⟨_, p₂, hone, hrest⟩ := estate_bind_eq_ok.mp h
    obtain ⟨v, p₁, hv, hone⟩ := estate_bind_eq_ok.mp hone
    obtain ⟨rfl, rfl⟩ := estate_pure_eq_ok.mp hone
    obtain ⟨g, hg, hinit⟩ := hinits 0 init rfl
    obtain ⟨hvalue, happends⟩ := hinit inst globals p v p₁ hinst hglobals hv
    have hglobals₁ : GlobalsNotNull m (globals ++ [v]) := hglobals.append fun g' hg' => by
      obtain rfl := Option.some.inj (hg.symm.trans hg')
      exact hvalue
    have hinits' (k : ℕ) (init' : ConstExpr) (hinit' : inits[k]? = some init') :
        ∃ g, m.globals[(globals ++ [v]).length + k]? = some g ∧ NeverNull m init' g.content := by
      rw [List.length_append, List.length_singleton, Nat.add_assoc, Nat.add_comm 1]
      exact hinits (k + 1) init' hinit'
    obtain ⟨hrest, happends'⟩ := ih hinits' hglobals₁ hrest
    exact ⟨hrest, happends.trans happends'⟩

/-- The globals of an instance of an accepted module: where the imported ones are not null, none is. -/
theorem globalsNotNull_evalGlobals (h : validateWithFeatures m exprLen F = .ok ()) (hkept : m.InitialisersKept)
    {globals globals' : List Value} (hcount : globals.length = m.importedGlobalCount) (hinst : inst < maxInstances)
    (hglobals : GlobalsNotNull m globals) (heval : evalGlobals m inst globals p = .ok globals' p') :
    GlobalsNotNull m globals' ∧ AppendsNotNull m p p' := by
  refine globalsNotNull_foldlM (fun k init hinit => ?_) hinst hglobals heval
  rw [hcount]
  exact neverNull_globalInit h hkept hinit

/-- Expressions of one type, evaluated in turn. -/
theorem notNull_foldlM {exprs : List ConstExpr} {t : ValType} {globals vs vs' : List Value}
    (hexprs : ∀ ex ∈ exprs, NeverNull m ex t) (hinst : inst < maxInstances) (hglobals : GlobalsNotNull m globals)
    (hvs : ∀ v ∈ vs, t.NotNullAt v)
    (h : (exprs.foldlM (fun vs ex => do
      let v ← evalConstExpr globals inst (some m) ex
      pure (vs ++ [v])) vs : EStateM Trap Pools (List Value)) p = .ok vs' p') :
    (∀ v ∈ vs', t.NotNullAt v) ∧ AppendsNotNull m p p' := by
  induction exprs generalizing vs p with
  | nil =>
    obtain ⟨rfl, rfl⟩ := estate_pure_eq_ok.mp h
    exact ⟨hvs, .refl m p⟩
  | cons ex exprs ih =>
    rw [List.foldlM_cons] at h
    rw [List.forall_mem_cons] at hexprs
    obtain ⟨_, p₂, hone, hrest⟩ := estate_bind_eq_ok.mp h
    obtain ⟨v, p₁, hv, hone⟩ := estate_bind_eq_ok.mp hone
    obtain ⟨rfl, rfl⟩ := estate_pure_eq_ok.mp hone
    obtain ⟨hvalue, happends⟩ := hexprs.1 inst globals p v p₁ hinst hglobals hv
    have hvs₁ : ∀ w ∈ vs ++ [v], t.NotNullAt w := by
      rw [List.forall_mem_append, List.forall_mem_singleton]
      exact ⟨hvs, hvalue⟩
    obtain ⟨hrest, happends'⟩ := ih hexprs.2 hvs₁ hrest
    exact ⟨hrest, happends.trans happends'⟩

/-- The values of an element segment of an accepted module. -/
theorem notNull_evalElement (h : validateWithFeatures m exprLen F = .ok ()) (hkept : m.InitialisersKept)
    {elem : Element} (helem : elem ∈ m.elements) {globals vals : List Value} (hinst : inst < maxInstances)
    (hglobals : GlobalsNotNull m globals) (heval : evalElement m inst globals elem p = .ok vals p') :
    (∀ v ∈ vals, elem.elemType.NotNullAt v) ∧ AppendsNotNull m p p' := by
  obtain ⟨exprs, p₁, hexprs, heval⟩ := estate_bind_eq_ok.mp heval
  obtain ⟨rfl, rfl⟩ := estate_pure_eq_ok.mp heval
  obtain ⟨hvalues, happends⟩ := notNull_foldlM (fun ex hex => neverNull_element h hkept helem hex) hinst hglobals
    (fun v hv => absurd hv List.not_mem_nil) hexprs
  refine ⟨?_, happends⟩
  rw [List.forall_mem_append, List.forall_mem_map]
  exact ⟨fun f hf _ => nonNull_packFuncref hinst ((hkept.elements elem helem).1 f hf), hvalues⟩

/-- The values of the element segments, one list for each. -/
theorem notNull_evalElements {elems : List Element} {globals : List Value}
    {acc acc' : List (List Value) × List ActiveSegment}
    (helems : ∀ elem ∈ elems, ∀ p vals p', evalElement m inst globals elem p = .ok vals p' →
      ∀ v ∈ vals, elem.elemType.NotNullAt v)
    (h : elems.foldlM (evalElementStep m inst globals) acc p = .ok acc' p') :
    ∃ values, acc'.1 = acc.1 ++ values ∧
      List.Forall₂ (fun vals (elem : Element) => ∀ v ∈ vals, elem.elemType.NotNullAt v) values elems := by
  induction elems generalizing acc p with
  | nil =>
    obtain ⟨rfl, -⟩ := estate_pure_eq_ok.mp h
    exact ⟨[], (List.append_nil _).symm, .nil⟩
  | cons elem elems ih =>
    rw [List.foldlM_cons] at h
    rw [List.forall_mem_cons] at helems
    obtain ⟨acc₁, p₂, hone, hrest⟩ := estate_bind_eq_ok.mp h
    obtain ⟨vals, p₁, hvals, hone⟩ := estate_bind_eq_ok.mp hone
    have hacc₁ : acc₁.1 = acc.1 ++ [vals] := by
      split at hone
      · obtain ⟨offset, _, -, hone⟩ := estate_bind_eq_ok.mp hone
        rw [← (estate_pure_eq_ok.mp hone).1]
      · rw [← (estate_pure_eq_ok.mp hone).1]
    obtain ⟨values, hacc', hvalues⟩ := ih helems.2 hrest
    refine ⟨vals :: values, ?_, .cons (helems.1 p vals p₁ hvals) hvalues⟩
    rw [hacc', hacc₁, List.append_assoc]
    rfl

/-- In an instance of an accepted module, where the imported globals are not null, no global is null whose type admits
no null, and no value of an element segment. -/
theorem notNull_of_prepare {s : Store} {imports : Imports} {parts : Parts}
    (h : validateWithFeatures m exprLen F = .ok ()) (hkept : m.InitialisersKept)
    (hcount : imports.globals.length = m.importedGlobalCount) (himports : GlobalsNotNull m imports.globals)
    (hprepare : prepare s m imports p = .ok parts p') :
    (∀ (k : ℕ) g v, m.globals[m.importedGlobalCount + k]? = some g → parts.definedGlobals[k]? = some v →
      g.content.NotNullAt v) ∧
    List.Forall₂ (fun vals (elem : Element) => ∀ v ∈ vals, elem.elemType.NotNullAt v) parts.elemValues m.elements := by
  obtain ⟨stages⟩ := prepare_stages hprepare
  obtain ⟨hglobals, -⟩ := globalsNotNull_evalGlobals h hkept hcount stages.instances himports stages.evaluated
  have helements := stages.elements
  rw [evalElements_eq] at helements
  obtain ⟨values, hvalues, hnotNull⟩ := notNull_evalElements
    (fun elem helem p vals p' hvals => (notNull_evalElement h hkept helem stages.instances hglobals hvals).1) helements
  constructor
  · intro k g v hg hv
    rw [stages.definedGlobals, List.getElem?_drop, hcount] at hv
    exact hglobals _ g v hg hv
  · have hvalues : parts.elemValues = values := hvalues
    rwa [hvalues]

end Instances

/-! ## Strictness -/

section Strictness

variable {m : Module} {F : Features} {expr : ConstExpr} {byteLen selfIndex : ℕ} {expected : ValType}
  {refs refs' : Option (List Bool)}

/-- What constant expressions are promised of, for an accepted one: the checker of bodies accepts it too, it defaults
what has a default, and it never is null where its types admit no null. All of this holds just in case it has no
default that its type does not have, and descriptors only where they are accepted. -/
theorem validateConstExpr_isBody_iff (hcovered : m.CoveredBy refs) (hindex : ∀ f, .refFunc f ∈ expr → f < 2 ^ 32)
    (h : validateConstExpr m expr byteLen expected selfIndex refs F = .ok refs') :
    (validateFunction m ⟨[], [expected]⟩ (asBody expr) refs' F = .ok () ∧
        (∀ i ∈ expr, i.defaultsKept m = true) ∧ NeverNull m expr expected) ↔
      ∀ i ∈ expr, i.keptByBody m F = true := by
  rw [validateFunction_asBody_iff hcovered h]
  refine ⟨fun hall => hall.1, fun hkept => ?_⟩
  have hdefaults : ∀ i ∈ expr, i.defaultsKept m = true := fun i hi => (Instr.keptByBody_iff.mp (hkept i hi)).1
  exact ⟨hkept, hdefaults, neverNull_of_kept h hdefaults hindex⟩

end Strictness

/-- A struct whose one field admits no null, and a global that holds its default. -/
def defaultsNonNull : Module :=
  { decoded [[⟨true, none, {}, .struct [⟨.val (.ref false .eq), false⟩]⟩]] with
    globals := [⟨.concreteRef false .struct 0, false⟩]
    globalInits := [[.structNewDefault 0]] }

/-- The struct with its field from an operand is as strict as a body. -/
theorem validateConstExpr_isBody_structNew :
    validateFunction defaultsNonNull ⟨[], [.concreteRef false .struct 0]⟩
        (asBody [.i32Const 7, .refI31, .structNew 0]) none .all = .ok () ∧
      (∀ i ∈ [Instr.i32Const 7, .refI31, .structNew 0], i.defaultsKept defaultsNonNull = true) ∧
      NeverNull defaultsNonNull [.i32Const 7, .refI31, .structNew 0] (.concreteRef false .struct 0) :=
  (@validateConstExpr_isBody_iff defaultsNonNull .all [.i32Const 7, .refI31, .structNew 0] 8 0
    (.concreteRef false .struct 0) none none (by rintro _ ⟨⟩) (by simp) rfl).mpr (by decide)

/-- The struct with its field defaulted is an accepted constant expression of an accepted module, and no accepted body.
Its evaluation stores null in the field. -/
theorem structNewDefault_no_body :
    validateWithFeatures defaultsNonNull (fun _ => 4) .all = .ok () ∧
    evalConstExpr [] 0 (some defaultsNonNull) [.structNewDefault 0] {} =
      .ok 0 { gcHeap := [⟨0, 0, [nullRef]⟩] } ∧
    ¬ ∀ (m : Module) (F : Features) (expr : ConstExpr) (byteLen selfIndex : ℕ) (expected : ValType)
      (refs refs' : Option (List Bool)),
      validateConstExpr m expr byteLen expected selfIndex refs F = .ok refs' →
        validateFunction m ⟨[], [expected]⟩ (asBody expr) refs' F = .ok () := by
  refine ⟨by decide, rfl, fun h => ?_⟩
  have := h defaultsNonNull .all [.structNewDefault 0] 4 0 (.concreteRef false .struct 0) none none rfl
  exact absurd this (by decide)

end Wasmrt
