import Wasmrt.Library.BitFields
import Wasmrt.Types

/-!
# The word of a value type

The source keeps a value type in one `u32`. Here are its operations on that word, bit by bit, and the proof that they
compute the functions of `ValType`. The bits of a concrete reference are flags and an index of 27 bits; any other type
is one byte.

## Main definitions

* `PackedType`: the word, with the builders and the readers of the source.
* `PackedType.reference`: a concrete reference, exact or not.
* `PackedType.ofValType`: the word of a value type.

## Main results

* `ofValType_injective`: two value types have two words.
* `packed_lossless`: what a word is built from is read back, and each operation changes its own attribute.
-/

namespace Wasmrt

/-- A value type as the source has it: a `u32`. -/
structure PackedType where
  word : BitVec 32
  deriving DecidableEq, Repr

namespace PackedType

/-! ## The source's operations -/

def concreteBit : BitVec 32 := 0x80000000

def nullableBit : BitVec 32 := 0x40000000

def kindShift : ℕ := 28

def kindMask : BitVec 32 := 0x3 <<< kindShift

/-- The exactness of custom-descriptors, taken out of the index field. -/
def exactBit : BitVec 32 := 0x08000000

def indexMask : BitVec 32 := 0x07ffffff

/-- The words of the numeric types. -/
def numericWords : List (BitVec 32) := [0x7f, 0x7e, 0x7d, 0x7c, 0x7b]

/-- The words of the nullable abstract references. -/
def nullableWords : List (BitVec 32) :=
  [0x70, 0x6f, 0x6e, 0x6d, 0x6c, 0x6b, 0x6a, 0x69, 0x71, 0x72, 0x73, 0x74]

/-- The words of the non-null abstract references. -/
def nonNullWords : List (BitVec 32) :=
  [0x68, 0x67, 0x66, 0x65, 0x62, 0x61, 0x59, 0x58, 0x57, 0x56, 0x55, 0x54]

/-- The value type of a head, collapsed to its byte. -/
def ofHeap (h : RefHeap) (isNullable : Bool) : PackedType := ⟨ValType.refBits h isNullable⟩

/-- A concrete reference `(ref null? $ti)`. The source panics on a head that is no family. -/
def concreteRef (isNullable : Bool) (kind : RefHeap) (ti : BitVec 32) : Option PackedType := do
  let k : BitVec 32 ← match kind with
    | .func => some 0
    | .struct => some 1
    | .array => some 2
    | _ => none
  pure ⟨concreteBit ||| (if isNullable then nullableBit else 0) ||| (k <<< kindShift) ||| (ti &&& indexMask)⟩

/-- An exact concrete reference `(ref null? (exact $ti))`. -/
def exactRef (isNullable : Bool) (kind : RefHeap) (ti : BitVec 32) : Option PackedType := do
  let v ← concreteRef isNullable kind ti
  pure ⟨v.word ||| exactBit⟩

section Readers

variable (v : PackedType)

def isConcrete : Bool := v.word &&& concreteBit ≠ 0

def isExact : Bool := v.isConcrete && v.word &&& exactBit ≠ 0

/-- The same reference with exactness dropped. -/
def inexact : PackedType := if v.isConcrete then ⟨v.word &&& ~~~exactBit⟩ else v

/-- The type index of a concrete reference. -/
def concreteIndex : BitVec 32 := v.word &&& indexMask

def isRef : Bool := v.isConcrete || v.word ∈ nullableWords || v.word ∈ nonNullWords

/-- A defined value type, and no garbage. -/
def isValid : Bool := v.isConcrete || v.word ∈ numericWords || v.isRef

def isNonNullRef : Bool := if v.isConcrete then v.word &&& nullableBit = 0 else v.word ∈ nonNullWords

/-- The non-nullable form of a reference type; anything else is unchanged. -/
def nonNull : PackedType :=
  if v.isConcrete then ⟨v.word &&& ~~~nullableBit⟩
  else match v.word with
    | 0x70 => ⟨0x68⟩
    | 0x6f => ⟨0x67⟩
    | 0x6e => ⟨0x66⟩
    | 0x6d => ⟨0x65⟩
    | 0x6c => ⟨0x62⟩
    | 0x6b => ⟨0x61⟩
    | 0x6a => ⟨0x59⟩
    | 0x69 => ⟨0x57⟩
    | 0x71 => ⟨0x58⟩
    | 0x73 => ⟨0x56⟩
    | 0x72 => ⟨0x55⟩
    | 0x74 => ⟨0x54⟩
    | _ => v

/-- The nullable form of a reference type; anything else is unchanged. -/
def nullable : PackedType :=
  if v.isConcrete then ⟨v.word ||| nullableBit⟩
  else match v.word with
    | 0x68 => ⟨0x70⟩
    | 0x67 => ⟨0x6f⟩
    | 0x66 => ⟨0x6e⟩
    | 0x65 => ⟨0x6d⟩
    | 0x62 => ⟨0x6c⟩
    | 0x61 => ⟨0x6b⟩
    | 0x59 => ⟨0x6a⟩
    | 0x57 => ⟨0x69⟩
    | 0x58 => ⟨0x71⟩
    | 0x56 => ⟨0x73⟩
    | 0x55 => ⟨0x72⟩
    | 0x54 => ⟨0x74⟩
    | _ => v

/-- The heap type of a reference; `none` where the source panics. -/
def refHeap : Option RefHeap :=
  if v.isConcrete then
    match (v.word &&& kindMask) >>> kindShift with
    | 0 => some .func
    | 1 => some .struct
    | 2 => some .array
    | _ => none
  else match v.word with
    | 0x70 | 0x68 => some .func
    | 0x6f | 0x67 => some .external
    | 0x6e | 0x66 => some .any
    | 0x6d | 0x65 => some .eq
    | 0x6c | 0x62 => some .i31
    | 0x6b | 0x61 => some .struct
    | 0x6a | 0x59 => some .array
    | 0x69 | 0x57 => some .exn
    | 0x71 | 0x58 => some .none
    | 0x73 | 0x56 => some .noFunc
    | 0x72 | 0x55 => some .noExternal
    | 0x74 | 0x54 => some .noExn
    | _ => none

end Readers

/-! ## The word of a value type -/

/-- The word of a value type. -/
def ofValType (v : ValType) : PackedType := ⟨v.bits⟩

/-- A concrete reference, exact or not. -/
def reference (isNullable exact : Bool) (kind : CompKind) (ti : BitVec 32) : Option PackedType :=
  if exact then exactRef isNullable kind.head ti else concreteRef isNullable kind.head ti

/-- What the source builds for a value type. -/
def build : ValType → Option PackedType
  | .i32 => some ⟨0x7f⟩
  | .i64 => some ⟨0x7e⟩
  | .f32 => some ⟨0x7d⟩
  | .f64 => some ⟨0x7c⟩
  | .v128 => some ⟨0x7b⟩
  | .ref h n => some (ofHeap h n)
  | .concrete n e k i => reference n e k (BitVec.ofNat 32 i)

/-! ### Concrete references -/

section Concrete

variable {n e : Bool} {k : CompKind} {ti : BitVec 32}

/-- No flag is inside the field of the index. -/
theorem concreteFlags_and_indexMask : ValType.concreteFlags n e k &&& indexMask = 0 := by
  cases n <;> cases e <;> cases k <;> decide

/-- The flags of a concrete reference, with the index in its field. -/
def ofFlags (n e : Bool) (k : CompKind) (ti : BitVec 32) : PackedType :=
  ⟨ValType.concreteFlags n e k ||| ti &&& indexMask⟩

theorem reference_eq : reference n e k ti = some (ofFlags n e k ti) := by
  have hbase : concreteRef n k.head ti = some (ofFlags n false k ti) := by
    cases n <;> cases k <;> rfl
  cases e with
  | false => exact hbase
  | true =>
    have hflags : ValType.concreteFlags n false k ||| exactBit = ValType.concreteFlags n true k := by
      cases n <;> cases k <;> decide
    rw [reference, if_pos rfl, exactRef, hbase]
    exact congrArg (fun word => some (PackedType.mk word)) (BitFields.or_and_set.trans (by rw [hflags]))

theorem and_indexMask (hti : ti ≤ indexMask) : ti &&& indexMask = ti := by
  apply BitVec.eq_of_toNat_eq
  have hlt : ti.toNat ≤ 2 ^ 27 - 1 := hti
  rw [BitVec.toNat_and, show indexMask.toNat = 2 ^ 27 - 1 from rfl, Nat.and_two_pow_sub_one_eq_mod]
  exact Nat.mod_eq_of_lt (by omega)

theorem ofNat_index_le (i : Fin (2 ^ 27)) : BitVec.ofNat 32 i ≤ indexMask := by
  have hi := i.isLt
  rw [BitVec.le_def, BitVec.toNat_ofNat, Nat.mod_eq_of_lt (by omega)]
  exact Nat.le_sub_one_of_lt hi

theorem reference_ofNat (i : Fin (2 ^ 27)) :
    reference n e k (BitVec.ofNat 32 i) = some (ofValType (.concrete n e k i)) := by
  rw [reference_eq, ofFlags, and_indexMask (ofNat_index_le i)]
  rfl

@[simp] theorem isConcrete_ofFlags : (ofFlags n e k ti).isConcrete = true := by
  rw [isConcrete, ofFlags, BitFields.or_and_flag (by decide)]
  cases n <;> cases e <;> cases k <;> decide

@[simp] theorem isExact_ofFlags : (ofFlags n e k ti).isExact = e := by
  rw [isExact, isConcrete_ofFlags, ofFlags, BitFields.or_and_flag (by decide)]
  cases n <;> cases e <;> cases k <;> decide

@[simp] theorem isNonNullRef_ofFlags : (ofFlags n e k ti).isNonNullRef = !n := by
  rw [isNonNullRef, isConcrete_ofFlags, if_pos rfl, ofFlags, BitFields.or_and_flag (by decide)]
  cases n <;> cases e <;> cases k <;> decide

@[simp] theorem refHeap_ofFlags : (ofFlags n e k ti).refHeap = some k.head := by
  rw [refHeap, isConcrete_ofFlags, if_pos rfl, ofFlags, BitFields.or_and_flag (by decide)]
  cases n <;> cases e <;> cases k <;> rfl

@[simp] theorem concreteIndex_ofFlags : (ofFlags n e k ti).concreteIndex = ti &&& indexMask :=
  BitFields.or_and_mask concreteFlags_and_indexMask

@[simp] theorem inexact_ofFlags : (ofFlags n e k ti).inexact = ofFlags n false k ti := by
  have hflags : ValType.concreteFlags n e k &&& ~~~exactBit = ValType.concreteFlags n false k := by
    cases n <;> cases e <;> cases k <;> decide
  rw [inexact, isConcrete_ofFlags, if_pos rfl, ofFlags, BitFields.or_and_clear (by decide), hflags]
  rfl

@[simp] theorem nonNull_ofFlags : (ofFlags n e k ti).nonNull = ofFlags false e k ti := by
  have hflags : ValType.concreteFlags n e k &&& ~~~nullableBit = ValType.concreteFlags false e k := by
    cases n <;> cases e <;> cases k <;> decide
  rw [nonNull, isConcrete_ofFlags, if_pos rfl, ofFlags, BitFields.or_and_clear (by decide), hflags]
  rfl

@[simp] theorem nullable_ofFlags : (ofFlags n e k ti).nullable = ofFlags true e k ti := by
  have hflags : ValType.concreteFlags n e k ||| nullableBit = ValType.concreteFlags true e k := by
    cases n <;> cases e <;> cases k <;> decide
  rw [nullable, isConcrete_ofFlags, if_pos rfl, ofFlags, BitFields.or_and_set, hflags]
  rfl

end Concrete

/-! ### Abstract references -/

section Abstract

variable (h : RefHeap) (n : Bool)

@[simp] theorem isConcrete_ofHeap : (ofHeap h n).isConcrete = false := by
  cases h <;> cases n <;> decide

@[simp] theorem isExact_ofHeap : (ofHeap h n).isExact = false := by
  rw [isExact, isConcrete_ofHeap, Bool.false_and]

@[simp] theorem isNonNullRef_ofHeap : (ofHeap h n).isNonNullRef = !n := by
  cases h <;> cases n <;> decide

@[simp] theorem refHeap_ofHeap : (ofHeap h n).refHeap = some h := by
  cases h <;> cases n <;> rfl

@[simp] theorem inexact_ofHeap : (ofHeap h n).inexact = ofHeap h n := by
  rw [inexact, isConcrete_ofHeap]
  rfl

@[simp] theorem nonNull_ofHeap : (ofHeap h n).nonNull = ofHeap h false := by
  cases h <;> cases n <;> rfl

@[simp] theorem nullable_ofHeap : (ofHeap h n).nullable = ofHeap h true := by
  cases h <;> cases n <;> rfl

@[simp] theorem isRef_ofHeap : (ofHeap h n).isRef = true := by
  cases h <;> cases n <;> decide

end Abstract

/-! ### The functions of value types -/

section OfValType

variable (v : ValType)

theorem ofValType_concrete (n e : Bool) (k : CompKind) (i : Fin (2 ^ 27)) :
    ofValType (.concrete n e k i) = ofFlags n e k (BitVec.ofNat 32 i) :=
  Option.some.inj ((reference_ofNat i).symm.trans reference_eq)

theorem build_eq : build v = some (ofValType v) := by
  cases v with
  | concrete n e k i => exact reference_ofNat i
  | _ => rfl

@[simp] theorem isConcrete_ofValType : (ofValType v).isConcrete = v.isConcrete := by
  cases v with
  | ref h n => exact isConcrete_ofHeap h n
  | concrete n e k i => rw [ofValType_concrete, isConcrete_ofFlags, ValType.isConcrete]
  | _ => rfl

@[simp] theorem isExact_ofValType : (ofValType v).isExact = v.isExact := by
  cases v with
  | ref h n => exact isExact_ofHeap h n
  | concrete n e k i => rw [ofValType_concrete, isExact_ofFlags, ValType.isExact]
  | _ => rfl

@[simp] theorem isRef_ofValType : (ofValType v).isRef = v.isRef := by
  cases v with
  | ref h n => exact isRef_ofHeap h n
  | concrete n e k i =>
    rw [ofValType_concrete, isRef, isConcrete_ofFlags, Bool.true_or, Bool.true_or, ValType.isRef]
  | _ => decide

@[simp] theorem isNonNullRef_ofValType : (ofValType v).isNonNullRef = v.isNonNullRef := by
  cases v with
  | ref h n => exact isNonNullRef_ofHeap h n
  | concrete n e k i => rw [ofValType_concrete, isNonNullRef_ofFlags, ValType.isNonNullRef]
  | _ => decide

/-- A value type is no garbage. -/
theorem isValid_ofValType : (ofValType v).isValid = true := by
  cases v with
  | ref | concrete => rw [isValid, isRef_ofValType, ValType.isRef, Bool.or_true]
  | _ => decide

@[simp] theorem inexact_ofValType : (ofValType v).inexact = ofValType v.inexact := by
  cases v with
  | ref h n => exact inexact_ofHeap h n
  | concrete n e k i => rw [ofValType_concrete, inexact_ofFlags, ValType.inexact, ofValType_concrete]
  | _ => rfl

@[simp] theorem nonNull_ofValType : (ofValType v).nonNull = ofValType v.nonNull := by
  cases v with
  | ref h n => exact nonNull_ofHeap h n
  | concrete n e k i => rw [ofValType_concrete, nonNull_ofFlags, ValType.nonNull, ofValType_concrete]
  | _ => rfl

@[simp] theorem nullable_ofValType : (ofValType v).nullable = ofValType v.nullable := by
  cases v with
  | ref h n => exact nullable_ofHeap h n
  | concrete n e k i => rw [ofValType_concrete, nullable_ofFlags, ValType.nullable, ofValType_concrete]
  | _ => rfl

/-- The heap type is read from a reference, and from nothing else. -/
theorem refHeap_ofValType : (ofValType v).refHeap = if v.isRef then some v.refHeap else none := by
  cases v with
  | ref h n => exact refHeap_ofHeap h n
  | concrete n e k i => rw [ofValType_concrete, refHeap_ofFlags, ValType.isRef, if_pos rfl, ValType.refHeap]
  | _ => rfl

/-- The index is read from a concrete reference. -/
theorem concreteIndex_ofValType (hconcrete : v.isConcrete = true) :
    (ofValType v).concreteIndex = BitVec.ofNat 32 v.concreteIndex := by
  cases v with
  | concrete n e k i =>
    rw [ofValType_concrete, concreteIndex_ofFlags, and_indexMask (ofNat_index_le i), ValType.concreteIndex]
  | _ => cases hconcrete

end OfValType

/-- The word of a reference has its attributes and its index. -/
theorem ofFlags_inj {n n' e e' : Bool} {k k' : CompKind} {ti ti' : BitVec 32}
    (h : ofFlags n e k ti = ofFlags n' e' k' ti') :
    n = n' ∧ e = e' ∧ k = k' ∧ ti &&& indexMask = ti' &&& indexMask := by
  have hnull := congrArg isNonNullRef h
  have hexact := congrArg isExact h
  have hheap := congrArg refHeap h
  have hindex := congrArg concreteIndex h
  simp only [isNonNullRef_ofFlags, isExact_ofFlags, refHeap_ofFlags, concreteIndex_ofFlags, Bool.not_inj_iff,
    Option.some.injEq] at hnull hexact hheap hindex
  refine ⟨hnull, hexact, ?_, hindex⟩
  cases k <;> cases k' <;> first | rfl | cases hheap

/-- Two value types have two words. -/
theorem ofValType_injective : Function.Injective ofValType := by
  intro v v' h
  have hconcrete : v.isConcrete = v'.isConcrete := by
    rw [← isConcrete_ofValType, h, isConcrete_ofValType]
  by_cases hv : v.isConcrete = true
  · -- Both are concrete: their attributes and their indices agree.
    cases v with
    | concrete n e k i =>
      cases v' with
      | concrete n' e' k' i' =>
        rw [ofValType_concrete, ofValType_concrete] at h
        obtain ⟨rfl, rfl, rfl, hindex⟩ := ofFlags_inj h
        rw [and_indexMask (ofNat_index_le i), and_indexMask (ofNat_index_le i')] at hindex
        have hi := i.isLt
        have hi' := i'.isLt
        have hnat := congrArg BitVec.toNat hindex
        rw [BitVec.toNat_ofNat, BitVec.toNat_ofNat, Nat.mod_eq_of_lt (by omega), Nat.mod_eq_of_lt (by omega)] at hnat
        rw [Fin.ext hnat]
      | _ => cases hconcrete
    | _ => cases hv
  · have hfalse : v.isConcrete = false := by simpa using hv
    exact ValType.eq_of_bits_eq hfalse (hconcrete ▸ hfalse) (congrArg word h)

/-- What a packed type is built from is read back; `nullable`, `nonNull`, `inexact` and the exactness bit change their
own attribute; and no two value types are built as one word. -/
theorem packed_lossless :
    (∀ (n e : Bool) (k : CompKind) (ti : BitVec 32), ti ≤ indexMask → ∃ v, reference n e k ti = some v ∧
      v.concreteIndex = ti ∧ v.refHeap = some k.head ∧ v.isNonNullRef = !n ∧ v.isExact = e ∧
      reference true e k ti = some v.nullable ∧ reference false e k ti = some v.nonNull ∧
      reference n false k ti = some v.inexact ∧ reference n true k ti = some ⟨v.word ||| exactBit⟩) ∧
    (∀ (h : RefHeap) (n : Bool), (ofHeap h n).refHeap = some h ∧ (ofHeap h n).isNonNullRef = !n ∧
      (ofHeap h n).isExact = false ∧ (ofHeap h n).nullable = ofHeap h true ∧ (ofHeap h n).nonNull = ofHeap h false ∧
      (ofHeap h n).inexact = ofHeap h n) ∧
    ∀ v v' : ValType, (build v).isSome ∧ (build v = build v' → v = v') := by
  refine ⟨fun n e k ti hti => ⟨ofFlags n e k ti, reference_eq, ?_⟩, fun h n => by simp, fun v v' => ?_⟩
  · have hexact : ValType.concreteFlags n e k ||| exactBit = ValType.concreteFlags n true k := by
      cases n <;> cases e <;> cases k <;> decide
    have hset : (⟨(ofFlags n e k ti).word ||| exactBit⟩ : PackedType) = ofFlags n true k ti :=
      congrArg PackedType.mk (BitFields.or_and_set.trans (by rw [hexact]))
    simp [reference_eq, and_indexMask hti, hset]
  · rw [build_eq, build_eq]
    exact ⟨rfl, fun h => ofValType_injective (Option.some.inj h)⟩

/-- An exact reference to the largest index. -/
theorem packed_lossless_largest :
    ∃ v, reference false true .array indexMask = some v ∧ v.concreteIndex = indexMask := by
  obtain ⟨v, hv, hindex, -⟩ := packed_lossless.1 false true .array indexMask (by decide)
  exact ⟨v, hv, hindex⟩

end PackedType

end Wasmrt
