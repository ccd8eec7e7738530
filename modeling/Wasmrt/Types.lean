import Mathlib.Data.BitVec
import Mathlib.Data.FinEnum
import Mathlib.Tactic.Common

/-!
# Value types

The reference hierarchy and the value types of `types.rs`. The engine keeps a value type in one
`u32`; here it is an inductive type whose three kinds of constructor are the three layouts of that
word, and `ValType.bits` is the word itself. `PackedType` proves that the source's bit operations
compute the functions of this file.

## Main definitions

* `RefHeap`, `RefHeap.top`, `RefHeap.isSubtypeOf`: heap heads and the abstract hierarchy.
* `ValType`: a numeric type, an abstract reference, or a concrete reference `(ref null? exact? $t)`.
* `ValType.concreteRef`, `ValType.exactRef`: the two builders, which keep 27 bits of the index.
-/

namespace Wasmrt

/-- The heap type a reference points at, ignoring nullability. `none`, `noFunc`, `noExternal` and
`noExn` are the bottoms of the four hierarchies. -/
inductive RefHeap
  | func | external | any | eq | i31 | struct | array | none | exn | noFunc | noExternal | noExn
  deriving DecidableEq, Repr

namespace RefHeap

/-- The top of the hierarchy a head belongs to. -/
def top : RefHeap → RefHeap
  | func | noFunc => func
  | external | noExternal => external
  | exn | noExn => exn
  | _ => any

/-- The WasmGC hierarchy on heads: `i31`, `struct` and `array` below `eq` below `any`, with one
bottom under each of the four tops. -/
def isSubtypeOf (h other : RefHeap) : Bool :=
  h == other ||
    match h with
    | none => other == i31 || other == struct || other == array || other == eq || other == any
    | i31 | struct | array => other == eq || other == any
    | eq => other == any
    | noFunc => other == func
    | noExternal => other == external
    | noExn => other == exn
    | _ => false

@[simp]
theorem isSubtypeOf_refl (h : RefHeap) : h.isSubtypeOf h = true := by
  simp [isSubtypeOf]

theorem isSubtypeOf_trans {a b c : RefHeap} (hab : a.isSubtypeOf b = true)
    (hbc : b.isSubtypeOf c = true) : a.isSubtypeOf c = true := by
  cases a <;> cases b <;> first | exact absurd hab (by decide) | skip
  all_goals cases c <;> first | rfl | exact absurd hbc (by decide)

theorem isSubtypeOf_antisymm {a b : RefHeap} (hab : a.isSubtypeOf b = true)
    (hba : b.isSubtypeOf a = true) : a = b := by
  cases a <;> cases b <;>
    first | rfl | exact absurd hab (by decide) | exact absurd hba (by decide)

/-- A head is in the hierarchy of the heads above it. -/
theorem top_eq_of_isSubtypeOf {a b : RefHeap} (h : a.isSubtypeOf b = true) : a.top = b.top := by
  cases a <;> cases b <;> first | rfl | exact absurd h (by decide)

end RefHeap

/-- The composite kind of a type: the family a concrete reference to it belongs to. -/
inductive CompKind
  | func | struct | array
  deriving DecidableEq, Repr

/-- The heap head of a concrete reference of this family. -/
def CompKind.head : CompKind → RefHeap
  | func => .func
  | struct => .struct
  | array => .array

/-- A value type (§5.3.1). A concrete reference carries its family and a 27-bit type index; `exact`
is the custom-descriptors bit. -/
inductive ValType
  | i32 | i64 | f32 | f64 | v128
  | ref (heap : RefHeap) (isNullable : Bool)
  | concrete (isNullable exact : Bool) (kind : CompKind) (index : Fin (2 ^ 27))
  deriving DecidableEq, Repr

/-- The value type of a head at the given nullability. -/
def RefHeap.valType (h : RefHeap) (isNullable : Bool) : ValType := .ref h isNullable

namespace ValType

/-- Largest type index a concrete reference can carry. -/
def maxConcreteIndex : ℕ := 2 ^ 27 - 1

/-- A concrete reference `(ref null? $ti)`; the index is masked to 27 bits. -/
def concreteRef (isNullable : Bool) (kind : CompKind) (ti : ℕ) : ValType :=
  .concrete isNullable false kind (Fin.ofNat (2 ^ 27) ti)

/-- An exact concrete reference `(ref null? (exact $ti))`. -/
def exactRef (isNullable : Bool) (kind : CompKind) (ti : ℕ) : ValType :=
  .concrete isNullable true kind (Fin.ofNat (2 ^ 27) ti)

def isConcrete : ValType → Bool
  | concrete .. => true
  | _ => false

/-- True for an exact concrete reference. -/
def isExact : ValType → Bool
  | concrete _ e _ _ => e
  | _ => false

/-- The same reference with exactness dropped. -/
def inexact : ValType → ValType
  | concrete n _ k i => concrete n false k i
  | v => v

def isRef : ValType → Bool
  | ref .. | concrete .. => true
  | _ => false

/-- True for a non-nullable reference, a type without a default value. -/
def isNonNullRef : ValType → Bool
  | ref _ n => !n
  | concrete n _ _ _ => !n
  | _ => false

/-- The non-nullable form of a reference type; anything else is unchanged. -/
def nonNull : ValType → ValType
  | ref h _ => ref h false
  | concrete _ e k i => concrete false e k i
  | v => v

/-- The nullable form of a reference type; anything else is unchanged. -/
def nullable : ValType → ValType
  | ref h _ => ref h true
  | concrete _ e k i => concrete true e k i
  | v => v

/-- The head of a reference type. On a numeric type the source panics (`unreachable!`) and every
caller tests `isRef` first; the value here is arbitrary. -/
def refHeap : ValType → RefHeap
  | ref h _ => h
  | concrete _ _ k _ => k.head
  | _ => .any

/-- The word of an abstract reference: its own value-type byte when nullable, and for a non-null
reference one of the tags the binary format leaves unused. -/
def refBits : RefHeap → Bool → BitVec 32
  | .func, true => 0x70
  | .external, true => 0x6f
  | .any, true => 0x6e
  | .eq, true => 0x6d
  | .i31, true => 0x6c
  | .struct, true => 0x6b
  | .array, true => 0x6a
  | .exn, true => 0x69
  | .none, true => 0x71
  | .noFunc, true => 0x73
  | .noExternal, true => 0x72
  | .noExn, true => 0x74
  | .func, false => 0x68
  | .external, false => 0x67
  | .any, false => 0x66
  | .eq, false => 0x65
  | .i31, false => 0x62
  | .struct, false => 0x61
  | .array, false => 0x59
  | .none, false => 0x58
  | .exn, false => 0x57
  | .noFunc, false => 0x56
  | .noExternal, false => 0x55
  | .noExn, false => 0x54

/-- The high bits of a concrete reference's word: bit 31 marks it concrete, bit 30 nullable, bits
28 and 29 hold the family and bit 27 exactness. -/
def concreteFlags (isNullable exact : Bool) (kind : CompKind) : BitVec 32 :=
  let k : BitVec 32 := match kind with
    | .func => 0
    | .struct => 1
    | .array => 2
  0x80000000 ||| (if isNullable then 0x40000000 else 0) ||| (k <<< 28) |||
    (if exact then 0x08000000 else 0)

/-- The raw `u32` of a value type. -/
def bits : ValType → BitVec 32
  | i32 => 0x7f
  | i64 => 0x7e
  | f32 => 0x7d
  | f64 => 0x7c
  | v128 => 0x7b
  | ref h n => refBits h n
  | concrete n e k i => concreteFlags n e k ||| BitVec.ofNat 32 i

/-- The type index of a concrete reference: the low 27 bits of the word. -/
def concreteIndex : ValType → ℕ
  | concrete _ _ _ i => i
  | v => v.bits.toNat

@[simp] theorem isConcrete_concreteRef (n : Bool) (k : CompKind) (ti : ℕ) :
    (concreteRef n k ti).isConcrete = true := rfl

@[simp] theorem isConcrete_exactRef (n : Bool) (k : CompKind) (ti : ℕ) :
    (exactRef n k ti).isConcrete = true := rfl

@[simp] theorem isExact_concreteRef (n : Bool) (k : CompKind) (ti : ℕ) :
    (concreteRef n k ti).isExact = false := rfl

@[simp] theorem isExact_exactRef (n : Bool) (k : CompKind) (ti : ℕ) :
    (exactRef n k ti).isExact = true := rfl

@[simp] theorem isNonNullRef_concreteRef (n : Bool) (k : CompKind) (ti : ℕ) :
    (concreteRef n k ti).isNonNullRef = !n := rfl

@[simp] theorem isNonNullRef_exactRef (n : Bool) (k : CompKind) (ti : ℕ) :
    (exactRef n k ti).isNonNullRef = !n := rfl

@[simp] theorem refHeap_concreteRef (n : Bool) (k : CompKind) (ti : ℕ) :
    (concreteRef n k ti).refHeap = k.head := rfl

@[simp] theorem refHeap_exactRef (n : Bool) (k : CompKind) (ti : ℕ) :
    (exactRef n k ti).refHeap = k.head := rfl

/-- The builders keep an index that fits the 27-bit field. -/
theorem concreteIndex_concreteRef (n : Bool) (k : CompKind) {ti : ℕ} (h : ti ≤ maxConcreteIndex) :
    (concreteRef n k ti).concreteIndex = ti := by
  have : ti < 2 ^ 27 := by unfold maxConcreteIndex at h; omega
  exact Nat.mod_eq_of_lt this

theorem concreteIndex_exactRef (n : Bool) (k : CompKind) {ti : ℕ} (h : ti ≤ maxConcreteIndex) :
    (exactRef n k ti).concreteIndex = ti := by
  have : ti < 2 ^ 27 := by unfold maxConcreteIndex at h; omega
  exact Nat.mod_eq_of_lt this

/-- A non-null reference is a reference. -/
theorem isRef_of_isNonNullRef {v : ValType} (h : v.isNonNullRef = true) : v.isRef = true := by
  cases v <;> simp_all [isNonNullRef, isRef]

/-- A concrete type is a reference. -/
theorem isRef_of_isConcrete {v : ValType} (h : v.isConcrete = true) : v.isRef = true := by
  cases v <;> simp_all [isConcrete, isRef]

/-- An exact reference is concrete. -/
theorem isConcrete_of_isExact {v : ValType} (h : v.isExact = true) : v.isConcrete = true := by
  cases v <;> simp_all [isConcrete, isExact]

/-- The word of an abstract reference is one byte, and not one of the numeric types'. -/
theorem refBits_lt (hp : RefHeap) (n : Bool) : (refBits hp n).toNat < 0x7b := by
  cases hp <;> cases n <;> decide

/-- Distinct abstract references have distinct words. -/
theorem refBits_inj {hp hp' : RefHeap} {n n' : Bool} (h : refBits hp n = refBits hp' n') :
    hp = hp' ∧ n = n' := by
  cases hp <;> cases n <;> cases hp' <;> cases n' <;>
    first | exact ⟨rfl, rfl⟩ | exact absurd h (by decide)

/-- Distinct non-concrete types have distinct words. -/
theorem eq_of_bits_eq {v w : ValType} (hv : v.isConcrete = false) (hw : w.isConcrete = false)
    (h : v.bits = w.bits) : v = w := by
  cases v with
  | concrete => simp [isConcrete] at hv
  | ref hp n =>
    have hlt := refBits_lt hp n
    cases w with
    | concrete => simp [isConcrete] at hw
    | ref hp' n' =>
      obtain ⟨rfl, rfl⟩ := refBits_inj h
      rfl
    | _ => rw [show refBits hp n = _ from h] at hlt; exact absurd hlt (by decide)
  | _ =>
    cases w with
    | concrete => simp [isConcrete] at hw
    | ref hp' n' =>
      have hlt := refBits_lt hp' n'
      rw [show refBits hp' n' = _ from h.symm] at hlt
      exact absurd hlt (by decide)
    | _ => first | rfl | exact absurd h (by decide)

end ValType

end Wasmrt
