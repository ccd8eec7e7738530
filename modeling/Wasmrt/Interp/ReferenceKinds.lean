import Wasmrt.Capi.Value

/-!
# Kinds of references

A reference is null, internal (an `i31`, a GC object, a host address or a function), or the `externref` wrapper of an
internal one. As numbers the kinds take ranges of their own, apart from objects and functions: an object with a heap
index is the same number as the function that packs to it. No type has values of both, and among the references of
one hierarchy of types each value is of one kind only.

## Main definitions

* `Internal`, `Reference`, `Reference.encode`: references, and the values they are.
* `Reference.Of`: the references of a hierarchy of types.
* `Reference.head`: what a reference is to the type tests.

## Main results

* `Reference.encode_eq_iff`: the references that are one value.
* `refMatches_encode_iff`: the test against an abstract type tells the kinds.
-/

namespace Wasmrt

open Capi (hostRef)

/-- A non-null internal reference: a payload, a heap index, a host address, or an instance and its function. -/
inductive Internal
  | i31 (x : BitVec 31)
  | object (index : ℕ)
  | host (address : BitVec 64)
  | func (inst index : ℕ)
  deriving DecidableEq, Repr

/-- A reference. -/
inductive Reference
  | null
  | internal (r : Internal)
  | wrapper (r : Internal)
  deriving DecidableEq, Repr

/-- Objects a heap can hold: a vector takes at most `2 ^ 63 - 1` bytes, and an object 32 of them. -/
def maxHeapLength : ℕ := (2 ^ 63 - 1) / 32

namespace Internal

/-- The value of a reference. -/
def encode : Internal → Value
  | i31 x => i31Tag ||| x.setWidth 128
  | object index => BitVec.ofNat 128 index
  | host address => hostRef address
  | func inst index => packFuncref inst index

/-- The numbers of a reference are within their ranges. -/
def Fits : Internal → Prop
  | object index => index < maxHeapLength
  | func inst index => inst < maxInstances ∧ index < 2 ^ 32
  | _ => True

/-- The top of the hierarchy of a reference. -/
def top : Internal → RefHeap
  | func .. => .func
  | _ => .any

/-- A reference as a number. -/
def number : Internal → ℕ
  | i31 x => 2 ^ 63 + x.toNat
  | object index => index
  | host address => 2 ^ 64 + address.toNat
  | func inst index => inst * 2 ^ 32 + index

/-- The range of the numbers of a kind: below the tag of an `i31`, with it, or with that of a host address. -/
theorem number_lt {r : Internal} (h : r.Fits) : match r with
    | i31 _ => 2 ^ 63 ≤ r.number ∧ r.number < 2 ^ 63 + 2 ^ 31
    | object _ | func .. => r.number < 2 ^ 63
    | host _ => 2 ^ 64 ≤ r.number ∧ r.number < 2 ^ 65 := by
  cases r with
  | i31 x =>
    have := x.isLt
    simp only [number]
    omega
  | object index =>
    have h : index < maxHeapLength := h
    simp only [number, maxHeapLength] at h ⊢
    omega
  | host address =>
    have := address.isLt
    simp only [number]
    omega
  | func inst index =>
    obtain ⟨hinst, hindex⟩ := h
    simp only [number, maxInstances] at hinst ⊢
    omega

theorem toNat_encode {r : Internal} (h : r.Fits) : r.encode.toNat = r.number := by
  cases r with
  | i31 x =>
    have hx : (x.setWidth 128).toNat = x.toNat := by
      have := x.isLt
      rw [BitVec.toNat_setWidth]
      omega
    have hadd := Nat.two_pow_add_eq_or_of_lt (show x.toNat < 2 ^ 63 by have := x.isLt; omega) 1
    rw [encode, BitVec.toNat_or, hx, number]
    rw [Nat.mul_one] at hadd
    exact hadd.symm
  | object index =>
    have h := number_lt h
    simp only [number] at h
    rw [encode, BitVec.toNat_ofNat, number]
    omega
  | host address =>
    have hadd := Nat.two_pow_add_eq_or_of_lt address.isLt 1
    rw [encode, hostRef, BitVec.toNat_or, Capi.toNat_setWidth_member, number]
    rw [Nat.mul_one] at hadd
    exact hadd.symm
  | func inst index => exact toNat_packFuncref h.1 h.2

theorem encode_ne_nullRef {r : Internal} (h : r.Fits) : r.encode ≠ nullRef := by
  intro heq
  have hnum := toNat_encode h
  have hnull : nullRef.toNat = 2 ^ 64 - 1 := rfl
  have hrange := number_lt h
  rw [heq, hnull] at hnum
  cases r <;> simp only at hrange <;> omega

/-- Two references that are one value, though one is an object and the other a function. -/
def Alike : Internal → Internal → Prop
  | object i, func inst index | func inst index, object i => i = inst * 2 ^ 32 + index
  | _, _ => False

theorem encode_eq_iff {r r' : Internal} (h : r.Fits) (h' : r'.Fits) : r.encode = r'.encode ↔ r = r' ∨ r.Alike r' := by
  rw [← BitVec.toNat_inj, toNat_encode h, toNat_encode h']
  have hrange := number_lt h
  have hrange' := number_lt h'
  cases r with
  | i31 x =>
    cases r' with
    | i31 y => simp [number, Alike, BitVec.toNat_inj]
    | _ =>
      simp only at hrange hrange'
      simp only [Alike, reduceCtorEq, or_self, iff_false]
      omega
  | host a =>
    cases r' with
    | host b => simp [number, Alike, BitVec.toNat_inj]
    | _ =>
      simp only at hrange hrange'
      simp only [Alike, reduceCtorEq, or_self, iff_false]
      omega
  | object i =>
    cases r' with
    | object j => simp [number, Alike]
    | func inst index => simp [number, Alike]
    | _ =>
      simp only at hrange hrange'
      simp only [Alike, reduceCtorEq, or_self, iff_false]
      omega
  | func inst index =>
    cases r' with
    | object j => simp [number, Alike, eq_comm]
    | func inst' index' =>
      obtain ⟨-, hindex⟩ := h
      obtain ⟨-, hindex'⟩ := h'
      simp only [number, Alike, func.injEq, or_false]
      omega
    | _ =>
      simp only at hrange hrange'
      simp only [Alike, reduceCtorEq, or_self, iff_false]
      omega

end Internal

/-! ## Wrappers -/

theorem toNat_externalize {v : Value} (hne : v ≠ nullRef) (hv : v.toNat < 2 ^ 65) :
    (externalize v).toNat = 2 ^ 65 + v.toNat := by
  have hadd := Nat.two_pow_add_eq_or_of_lt hv 1
  rw [Nat.mul_one] at hadd
  rw [externalize, if_neg hne, BitVec.toNat_or, Nat.or_comm]
  exact hadd.symm

/-- A tag is a bit. -/
theorem and_tag_ne_zero_iff {v tag : Value} {k : ℕ} (htag : tag = BitVec.twoPow 128 k) (hk : k < 128) :
    v &&& tag ≠ 0 ↔ v.toNat / 2 ^ k % 2 = 1 := by
  have hbit : v.toNat.testBit k = v.getLsbD k := rfl
  rw [htag, BitVec.and_twoPow]
  cases hv : v.getLsbD k with
  | true =>
    rw [hv, Nat.testBit_eq_decide_div_mod_eq, decide_eq_true_eq] at hbit
    simp only [if_true, hbit, iff_true]
    intro hzero
    have hone := congrArg (·.getLsbD k) hzero
    simp [hk] at hone
  | false =>
    rw [hv, Nat.testBit_eq_decide_div_mod_eq, decide_eq_false_iff_not] at hbit
    simp [hbit]

theorem and_hostTag_ne_zero_iff {v : Value} : v &&& hostTag ≠ 0 ↔ v.toNat / 2 ^ 64 % 2 = 1 :=
  and_tag_ne_zero_iff rfl (by decide)

theorem and_externTag_ne_zero_iff {v : Value} : v &&& externTag ≠ 0 ↔ v.toNat / 2 ^ 65 % 2 = 1 :=
  and_tag_ne_zero_iff rfl (by decide)

theorem and_i31Tag_ne_zero_iff {v : Value} : v &&& i31Tag ≠ 0 ↔ v.toNat / 2 ^ 63 % 2 = 1 :=
  and_tag_ne_zero_iff rfl (by decide)

namespace Reference

/-- The value of a reference. -/
def encode : Reference → Value
  | null => nullRef
  | internal r => r.encode
  | wrapper r => externalize r.encode

def Fits : Reference → Prop
  | null => True
  | internal r | wrapper r => r.Fits

/-- The references of a hierarchy of types. A wrapper is around one of the `any` hierarchy. -/
def Of (top : RefHeap) : Reference → Prop
  | null => True
  | internal r => r.top = top
  | wrapper r => top = .external ∧ r.top = .any

/-- A reference as a number. -/
def number : Reference → ℕ
  | null => 2 ^ 64 - 1
  | internal r => r.number
  | wrapper r => 2 ^ 65 + r.number

theorem toNat_encode {r : Reference} (h : r.Fits) : r.encode.toNat = r.number := by
  cases r with
  | null => rfl
  | internal r => exact Internal.toNat_encode h
  | wrapper r =>
    have hrange := Internal.number_lt h
    have hlt : r.number < 2 ^ 65 := by cases r <;> simp only at hrange <;> omega
    have hnum := Internal.toNat_encode h
    rw [encode, toNat_externalize (Internal.encode_ne_nullRef h) (by rw [hnum]; exact hlt), hnum, number]

/-- Two references that are one value, though what they are or wrap is an object and a function. -/
def Alike : Reference → Reference → Prop
  | internal r, internal r' | wrapper r, wrapper r' => r.Alike r'
  | _, _ => False

/-- The references that are one value. -/
theorem encode_eq_iff {r r' : Reference} (h : r.Fits) (h' : r'.Fits) :
    r.encode = r'.encode ↔ r = r' ∨ r.Alike r' := by
  have hnumbers : r.encode = r'.encode ↔ r.number = r'.number := by
    rw [← BitVec.toNat_inj, toNat_encode h, toNat_encode h']
  have hlt : ∀ {r : Internal}, r.Fits → r.number < 2 ^ 65 ∧ r.number ≠ 2 ^ 64 - 1 := by
    intro r h
    have hrange := Internal.number_lt h
    cases r <;> simp only at hrange <;> omega
  cases r with
  | null =>
    cases r' with
    | null => simp
    | internal r' | wrapper r' =>
      have := hlt h'
      rw [hnumbers]
      simp only [number, Alike, reduceCtorEq, or_self, iff_false]
      omega
  | internal r =>
    cases r' with
    | internal r' => simpa [Alike, encode] using Internal.encode_eq_iff h h'
    | null | wrapper _ =>
      have := hlt h
      rw [hnumbers]
      simp only [number, Alike, reduceCtorEq, or_self, iff_false]
      omega
  | wrapper r =>
    cases r' with
    | wrapper r' =>
      rw [hnumbers, number, number, Nat.add_left_cancel_iff, ← Internal.toNat_encode h, ← Internal.toNat_encode h',
        BitVec.toNat_inj, Internal.encode_eq_iff h h']
      simp [Alike]
    | null =>
      rw [hnumbers]
      simp only [number, Alike, reduceCtorEq, or_self, iff_false]
      omega
    | internal r' =>
      have := hlt h'
      rw [hnumbers]
      simp only [number, Alike, reduceCtorEq, or_self, iff_false]
      omega

/-- No two references of one hierarchy are alike. -/
theorem not_alike {top : RefHeap} {r r' : Reference} (h : r.Of top) (h' : r'.Of top) : ¬ r.Alike r' := by
  have hnot : ∀ {r r' : Internal}, r.top = r'.top → ¬ r.Alike r' := by
    intro r r' htop
    cases r <;> cases r' <;> first | exact id | cases htop
  cases r with
  | null => exact id
  | internal r =>
    cases r' with
    | internal r' => exact hnot (h.trans h'.symm)
    | _ => exact id
  | wrapper r =>
    cases r' with
    | wrapper r' => exact hnot (h.2.trans h'.2.symm)
    | _ => exact id

end Reference

/-! ## Type tests -/

namespace Internal

variable {r : Internal}

/-- The tags tell the kinds of the `any` hierarchy, if they are tested in this order. -/
theorem tags (h : r.Fits) : (r.encode &&& hostTag ≠ 0 ↔ ∃ a, r = host a) ∧ r.encode &&& externTag = 0 ∧
    ((∀ a, r ≠ host a) → (r.encode &&& i31Tag ≠ 0 ↔ ∃ x, r = i31 x)) := by
  have hnum := toNat_encode h
  have hrange := number_lt h
  have hextern : ¬ r.encode &&& externTag ≠ 0 := by
    rw [and_externTag_ne_zero_iff, hnum]
    cases r <;> simp only at hrange <;> omega
  rw [and_hostTag_ne_zero_iff, and_i31Tag_ne_zero_iff, hnum]
  refine ⟨?_, not_not.mp hextern, fun hhost => ?_⟩
  · cases r <;> simp only at hrange <;> simp <;> omega
  · cases r with
    | host a => exact absurd rfl (hhost a)
    | _ => simp only at hrange; simp; omega

/-- What a reference is to the type tests. -/
def head (s : Store) : Internal → Option RefHeap
  | i31 _ => some .i31
  | object index => (s.pools.gcHeap[index]?).bind fun o => (s.code[o.owner]?).map fun d => objectHead d o
  | host _ => some .any
  | func .. => some .func

theorem dynamicHead_encode {s : Store} (h : r.Fits) (htop : r.top = .any) : s.dynamicHead .any r.encode = r.head s := by
  obtain ⟨hhost, hextern, hi31⟩ := tags h
  rw [Store.dynamicHead]
  cases r with
  | host a => rw [if_pos (hhost.mpr ⟨a, rfl⟩), head]
  | i31 x =>
    have hnot : ¬ ∃ a, i31 x = host a := by rintro ⟨_, ⟨⟩⟩
    rw [if_neg (mt hhost.mp hnot), if_neg (not_not.mpr hextern), if_pos ((hi31 (not_exists.mp hnot)).mpr ⟨x, rfl⟩),
      head]
  | object index =>
    have hnot : ¬ ∃ a, object index = host a := by rintro ⟨_, ⟨⟩⟩
    have hnot' : ¬ ∃ x, object index = i31 x := by rintro ⟨_, ⟨⟩⟩
    rw [if_neg (mt hhost.mp hnot), if_neg (not_not.mpr hextern), if_neg (mt (hi31 (not_exists.mp hnot)).mp hnot'),
      toNat_encode h, number, head]
  | func => cases htop

end Internal

namespace Reference

variable {s : Store} {ts : TypeSection} {inst : ℕ} {r : Reference}

/-- What a non-null reference is to the type tests. -/
def head (s : Store) : Reference → Option RefHeap
  | null => none
  | internal r => r.head s
  | wrapper _ => some .external

theorem encode_eq_nullRef (h : r.Fits) : r.encode = nullRef ↔ r = null := by
  have hnull : Fits null := trivial
  have hiff := encode_eq_iff h hnull
  rw [encode] at hiff
  rw [hiff]
  cases r <;> simp [Alike]

/-- The test against an abstract type tells the kinds. -/
theorem refMatches_encode_iff (hr : r.Fits) {h : RefHeap} (hof : r.Of h.top) (n : Bool) :
    refMatches ts s.code s.pools inst r.encode ⟨n, h.heapType⟩ = true ↔
      if r = null then n = true else ∃ head, r.head s = some head ∧ head.isSubtypeOf h = true := by
  have hnull := encode_eq_nullRef hr
  rw [refMatches_heapType_iff]
  by_cases hne : r = null
  · rw [if_pos (hnull.mpr hne), if_pos hne]
  · rw [if_neg (mt hnull.mp hne), if_neg hne]
    have hhead : s.dynamicHead h.top r.encode = r.head s := by
      cases r with
      | null => exact absurd rfl hne
      | wrapper r =>
        rw [hof.1]
        rfl
      | internal r =>
        have htop : r.top = h.top := hof
        rw [← htop]
        cases r with
        | func => rfl
        | _ => exact Internal.dynamicHead_encode hr rfl
    rw [hhead]

/-- An `i31` and a host address match no concrete type of their hierarchy. -/
theorem refMatches_concrete_eq_false (hr : r.Fits) {heap : HeapType} {hd : RefHeap} {target : ℕ × Bool} (n : Bool)
    (hkind : (∃ x, r = internal (.i31 x)) ∨ ∃ a, r = internal (.host a)) (htarget : concreteTarget heap = some target)
    (hhead : ts.refHead heap = some hd) (htop : hd.top = .any) :
    refMatches ts s.code s.pools inst r.encode ⟨n, heap⟩ = false := by
  have hne : r.encode ≠ nullRef := by
    rw [Ne, encode_eq_nullRef hr]
    obtain ⟨_, rfl⟩ | ⟨_, rfl⟩ := hkind <;> exact fun h => by cases h
  rw [refMatches, if_neg hne, hhead]
  simp only [htop, anyMatches]
  obtain ⟨x, rfl⟩ | ⟨a, rfl⟩ := hkind
  · obtain ⟨hhost, hextern, hi31⟩ := Internal.tags (r := .i31 x) hr
    have hnot : ¬ ∃ a, Internal.i31 x = .host a := by rintro ⟨_, ⟨⟩⟩
    rw [encode, if_neg (mt hhost.mp hnot), if_neg (not_not.mpr hextern),
      if_pos ((hi31 (not_exists.mp hnot)).mpr ⟨x, rfl⟩)]
    cases heap with
    | concrete t | exact t => rfl
    | _ => cases htarget
  · obtain ⟨hhost, -⟩ := Internal.tags (r := .host a) hr
    rw [encode, if_pos (hhost.mpr ⟨a, rfl⟩), beq_eq_false_iff_ne]
    rintro rfl
    cases heap with
    | concrete t | exact t =>
      obtain ⟨k, -, hk⟩ := Option.map_eq_some_iff.mp hhead
      cases k <;> cases hk
    | _ => cases htarget

end Reference

/-! ## The heap -/

section Heap

variable {c : Contents} {r : Reference} {code : List InstanceData}

/-- The object a reference is to. -/
def Reference.objectIn (c : Contents) : Reference → Option HeapObject
  | internal (.object index) => c.gcHeap[index]?
  | _ => none

/-- A reference to an object is its heap index, and the others index no heap. -/
theorem Reference.gcHeap_encode (hr : r.Fits) (hlength : c.gcHeap.length ≤ maxHeapLength) {top : RefHeap}
    (hof : r.Of top) (hfunc : top ≠ .func) : c.gcHeap[r.encode.toNat]? = r.objectIn c := by
  have hle : c.gcHeap.length < 2 ^ 63 := lt_of_le_of_lt hlength (by decide)
  rw [toNat_encode hr]
  cases r with
  | null => exact List.getElem?_eq_none (by rw [number]; omega)
  | wrapper r => exact List.getElem?_eq_none (by rw [number]; omega)
  | internal r =>
    have hrange := Internal.number_lt hr
    cases r with
    | object index => rfl
    | func => exact absurd (Eq.symm hof) hfunc
    | i31 | host => exact List.getElem?_eq_none (by simp only at hrange; simp only [number]; omega)

/-- Only a reference to an object has a descriptor to compare. -/
theorem Reference.descEqMatches_encode (hr : r.Fits) (hlength : c.gcHeap.length ≤ maxHeapLength) {top : RefHeap}
    (hof : r.Of top) (hfunc : top ≠ .func) (desc : Value) (rt : RefType) :
    descEqMatches code c r.encode desc rt =
      if r = null then rt.nullable else ((r.objectIn c).bind (objectDescriptor code)).any (· == desc) := by
  have hheap := gcHeap_encode hr hlength hof hfunc
  have hnull := encode_eq_nullRef hr
  unfold descEqMatches
  by_cases hne : r = null
  · rw [if_pos (hnull.mpr hne), if_pos hne]
  · rw [if_neg (mt hnull.mp hne), if_neg hne, hheap]
    cases r with
    | null => exact absurd rfl hne
    | wrapper r => simp [objectIn]
    | internal r =>
      cases r with
      | object index =>
        obtain ⟨hhost, hextern, hi31⟩ := Internal.tags (r := .object index) hr
        have htags : (Internal.object index).encode &&& (i31Tag ||| hostTag ||| externTag) = 0 := by
          rw [BitVec.and_or_distrib_left, BitVec.and_or_distrib_left, hextern, not_not.mp (mt hhost.mp nofun),
            not_not.mp (mt (hi31 nofun).mp nofun)]
          rfl
        rw [encode, if_neg (not_not.mpr htags)]
      | func => exact absurd (Eq.symm hof) hfunc
      | i31 | host => simp [objectIn]

end Heap

/-! ## Instructions -/

/-- The low half shifted up and back with its sign. -/
theorem sshiftRight_shiftLeft_setWidth (x : BitVec 31) :
    ((x.setWidth 32 : BitVec 32) <<< 1).sshiftRight 1 = x.signExtend 32 := by
  apply BitVec.eq_of_getLsbD_eq
  intro i hi
  rw [BitVec.getLsbD_sshiftRight, BitVec.getLsbD_signExtend, BitVec.msb_shiftLeft, BitVec.msb_eq_getLsbD_last,
    BitVec.getMsbD, BitVec.getLsbD_shiftLeft]
  obtain h | rfl : i < 31 ∨ i = 31 := by omega
  · simp [h, hi, show 1 + i < 32 by omega, show ¬ 32 ≤ i by omega]
  · simp

theorem and_mask31 (x : BitVec 32) : x &&& 0x7fffffff = (x.setWidth 31).setWidth 32 := by
  apply BitVec.eq_of_toNat_eq
  rw [BitVec.toNat_and, show (0x7fffffff : BitVec 32).toNat = 2 ^ 31 - 1 from rfl, Nat.and_two_pow_sub_one_eq_mod,
    BitVec.toNat_setWidth, BitVec.toNat_setWidth]
  omega

section Instructions

variable {code : List InstanceData} {inst : ℕ} {isMatch : Value → RefType → Bool} {st : PlainState}

/-- An `i31` is made of the low bits of an operand. -/
theorem execReference_refI31 (x : BitVec 32) :
    execReference code inst isMatch (st.push (i32Value x)) .refI31 =
      .ok (st.push (Reference.internal (.i31 (x.setWidth 31))).encode) := by
  have hpop : asI32 (i32Value x) = x := by
    simp [asI32, i32Value]
  have hmask : i32Value (x &&& 0x7fffffff) = (x.setWidth 31).setWidth 128 := by
    apply BitVec.eq_of_toNat_eq
    rw [and_mask31, i32Value]
    simp only [BitVec.toNat_setWidth]
    omega
  change Except.ok (st.push (i31Tag ||| i32Value (asI32 (i32Value x) &&& 0x7fffffff))) = _
  rw [hpop, hmask]
  rfl

/-- The payload of an `i31`, extended with its sign or with zeros. -/
theorem execReference_i31Get (x : BitVec 31) (signed : Bool) :
    execReference code inst isMatch (st.push (Reference.internal (.i31 x)).encode) (.i31Get signed) =
      .ok (st.push (i32Value (if signed then x.signExtend 32 else x.setWidth 32))) := by
  have hlow : asI32 (Internal.i31 x).encode = x.setWidth 32 := by
    apply BitVec.eq_of_getLsbD_eq
    intro i hi
    have htag : i31Tag.getLsbD i = false := by
      rw [show i31Tag = BitVec.twoPow 128 63 from rfl, BitVec.getLsbD_twoPow]
      simp
      omega
    simp only [asI32, Internal.encode, BitVec.getLsbD_setWidth, BitVec.getLsbD_or, htag, Bool.false_or]
    simp [hi, show i < 128 by omega]
  have hne : ((Internal.i31 x).encode != nullRef) = true := bne_iff_ne.mpr (Internal.encode_ne_nullRef trivial)
  have hzero : (x.setWidth 32 : BitVec 32) &&& 0x7fffffff = x.setWidth 32 := by
    apply BitVec.eq_of_toNat_eq
    have := x.isLt
    rw [and_mask31]
    simp only [BitVec.toNat_setWidth]
    omega
  change (do
    ensure ((Internal.i31 x).encode != nullRef) Trap.nullReference
    pure (st.push (i32Value (if signed then (asI32 (Internal.i31 x).encode <<< 1).sshiftRight 1
      else asI32 (Internal.i31 x).encode &&& 0x7fffffff)))) = _
  rw [hne, hlow, sshiftRight_shiftLeft_setWidth, hzero]
  rfl

/-- A tag that is set on a value without it can be cleared again. -/
theorem or_and_not_of_and_eq_zero {v tag : Value} (h : v &&& tag = 0) : (v ||| tag) &&& ~~~tag = v := by
  apply BitVec.eq_of_getLsbD_eq
  intro i hi
  have hbit := congrArg (·.getLsbD i) h
  simp only [BitVec.getLsbD_and, BitVec.getLsbD_or, BitVec.getLsbD_not, hi, decide_true, Bool.true_and] at hbit ⊢
  cases hv : v.getLsbD i <;> cases ht : tag.getLsbD i <;> simp_all

/-- A wrapped reference unwraps to itself, and null to null. -/
theorem Reference.internalize_externalize {r : Reference} (hr : r.Fits) (hkind : ∀ q, r ≠ .wrapper q) :
    internalize (externalize r.encode) = r.encode := by
  cases r with
  | null => rfl
  | wrapper q => exact absurd rfl (hkind q)
  | internal q =>
    have hne := Internal.encode_ne_nullRef (r := q) hr
    have hwrapped : externalize q.encode ≠ nullRef := by
      intro h
      have hnum := toNat_encode (r := .wrapper q) hr
      rw [encode, h, number, show nullRef.toNat = 2 ^ 64 - 1 from rfl] at hnum
      omega
    rw [encode, internalize, if_neg hwrapped, externalize, if_neg hne, or_and_not_of_and_eq_zero (Internal.tags hr).2.1]

/-- An unwrapped `externref` wraps to itself. -/
theorem Reference.externalize_internalize {r : Reference} (hr : r.Fits) (hkind : ∀ q, r ≠ .internal q) :
    externalize (internalize r.encode) = r.encode := by
  cases r with
  | null => rfl
  | internal q => exact absurd rfl (hkind q)
  | wrapper q =>
    have hback := internalize_externalize (r := .internal q) hr nofun
    exact congrArg externalize hback

end Instructions

/-- References that are one value are one reference, but for an object and the function that packs to its index, or
wrappers of them, which no hierarchy of types has both of. The type tests, the heap and the instructions on
references take each for what it was made as. -/
theorem references_told_apart :
    (∀ r r' : Reference, r.Fits → r'.Fits → (r.encode = r'.encode ↔ r = r' ∨ r.Alike r') ∧
      ∀ top, r.Of top → r'.Of top → ¬ r.Alike r') ∧
    (∀ (s : Store) (ts : TypeSection) (inst : ℕ) (r : Reference) (h : RefHeap) (n : Bool), r.Fits → r.Of h.top →
      (refMatches ts s.code s.pools inst r.encode ⟨n, h.heapType⟩ = true ↔
        if r = .null then n = true else ∃ head, r.head s = some head ∧ head.isSubtypeOf h = true)) ∧
    (∀ (s : Store) (ts : TypeSection) (inst : ℕ) (r : Reference) (heap : HeapType) (hd : RefHeap) (target : ℕ × Bool)
      (n : Bool), r.Fits → ((∃ x, r = .internal (.i31 x)) ∨ ∃ a, r = .internal (.host a)) →
        concreteTarget heap = some target → ts.refHead heap = some hd → hd.top = .any →
          refMatches ts s.code s.pools inst r.encode ⟨n, heap⟩ = false) ∧
    (∀ (code : List InstanceData) (c : Contents) (r : Reference) (top : RefHeap) (desc : Value) (rt : RefType), r.Fits →
      c.gcHeap.length ≤ maxHeapLength → r.Of top → top ≠ .func →
        c.gcHeap[r.encode.toNat]? = r.objectIn c ∧ descEqMatches code c r.encode desc rt =
          if r = .null then rt.nullable else ((r.objectIn c).bind (objectDescriptor code)).any (· == desc)) ∧
    (∀ inst index : ℕ, (Internal.func inst index).Fits →
      funcrefInstance (Reference.internal (.func inst index)).encode = inst ∧
        funcrefIndex (Reference.internal (.func inst index)).encode = index) ∧
    (∀ (code : List InstanceData) (inst : ℕ) (isMatch : Value → RefType → Bool) (st : PlainState),
      (∀ x, execReference code inst isMatch (st.push (i32Value x)) .refI31 =
        .ok (st.push (Reference.internal (.i31 (x.setWidth 31))).encode)) ∧
      ∀ x signed, execReference code inst isMatch (st.push (Reference.internal (.i31 x)).encode) (.i31Get signed) =
        .ok (st.push (i32Value (if signed then x.signExtend 32 else x.setWidth 32)))) ∧
    ∀ r : Reference, r.Fits → ((∀ q, r ≠ .wrapper q) → internalize (externalize r.encode) = r.encode) ∧
      ((∀ q, r ≠ .internal q) → externalize (internalize r.encode) = r.encode) :=
  ⟨fun _ _ hr hr' => ⟨Reference.encode_eq_iff hr hr', fun _ => Reference.not_alike⟩,
    fun _ _ _ _ _ n hr hof => Reference.refMatches_encode_iff hr hof n,
    fun _ _ _ _ _ _ _ n hr hkind htarget hhead htop =>
      Reference.refMatches_concrete_eq_false hr n hkind htarget hhead htop,
    fun _ _ _ _ desc rt hr hlength hof hfunc => ⟨Reference.gcHeap_encode hr hlength hof hfunc,
      Reference.descEqMatches_encode hr hlength hof hfunc desc rt⟩,
    fun _ _ h => funcref_packFuncref h.1 h.2,
    fun _ _ _ _ => ⟨execReference_refI31, execReference_i31Get⟩,
    fun _ hr => ⟨Reference.internalize_externalize hr, Reference.externalize_internalize hr⟩⟩

/-- A host address with the tag of an `i31` set is no `i31`, not even to the type test. -/
theorem host_told_apart :
    (Reference.internal (.host (2 ^ 63))).encode ≠ (Reference.internal (.i31 0)).encode ∧
      refMatches {} [] {} 0 (Reference.internal (.host (2 ^ 63))).encode ⟨false, .i31⟩ ≠ true ∧
        ({} : Pools).contents.gcHeap[(Reference.internal (.host (2 ^ 63))).encode.toNat]? = none ∧
          internalize (externalize (Reference.internal (.host (2 ^ 63))).encode) =
            (Reference.internal (.host (2 ^ 63))).encode := by
  obtain ⟨hvalues, htests, -, hheap, -, -, hbridge⟩ := references_told_apart
  refine ⟨fun h => ?_, fun h => ?_, (hheap [] ({} : Pools).contents (.internal (.host (2 ^ 63))) .any 0 ⟨false, .i31⟩ trivial
    (Nat.zero_le _) rfl nofun).1, (hbridge (.internal (.host (2 ^ 63))) trivial).1 nofun⟩
  · obtain h | h := (hvalues (.internal (.host (2 ^ 63))) (.internal (.i31 0)) trivial trivial).1.mp h
    · cases h
    · exact h
  · obtain ⟨hd, hhead, hsub⟩ := (htests {} {} 0 (.internal (.host (2 ^ 63))) .i31 false trivial rfl).mp h
    obtain rfl := Option.some.inj hhead
    cases hsub

/-- An object and a function can be one value. -/
theorem object_encode_eq_func : ¬ ∀ r r' : Reference, r.Fits → r'.Fits → r.encode = r'.encode → r = r' := by
  intro h
  have heq := h (.internal (.object 5)) (.internal (.func 0 5)) (show 5 < maxHeapLength by decide)
    (show 0 < maxInstances ∧ 5 < 2 ^ 32 by decide) rfl
  cases heq

end Wasmrt
