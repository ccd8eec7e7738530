import Wasmrt.Interp.Casts

/-!
# Values at the C boundary

A C value is a kind and a union of eight bytes; the kind is the caller's word. `toValue` makes a value slot of it and
never looks at the type of the slot that it enters.

## Main definitions

* `CVal`, `toValue`, `fromValue`: C values, and the way in and out.
* `kindOf`: the kind of a value type, for the types that cross the boundary.
* `Store.Holds`: a value of a type.
* `CVal.Fits`: what C has to write for a slot of a type.

## Main results

* `holds_toValue_iff`: what C writes becomes a value of the slot's type exactly when it fits.
-/

namespace Wasmrt.Capi

/-! ## The boundary -/

/-- The kinds of `wasmrt_valkind_t`. -/
inductive ValKind
  | i32 | i64 | f32 | f64 | funcref | externref
  deriving DecidableEq, Repr

/-- A `wasmrt_val_t`. The union is eight bytes wide; its 32-bit members are the low half. -/
structure CVal where
  kind : ValKind
  of : BitVec 64
  deriving DecidableEq, Repr

/-- The boundary kind of a value type; `none` for one that cannot cross. -/
def kindOf : ValType → Option ValKind
  | .i32 => some .i32
  | .i64 => some .i64
  | .f32 => some .f32
  | .f64 => some .f64
  | t =>
    if !t.isRef || t == .v128 then none
    else match t.refHeap with
      | .func => some .funcref
      | .external => some .externref
      | _ => none

/-- The kinds of a list of types; `none` if one cannot cross. -/
def kinds (ts : List ValType) : Option (List ValKind) := ts.mapM kindOf

/-- The value of a host address as an internal reference. -/
def hostRef (n : BitVec 64) : Value := hostTag ||| n.setWidth 128

/-- The bits that C sees of a reference. An `externref` around anything but a host address does not cross. -/
def refBits (kind : ValKind) (v : Value) : Option (BitVec 64) :=
  if kind ≠ .externref ∨ v = nullRef then some (v.setWidth 64)
  else if v &&& externTag = 0 ∨ v &&& hostTag = 0 then none
  else some ((v &&& ~~~(externTag ||| hostTag)).setWidth 64)

/-- The slot of a C value. -/
def toValue (v : CVal) : Value :=
  match v.kind with
  | .i32 | .f32 => i32Value (v.of.setWidth 32)
  | .i64 | .f64 | .funcref => i64Value v.of
  | .externref => if v.of = BitVec.allOnes 64 then nullRef else externalize (hostRef v.of)

/-- The C form of a slot; `none` if it cannot cross. -/
def fromValue (kind : ValKind) (v : Value) : Option CVal :=
  match kind with
  | .i32 | .f32 => some ⟨kind, (asI32 v).setWidth 64⟩
  | .i64 | .f64 => some ⟨kind, asI64 v⟩
  | .funcref | .externref => (refBits kind v).map (⟨kind, ·⟩)

/-! ## Values of a type -/

end Capi

namespace Store

/-- An instance has a function. -/
structure HasFunc (s : Store) (inst func : ℕ) : Prop where
  inst_lt : inst < maxInstances
  func_lt : func < 2 ^ 32
  exists_code : ∃ d, s.code[inst]? = some d ∧ func < d.module.importedFuncCount + d.module.functions.length

/-- A reference to a function of the store. -/
def IsFunc (s : Store) (v : Value) : Prop := ∃ inst func, s.HasFunc inst func ∧ v = packFuncref inst func

/-- The values of a type of instance `inst`: numbers in their width, functions of the store, host addresses, and for
any other reference what the engine's own test admits. -/
def Holds (s : Store) (inst : ℕ) (v : Value) : ValType → Prop
  | .i32 | .f32 => v.toNat < 2 ^ 32
  | .i64 | .f64 => v.toNat < 2 ^ 64
  | .v128 => True
  | .ref .func n => if v = nullRef then n = true else s.IsFunc v
  | .ref .external n => if v = nullRef then n = true else ∃ a, v = externalize (Capi.hostRef a)
  | .concrete n e k i => s.Inhabits inst v (.concrete n e k i) ∧ (k = .func → v ≠ nullRef → s.IsFunc v)
  | ty => s.Inhabits inst v ty

end Store

namespace Capi

/-- What C wrote, in the member that the kind selects. -/
def CVal.member (c : CVal) : BitVec 64 :=
  match c.kind with
  | .i32 | .f32 => (c.of.setWidth 32).setWidth 64
  | _ => c.of

/-- What C has to write for a slot of a type of instance `inst`. Null is the all-ones word. A number is taken for a
reference when it is the word of one, and a host address is one in the slot of an `anyref` or an `exnref` too. -/
def CVal.Fits (s : Store) (inst : ℕ) (c : CVal) (ty : ValType) : Prop :=
  match ty with
  | .i32 | .f32 => c.kind ≠ .externref ∧ c.member.toNat < 2 ^ 32
  | .i64 | .f64 => c.kind = .externref → c.member = BitVec.allOnes 64
  | .v128 => True
  | .ref h n =>
    if c.member = BitVec.allOnes 64 then n = true
    else if c.kind = .externref then h = .external ∨ h = .any ∨ h = .exn
    else match h with
      | .func => ∃ inst func, s.HasFunc inst func ∧ c.member.toNat = inst * 2 ^ 32 + func
      | .external => False
      | _ => s.Inhabits inst (c.member.setWidth 128) ty
  | .concrete n _ k _ =>
    if c.member = BitVec.allOnes 64 then n = true
    else c.kind ≠ .externref ∧ s.Inhabits inst (c.member.setWidth 128) ty ∧
      (k = .func → ∃ inst func, s.HasFunc inst func ∧ c.member.toNat = inst * 2 ^ 32 + func)

/-! ## What a C value becomes -/

theorem setWidth_eq_nullRef {a : BitVec 64} : a.setWidth 128 = nullRef ↔ a = BitVec.allOnes 64 := by
  have hnull : nullRef = (BitVec.allOnes 64).setWidth 128 := by decide
  rw [hnull]
  refine ⟨fun h => ?_, fun h => h ▸ rfl⟩
  have hlow := congrArg (BitVec.setWidth 64) h
  simpa using hlow

/-- A host address has both tags. -/
theorem externalize_hostRef (a : BitVec 64) : externalize (hostRef a) = hostTag ||| a.setWidth 128 ||| externTag := by
  refine if_neg fun h => ?_
  have hbit := congrArg (·.getLsbD 64) h
  simp [hostRef, hostTag, nullRef] at hbit

section Address

variable {a : BitVec 64}

theorem getLsbD_externalize_hostRef : (externalize (hostRef a)).getLsbD 64 = true := by
  rw [externalize_hostRef]
  simp [hostTag]

theorem externalize_hostRef_ne_nullRef : externalize (hostRef a) ≠ nullRef := by
  intro h
  have hbit := getLsbD_externalize_hostRef (a := a)
  rw [h] at hbit
  exact absurd hbit (by decide)

theorem externalize_hostRef_and_hostTag : externalize (hostRef a) &&& hostTag ≠ 0 := by
  intro h
  have hbit := congrArg (·.getLsbD 64) h
  rw [BitVec.getLsbD_and, getLsbD_externalize_hostRef] at hbit
  exact absurd hbit (by decide)

theorem le_toNat_externalize_hostRef : 2 ^ 64 ≤ (externalize (hostRef a)).toNat :=
  Nat.ge_two_pow_of_testBit getLsbD_externalize_hostRef

end Address

theorem toValue_of_ne {c : CVal} (h : c.kind ≠ .externref) : toValue c = c.member.setWidth 128 := by
  obtain ⟨kind, of⟩ := c
  cases kind with
  | externref => exact absurd rfl h
  | i32 | f32 =>
    apply BitVec.eq_of_toNat_eq
    simp only [toValue, CVal.member, i32Value, BitVec.toNat_setWidth]
    omega
  | i64 | f64 | funcref => rfl

theorem toValue_of_eq {c : CVal} (h : c.kind = .externref) :
    toValue c = if c.member = BitVec.allOnes 64 then nullRef else externalize (hostRef c.member) := by
  obtain ⟨kind, of⟩ := c
  obtain rfl : kind = .externref := h
  rfl

/-! ## What fits a slot -/

section Fits

variable {s : Store} {inst : ℕ} {c : CVal}

theorem toNat_setWidth_member (a : BitVec 64) : (a.setWidth 128).toNat = a.toNat := by
  rw [BitVec.toNat_setWidth]
  omega

/-- A word is the reference to a function of the store. -/
theorem isFunc_setWidth_iff {a : BitVec 64} :
    s.IsFunc (a.setWidth 128) ↔ ∃ inst func, s.HasFunc inst func ∧ a.toNat = inst * 2 ^ 32 + func := by
  refine exists_congr fun inst => exists_congr fun func => and_congr_right fun h => ?_
  rw [← toNat_packFuncref h.inst_lt h.func_lt, ← toNat_setWidth_member a]
  exact BitVec.toNat_inj.symm

/-- A host address is no reference to a function. -/
theorem not_isFunc_externalize {a : BitVec 64} : ¬ s.IsFunc (externalize (hostRef a)) := by
  rintro ⟨inst, func, h, heq⟩
  have hle := le_toNat_externalize_hostRef (a := a)
  rw [heq, toNat_packFuncref h.inst_lt h.func_lt] at hle
  have hinst : inst < 2 ^ 31 := h.inst_lt
  have hfunc := h.func_lt
  omega

/-- A host address passes the test for `any` and, since an exception reference is tested for null alone, for `exn`. -/
theorem inhabits_externalize_iff {a : BitVec 64} {h : RefHeap} {n : Bool} (hfunc : h.top ≠ .func)
    (hne : h.top ≠ .external) :
    s.Inhabits inst (externalize (hostRef a)) (.ref h n) ↔ h = .any ∨ h = .exn := by
  rw [Store.Inhabits, refMatches_heapType_iff, if_neg externalize_hostRef_ne_nullRef]
  have hhead : h.top = .any → s.dynamicHead h.top (externalize (hostRef a)) = some .any := by
    intro htop
    rw [htop, Store.dynamicHead, if_pos externalize_hostRef_and_hostTag]
  cases h <;> first
    | exact absurd rfl hfunc
    | exact absurd rfl hne
    | (rw [hhead rfl]; decide)
    | simp [Store.dynamicHead, RefHeap.top, RefHeap.isSubtypeOf]

theorem toValue_eq_nullRef : toValue c = nullRef ↔ c.member = BitVec.allOnes 64 := by
  by_cases hkind : c.kind = .externref
  · rw [toValue_of_eq hkind]
    split_ifs with hnull
    · exact iff_of_true rfl hnull
    · exact iff_of_false externalize_hostRef_ne_nullRef hnull
  · rw [toValue_of_ne hkind, setWidth_eq_nullRef]

/-- A reference of a heap type that the boundary does not know is tested as the engine's own. -/
theorem holds_ref_of_ne {h : RefHeap} {n : Bool} {v : Value} (hfunc : h ≠ .func) (hexternal : h ≠ .external) :
    s.Holds inst v (.ref h n) ↔ s.Inhabits inst v (.ref h n) := by
  cases h with
  | func => exact absurd rfl hfunc
  | external => exact absurd rfl hexternal
  | _ => exact Iff.rfl

/-- The null reference is a value of the nullable types. -/
theorem holds_nullRef_ref {h : RefHeap} {n : Bool} : s.Holds inst nullRef (.ref h n) ↔ n = true := by
  cases h with
  | func | external => rw [Store.Holds, if_pos rfl]
  | _ => rw [holds_ref_of_ne (by decide) (by decide), Store.Inhabits, refMatches_heapType_iff, if_pos rfl]

theorem holds_nullRef_concrete {n e : Bool} {k : CompKind} {i : Fin (2 ^ 27)} :
    s.Holds inst nullRef (.concrete n e k i) ↔ n = true := by
  rw [Store.Holds, Store.Inhabits, if_pos rfl]
  exact and_iff_left fun _ hne => absurd rfl hne

/-- A number fits the slots of its width. -/
theorem toNat_toValue_lt_iff {w : ℕ} (hw : w = 32 ∨ w = 64) :
    (toValue c).toNat < 2 ^ w ↔ if c.kind = .externref then w = 64 ∧ c.member = BitVec.allOnes 64
      else c.member.toNat < 2 ^ w := by
  split_ifs with hkind
  · rw [toValue_of_eq hkind]
    split_ifs with hnull
    · have hlt : nullRef.toNat < 2 ^ w ↔ w = 64 := by rcases hw with rfl | rfl <;> decide
      rw [hlt, and_iff_left hnull]
    · have hle := le_toNat_externalize_hostRef (a := c.member)
      refine iff_of_false (fun hlt => ?_) fun h => hnull h.2
      rcases hw with rfl | rfl <;> omega
  · rw [toValue_of_ne hkind, toNat_setWidth_member]

/-- What C writes becomes a value of the slot's type exactly when it fits. -/
theorem holds_toValue_iff {ty : ValType} : s.Holds inst (toValue c) ty ↔ c.Fits s inst ty := by
  cases ty with
  | i32 | f32 =>
    rw [Store.Holds, CVal.Fits, toNat_toValue_lt_iff (.inl rfl)]
    split_ifs with hkind
    · exact iff_of_false (fun h => absurd h.1 (by decide)) fun h => h.1 hkind
    · exact (and_iff_right hkind).symm
  | i64 | f64 =>
    rw [Store.Holds, CVal.Fits, toNat_toValue_lt_iff (.inr rfl)]
    split_ifs with hkind
    · simp [hkind]
    · exact iff_of_true c.member.isLt fun h => absurd h hkind
  | v128 => exact Iff.rfl
  | ref h n =>
    unfold CVal.Fits
    dsimp only
    split_ifs with hnull hkind
    · rw [toValue_eq_nullRef.mpr hnull, holds_nullRef_ref]
    · rw [toValue_of_eq hkind, if_neg hnull]
      cases h with
      | func =>
        rw [Store.Holds, if_neg externalize_hostRef_ne_nullRef]
        exact iff_of_false not_isFunc_externalize (by decide)
      | external =>
        rw [Store.Holds, if_neg externalize_hostRef_ne_nullRef]
        exact iff_of_true ⟨_, rfl⟩ (.inl rfl)
      | noFunc | noExternal =>
        rw [holds_ref_of_ne (by decide) (by decide), Store.Inhabits, refMatches_heapType_iff,
          if_neg externalize_hostRef_ne_nullRef]
        simp [Store.dynamicHead, RefHeap.top, RefHeap.isSubtypeOf]
      | _ =>
        rw [holds_ref_of_ne (by decide) (by decide), inhabits_externalize_iff (by decide) (by decide)]
        simp
    · rw [toValue_of_ne hkind]
      have hne : c.member.setWidth 128 ≠ nullRef := fun h => hnull (setWidth_eq_nullRef.mp h)
      cases h with
      | func =>
        rw [Store.Holds, if_neg hne]
        exact isFunc_setWidth_iff
      | external =>
        rw [Store.Holds, if_neg hne]
        refine iff_of_false ?_ id
        rintro ⟨a, ha⟩
        have hle := le_toNat_externalize_hostRef (a := a)
        rw [← ha, toNat_setWidth_member] at hle
        exact absurd c.member.isLt hle.not_gt
      | _ => exact Iff.rfl
  | concrete n e k i =>
    rw [CVal.Fits]
    split_ifs with hnull
    · rw [toValue_eq_nullRef.mpr hnull, holds_nullRef_concrete]
    by_cases hkind : c.kind = .externref
    · rw [toValue_of_eq hkind, if_neg hnull, Store.Holds]
      refine iff_of_false ?_ fun h => h.1 hkind
      rintro ⟨hinhabits, hfunc⟩
      rw [Store.Inhabits, if_neg externalize_hostRef_ne_nullRef] at hinhabits
      by_cases hk : k = .func
      · exact not_isFunc_externalize (hfunc hk externalize_hostRef_ne_nullRef)
      · rcases hinhabits with ⟨h, -⟩ | ⟨got, -, hid, -⟩
        · exact hk h
        · have hnone : s.dynamicId k (externalize (hostRef c.member)) = none := by
            cases k with
            | func => exact absurd rfl hk
            | struct | array => exact if_neg fun h => externalize_hostRef_and_hostTag h.1
          rw [hnone] at hid
          cases hid
    · rw [toValue_of_ne hkind, Store.Holds, isFunc_setWidth_iff]
      have hne : c.member.setWidth 128 ≠ nullRef := fun h => hnull (setWidth_eq_nullRef.mp h)
      simp only [hne, hkind, ne_eq, not_false_eq_true, true_and, forall_true_left]

end Fits

end Capi

end Wasmrt
