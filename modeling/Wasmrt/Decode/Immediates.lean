import Wasmrt.Decode.TypeBytes
import Wasmrt.Library.Grammar

/-!
# The immediates of instructions

The readers of `opcode.rs` for what follows an opcode, and the bytes that each of them reads.

## Main definitions

* `readVec`: a vector.
* `readBlockType`, `readValueTypeFrom`, `readMemArg`, `readBrCast`, `readTryTable`: the immediates of more than one part.
* `HeapTypeBytes`, `ValueTypeFrom`, `BlockTypeBytes`, `MemArgBytes`, `CastBytes`, `TryTableBytes`: the bytes of each.

## Main results

* `reads_readVec`: a vector of what takes up some room is read as a number and then its entries.
* `reads_readHeapType`, `reads_readBlockType`, `reads_readMemArg`, `reads_readBrCast`, `reads_readTryTable`: each reader
  reads exactly the bytes of its immediates.
-/

namespace Wasmrt

open Leb128 Recognizer

variable {bytes : List UInt8} {α β : Type}

/-- A reader that returns `a` after reading `w`, whatever is left, just in case `w` spells `a`. -/
abbrev ReadsAs (p : Decoding bytes α) (L : α → List UInt8 → Prop) : Prop := Consumes Reader.rest none p L

theorem reads_checked (x : Except DecodeError α) : ReadsAs (@checked bytes α x) fun a w => w = [] ∧ x = .ok a :=
  exact_checked x

theorem reads_failWith (e : DecodeError) : ReadsAs (@failWith bytes α e) fun _ _ => False := .fail nofun

/-- A check in front of a reader, which is run where the check passes. -/
theorem exactAt_ensure {ok : Bool} {e : DecodeError} {p : Decoding bytes β} {R : β → List UInt8 → List UInt8 → Prop}
    {s : Reader bytes} (hp : ok = true → ExactAt Reader.rest none p R s) :
    ExactAt Reader.rest none (checked (ensure ok e) >>= fun (_ : PUnit) => p) (fun b w r => ok = true ∧ R b w r) s := by
  cases ok
  · exact .fail rfl nofun fun _ _ _ _ h => nomatch h.1
  · refine (ExactAt.of_eq rfl (hp rfl)).congr fun b w r _ => ?_
    rw [eq_self_iff_true, true_and]

theorem reads_ensure {ok : Bool} {e : DecodeError} {p : Decoding bytes β} {L : β → List UInt8 → Prop}
    (hp : ok = true → ReadsAs p L) :
    ReadsAs (checked (ensure ok e) >>= fun (_ : PUnit) => p) fun b w => ok = true ∧ L b w := fun s =>
  exactAt_ensure fun hok => hp hok s

/-- What looks at the cursor goes on from where it is. -/
theorem exactAt_cursor {f : Reader bytes → Decoding bytes β} {R : β → List UInt8 → List UInt8 → Prop} {s : Reader bytes}
    (h : ExactAt Reader.rest none (f s) R s) : ExactAt Reader.rest none (cursor >>= f) R s :=
  .of_eq (q := f s) rfl h

/-! ## Numbers and vectors -/

/-- The bytes of an index or a count. -/
abbrev IndexBytes (n : ℕ) (w : List UInt8) : Prop := Encodes false 32 w n

theorem indexBytes_lt {n : ℕ} {w : List UInt8} (h : IndexBytes n w) : n < 2 ^ 32 := by
  exact_mod_cast (inRange_unsigned.mp h.inRange).2

theorem reads_readU32 : ReadsAs (@readU32 bytes) IndexBytes := by
  refine (Consumes.map exact_readVarU32).congr fun n w => ?_
  constructor
  · rintro ⟨a, rfl, h⟩
    exact h
  · intro h
    have hlt := indexBytes_lt h
    refine ⟨BitVec.ofNat 32 n, ?_, ?_⟩ <;> rw [BitVec.toNat_ofNat, Nat.mod_eq_of_lt hlt]
    exact h

/-- The bytes of two indices. -/
inductive IndicesBytes (n m : ℕ) : List UInt8 → Prop
  | mk {w w'} : IndexBytes n w → IndexBytes m w' → IndicesBytes n m (w ++ w')

theorem reads_indices {f : ℕ → ℕ → α} :
    ReadsAs (do let n ← readU32; let m ← readU32; pure (f n m) : Decoding bytes α)
      fun x w => ∃ n m, x = f n m ∧ IndicesBytes n m w := by
  refine (reads_readU32.bind fun n => reads_readU32.map).congr fun x w => ?_
  constructor
  · rintro ⟨n, w₁, w₂, rfl, hn, m, rfl, hm⟩
    exact ⟨n, m, rfl, .mk hn hm⟩
  · rintro ⟨n, m, rfl, hn, hm⟩
    exact ⟨n, _, _, rfl, hn, m, rfl, hm⟩

/-- A word that spells a number is not empty. -/
theorem encodes_ne_nil {signed : Bool} {N : ℕ} {w : List UInt8} {v : ℤ} (h : Encodes signed N w v) : w ≠ [] := by
  cases h <;> exact List.cons_ne_nil _ _

theorem reads_readMany {p : Decoding bytes α} {L : α → List UInt8 → Prop} (hp : ReadsAs p L) (n : ℕ) :
    ReadsAs (readMany p n) fun as w => as.length = n ∧ Words L as w := by
  induction n with
  | zero =>
    refine (Consumes.pure []).congr fun as w => ?_
    constructor
    · rintro ⟨rfl, rfl⟩
      exact ⟨rfl, .nil⟩
    · rintro ⟨hlength, h⟩
      obtain rfl := List.eq_nil_of_length_eq_zero hlength
      exact ⟨rfl, Words.nil_iff.mp h⟩
  | succ n ih =>
    refine (hp.bind fun a => ih.map).congr fun as w => ?_
    constructor
    · rintro ⟨a, w₁, w₂, rfl, ha, as', rfl, rfl, h⟩
      exact ⟨rfl, .cons ha h⟩
    · rintro ⟨hlength, h⟩
      rcases h with _ | ⟨ha, h⟩
      · cases hlength
      · exact ⟨_, _, _, rfl, ha, _, rfl, Nat.succ.inj hlength, h⟩

/-- Read a vector. -/
def readVec (p : Decoding bytes α) : Decoding bytes (List α) := do
  let n ← readVecLen
  readMany p n

/-- The bytes of a vector: its length, and one word for each entry. -/
def VecBytes (L : α → List UInt8 → Prop) (as : List α) (w : List UInt8) : Prop :=
  ∃ w₁ w₂, w = w₁ ++ w₂ ∧ IndexBytes as.length w₁ ∧ Words L as w₂

/-- The length of a vector is read in front of no fewer bytes. -/
theorem exact_readVecLen : ReadsExactly (@readVecLen bytes) fun n w r => IndexBytes n w ∧ n ≤ r.length := by
  intro s
  refine ((reads_readU32 s).bind fun n s₁ _ => ?_).congr (R := fun n w r => ∃ a w₁ w₂, w = w₁ ++ w₂ ∧
    IndexBytes a w₁ ∧ (n = a ∧ w₂ = [] ∧ a ≤ (w₂ ++ r).length)) fun n w r _ => ?_
  · -- the number of bytes left is that of the cursor at the check
    refine (exactAt_cursor (reads_ensure (fun _ => .pure n) s₁)).congr fun b w r hrest => ?_
    rw [← hrest, Reader.length_rest, decide_eq_true_iff]
    exact ⟨fun ⟨hle, hb, hw⟩ => ⟨hb, hw, hle⟩, fun ⟨hb, hw, hle⟩ => ⟨hle, hb, hw⟩⟩
  · constructor
    · rintro ⟨a, w₁, w₂, rfl, ha, rfl, rfl, hle⟩
      rw [List.append_nil]
      exact ⟨ha, hle⟩
    · rintro ⟨hn, hle⟩
      exact ⟨n, w, [], (List.append_nil w).symm, hn, rfl, rfl, hle⟩

/-- A vector of what takes up some room: its length is never more than the bytes left. -/
theorem reads_readVec {p : Decoding bytes α} {L : α → List UInt8 → Prop} (hp : ReadsAs p L)
    (hne : ∀ a w, L a w → w ≠ []) : ReadsAs (readVec p) (VecBytes L) := by
  intro s
  refine ((exact_readVecLen s).bind fun n s₁ _ => reads_readMany hp n s₁).congr fun as w r _ => ?_
  constructor
  · rintro ⟨n, w₁, w₂, rfl, ⟨hn, -⟩, rfl, h⟩
    exact ⟨w₁, w₂, rfl, hn, h⟩
  · rintro ⟨w₁, w₂, rfl, hn, h⟩
    have hle := h.length_le hne
    refine ⟨as.length, w₁, w₂, rfl, ⟨hn, ?_⟩, rfl, h⟩
    rw [List.length_append]
    omega

theorem VecBytes.ne_nil {L : α → List UInt8 → Prop} {as : List α} {w : List UInt8} (h : VecBytes L as w) : w ≠ [] := by
  obtain ⟨w₁, w₂, rfl, hn, -⟩ := h
  exact List.append_ne_nil_of_left_ne_nil (encodes_ne_nil hn) w₂

theorem VecBytes.exists_of_mem {L : α → List UInt8 → Prop} {as : List α} {w : List UInt8} (h : VecBytes L as w) {a : α}
    (ha : a ∈ as) : ∃ w', L a w' := by
  obtain ⟨w₁, w₂, -, -, hwords⟩ := h
  exact hwords.exists_of_mem ha

/-! ## Types -/

/-- The bytes of a heap type. -/
inductive HeapTypeBytes : HeapType → List UInt8 → Prop
  | concrete {ti w} : Encodes true 33 w (ti : ℕ) → ti ≤ ValType.maxConcreteIndex → HeapTypeBytes (.concrete ti) w
  | exact {ti w w'} : Encodes true 33 w (-0x1e) → IndexBytes ti w' → ti ≤ ValType.maxConcreteIndex →
      HeapTypeBytes (.exact ti) (w ++ w')
  | abstract {v ht w} : Encodes true 33 w v → abstractHeapType v = some ht → HeapTypeBytes ht w

theorem abstractHeapType_bounds {v : ℤ} {ht : HeapType} (h : abstractHeapType v = some ht) : -23 ≤ v ∧ v ≤ -12 := by
  by_contra hv
  rw [abstractHeapType] at h
  repeat rw [if_neg (by omega)] at h
  cases h

theorem exact_readVarS33_toInt : ReadsAs (BitVec.toInt <$> @readVarS33 bytes) fun v w => Encodes true 33 w v := by
  refine (Consumes.map exact_readVarS33).congr fun v w => ?_
  constructor
  · rintro ⟨a, rfl, h⟩
    exact h
  · intro h
    obtain ⟨a, rfl⟩ := exists_toInt (w := 64) (by decide) (by decide) v h.inRange
    exact ⟨a, rfl, h⟩

theorem reads_readHeapType : ReadsAs (@readHeapType bytes) HeapTypeBytes := by
  refine (exact_readVarS33_toInt.bind (M := fun (v : ℤ) ht w =>
    (0 ≤ v ∧ ht = .concrete v.toNat ∧ v ≤ ValType.maxConcreteIndex ∧ w = []) ∨
    (v = -0x1e ∧ ∃ ti, ht = .exact ti ∧ IndexBytes ti w ∧ ti ≤ ValType.maxConcreteIndex) ∨
    (abstractHeapType v = some ht ∧ w = [])) fun v => ?_).congr fun ht w => ?_
  · by_cases hv : 0 ≤ v
    · rw [if_pos hv]
      refine (reads_ensure fun _ => .pure _).congr fun ht w => ?_
      rw [decide_eq_true_iff]
      constructor
      · rintro ⟨hle, rfl, rfl⟩
        exact .inl ⟨hv, rfl, hle, rfl⟩
      · rintro (⟨-, rfl, hle, rfl⟩ | ⟨rfl, -⟩ | ⟨habs, -⟩)
        · exact ⟨hle, rfl, rfl⟩
        · omega
        · have := abstractHeapType_bounds habs
          omega
    · rw [if_neg hv]
      by_cases hexact : v = -0x1e
      · rw [if_pos hexact]
        refine (reads_readU32.bind fun ti => reads_ensure fun _ => .pure (HeapType.exact ti)).congr fun ht w => ?_
        constructor
        · rintro ⟨ti, w₁, w₂, rfl, hti, hle, rfl, rfl⟩
          rw [List.append_nil]
          exact .inr (.inl ⟨hexact, ti, rfl, hti, of_decide_eq_true hle⟩)
        · rintro (⟨hnonneg, -⟩ | ⟨-, ti, rfl, hti, hle⟩ | ⟨habs, -⟩)
          · exact absurd hnonneg hv
          · exact ⟨ti, w, [], (List.append_nil w).symm, hti, decide_eq_true hle, rfl, rfl⟩
          · have := abstractHeapType_bounds habs
            omega
      · rw [if_neg hexact]
        refine (reads_checked _).congr fun ht w => ?_
        rw [orError_eq_ok]
        constructor
        · rintro ⟨rfl, habs⟩
          exact .inr (.inr ⟨habs, rfl⟩)
        · rintro (⟨hnonneg, -⟩ | ⟨heq, -⟩ | ⟨habs, rfl⟩)
          · exact absurd hnonneg hv
          · exact absurd heq hexact
          · exact ⟨rfl, habs⟩
  · constructor
    · rintro ⟨v, w₁, w₂, rfl, hw, ⟨hnonneg, rfl, hle, rfl⟩ | ⟨rfl, ti, rfl, hti, hle⟩ | ⟨habs, rfl⟩⟩
      · obtain ⟨n, rfl⟩ := Int.eq_ofNat_of_zero_le hnonneg
        rw [List.append_nil]
        exact .concrete hw (by simpa using hle)
      · exact .exact hw hti hle
      · rw [List.append_nil]
        exact .abstract hw habs
    · rintro (⟨hw, hle⟩ | ⟨hw, hti, hle⟩ | ⟨hw, habs⟩)
      · exact ⟨_, w, [], (List.append_nil w).symm, hw, .inl ⟨Int.natCast_nonneg _, rfl, by exact_mod_cast hle, rfl⟩⟩
      · exact ⟨_, _, _, rfl, hw, .inr (.inl ⟨rfl, _, rfl, hti, hle⟩)⟩
      · exact ⟨_, w, [], (List.append_nil w).symm, hw, .inr (.inr ⟨habs, rfl⟩)⟩

/-- The value type of an abstract heap type. -/
def abstractHeapValType (ht : HeapType) (nullable : Bool) : ValType := ht.abstractHead.valType nullable

/-- The number types, by the code of a value type. -/
def numberType (v : ℤ) : Option ValType :=
  if v = -1 then some .i32
  else if v = -2 then some .i64
  else if v = -3 then some .f32
  else if v = -4 then some .f64
  else if v = -5 then some .v128
  else none

/-- The value type of a reference. A reference to a type of the module is not resolved. -/
def refValueType (nullable : Bool) : HeapType → BlockType
  | .concrete ti => .concreteRef nullable ti
  | .exact ti => .exactRef nullable ti
  | ht => .value (abstractHeapValType ht nullable)

/-- Read a value type of which the first byte has been read, as the code `v`. -/
def readValueTypeFrom (v : ℤ) : Decoding bytes BlockType :=
  match numberType v with
  | some t => pure (.value t)
  | none =>
    if v = -29 ∨ v = -28 then do
      let ht ← readHeapType
      pure (refValueType (decide (v = -29)) ht)
    else
      -- one byte stands for a nullable reference to an abstract heap type
      checked (orError .unsupportedOpcode
        ((abstractHeapType v).map fun ht => .value (abstractHeapValType ht true)))

/-- Read a block type. -/
def readBlockType : Decoding bytes BlockType := do
  let v ← BitVec.toInt <$> readVarS33
  if 0 ≤ v then pure (.typeIndex v.toNat)
  else if v = -64 then pure .empty
  else readValueTypeFrom v

/-- Read a value type of a typed `select`. -/
def readValueType : Decoding bytes BlockType := do
  let b ← readByte
  readValueTypeFrom (b.toNat - 0x80)

/-- The bytes of a value type after its first one, which is the code `v`. -/
inductive ValueTypeFrom : ℤ → BlockType → List UInt8 → Prop
  | number {v t} : numberType v = some t → ValueTypeFrom v (.value t) []
  | null {ht w} : HeapTypeBytes ht w → ValueTypeFrom (-29) (refValueType true ht) w
  | nonNull {ht w} : HeapTypeBytes ht w → ValueTypeFrom (-28) (refValueType false ht) w
  | short {v ht} : abstractHeapType v = some ht → ValueTypeFrom v (.value (abstractHeapValType ht true)) []

theorem numberType_bounds {v : ℤ} {t : ValType} (h : numberType v = some t) : -5 ≤ v ∧ v < 0 := by
  unfold numberType at h
  split_ifs at h <;> omega

/-- A code of a value type stands neither for an index nor for no result. -/
theorem ValueTypeFrom.code {v : ℤ} {bt : BlockType} {w : List UInt8} (h : ValueTypeFrom v bt w) : -29 ≤ v ∧ v < 0 := by
  rcases h with hnumber | _ | _ | hshort
  · have := numberType_bounds hnumber
    omega
  · omega
  · omega
  · have := abstractHeapType_bounds hshort
    omega

theorem reads_readValueTypeFrom (v : ℤ) : ReadsAs (@readValueTypeFrom bytes v) (ValueTypeFrom v) := by
  unfold readValueTypeFrom
  split
  · next t ht =>
    refine (Consumes.pure _).congr fun bt w => ?_
    constructor
    · rintro ⟨rfl, rfl⟩
      exact .number ht
    · have := numberType_bounds ht
      rintro (hnumber | _ | _ | hshort)
      · rw [Option.some.inj (ht.symm.trans hnumber)]
        exact ⟨rfl, rfl⟩
      · omega
      · omega
      · have := abstractHeapType_bounds hshort
        omega
  · next hnone =>
    by_cases hlong : v = -29 ∨ v = -28
    · rw [if_pos hlong]
      refine reads_readHeapType.map.congr fun bt w => ?_
      constructor
      · rintro ⟨ht, rfl, hw⟩
        rcases hlong with rfl | rfl
        · exact .null hw
        · exact .nonNull hw
      · rintro (hnumber | hw | hw | hshort)
        · cases hnone.symm.trans hnumber
        · exact ⟨_, rfl, hw⟩
        · exact ⟨_, rfl, hw⟩
        · have := abstractHeapType_bounds hshort
          omega
    · rw [if_neg hlong]
      refine (reads_checked _).congr fun bt w => ?_
      rw [orError_eq_ok, Option.map_eq_some_iff]
      constructor
      · rintro ⟨rfl, ht, hshort, rfl⟩
        exact .short hshort
      · rintro (hnumber | _ | _ | hshort)
        · cases hnone.symm.trans hnumber
        · exact absurd (.inl rfl) hlong
        · exact absurd (.inr rfl) hlong
        · exact ⟨rfl, _, hshort, rfl⟩

/-- The bytes of a block type. -/
inductive BlockTypeBytes : BlockType → List UInt8 → Prop
  | typeIndex {ti w} : Encodes true 33 w (ti : ℕ) → BlockTypeBytes (.typeIndex ti) w
  | empty {w} : Encodes true 33 w (-64) → BlockTypeBytes .empty w
  | value {v bt w w'} : Encodes true 33 w v → ValueTypeFrom v bt w' → BlockTypeBytes bt (w ++ w')

theorem reads_readBlockType : ReadsAs (@readBlockType bytes) BlockTypeBytes := by
  refine (exact_readVarS33_toInt.bind (M := fun (v : ℤ) bt w =>
    (0 ≤ v ∧ bt = .typeIndex v.toNat ∧ w = []) ∨ (v = -64 ∧ bt = .empty ∧ w = []) ∨ ValueTypeFrom v bt w)
    fun v => ?_).congr fun bt w => ?_
  · by_cases hv : 0 ≤ v
    · rw [if_pos hv]
      refine (Consumes.pure _).congr fun bt w => ?_
      constructor
      · rintro ⟨rfl, rfl⟩
        exact .inl ⟨hv, rfl, rfl⟩
      · rintro (⟨-, rfl, rfl⟩ | ⟨rfl, -⟩ | h)
        · exact ⟨rfl, rfl⟩
        · omega
        · exact absurd h.code.2 (by omega)
    · rw [if_neg hv]
      by_cases hempty : v = -64
      · rw [if_pos hempty]
        refine (Consumes.pure _).congr fun bt w => ?_
        constructor
        · rintro ⟨rfl, rfl⟩
          exact .inr (.inl ⟨hempty, rfl, rfl⟩)
        · rintro (⟨hnonneg, -⟩ | ⟨-, rfl, rfl⟩ | h)
          · exact absurd hnonneg hv
          · exact ⟨rfl, rfl⟩
          · exact absurd h.code.1 (by omega)
      · rw [if_neg hempty]
        refine (reads_readValueTypeFrom v).congr fun bt w => ?_
        constructor
        · exact fun h => .inr (.inr h)
        · rintro (⟨hnonneg, -⟩ | ⟨heq, -⟩ | h)
          · exact absurd hnonneg hv
          · exact absurd heq hempty
          · exact h
  · constructor
    · rintro ⟨v, w₁, w₂, rfl, hw, ⟨hnonneg, rfl, rfl⟩ | ⟨rfl, rfl, rfl⟩ | h⟩
      · obtain ⟨n, rfl⟩ := Int.eq_ofNat_of_zero_le hnonneg
        rw [List.append_nil]
        exact .typeIndex hw
      · rw [List.append_nil]
        exact .empty hw
      · exact .value hw h
    · rintro (hw | hw | ⟨hw, h⟩)
      · exact ⟨_, w, [], (List.append_nil w).symm, hw, .inl ⟨Int.natCast_nonneg _, rfl, rfl⟩⟩
      · exact ⟨_, w, [], (List.append_nil w).symm, hw, .inr (.inl ⟨rfl, rfl, rfl⟩)⟩
      · exact ⟨_, _, _, rfl, hw, .inr (.inr h)⟩

/-- The bytes of a value type of a typed `select`. -/
inductive ValueTypeBytes : BlockType → List UInt8 → Prop
  | mk {b : UInt8} {bt w} : ValueTypeFrom (b.toNat - 0x80) bt w → ValueTypeBytes bt (b :: w)

theorem reads_readByte : ReadsAs (@readByte bytes) fun b w => w = [b] := exact_readByte

theorem reads_readValueType : ReadsAs (@readValueType bytes) ValueTypeBytes := by
  refine (reads_readByte.bind fun b => reads_readValueTypeFrom _).congr fun bt w => ?_
  constructor
  · rintro ⟨b, w₁, w₂, rfl, rfl, h⟩
    exact .mk h
  · rintro ⟨h⟩
    exact ⟨_, [_], _, rfl, rfl, h⟩

/-! ## Accesses -/

/-- Read the memory index of an access, if the flag above its alignment says that one follows. -/
def readMemIndex (flags : BitVec 32) : Decoding bytes (ℕ × ℕ) :=
  if flags &&& 0x40 ≠ 0 then do
    let memory ← readU32
    pure ((flags &&& ~~~0x40).toNat, memory)
  else pure (flags.toNat, 0)

/-- Read the immediate of an access to a memory. -/
def readMemArg : Decoding bytes MemArg := do
  let flags ← readVarU32
  checked (ensure (decide (flags < 0x80)) .malformedMemopFlags)
  let p ← readMemIndex flags
  let offset ← BitVec.toNat <$> readVarU64
  pure ⟨p.1, offset, p.2⟩

/-- The bytes of an offset. -/
abbrev OffsetBytes (n : ℕ) (w : List UInt8) : Prop := Encodes false 64 w n

/-- The bytes of the immediate of an access. Memory 0 may be left out. -/
inductive MemArgBytes : MemArg → List UInt8 → Prop
  | first {a o w w'} : a < 0x40 → IndexBytes a w → OffsetBytes o w' → MemArgBytes ⟨a, o, 0⟩ (w ++ w')
  | explicit {a o m w w' w''} : a < 0x40 → IndexBytes (a + 0x40) w → IndexBytes m w' → OffsetBytes o w'' →
      MemArgBytes ⟨a, o, m⟩ (w ++ (w' ++ w''))

theorem reads_offset : ReadsAs (BitVec.toNat <$> @readVarU64 bytes) OffsetBytes := by
  refine (Consumes.map exact_readVarU64).congr fun n w => ?_
  constructor
  · rintro ⟨a, rfl, h⟩
    exact h
  · intro h
    obtain ⟨a, ha⟩ := exists_toNat (N := 64) n h.inRange
    obtain rfl : a.toNat = n := by exact_mod_cast ha
    exact ⟨a, rfl, h⟩

/-- The flag of an alignment is the bit above it. -/
theorem alignment_flag {flags : BitVec 32} (h : flags.toNat < 0x80) :
    (flags &&& 0x40 ≠ 0 ↔ 0x40 ≤ flags.toNat) ∧
      (0x40 ≤ flags.toNat → (flags &&& ~~~0x40).toNat + 0x40 = flags.toNat) := by
  have hall : ∀ i : Fin 0x80, (BitVec.ofNat 32 i &&& 0x40 ≠ 0 ↔ 0x40 ≤ (i : ℕ)) ∧
      (0x40 ≤ (i : ℕ) → (BitVec.ofNat 32 i &&& ~~~0x40).toNat + 0x40 = (i : ℕ)) := by decide +kernel
  have hflags := hall ⟨flags.toNat, h⟩
  rwa [BitVec.ofNat_toNat, BitVec.setWidth_eq] at hflags

theorem reads_readMemIndex {flags : BitVec 32} (h : flags.toNat < 0x80) :
    ReadsAs (@readMemIndex bytes flags) fun p w =>
      (p.1 = flags.toNat ∧ p.1 < 0x40 ∧ p.2 = 0 ∧ w = []) ∨ (p.1 + 0x40 = flags.toNat ∧ IndexBytes p.2 w) := by
  obtain ⟨hflag, hclear⟩ := alignment_flag h
  rw [readMemIndex]
  by_cases hbit : 0x40 ≤ flags.toNat
  · rw [if_pos (hflag.mpr hbit)]
    refine reads_readU32.map.congr fun p w => ?_
    constructor
    · rintro ⟨memory, rfl, hmemory⟩
      exact .inr ⟨hclear hbit, hmemory⟩
    · rintro (⟨heq, hlt, -⟩ | ⟨heq, hmemory⟩)
      · omega
      · have halign : p.1 = (flags &&& ~~~0x40).toNat := by
          have := hclear hbit
          omega
        exact ⟨p.2, Prod.ext halign rfl, hmemory⟩
  · rw [if_neg (hflag.not.mpr hbit)]
    refine (Consumes.pure _).congr fun p w => ?_
    constructor
    · rintro ⟨rfl, rfl⟩
      exact .inl ⟨rfl, Nat.not_le.mp hbit, rfl, rfl⟩
    · rintro (⟨heq, -, hzero, rfl⟩ | ⟨heq, -⟩)
      · exact ⟨Prod.ext heq hzero, rfl⟩
      · omega

theorem reads_readMemArg : ReadsAs (@readMemArg bytes) MemArgBytes := by
  have hrest (flags : BitVec 32) := @reads_ensure bytes _ (decide (flags < 0x80)) .malformedMemopFlags _ _ fun hok =>
    (@reads_readMemIndex bytes flags (of_decide_eq_true hok)).bind fun p =>
      reads_offset.map (f := fun offset => MemArg.mk p.1 offset p.2)
  refine (Consumes.bind exact_readVarU32 hrest).congr fun m w => ?_
  constructor
  · rintro ⟨flags, w₁, w₂, rfl, hw, hok, p, w₃, w₄, rfl, hp, offset, rfl, hoffset⟩
    have hlt : flags.toNat < 0x80 := of_decide_eq_true hok
    rcases hp with ⟨heq, hsmall, hzero, rfl⟩ | ⟨heq, hmemory⟩
    · rw [hzero]
      exact .first hsmall (heq ▸ hw) hoffset
    · exact .explicit (by omega) (heq ▸ hw) hmemory hoffset
  · have hbits {n : ℕ} {w : List UInt8} (hn : n < 0x80) (hw : IndexBytes n w) :
        ∃ flags : BitVec 32, flags.toNat = n ∧ decide (flags < 0x80) = true ∧ Encodes false 32 w flags.toNat := by
      have hflags : (BitVec.ofNat 32 n).toNat = n := by rw [BitVec.toNat_ofNat, Nat.mod_eq_of_lt (by omega)]
      refine ⟨BitVec.ofNat 32 n, hflags, ?_, by rwa [hflags]⟩
      rw [decide_eq_true_iff, BitVec.lt_def, hflags]
      exact hn
    rintro (⟨ha, hw, hoffset⟩ | ⟨ha, hw, hmemory, hoffset⟩)
    · obtain ⟨flags, heq, hok, hflags⟩ := hbits (by omega) hw
      exact ⟨flags, _, _, rfl, hflags, hok, (_, 0), [], _, rfl, .inl ⟨heq.symm, ha, rfl, rfl⟩, _, rfl, hoffset⟩
    · obtain ⟨flags, heq, hok, hflags⟩ := hbits (by omega) hw
      exact ⟨flags, _, _, rfl, hflags, hok, (_, _), _, _, rfl, .inr ⟨heq.symm, hmemory⟩, _, rfl, hoffset⟩

/-! ## Casts and handlers -/

/-- A branch on a cast: where to, from what and to what. -/
structure BrCast where
  label : ℕ
  src : RefType
  dst : RefType
  deriving DecidableEq, Repr

/-- Read the immediate of a branch on a cast. Two bits of its first byte say which of the types are nullable. -/
def readBrCast : Decoding bytes BrCast := do
  let flags ← readByte
  checked (ensure (decide (flags &&& ~~~0b11 = 0)) .malformedFlag)
  let label ← readU32
  let src ← readHeapType
  let dst ← readHeapType
  pure ⟨label, ⟨decide (flags &&& 0b01 ≠ 0), src⟩, ⟨decide (flags &&& 0b10 ≠ 0), dst⟩⟩

/-- The byte of two flags. -/
def castFlags (src dst : Bool) : UInt8 := src.toUInt8 ||| (dst.toUInt8 <<< 1)

/-- The bytes of a branch on a cast. -/
inductive CastBytes : BrCast → List UInt8 → Prop
  | mk {flags label n n' src dst w w' w''} : flags = castFlags n n' → IndexBytes label w → HeapTypeBytes src w' →
      HeapTypeBytes dst w'' → CastBytes ⟨label, ⟨n, src⟩, ⟨n', dst⟩⟩ (flags :: (w ++ (w' ++ w'')))

/-- A byte of two flags is what its flags say. -/
theorem castFlags_iff (b : UInt8) (n n' : Bool) :
    (b &&& ~~~0b11 = 0 ∧ n = decide (b &&& 0b01 ≠ 0) ∧ n' = decide (b &&& 0b10 ≠ 0)) ↔ b = castFlags n n' := by
  have hall : ∀ (i : Fin 256) (n n' : Bool), (UInt8.ofFin i &&& ~~~0b11 = 0 ∧ n = decide (UInt8.ofFin i &&& 0b01 ≠ 0) ∧
      n' = decide (UInt8.ofFin i &&& 0b10 ≠ 0)) ↔ UInt8.ofFin i = castFlags n n' := by decide +kernel
  exact hall b.toFin n n'

theorem reads_readBrCast : ReadsAs (@readBrCast bytes) CastBytes := by
  have hrest (flags : UInt8) := @reads_ensure bytes _ (decide (flags &&& ~~~0b11 = 0))
    .malformedFlag _ _ fun _ => reads_readU32.bind fun label => reads_readHeapType.bind fun src =>
      reads_readHeapType.map (f := fun dst =>
        BrCast.mk label ⟨decide (flags &&& 0b01 ≠ 0), src⟩ ⟨decide (flags &&& 0b10 ≠ 0), dst⟩)
  refine (reads_readByte.bind hrest).congr fun c w => ?_
  constructor
  · rintro ⟨flags, w₁, w₂, rfl, rfl, hok, label, w₃, w₄, rfl, hlabel, src, w₅, w₆, rfl, hsrc, dst, rfl, hdst⟩
    rw [List.singleton_append]
    exact .mk ((castFlags_iff _ _ _).mp ⟨of_decide_eq_true hok, rfl, rfl⟩) hlabel hsrc hdst
  · rintro ⟨hflags, hlabel, hsrc, hdst⟩
    obtain ⟨hok, rfl, rfl⟩ := (castFlags_iff _ _ _).mpr hflags
    exact ⟨_, [_], _, rfl, rfl, decide_eq_true hok, _, _, _, rfl, hlabel, _, _, _, rfl, hsrc, _, rfl, hdst⟩

/-- The kind of a clause. -/
def catchKind (b : UInt8) : Option CatchKind :=
  if b = 0x00 then some .catchTag
  else if b = 0x01 then some .catchRef
  else if b = 0x02 then some .catchAll
  else if b = 0x03 then some .catchAllRef
  else none

/-- Does a clause of this kind name a tag? -/
def CatchKind.hasTag : CatchKind → Bool
  | catchTag | catchRef => true
  | catchAll | catchAllRef => false

/-- Read the tag of a clause that has one. -/
def readCatchTag (kind : CatchKind) : Decoding bytes ℕ := if kind.hasTag then readU32 else pure 0

/-- Read a clause. -/
def readCatch : Decoding bytes Catch := do
  let b ← readByte
  let kind ← checked (orError .unsupportedOpcode (catchKind b))
  let tag ← readCatchTag kind
  let label ← readU32
  pure ⟨kind, tag, label⟩

/-- The bytes of a clause. -/
inductive CatchBytes : Catch → List UInt8 → Prop
  | tagged {b kind tag label w w'} : catchKind b = some kind → kind.hasTag = true → IndexBytes tag w →
      IndexBytes label w' → CatchBytes ⟨kind, tag, label⟩ (b :: (w ++ w'))
  | all {b kind label w} : catchKind b = some kind → kind.hasTag = false → IndexBytes label w →
      CatchBytes ⟨kind, 0, label⟩ (b :: w)

theorem reads_readCatchTag (kind : CatchKind) : ReadsAs (@readCatchTag bytes kind) fun tag w =>
    if kind.hasTag = true then IndexBytes tag w else tag = 0 ∧ w = [] :=
  reads_readU32.ite (.pure 0)

theorem reads_readCatch : ReadsAs (@readCatch bytes) CatchBytes := by
  refine (reads_readByte.bind fun b => (reads_checked _).bind fun kind => (reads_readCatchTag kind).bind fun tag =>
    reads_readU32.map).congr fun c w => ?_
  constructor
  · rintro ⟨b, w₁, w₂, rfl, rfl, kind, w₃, w₄, rfl, ⟨rfl, hkind⟩, tag, w₅, w₆, rfl, htag, label, rfl, hlabel⟩
    rw [orError_eq_ok] at hkind
    rw [List.singleton_append, List.nil_append]
    by_cases h : kind.hasTag = true
    · rw [if_pos h] at htag
      exact .tagged hkind h htag hlabel
    · rw [if_neg h] at htag
      obtain ⟨rfl, rfl⟩ := htag
      exact .all hkind (Bool.eq_false_iff.mpr h) hlabel
  · rintro (⟨hkind, h, htag, hlabel⟩ | ⟨hkind, h, hlabel⟩)
    · exact ⟨_, [_], _, rfl, rfl, _, [], _, rfl, ⟨rfl, orError_eq_ok.mpr hkind⟩, _, _, _, rfl, (if_pos h).mpr htag, _, rfl,
        hlabel⟩
    · exact ⟨_, [_], _, rfl, rfl, _, [], _, rfl, ⟨rfl, orError_eq_ok.mpr hkind⟩, 0, [], _, rfl,
        (if_neg (Bool.eq_false_iff.mp h)).mpr ⟨rfl, rfl⟩, _, rfl, hlabel⟩

theorem CatchBytes.ne_nil {c : Catch} {w : List UInt8} (h : CatchBytes c w) : w ≠ [] := by
  rcases h with _ | _ <;> exact List.cons_ne_nil _ _

/-- Read the immediate of `try_table`. -/
def readTryTable : Decoding bytes (BlockType × List Catch) := do
  let bt ← readBlockType
  let catches ← readVec readCatch
  pure (bt, catches)

/-- The bytes of the immediate of `try_table`. -/
inductive TryTableBytes : BlockType × List Catch → List UInt8 → Prop
  | mk {bt cs w w'} : BlockTypeBytes bt w → VecBytes CatchBytes cs w' → TryTableBytes (bt, cs) (w ++ w')

theorem reads_readTryTable : ReadsAs (@readTryTable bytes) TryTableBytes := by
  refine (reads_readBlockType.bind fun bt => (reads_readVec reads_readCatch fun _ _ => CatchBytes.ne_nil).map).congr
    fun p w => ?_
  constructor
  · rintro ⟨bt, w₁, w₂, rfl, hbt, cs, rfl, hcs⟩
    exact .mk hbt hcs
  · rintro ⟨hbt, hcs⟩
    exact ⟨_, _, _, rfl, hbt, _, rfl, hcs⟩

/-- Read the immediate of `br_table`: the labels, and the one for any other index. -/
def readBrTable : Decoding bytes (List ℕ × ℕ) := do
  let labels ← readVec readU32
  let default ← readU32
  pure (labels, default)

/-- The bytes of the immediate of `br_table`. -/
inductive BrTableBytes : List ℕ × ℕ → List UInt8 → Prop
  | mk {labels d w w'} : VecBytes IndexBytes labels w → IndexBytes d w' → BrTableBytes (labels, d) (w ++ w')

theorem reads_readBrTable : ReadsAs (@readBrTable bytes) BrTableBytes := by
  refine ((reads_readVec reads_readU32 fun _ _ => encodes_ne_nil).bind fun labels => reads_readU32.map).congr
    fun p w => ?_
  constructor
  · rintro ⟨labels, w₁, w₂, rfl, hlabels, d, rfl, hd⟩
    exact .mk hlabels hd
  · rintro ⟨hlabels, hd⟩
    exact ⟨_, _, _, rfl, hlabels, _, rfl, hd⟩

end Wasmrt
