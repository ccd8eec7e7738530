import Wasmrt.Decode.Reader
import Wasmrt.Library.Leb128

/-!
# Reading and writing LEB128

The five readers of `reader.rs` are one loop, with a check of its own for the last byte that may come, where a number has
fewer bits left than the byte. `uleb` and `sleb` are the writers of the assembler.

## Main definitions

* `readVarU32`, `readVarU64`, `readVarI32`, `readVarI64`, `readVarS33`: the readers.
* `skipLeb`: the reader of an encoding whose value is not needed.
* `uleb`, `sleb`: the writers.

## Main results

* `exact_readLeb`: the loop reads exactly the encodings of its numbers.
* `leb128_exact`: so do the five readers, and they read back what the writers write.
-/

namespace Wasmrt

open Leb128 Recognizer

variable {bytes : List UInt8} {w : ℕ}

/-! ## The readers -/

/-- The loop of the readers: `result` holds the bits read so far, below `shift`, and `more` bytes may follow the next one,
of which the last may add to the result what `last` says. A number that ends early is extended from its highest bit if it
has a sign. -/
def readLeb (signed : Bool) (last : UInt8 → Option (BitVec w)) : ℕ → BitVec w → ℕ → Decoding bytes (BitVec w)
  | 0, result, _ => do
    let byte ← readByte
    let bits ← checked (orError .lebOverflow (last byte))
    pure (result ||| bits)
  | more + 1, result, shift => do
    let byte ← readByte
    let result := result ||| ((byte &&& 0x7f).toBitVec.setWidth w <<< shift)
    if byte &&& 0x80 = 0 then
      pure (if signed ∧ byte &&& 0x40 ≠ 0 then result ||| (BitVec.allOnes w <<< (shift + 7)) else result)
    else readLeb signed last more result (shift + 7)

/-- The fifth byte of a `u32` holds four bits. -/
def lastU32 (byte : UInt8) : Option (BitVec 32) :=
  if byte >>> 4 ≠ 0 then none else some (byte.toBitVec.setWidth 32 <<< 28)

/-- The tenth byte of a `u64` holds one bit. -/
def lastU64 (byte : UInt8) : Option (BitVec 64) :=
  if byte >>> 1 ≠ 0 then none else some ((byte &&& 0x01).toBitVec.setWidth 64 <<< 63)

/-- The fifth byte of an `i32` holds four bits, and the bits above extend them. -/
def lastI32 (byte : UInt8) : Option (BitVec 32) :=
  if byte &&& 0x80 ≠ 0 then none
  else
    let hi := byte &&& 0x78
    if hi ≠ 0 ∧ hi ≠ 0x78 then none else some ((byte &&& 0x7f).toBitVec.setWidth 32 <<< 28)

/-- The tenth byte of an `i64` holds one bit, and the bits above extend it. -/
def lastI64 (byte : UInt8) : Option (BitVec 64) :=
  if byte &&& 0x80 ≠ 0 then none
  else
    let v := byte &&& 0x7f
    if v ≠ 0 ∧ v ≠ 0x7f then none else some ((byte &&& 0x01).toBitVec.setWidth 64 <<< 63)

/-- The fifth byte of an `s33` holds five bits, the sign the highest of them. -/
def lastS33 (byte : UInt8) : Option (BitVec 64) :=
  if byte &&& 0x80 ≠ 0 then none
  else
    let sign := byte &&& 0x10
    let hi := byte &&& 0x60
    if (sign = 0 ∧ hi ≠ 0) ∨ (sign ≠ 0 ∧ hi ≠ 0x60) then none
    else
      let r := (byte &&& 0x1f).toBitVec.setWidth 64 <<< 28
      some (if sign ≠ 0 then r ||| (BitVec.allOnes 64 <<< 33) else r)

/-- Read a `u32`. -/
def readVarU32 : Decoding bytes (BitVec 32) := readLeb false lastU32 4 0 0

/-- Read a `u64`. -/
def readVarU64 : Decoding bytes (BitVec 64) := readLeb false lastU64 9 0 0

/-- Read an `i32`. -/
def readVarI32 : Decoding bytes (BitVec 32) := readLeb true lastI32 4 0 0

/-- Read an `i64`. -/
def readVarI64 : Decoding bytes (BitVec 64) := readLeb true lastI64 9 0 0

/-- Read an `s33`, as an `i64`. -/
def readVarS33 : Decoding bytes (BitVec 64) := readLeb true lastS33 4 0 0

/-- Skip an encoding of at most `maxBytes` bytes. -/
def skipLeb (maxBytes : ℕ) : Decoding bytes Unit := do
  let byte ← readByte
  if byte &&& 0x80 = 0 then pure ()
  else match maxBytes with
    | left + 2 => skipLeb (left + 1)
    | _ => failWith .lebOverflow

/-! ## The bits of a number -/

theorem ofInt_shiftLeft (v : ℤ) (k : ℕ) : BitVec.ofInt w v <<< k = BitVec.ofInt w (2 ^ k * v) := by
  have hpow : BitVec.twoPow w k = BitVec.ofInt w ((2 ^ k : ℕ) : ℤ) := by
    apply BitVec.eq_of_toNat_eq
    rw [BitVec.ofInt_natCast, BitVec.toNat_twoPow, BitVec.toNat_ofNat]
  rw [BitVec.shiftLeft_eq_mul_twoPow, hpow, ← BitVec.ofInt_mul, mul_comm, Nat.cast_pow, Nat.cast_ofNat]

theorem allOnes_shiftLeft (k : ℕ) : BitVec.allOnes w <<< k = BitVec.ofInt w (2 ^ k * -1) := by
  rw [← BitVec.neg_one_eq_allOnes, ← ofInt_shiftLeft, BitVec.ofInt_neg]
  rfl

/-- Bits above those of a number are added to it. -/
theorem ofNat_or_shiftLeft {n shift : ℕ} (hn : n < 2 ^ shift) (v : ℤ) :
    BitVec.ofNat w n ||| (BitVec.ofInt w v <<< shift) = BitVec.ofInt w (n + 2 ^ shift * v) := by
  have hand : BitVec.ofNat w n &&& (BitVec.ofInt w v <<< shift) = 0#w := by
    ext i hi
    rw [BitVec.getElem_and, BitVec.getElem_shiftLeft, BitVec.getElem_zero, BitVec.getElem_eq_testBit_toNat,
      BitVec.toNat_ofNat, Nat.testBit_mod_two_pow]
    by_cases hlt : i < shift
    · simp [hlt]
    · have hbit : n.testBit i = false :=
        Nat.testBit_lt_two_pow (lt_of_lt_of_le hn (Nat.pow_le_pow_right (by omega) (by omega)))
      simp [hbit]
  rw [← BitVec.add_eq_or_of_and_eq_zero _ _ hand, ofInt_shiftLeft, BitVec.ofInt_add, BitVec.ofInt_natCast]

/-- What a byte that is followed by another, or is not the last that fits, adds to a number. -/
theorem ofNat_or_byte {n shift : ℕ} (hn : n < 2 ^ shift) (b : UInt8) :
    BitVec.ofNat w n ||| ((b &&& 0x7f).toBitVec.setWidth w <<< shift) =
      BitVec.ofNat w (n + 2 ^ shift * (b.toNat % 128)) := by
  have hbyte : (b &&& 0x7f).toBitVec.setWidth w = BitVec.ofInt w ((b.toNat % 128 : ℕ) : ℤ) := by
    apply BitVec.eq_of_toNat_eq
    rw [BitVec.ofInt_natCast, BitVec.toNat_setWidth, BitVec.toNat_ofNat, UInt8.toNat_toBitVec, UInt8.toNat_and]
    exact congrArg (· % 2 ^ w) (Nat.and_two_pow_sub_one_eq_mod b.toNat 7)
  rw [hbyte, ofNat_or_shiftLeft hn, ← BitVec.ofInt_natCast]
  push_cast
  rfl

/-- The high bit says whether another byte follows, and the next one is the sign. -/
theorem high_bits (b : UInt8) :
    (b &&& 0x80 = 0 ↔ b.toNat < 128) ∧
      (b.toNat < 128 → (b &&& 0x40 ≠ 0 ↔ 64 ≤ b.toNat) ∧ (b ||| 0x80).toNat = b.toNat + 128) := by
  have hall : ∀ i : Fin 256, (UInt8.ofFin i &&& 0x80 = 0 ↔ (i : ℕ) < 128) ∧
      ((i : ℕ) < 128 → (UInt8.ofFin i &&& 0x40 ≠ 0 ↔ 64 ≤ (i : ℕ)) ∧
        (UInt8.ofFin i ||| 0x80).toNat = (i : ℕ) + 128) := by decide +kernel
  exact hall b.toFin

/-! ## The loop -/

theorem exact_checked {α : Type} (x : Except DecodeError α) :
    ReadsExactly (@checked bytes α x) (fun a w _ => w = [] ∧ x = .ok a) := by
  intro r
  cases x with
  | error e => exact .fail rfl nofun (by rintro a w t _ ⟨-, ⟨⟩⟩)
  | ok a =>
    refine .of_ok rfl (List.nil_append _).symm ⟨rfl, rfl⟩ ?_
    rintro b w t _ ⟨rfl, ⟨⟩⟩
    exact ⟨rfl, rfl⟩

/-- A last byte holds `bits` bits, from `lastShift` on. -/
def LastByte (signed : Bool) (bits lastShift : ℕ) (last : UInt8 → Option (BitVec w)) : Prop :=
  ∀ b, last b = if b.toNat < 128 ∧ InRange signed bits (payload signed b)
    then some (BitVec.ofInt w (2 ^ lastShift * payload signed b)) else none

/-- The loop reads exactly the encodings of what it has not read yet. -/
theorem exact_readLeb {signed : Bool} {bits lastShift : ℕ} {last : UInt8 → Option (BitVec w)} (hpos : 0 < bits) (hbits : bits ≤ 7)
    (hlast : LastByte signed bits lastShift last) {more n shift : ℕ} (hn : n < 2 ^ shift)
    (hshift : shift + 7 * more = lastShift) :
    ReadsExactly (@readLeb bytes w signed last more (BitVec.ofNat w n) shift) (fun a ws _ =>
      ∃ v, Encodes signed (bits + 7 * more) ws v ∧ a = BitVec.ofInt w (n + 2 ^ shift * v)) := by
  induction more generalizing n shift with
  | zero =>
    intro r
    refine ((exact_readByte r).bind fun b r₁ _ => (exact_checked _ r₁).bind fun x r₂ _ => .pure _).congr ?_
    intro a ws t _
    obtain rfl : shift = lastShift := hshift
    constructor
    · rintro ⟨b, w₁, w₂, rfl, rfl, x, w₃, w₄, rfl, ⟨rfl, hx⟩, rfl, rfl⟩
      rw [orError_eq_ok, hlast, Option.ite_none_right_eq_some] at hx
      obtain ⟨⟨hbyte, hfits⟩, hx⟩ := hx
      cases hx
      exact ⟨payload signed b, .last hbyte hfits, by rw [← ofInt_shiftLeft, ofNat_or_shiftLeft hn]⟩
    · rintro ⟨v, hv, rfl⟩
      cases hv with
      | @last _ b hbyte hfits =>
        refine ⟨b, [b], [], rfl, rfl, BitVec.ofInt w (2 ^ shift * payload signed b), [], [], rfl,
          ⟨rfl, orError_eq_ok.mpr ?_⟩, ?_, rfl⟩
        · rw [hlast, if_pos ⟨hbyte, hfits⟩]
        · rw [← ofInt_shiftLeft, ofNat_or_shiftLeft hn]
      | more _ hmore _ => omega
  | succ more ih =>
    intro r
    have hN : bits + 7 * (more + 1) - 7 = bits + 7 * more := by omega
    refine ((exact_readByte r).bind (T := fun b a ws _ =>
      (b.toNat < 128 ∧ a = BitVec.ofInt w (n + 2 ^ shift * payload signed b) ∧ ws = []) ∨
      (128 ≤ b.toNat ∧ ∃ v, Encodes signed (bits + 7 * more) ws v ∧
        a = BitVec.ofInt w (n + 2 ^ shift * (b.toNat - 128 + 128 * v)))) fun b r₁ _ => ?_).congr ?_
    · -- the byte ends the number, or the rest of the loop reads the rest of it
      obtain ⟨hhigh, hlow⟩ := high_bits b
      have hn' : n + 2 ^ shift * (b.toNat % 128) < 2 ^ (shift + 7) := by
        have hmod : b.toNat % 128 ≤ 127 := by omega
        have := Nat.mul_le_mul_left (2 ^ shift) hmod
        rw [pow_add]
        omega
      rw [ofNat_or_byte hn]
      by_cases hbyte : b.toNat < 128
      · rw [if_pos (hhigh.mpr hbyte)]
        refine (ExactAt.pure _).congr ?_
        rintro a ws t _
        have hvalue : (if signed = true ∧ b &&& 0x40 ≠ 0 then
            BitVec.ofNat w (n + 2 ^ shift * (b.toNat % 128)) ||| (BitVec.allOnes w <<< (shift + 7))
            else BitVec.ofNat w (n + 2 ^ shift * (b.toNat % 128))) =
              BitVec.ofInt w (n + 2 ^ shift * payload signed b) := by
          simp only [(hlow hbyte).1, payload, Nat.mod_eq_of_lt hbyte]
          split_ifs with hneg
          · rw [Nat.mod_eq_of_lt hbyte] at hn'
            rw [allOnes_shiftLeft, ← ofInt_shiftLeft, ofNat_or_shiftLeft hn']
            push_cast
            rw [pow_add]
            congr 1
            ring
          · rw [← BitVec.ofInt_natCast]
            push_cast
            rfl
        rw [hvalue]
        constructor
        · rintro ⟨rfl, rfl⟩
          exact .inl ⟨hbyte, rfl, rfl⟩
        · rintro (⟨-, rfl, rfl⟩ | ⟨hmore, -⟩)
          · exact ⟨rfl, rfl⟩
          · omega
      · rw [if_neg (hhigh.not.mpr hbyte)]
        refine (ih hn' (by omega) r₁).congr ?_
        rintro a ws t _
        have hvalue (v : ℤ) : ((n + 2 ^ shift * (b.toNat % 128) : ℕ) : ℤ) + 2 ^ (shift + 7) * v =
            n + 2 ^ shift * (b.toNat - 128 + 128 * v) := by
          have hlt := b.toNat_lt
          have hmod : ((b.toNat % 128 : ℕ) : ℤ) = b.toNat - 128 := by omega
          push_cast at hmod ⊢
          rw [hmod, pow_add]
          ring
        constructor
        · rintro ⟨v, hv, rfl⟩
          exact .inr ⟨by omega, v, hv, by rw [hvalue]⟩
        · rintro (⟨hlt, -⟩ | ⟨-, v, hv, rfl⟩)
          · exact absurd hlt hbyte
          · exact ⟨v, hv, by rw [hvalue]⟩
    · intro a ws t _
      constructor
      · rintro ⟨b, w₁, w₂, rfl, rfl, ⟨hbyte, rfl, rfl⟩ | ⟨hbyte, v, hv, rfl⟩⟩
        · exact ⟨payload signed b, .last hbyte (inRange_payload hbyte (by omega)), rfl⟩
        · exact ⟨_, .more hbyte (by omega) (hN ▸ hv), rfl⟩
      · rintro ⟨v, hv, rfl⟩
        cases hv with
        | @last _ b hbyte hfits => exact ⟨b, [b], [], rfl, rfl, .inl ⟨hbyte, rfl, rfl⟩⟩
        | @more _ b ws v hbyte _ h => exact ⟨b, [b], ws, rfl, rfl, .inr ⟨hbyte, v, hN ▸ h, rfl⟩⟩

/-! ## The five readers -/

/-- The last bytes are all checked. -/
theorem LastByte.of_forall_fin {signed : Bool} {bits lastShift : ℕ} {last : UInt8 → Option (BitVec w)}
    (h : ∀ i : Fin 256, last (UInt8.ofFin i) =
      if (UInt8.ofFin i).toNat < 128 ∧ InRange signed bits (payload signed (UInt8.ofFin i))
      then some (BitVec.ofInt w (payload signed (UInt8.ofFin i)) <<< lastShift) else none) :
    LastByte signed bits lastShift last := by
  intro b
  rw [← ofInt_shiftLeft]
  exact h b.toFin

/-- What the five readers say of the last byte is what it holds. -/
theorem lastByte_readers : LastByte false 4 28 lastU32 ∧ LastByte false 1 63 lastU64 ∧
    LastByte true 4 28 lastI32 ∧ LastByte true 1 63 lastI64 ∧ LastByte true 5 28 lastS33 := by
  refine ⟨.of_forall_fin ?_, .of_forall_fin ?_, .of_forall_fin ?_, .of_forall_fin ?_, .of_forall_fin ?_⟩
  all_goals decide +kernel

/-- From the start, the loop reads exactly the encodings of a number of `N` bits. -/
theorem exact_readLeb_zero {signed : Bool} {bits more : ℕ} {last : UInt8 → Option (BitVec w)} (hpos : 0 < bits)
    (hbits : bits ≤ 7) (hlast : LastByte signed bits (7 * more) last) :
    ReadsExactly (@readLeb bytes w signed last more 0 0) (fun a ws _ =>
      ∃ v, Encodes signed (bits + 7 * more) ws v ∧ a = BitVec.ofInt w v) := by
  intro r
  refine (exact_readLeb hpos hbits hlast (n := 0) (Nat.two_pow_pos 0) (Nat.zero_add _) r).congr ?_
  intro a ws t _
  simp only [pow_zero, one_mul, Nat.cast_zero, zero_add]

/-- An unsigned number that has room is the number of its bits. -/
theorem ofInt_eq_iff_toNat {N : ℕ} (hN : N ≤ w) {ws : List UInt8} {a : BitVec w} :
    (∃ v, Encodes false N ws v ∧ a = BitVec.ofInt w v) ↔ Encodes false N ws a.toNat := by
  constructor
  · rintro ⟨v, hv, rfl⟩
    obtain ⟨hnonneg, hlt⟩ := inRange_unsigned.mp hv.inRange
    obtain ⟨n, rfl⟩ := Int.eq_ofNat_of_zero_le hnonneg
    have hlt' : n < 2 ^ w := lt_of_lt_of_le (by exact_mod_cast hlt) (Nat.pow_le_pow_right (by omega) hN)
    rwa [BitVec.ofInt_natCast, BitVec.toNat_ofNat, Nat.mod_eq_of_lt hlt']
  · intro h
    exact ⟨a.toNat, h, by rw [BitVec.ofInt_natCast, BitVec.ofNat_toNat, BitVec.setWidth_eq]⟩

/-- A signed number that has room is the number of its bits. -/
theorem ofInt_eq_iff_toInt {N : ℕ} (hpos : 0 < N) (hN : N ≤ w) {ws : List UInt8} {a : BitVec w} :
    (∃ v, Encodes true N ws v ∧ a = BitVec.ofInt w v) ↔ Encodes true N ws a.toInt := by
  constructor
  · rintro ⟨v, hv, rfl⟩
    obtain ⟨hle, hlt⟩ := inRange_signed.mp hv.inRange
    have hpow : (2 : ℤ) ^ (N - 1) ≤ 2 ^ (w - 1) := by
      exact_mod_cast Nat.pow_le_pow_right (n := 2) (by omega) (by omega)
    rwa [BitVec.toInt_ofInt_eq_self (by omega) (by omega) (by omega)]
  · intro h
    exact ⟨a.toInt, h, (BitVec.ofInt_toInt).symm⟩

theorem exact_readVarU32 : ReadsExactly (@readVarU32 bytes) (fun a ws _ => Encodes false 32 ws a.toNat) :=
  fun r => (exact_readLeb_zero (by decide) (by decide) lastByte_readers.1 r).congr fun _ _ _ _ => ofInt_eq_iff_toNat le_rfl

theorem exact_readVarU64 : ReadsExactly (@readVarU64 bytes) (fun a ws _ => Encodes false 64 ws a.toNat) :=
  fun r => (exact_readLeb_zero (by decide) (by decide) lastByte_readers.2.1 r).congr fun _ _ _ _ => ofInt_eq_iff_toNat le_rfl

theorem exact_readVarI32 : ReadsExactly (@readVarI32 bytes) (fun a ws _ => Encodes true 32 ws a.toInt) :=
  fun r => (exact_readLeb_zero (by decide) (by decide) lastByte_readers.2.2.1 r).congr fun _ _ _ _ =>
    ofInt_eq_iff_toInt (by decide) le_rfl

theorem exact_readVarI64 : ReadsExactly (@readVarI64 bytes) (fun a ws _ => Encodes true 64 ws a.toInt) :=
  fun r => (exact_readLeb_zero (by decide) (by decide) lastByte_readers.2.2.2.1 r).congr fun _ _ _ _ =>
    ofInt_eq_iff_toInt (by decide) le_rfl

theorem exact_readVarS33 : ReadsExactly (@readVarS33 bytes) (fun a ws _ => Encodes true 33 ws a.toInt) :=
  fun r => (exact_readLeb_zero (by decide) (by decide) lastByte_readers.2.2.2.2 r).congr fun _ _ _ _ =>
    ofInt_eq_iff_toInt (by decide) (by decide)

/-- An encoding is skipped up to its end. -/
theorem skipLeb_of_chain {ws : List UInt8} (h : Chain ws) {maxBytes : ℕ} (hmax : ws.length ≤ maxBytes) {r : Reader bytes}
    {t : List UInt8} (hinput : r.rest = ws ++ t) : ∃ r', skipLeb maxBytes r = .ok ((), r') ∧ r'.rest = t := by
  induction h generalizing maxBytes r with
  | @last b hbyte =>
    obtain ⟨r', hread, hrest⟩ := (exact_readByte r).complete b [b] t hinput rfl
    refine ⟨r', ?_, hrest⟩
    rw [skipLeb.eq_def, bind_eq_ok]
    exact ⟨b, r', hread, by rw [if_pos ((high_bits b).1.mpr hbyte)]; rfl⟩
  | @more b ws hbyte hchain ih =>
    obtain ⟨r₁, hread, hrest⟩ := (exact_readByte r).complete b [b] (ws ++ t) hinput rfl
    have hne : ws.length ≠ 0 := by cases hchain <;> simp
    obtain ⟨left, rfl⟩ : ∃ left, maxBytes = left + 2 := ⟨maxBytes - 2, by rw [List.length_cons] at hmax; omega⟩
    rw [List.length_cons] at hmax
    obtain ⟨r', hskip, hrest'⟩ := ih (show ws.length ≤ left + 1 by omega) hrest
    refine ⟨r', ?_, hrest'⟩
    rw [skipLeb.eq_def, bind_eq_ok]
    refine ⟨b, r₁, hread, ?_⟩
    rw [if_neg (((high_bits b).1.not).mpr (by omega))]
    exact hskip

/-! ## The writers -/

/-- The seven lowest bits of a number. -/
def lowBits (v : BitVec 64) : UInt8 := UInt8.ofBitVec ((v &&& 0x7f).setWidth 8)

theorem toNat_lowBits (v : BitVec 64) : (lowBits v).toNat = v.toNat % 128 := by
  rw [lowBits, UInt8.toNat_ofBitVec, BitVec.toNat_setWidth, BitVec.toNat_and]
  have hmod : v.toNat &&& (0x7f : BitVec 64).toNat = v.toNat % 128 := Nat.and_two_pow_sub_one_eq_mod v.toNat 7
  rw [hmod]
  exact Nat.mod_eq_of_lt (by omega)

/-- The lowest bits do not depend on the sign. -/
theorem toInt_emod (v : BitVec 64) : v.toInt % 128 = (v.toNat % 128 : ℕ) := by
  have := BitVec.toInt_eq_toNat_cond v
  split_ifs at this <;> omega

theorem toNat_ushiftRight_seven (v : BitVec 64) : (v >>> 7).toNat = v.toNat / 128 := by
  rw [BitVec.toNat_ushiftRight, Nat.shiftRight_eq_div_pow]

theorem toInt_sshiftRight_seven (v : BitVec 64) : (v.sshiftRight 7).toInt = v.toInt / 128 := by
  rw [BitVec.toInt_sshiftRight, Int.shiftRight_eq_div_pow]
  rfl

/-- An unsigned number of seven bits is written as one byte. -/
theorem ushiftRight_seven_eq_zero {v : BitVec 64} : v >>> 7 = 0 ↔ v.toNat < 128 := by
  rw [← BitVec.toNat_inj, toNat_ushiftRight_seven]
  exact Nat.div_eq_zero_iff_lt (by decide)

/-- A signed number of seven bits is written as one byte. -/
theorem sleb_ends_iff {v : BitVec 64} :
    (v.sshiftRight 7 = 0 ∧ ¬ lowBits v &&& 0x40 ≠ 0) ∨ (v.sshiftRight 7 = -1 ∧ lowBits v &&& 0x40 ≠ 0) ↔
      -64 ≤ v.toInt ∧ v.toInt < 64 := by
  have hlow := toNat_lowBits v
  have hsign := ((high_bits (lowBits v)).2 (by omega)).1
  have hcast := toInt_emod v
  rw [hsign, hlow, ← BitVec.toInt_inj, ← BitVec.toInt_inj, toInt_sshiftRight_seven]
  have hzero : (0 : BitVec 64).toInt = 0 := rfl
  have hone : (-1 : BitVec 64).toInt = -1 := rfl
  rw [hzero, hone]
  omega

/-- Write an unsigned number. -/
def uleb (v : BitVec 64) : List UInt8 :=
  let b := lowBits v
  if v >>> 7 = 0 then [b] else (b ||| 0x80) :: uleb (v >>> 7)
termination_by v.toNat
decreasing_by
  rename_i hmore
  rw [ushiftRight_seven_eq_zero] at hmore
  rw [toNat_ushiftRight_seven]
  omega

/-- Write a signed number. -/
def sleb (v : BitVec 64) : List UInt8 :=
  let b := lowBits v
  let signSet := b &&& 0x40 ≠ 0
  if (v.sshiftRight 7 = 0 ∧ ¬ signSet) ∨ (v.sshiftRight 7 = -1 ∧ signSet) then [b]
  else (b ||| 0x80) :: sleb (v.sshiftRight 7)
termination_by v.toInt.natAbs
decreasing_by
  rename_i hmore
  rw [sleb_ends_iff] at hmore
  rw [toInt_sshiftRight_seven]
  omega

/-- What is written encodes the number, as one of as many bits as it has. -/
theorem encodes_uleb {N : ℕ} {v : BitVec 64} (h : v.toNat < 2 ^ N) : Encodes false N (uleb v) v.toNat := by
  induction hn : v.toNat using Nat.strongRecOn generalizing v N with
  | ind n ih =>
    subst hn
    have hlow := toNat_lowBits v
    rw [uleb]
    by_cases hends : v.toNat < 128
    · rw [if_pos (ushiftRight_seven_eq_zero.mpr hends)]
      have hpayload : payload false (lowBits v) = v.toNat := by
        rw [payload, if_neg (by simp), hlow, Nat.mod_eq_of_lt hends]
      rw [← hpayload]
      refine .last (by omega) ?_
      rw [hpayload, inRange_unsigned]
      exact ⟨by omega, by exact_mod_cast h⟩
    · rw [if_neg (ushiftRight_seven_eq_zero.not.mpr hends)]
      have hbits : 7 < N := by
        by_contra hle
        have := Nat.pow_le_pow_right (n := 2) (by decide) (Nat.not_lt.mp hle)
        omega
      have hrest : (v >>> 7).toNat < 2 ^ (N - 7) := by
        rw [toNat_ushiftRight_seven, Nat.div_lt_iff_lt_mul (by decide), show 128 = 2 ^ 7 from rfl, ← pow_add,
          Nat.sub_add_cancel hbits.le]
        exact h
      have hhigh := ((high_bits (lowBits v)).2 (by omega)).2
      refine (Encodes.more (by omega) hbits (ih _ ?_ hrest rfl)).of_eq ?_
      · rw [toNat_ushiftRight_seven]
        omega
      · rw [toNat_ushiftRight_seven, hhigh, hlow]
        omega

theorem encodes_sleb {N : ℕ} {v : BitVec 64} (h : InRange true N v.toInt) : Encodes true N (sleb v) v.toInt := by
  induction hn : v.toInt.natAbs using Nat.strongRecOn generalizing v N with
  | ind n ih =>
    subst hn
    have hlow := toNat_lowBits v
    have hcast := toInt_emod v
    rw [sleb]
    by_cases hends : -64 ≤ v.toInt ∧ v.toInt < 64
    · rw [if_pos (sleb_ends_iff.mpr hends)]
      have hpayload : payload true (lowBits v) = v.toInt := by
        rw [payload, hlow]
        by_cases hneg : 64 ≤ v.toNat % 128
        · rw [if_pos ⟨rfl, hneg⟩]
          omega
        · rw [if_neg fun h => hneg h.2]
          omega
      rw [← hpayload]
      refine .last (by omega) ?_
      rwa [hpayload]
    · rw [if_neg (sleb_ends_iff.not.mpr hends)]
      have hbits : 7 < N := by
        by_contra hle
        have := Nat.pow_le_pow_right (n := 2) (by decide) (show N - 1 ≤ 6 by omega)
        have hpow : (2 : ℤ) ^ (N - 1) ≤ 2 ^ 6 := by exact_mod_cast this
        rw [inRange_signed] at h
        omega
      have heq : v.toInt = v.toInt % 128 + 128 * (v.toInt / 128) := (Int.emod_add_mul_ediv _ _).symm
      have hrest : InRange true (N - 7) (v.sshiftRight 7).toInt := by
        rw [toInt_sshiftRight_seven]
        rw [heq] at h
        exact (inRange_more hbits (by omega)).mp h
      have hhigh := ((high_bits (lowBits v)).2 (by omega)).2
      refine (Encodes.more (by omega) hbits (ih _ ?_ hrest rfl)).of_eq ?_
      · rw [toInt_sshiftRight_seven]
        omega
      · rw [toInt_sshiftRight_seven, hhigh, hlow]
        omega

/-! ## Reading and writing -/

/-- The reader succeeds just in case at most `⌈N / 7⌉` bytes from where it is encode a number of `N` bits, returns the
number and moves right past them, and an encoding that is skipped is skipped up to there. Otherwise it fails, with an error
of the source. -/
def ReadsLeb (signed : Bool) (N : ℕ) (value : BitVec w → ℤ) (read : Decoding bytes (BitVec w)) : Prop :=
  ∀ r : Reader bytes,
    (∀ ws v t, r.rest = ws ++ t → Encodes signed N ws v →
      ∃ a r', read r = .ok (a, r') ∧ value a = v ∧ r'.rest = t ∧ r'.pos = r.pos + ws.length) ∧
    (∀ a r', read r = .ok (a, r') → ∃ ws, r.rest = ws ++ r'.rest ∧ r'.pos = r.pos + ws.length ∧
      ws.length ≤ (N + 6) / 7 ∧ Encodes signed N ws (value a) ∧
      ∀ maxBytes, (N + 6) / 7 ≤ maxBytes → skipLeb maxBytes r = .ok ((), r')) ∧
    ∀ e, read r = .error e → e ≠ none

theorem readsLeb_of_exact {signed : Bool} {N : ℕ} {value : BitVec w → ℤ} {read : Decoding bytes (BitVec w)}
    (hN : 0 < N) (hsurj : ∀ v, InRange signed N v → ∃ a, value a = v)
    (h : ReadsExactly read (fun a ws _ => Encodes signed N ws (value a))) :
    ReadsLeb signed N value read := by
  intro r
  refine ⟨?_, ?_, ?_⟩
  · intro ws v t hinput hv
    obtain ⟨a, rfl⟩ := hsurj v hv.inRange
    obtain ⟨r', hread, rfl⟩ := (h r).complete a ws t hinput hv
    exact ⟨a, r', hread, rfl, rfl, Reader.pos_eq_of_rest hinput⟩
  · intro a r' hread
    obtain ⟨ws, hinput, hv⟩ := (h r).sound a r' hread
    have hlength := hv.length_le hN
    refine ⟨ws, hinput, Reader.pos_eq_of_rest hinput, hlength, hv, fun maxBytes hmax => ?_⟩
    obtain ⟨r'', hskip, hrest⟩ := skipLeb_of_chain hv.chain (hlength.trans hmax) hinput
    rwa [Reader.ext_rest hrest] at hskip
  · rintro e hfail rfl
    exact (h r).ends hfail

theorem exists_toNat {N : ℕ} (v : ℤ) (h : InRange false N v) : ∃ a : BitVec N, (a.toNat : ℤ) = v := by
  obtain ⟨hnonneg, hlt⟩ := inRange_unsigned.mp h
  obtain ⟨n, rfl⟩ := Int.eq_ofNat_of_zero_le hnonneg
  have hlt' : n < 2 ^ N := by exact_mod_cast hlt
  exact ⟨BitVec.ofNat N n, by rw [BitVec.toNat_ofNat, Nat.mod_eq_of_lt hlt']⟩

theorem exists_toInt {N : ℕ} (hpos : 0 < N) (hN : N ≤ w) (v : ℤ) (h : InRange true N v) :
    ∃ a : BitVec w, a.toInt = v := by
  obtain ⟨hle, hlt⟩ := inRange_signed.mp h
  have hpow : (2 : ℤ) ^ (N - 1) ≤ 2 ^ (w - 1) := by
    exact_mod_cast Nat.pow_le_pow_right (n := 2) (by omega) (by omega)
  exact ⟨BitVec.ofInt w v, BitVec.toInt_ofInt_eq_self (by omega) (by omega) (by omega)⟩

/-- A reader reads back, from any bytes, what was written in front of them. -/
def ReadsBack (read : Decoding bytes (BitVec w)) (write : List UInt8) (v : BitVec w) : Prop :=
  ∀ (r : Reader bytes) (t : List UInt8), r.rest = write ++ t →
    ∃ r', read r = .ok (v, r') ∧ r'.rest = t ∧ r'.pos = r.pos + write.length

theorem readsBack_of_exact {R : BitVec w → List UInt8 → List UInt8 → Prop} {read : Decoding bytes (BitVec w)}
    {write : List UInt8} {v : BitVec w} (h : ReadsExactly read R) (hR : ∀ t, R v write t) :
    ReadsBack read write v := by
  intro r t hinput
  obtain ⟨r', hread, rfl⟩ := (h r).complete v write t hinput (hR t)
  exact ⟨r', hread, rfl, Reader.pos_eq_of_rest hinput⟩

/-- Each reader accepts exactly the encodings of its numbers, and reads back what the writer of its kind writes. A number
of fewer bits is extended before it is written. -/
theorem leb128_exact (bytes : List UInt8) :
    (ReadsLeb false 32 (fun a => (a.toNat : ℤ)) (@readVarU32 bytes) ∧
      ∀ v : BitVec 32, ReadsBack (@readVarU32 bytes) (uleb (v.setWidth 64)) v) ∧
    (ReadsLeb false 64 (fun a => (a.toNat : ℤ)) (@readVarU64 bytes) ∧
      ∀ v : BitVec 64, ReadsBack (@readVarU64 bytes) (uleb v) v) ∧
    (ReadsLeb true 32 BitVec.toInt (@readVarI32 bytes) ∧
      ∀ v : BitVec 32, ReadsBack (@readVarI32 bytes) (sleb (v.signExtend 64)) v) ∧
    (ReadsLeb true 64 BitVec.toInt (@readVarI64 bytes) ∧
      ∀ v : BitVec 64, ReadsBack (@readVarI64 bytes) (sleb v) v) ∧
    (ReadsLeb true 33 BitVec.toInt (@readVarS33 bytes) ∧
      ∀ v : BitVec 64, InRange true 33 v.toInt → ReadsBack (@readVarS33 bytes) (sleb v) v) := by
  refine ⟨⟨readsLeb_of_exact (by decide) exists_toNat exact_readVarU32, fun v => ?_⟩,
    ⟨readsLeb_of_exact (by decide) exists_toNat exact_readVarU64, fun v => ?_⟩,
    ⟨readsLeb_of_exact (by decide) (exists_toInt (by decide) le_rfl) exact_readVarI32, fun v => ?_⟩,
    ⟨readsLeb_of_exact (by decide) (exists_toInt (by decide) le_rfl) exact_readVarI64, fun v => ?_⟩,
    ⟨readsLeb_of_exact (by decide) (exists_toInt (by decide) (by decide)) exact_readVarS33, fun v hv => ?_⟩⟩
  · have hvalue : (v.setWidth 64).toNat = v.toNat := BitVec.toNat_setWidth_of_le (by decide)
    refine readsBack_of_exact exact_readVarU32 fun _ => ?_
    rw [← hvalue]
    exact encodes_uleb (hvalue ▸ v.isLt)
  · exact readsBack_of_exact exact_readVarU64 fun _ => encodes_uleb v.isLt
  · have hvalue : (v.signExtend 64).toInt = v.toInt := BitVec.toInt_signExtend_of_le (by decide)
    refine readsBack_of_exact exact_readVarI32 fun _ => ?_
    rw [← hvalue]
    exact encodes_sleb (hvalue ▸ ⟨BitVec.le_toInt v, BitVec.toInt_lt⟩)
  · exact readsBack_of_exact exact_readVarI64 fun _ => encodes_sleb ⟨BitVec.le_toInt v, BitVec.toInt_lt⟩
  · exact readsBack_of_exact exact_readVarS33 fun _ => encodes_sleb hv

end Wasmrt
