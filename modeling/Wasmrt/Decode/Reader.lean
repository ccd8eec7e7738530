import Wasmrt.Library.Checks
import Wasmrt.Library.Recognizer

/-!
# The cursor over a binary

`reader.rs`: a cursor over bytes that are not copied, and the reads of fixed size. Its bytes are a parameter of the type,
since no read changes them, and its position is one of theirs, or right after them.

An error is `none` for a loop that does not end, and the error of the source otherwise.

## Main definitions

* `DecodeError`: why a module does not decode.
* `Reader`, `Decoding`: the cursor, and what reads through it.
* `readByte`, `peekByte`, `readBytes`, `readU32Le`: the reads.

## Main results

* `exact_readByte`, `exact_readBytes`: a read returns what stands ahead and moves right past it.
-/

namespace Wasmrt

/-- Why a module does not decode. -/
inductive DecodeError
  | unexpectedEof | badMagic | unsupportedVersion | lebOverflow | invalidSectionId | badFuncType | badType
  | unknownExternKind | indexOutOfRange | malformedFlag | invalidPageSize | badValType | invalidUtf8
  | dataCountMismatch | unsupportedOpcode | unimplementedProposal | sectionOrder | sectionSizeMismatch
  | funcCodeCountMismatch | dataCountRequired | missingEnd | tooManyLocals | unbalancedEnd | malformedMemopFlags
  deriving DecidableEq, Repr

/-- A cursor over `bytes`. -/
structure Reader (bytes : List UInt8) where
  pos : ℕ
  pos_le : pos ≤ bytes.length
  deriving DecidableEq, Repr

/-- What reads through a cursor over `bytes`. -/
abbrev Decoding (bytes : List UInt8) := StateT (Reader bytes) (Except (Option DecodeError))

variable {bytes : List UInt8}

namespace Reader

/-- A cursor at the beginning. -/
def new (bytes : List UInt8) : Reader bytes := ⟨0, Nat.zero_le _⟩

/-- The bytes left. -/
def rest (r : Reader bytes) : List UInt8 := bytes.drop r.pos

/-- How many bytes are left. -/
def remaining (r : Reader bytes) : ℕ := bytes.length - r.pos

/-- Has every byte been read? -/
def atEnd (r : Reader bytes) : Bool := decide (bytes.length ≤ r.pos)

@[simp]
theorem rest_new : (new bytes).rest = bytes := rfl

@[simp]
theorem length_rest (r : Reader bytes) : r.rest.length = r.remaining := List.length_drop

theorem atEnd_iff {r : Reader bytes} : r.atEnd = true ↔ r.rest = [] := by
  rw [atEnd, decide_eq_true_iff, rest, List.drop_eq_nil_iff]

/-- A cursor is where the bytes that are left say. -/
theorem ext_rest {r r' : Reader bytes} (h : r.rest = r'.rest) : r = r' := by
  have hlength := congrArg List.length h
  rw [length_rest, length_rest, remaining, remaining] at hlength
  have hle := r.pos_le
  have hle' := r'.pos_le
  cases r
  cases r'
  simp only [mk.injEq]
  simp only at hlength hle hle'
  omega

/-- A cursor has moved past what it read. -/
theorem pos_eq_of_rest {r r' : Reader bytes} {w : List UInt8} (h : r.rest = w ++ r'.rest) : r'.pos = r.pos + w.length := by
  have hlength := congrArg List.length h
  rw [List.length_append, length_rest, length_rest, remaining, remaining] at hlength
  have hle := r.pos_le
  have hle' := r'.pos_le
  omega

end Reader

/-- Fail with an error of the source. -/
def failWith {α : Type} (e : DecodeError) : Decoding bytes α := fun _ => .error (some e)

/-- A check, inside a read. -/
def checked {α : Type} (x : Except DecodeError α) : Decoding bytes α := fun r =>
  match x with
  | .ok a => .ok (a, r)
  | .error e => .error (some e)

/-- The cursor itself. -/
def cursor : Decoding bytes (Reader bytes) := fun r => .ok (r, r)

/-- Read one byte. -/
def readByte : Decoding bytes UInt8 := fun r =>
  if h : r.pos < bytes.length then .ok (bytes[r.pos], ⟨r.pos + 1, h⟩) else .error (some .unexpectedEof)

/-- The next byte. -/
def peekByte : Decoding bytes UInt8 := fun r =>
  if h : r.pos < bytes.length then .ok (bytes[r.pos], r) else .error (some .unexpectedEof)

/-- Read `n` bytes. -/
def readBytes (n : ℕ) : Decoding bytes (List UInt8) := fun r =>
  if h : r.remaining < n then .error (some .unexpectedEof)
  else .ok (r.rest.take n, ⟨r.pos + n, by have := r.pos_le; rw [Reader.remaining] at h; omega⟩)

/-- The number that bytes stand for, the lowest first. -/
def ofBytesLe (w : ℕ) : List UInt8 → BitVec w
  | [] => 0
  | b :: bs => b.toBitVec.setWidth w ||| (ofBytesLe w bs <<< 8)

/-- Read four bytes as a number. -/
def readU32Le : Decoding bytes (BitVec 32) := ofBytesLe 32 <$> readBytes 4

/-- Read the bits of an `f32`. -/
def readF32Bits : Decoding bytes (BitVec 32) := ofBytesLe 32 <$> readBytes 4

/-- Read the bits of an `f64`. -/
def readF64Bits : Decoding bytes (BitVec 64) := ofBytesLe 64 <$> readBytes 8

theorem toNat_ofBytesLe {n : ℕ} (b : UInt8) (bs : List UInt8) (h : 8 * (bs.length + 1) ≤ n)
    (hlt : (ofBytesLe n bs).toNat < 2 ^ (8 * bs.length)) :
    (ofBytesLe n (b :: bs)).toNat = b.toNat + 2 ^ 8 * (ofBytesLe n bs).toNat := by
  have hb : b.toNat < 2 ^ 8 := b.toNat_lt
  have hfit : 2 ^ 8 * (ofBytesLe n bs).toNat < 2 ^ n := by
    calc 2 ^ 8 * (ofBytesLe n bs).toNat < 2 ^ 8 * 2 ^ (8 * bs.length) := by omega
      _ = 2 ^ (8 * (bs.length + 1)) := by rw [← pow_add]; congr 1; omega
      _ ≤ 2 ^ n := Nat.pow_le_pow_right (by omega) h
  have hone : 2 ^ 8 ≤ 2 ^ n := Nat.pow_le_pow_right (by omega) (by omega)
  have hlow : (b.toBitVec.setWidth n).toNat = b.toNat := by
    rw [BitVec.toNat_setWidth, UInt8.toNat_toBitVec, Nat.mod_eq_of_lt (by omega)]
  have hhigh : (ofBytesLe n bs <<< 8).toNat = (ofBytesLe n bs).toNat <<< 8 := by
    rw [BitVec.toNat_shiftLeft, Nat.mod_eq_of_lt]
    rwa [Nat.shiftLeft_eq, Nat.mul_comm]
  rw [ofBytesLe, BitVec.toNat_or, hlow, hhigh, Nat.or_comm, ← Nat.shiftLeft_add_eq_or_of_lt hb, Nat.shiftLeft_eq]
  omega

theorem toNat_ofBytesLe_lt {n : ℕ} (bs : List UInt8) (h : 8 * bs.length ≤ n) :
    (ofBytesLe n bs).toNat < 2 ^ (8 * bs.length) := by
  induction bs with
  | nil => exact Nat.zero_lt_one
  | cons b bs ih =>
    rw [List.length_cons] at h ⊢
    have hlt := ih (by omega)
    have hb : b.toNat < 2 ^ 8 := b.toNat_lt
    rw [toNat_ofBytesLe b bs h hlt, Nat.mul_add, pow_add, Nat.mul_comm (2 ^ (8 * bs.length))]
    omega

/-- As many bytes as fit a number are told from others by the number. -/
theorem ofBytesLe_injective {n : ℕ} {bs bs' : List UInt8} (h : 8 * bs.length ≤ n) (hlength : bs.length = bs'.length)
    (heq : ofBytesLe n bs = ofBytesLe n bs') : bs = bs' := by
  induction bs generalizing bs' with
  | nil => exact (List.eq_nil_of_length_eq_zero hlength.symm).symm
  | cons b bs ih =>
    obtain ⟨b', bs', rfl⟩ := List.exists_cons_of_length_eq_add_one hlength.symm
    rw [List.length_cons, List.length_cons, Nat.add_right_cancel_iff] at hlength
    rw [List.length_cons] at h
    have hle : 8 * bs.length ≤ n := by omega
    have hnat := congrArg BitVec.toNat heq
    rw [toNat_ofBytesLe b bs h (toNat_ofBytesLe_lt bs hle),
      toNat_ofBytesLe b' bs' (hlength ▸ h) (toNat_ofBytesLe_lt bs' (hlength ▸ hle))] at hnat
    have hb : b.toNat < 2 ^ 8 := b.toNat_lt
    have hb' : b'.toNat < 2 ^ 8 := b'.toNat_lt
    rw [UInt8.toNat_inj.mp (show b.toNat = b'.toNat by omega), ih hle hlength (BitVec.eq_of_toNat_eq (by omega))]

/-! ## What the reads read -/

open Recognizer

/-- A reader that returns `a` after reading `w`, with `r` left, just in case `R a w r`. -/
abbrev ReadsExactly {α : Type} (p : Decoding bytes α) (R : α → List UInt8 → List UInt8 → Prop) : Prop :=
  Exact Reader.rest none p R

theorem exact_readByte : ReadsExactly (@readByte bytes) (fun b w _ => w = [b]) := by
  intro r
  by_cases h : r.pos < bytes.length
  · have hok : readByte r = .ok (bytes[r.pos], ⟨r.pos + 1, h⟩) := dif_pos h
    have hrest : r.rest = [bytes[r.pos]] ++ (Reader.mk (r.pos + 1) h).rest := List.drop_eq_getElem_cons h
    refine .of_ok hok hrest rfl ?_
    rintro b w t hinput rfl
    rw [hrest] at hinput
    cases hinput
    exact ⟨rfl, rfl⟩
  · refine .fail (dif_neg h) nofun ?_
    rintro b w t hinput rfl
    rw [Reader.rest, List.drop_eq_nil_iff.mpr (Nat.not_lt.mp h)] at hinput
    cases hinput

theorem exact_peekByte : ReadsExactly (@peekByte bytes) (fun b w t => w = [] ∧ t.head? = some b) := by
  intro r
  by_cases h : r.pos < bytes.length
  · have hhead : r.rest.head? = some bytes[r.pos] := by rw [Reader.rest, List.drop_eq_getElem_cons h, List.head?_cons]
    refine .of_ok (dif_pos h) (List.nil_append _).symm ⟨rfl, hhead⟩ ?_
    rintro b w t hinput ⟨rfl, hb⟩
    rw [List.nil_append] at hinput
    rw [← hinput, hhead] at hb
    exact ⟨(Option.some.inj hb).symm, rfl⟩
  · refine .fail (dif_neg h) nofun ?_
    rintro b w t hinput ⟨rfl, hb⟩
    rw [Reader.rest, List.drop_eq_nil_iff.mpr (Nat.not_lt.mp h)] at hinput
    cases hinput
    cases hb

theorem exact_readBytes (n : ℕ) :
    ReadsExactly (@readBytes bytes n) (fun bs w _ => w = bs ∧ bs.length = n) := by
  intro r
  by_cases h : r.remaining < n
  · refine .fail (dif_pos h) nofun ?_
    rintro bs w t hinput ⟨rfl, hlength⟩
    have := congrArg List.length hinput
    rw [Reader.length_rest, List.length_append] at this
    omega
  · have hdrop : (r.rest.drop n) = bytes.drop (r.pos + n) := by rw [Reader.rest, List.drop_drop]
    have hinput : r.rest = r.rest.take n ++ bytes.drop (r.pos + n) := by rw [← hdrop, List.take_append_drop]
    have hlength : (r.rest.take n).length = n := by
      rw [List.length_take, Reader.length_rest]
      omega
    refine .of_ok (dif_neg h) hinput ⟨rfl, hlength⟩ ?_
    rintro bs w t hinput' ⟨rfl, hlength'⟩
    obtain ⟨rfl, -⟩ := List.append_inj (hinput'.symm.trans hinput) (hlength'.trans hlength.symm)
    exact ⟨rfl, rfl⟩

end Wasmrt
