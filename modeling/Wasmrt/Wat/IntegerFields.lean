import Wasmrt.Wat.Integers

/-!
# Integers are read exactly, but for four slips

The fields of integers, against the grammar and the ranges that they have. A field is read exactly unless the text is
one that only `from_str_radix` or the prefix `0X` lets through, or its number is one that a cast wraps into the range.

## Main definitions

* `Width`, `Width.InRange`: the constants, signed or unsigned.
* `Field.Literal`, `Field.Fits`: what an unsigned field takes.
* `Width.ReadsExactly`, `Field.ReadsExactly`: that a text is read exactly.

## Main results

* `integers_read_exactly_iff`: the texts that are.
* `misread_texts`: some that are not.
-/

namespace Wasmrt.Wat

open Numerals (Spells value)

/-! ## Texts have one reading -/

section Unambiguous

variable {w : List UInt8} {n m : ℕ} {z z' : ℤ}

/-- A text that is not decimal. -/
private theorem not_decimal {c : UInt8} {ds : List ℕ} (hc : toDigit 10 c = none) (hsep : c ≠ underscore) (hw : c ∈ w) :
    ¬ Spells (toDigit 10) underscore w ds := by
  intro h
  rcases h.mem c hw with rfl | hdigit
  · exact hsep rfl
  · rw [hc] at hdigit
    cases hdigit

theorem not_spells_plus {radix : ℕ} {ds : List ℕ} : ¬ Spells (toDigit radix) underscore (plus :: w) ds := by
  intro h
  have heq := Spells.stripPlus_eq h
  rw [stripPlus_cons] at heq
  exact absurd (congrArg List.length heq) (by simp)

theorem Unsigned.unique (h : Unsigned w n) (h' : Unsigned w m) : n = m := by
  cases h with
  | decimal h =>
    cases h' with
    | decimal h' => rw [h.unique h' (toDigit_underscore 10)]
    | hex h' => exact absurd h (not_decimal (c := 0x78) rfl (by decide) (by simp))
  | hex h =>
    cases h' with
    | decimal h' => exact absurd h' (not_decimal (c := 0x78) rfl (by decide) (by simp))
    | hex h' => rw [h.unique h' (toDigit_underscore 16)]

/-- A number is not also one of those that are let through. -/
theorem Unsigned.not_lax (h : Unsigned w n) : ¬ LaxUnsigned w m := by
  intro h'
  cases h with
  | decimal h =>
    cases h' with
    | decimal h' => exact not_spells_plus h
    | hex h' => exact not_decimal (c := 0x78) rfl (by decide) (by simp) h
    | capital h' => exact not_decimal (c := 0x58) rfl (by decide) (by simp) h
    | capitalPlus h' => exact not_decimal (c := 0x58) rfl (by decide) (by simp) h
  | hex h =>
    cases h' with
    | hex h' => exact not_spells_plus h

theorem Signed.unique (h : Signed w z) (h' : Signed w z') : z = z' := by
  cases h with
  | none h =>
    cases h' with
    | none h' => rw [h.unique h']
    | plus h' => exact absurd rfl (ne_plus_of_unsigned h)
    | minus h' => exact absurd rfl (ne_minus_of_unsigned (.inl h))
  | plus h =>
    cases h' with
    | none h' => exact absurd rfl (ne_plus_of_unsigned h')
    | plus h' => rw [h.unique h']
  | minus h =>
    cases h' with
    | none h' => exact absurd rfl (ne_minus_of_unsigned (.inl h'))
    | minus h' => rw [h.unique h']

theorem Signed.not_lax (h : Signed w z) : ¬ LaxSigned w z' := by
  intro h'
  cases h with
  | none h =>
    cases h' with
    | none h' => exact h.not_lax h'
    | plus h' => exact ne_plus_of_unsigned h rfl
    | minus h' => exact ne_minus_of_unsigned (.inl h) rfl
  | plus h =>
    cases h' with
    | none h' hsign => exact hsign rfl
    | plus h' => exact h.not_lax h'
  | minus h =>
    cases h' with
    | none h' => exact ne_minus_of_unsigned (.inr h') rfl
    | minus h' => exact h.not_lax h'

end Unambiguous

/-! ## Constants -/

/-- The widths of constants and of lanes. -/
inductive Width
  | w8 | w16 | w32 | w64
  deriving DecidableEq, Repr

def Width.bits : Width → ℕ
  | w8 => 8
  | w16 => 16
  | w32 => 32
  | w64 => 64

namespace Width

variable (N : Width) (a : List UInt8)

/-- The range of a constant, signed or unsigned. -/
def InRange (z : ℤ) : Prop := -2 ^ (N.bits - 1) ≤ z ∧ z ≤ 2 ^ N.bits - 1

/-- The text is accepted just in case it is a literal in the range, and the bits are then those of the number. -/
def ReadsExactly : Prop :=
  ((∃ v, parseIntFit a N.bits = .ok v) ↔ ∃ z, Signed a z ∧ N.InRange z) ∧
    ∀ v z, parseIntFit a N.bits = .ok v → Signed a z → v.setWidth N.bits = BitVec.ofInt N.bits z

/-- The numbers that the reader of 64 bits takes for negative ones in the range of a narrower constant. -/
def Wraps (z : ℤ) : Prop := N.bits < 64 ∧ 2 ^ 64 - 2 ^ (N.bits - 1) ≤ z ∧ z < 2 ^ 64

/-- What is not read exactly. -/
def Misreads : Prop :=
  (∃ z, LaxSigned a z ∧ (N.InRange z ∨ N.Wraps z)) ∨ ∃ z, Signed a z ∧ N.Wraps z

variable {N a}

theorem toInt_ofInt_of_range {z : ℤ} (hle : -2 ^ 63 ≤ z) (hlt : z < 2 ^ 64) :
    (BitVec.ofInt 64 z).toInt = if z < 2 ^ 63 then z else z - 2 ^ 64 := by
  rw [BitVec.toInt_ofInt, Int.bmod_def]
  split_ifs <;> omega

/-- The check of the range, on the bits. -/
theorem parseIntFit_eq_ok {bits : ℕ} {v : BitVec 64} : parseIntFit a bits = .ok v ↔
    parseI64Str a = .ok v ∧ (bits < 64 → -2 ^ (bits - 1) ≤ v.toInt ∧ v.toInt ≤ 2 ^ bits - 1) := by
  unfold parseIntFit
  rw [Except.bind_eq_ok]
  constructor
  · rintro ⟨u, hu, hcheck⟩
    dsimp only at hcheck
    split_ifs at hcheck with hbits hrange
    · cases hcheck
      exact ⟨hu, fun hlt => absurd hbits (by omega)⟩
    · cases hcheck
      push Not at hrange
      exact ⟨hu, fun _ => hrange⟩
  · rintro ⟨hv, hrange⟩
    refine ⟨v, hv, ?_⟩
    dsimp only
    split_ifs with hbits hout
    · rfl
    · obtain ⟨hmin, hmax⟩ := hrange (by omega)
      omega
    · rfl

/-- What is accepted, and what is made of it. -/
theorem parseIntFit_eq_ok_iff {v : BitVec 64} : parseIntFit a N.bits = .ok v ↔
    ∃ z, (Signed a z ∨ LaxSigned a z) ∧ (N.InRange z ∨ N.Wraps z) ∧ v = BitVec.ofInt 64 z := by
  have hchecked {z : ℤ} (hle : -2 ^ 63 ≤ z) (hlt : z < 2 ^ 64) :
      (N.bits < 64 → -2 ^ (N.bits - 1) ≤ (BitVec.ofInt 64 z).toInt ∧ (BitVec.ofInt 64 z).toInt ≤ 2 ^ N.bits - 1) ↔
        N.InRange z ∨ N.Wraps z := by
    rw [toInt_ofInt_of_range hle hlt]
    cases N <;> simp only [bits, InRange, Wraps] <;> split_ifs <;> omega
  have hrange {z : ℤ} (h : N.InRange z ∨ N.Wraps z) : -2 ^ 63 ≤ z ∧ z < 2 ^ 64 := by
    cases N <;> simp only [bits, InRange, Wraps] at h <;> omega
  rw [parseIntFit_eq_ok, parseI64Str_eq_ok_iff]
  constructor
  · rintro ⟨⟨z, hz, hle, hlt, rfl⟩, hcheck⟩
    exact ⟨z, hz, (hchecked hle hlt).mp hcheck, rfl⟩
  · rintro ⟨z, hz, hin, rfl⟩
    obtain ⟨hle, hlt⟩ := hrange hin
    exact ⟨⟨z, hz, hle, hlt, rfl⟩, (hchecked hle hlt).mpr hin⟩

theorem setWidth_ofInt (z : ℤ) : (BitVec.ofInt 64 z).setWidth N.bits = BitVec.ofInt N.bits z := by
  apply BitVec.eq_of_toNat_eq
  rw [BitVec.toNat_setWidth, BitVec.toNat_ofInt, BitVec.toNat_ofInt]
  cases N <;> simp only [bits] <;> omega

/-- The texts that are read exactly. -/
theorem readsExactly_iff : N.ReadsExactly a ↔ ¬ N.Misreads a := by
  have hdisjoint {z : ℤ} (h : N.Wraps z) : ¬ N.InRange z := by
    cases N <;> simp only [bits, InRange, Wraps] at h ⊢ <;> omega
  constructor
  · rintro ⟨haccept, -⟩ (⟨z, hlax, hin⟩ | ⟨z, hz, hwraps⟩)
    · obtain ⟨z', hz', -⟩ := haccept.mp ⟨_, parseIntFit_eq_ok_iff.mpr ⟨z, .inr hlax, hin, rfl⟩⟩
      exact hz'.not_lax hlax
    · obtain ⟨z', hz', hin⟩ := haccept.mp ⟨_, parseIntFit_eq_ok_iff.mpr ⟨z, .inl hz, .inr hwraps, rfl⟩⟩
      rw [hz'.unique hz] at hin
      exact hdisjoint hwraps hin
  · intro hexact
    refine ⟨⟨?_, ?_⟩, ?_⟩
    · rintro ⟨v, hv⟩
      obtain ⟨z, hz | hlax, hin, -⟩ := parseIntFit_eq_ok_iff.mp hv
      · exact ⟨z, hz, hin.resolve_right fun hwraps => hexact (.inr ⟨z, hz, hwraps⟩)⟩
      · exact absurd (.inl ⟨z, hlax, hin⟩) hexact
    · rintro ⟨z, hz, hin⟩
      exact ⟨_, parseIntFit_eq_ok_iff.mpr ⟨z, .inl hz, .inl hin, rfl⟩⟩
    · rintro v z hv hz
      obtain ⟨z', hz' | hlax, hin, rfl⟩ := parseIntFit_eq_ok_iff.mp hv
      · rw [hz'.unique hz]
        exact setWidth_ofInt z
      · exact absurd hlax hz.not_lax

end Width

/-! ## Unsigned fields -/

namespace Field

variable (f : Field) (s : List UInt8)

/-- The literals of a field. A payload is hexadecimal. -/
def Literal (n : ℕ) : Prop :=
  match f with
  | payload _ => Unsigned s n ∧ [0x30, 0x78] <+: s
  | _ => Unsigned s n

/-- What a field holds. -/
def Fits (n : ℕ) : Prop :=
  match f with
  | index => n < 2 ^ 32
  | offset | limit => n < 2 ^ 64
  | align | pageSize => n < 2 ^ 64 ∧ ∃ k, n = 2 ^ k
  | lane => n < 2 ^ 8
  | payload fmt => 0 < n ∧ n < 2 ^ fmt.mantBits

/-- The number that a field stands for: alignments and sizes of pages are kept as exponents. -/
def denotes (r : ℕ) : ℕ :=
  match f with
  | align | pageSize => 2 ^ r
  | _ => r

/-- The text is accepted as a number just in case it is a literal for it and it fits. -/
def ReadsExactly : Prop :=
  ∀ n, (∃ r, f.read s = .ok r ∧ f.denotes r = n) ↔ f.Literal s n ∧ f.Fits n

/-- The numbers of lanes that lose their upper half. -/
def Wraps (n : ℕ) : Prop :=
  match f with
  | lane => 2 ^ 8 ≤ n ∧ n < 2 ^ 64 ∧ n % 2 ^ 32 < 2 ^ 8
  | _ => False

/-- The spellings that a field looks at: numbers of lanes have no sign, and payloads a prefix. -/
def LaxLiteral (n : ℕ) : Prop :=
  match f with
  | payload _ => LaxUnsigned s n ∧ (hexPrefix? s).isSome
  | lane => LaxUnsigned s n ∧ s.head? ≠ some plus
  | _ => LaxUnsigned s n

/-- What is not read exactly. -/
def Misreads : Prop :=
  (∃ n, f.LaxLiteral s n ∧ (f.Fits n ∨ f.Wraps n)) ∨ ∃ n, f.Literal s n ∧ f.Wraps n

/-- What is kept of a number. -/
def stored (n : ℕ) : ℕ :=
  match f with
  | align | pageSize => n.log2
  | lane => n % 2 ^ 32
  | _ => n

variable {f s} {n r : ℕ}

theorem denotes_stored (h : f.Fits n) : f.denotes (f.stored n) = n := by
  cases f with
  | align | pageSize =>
    obtain ⟨-, k, rfl⟩ := h
    simp [denotes, stored]
  | lane => exact Nat.mod_eq_of_lt (h.trans (by decide))
  | _ => rfl

theorem denotes_stored_ne (h : f.Wraps n) : f.denotes (f.stored n) ≠ n := by
  cases f with
  | lane =>
    obtain ⟨hle, -, hmod⟩ := h
    simp only [denotes, stored]
    omega
  | _ => cases h

theorem Literal.unsigned (h : f.Literal s n) : Unsigned s n := by
  cases f with
  | payload => exact h.1
  | _ => exact h

theorem LaxLiteral.laxUnsigned (h : f.LaxLiteral s n) : LaxUnsigned s n := by
  cases f with
  | payload => exact h.1
  | lane => exact h.1
  | _ => exact h

theorem isPowerOfTwo_iff : isPowerOfTwo n = true ↔ ∃ k, n = 2 ^ k := by
  rw [isPowerOfTwo, decide_eq_true_eq]
  refine ⟨fun h => ⟨_, h⟩, ?_⟩
  rintro ⟨k, rfl⟩
  rw [Nat.log2_two_pow]

/-- A number that is checked once it is read. -/
theorem checked_eq_ok_iff {P : ℕ → Prop} [DecidablePred P] {g : ℕ → ℕ} {e : Error} :
    (parseU64Str s >>= fun n => if P n then throw e else pure (g n)) = .ok r ↔
      ∃ n, (Unsigned s n ∨ LaxUnsigned s n) ∧ n < 2 ^ 64 ∧ ¬ P n ∧ r = g n := by
  rw [Except.bind_eq_ok]
  apply exists_congr
  intro n
  rw [parseU64Str_eq_ok_iff, and_assoc]
  split_ifs with h
  · constructor
    · rintro ⟨-, -, hthrow⟩
      cases hthrow
    · rintro ⟨-, -, hnot, -⟩
      exact absurd h hnot
  · rw [Except.pure_eq_ok]
    exact ⟨fun ⟨hn, hlt, hr⟩ => ⟨hn, hlt, h, hr.symm⟩, fun ⟨hn, hlt, _, hr⟩ => ⟨hn, hlt, hr.symm⟩⟩

theorem parseIndex_eq_ok_iff : parseIndex s = .ok r ↔ (Unsigned s r ∨ LaxUnsigned s r) ∧ r < 2 ^ 32 := by
  have hdef : parseIndex s = parseU64Str s >>= fun n => if ¬ n < 2 ^ 32 then throw .badImmediate else pure n := by
    simp only [ite_not]
    rfl
  rw [hdef, checked_eq_ok_iff]
  constructor
  · rintro ⟨n, hn, -, hlt, rfl⟩
    exact ⟨hn, not_not.mp hlt⟩
  · rintro ⟨hn, hlt⟩
    exact ⟨r, hn, hlt.trans (by decide), not_not.mpr hlt, rfl⟩

theorem parsePageSize_eq_ok_iff : parsePageSize s = .ok r ↔
    ∃ n, (Unsigned s n ∨ LaxUnsigned s n) ∧ (n < 2 ^ 64 ∧ ∃ k, n = 2 ^ k) ∧ r = n.log2 := by
  unfold parsePageSize
  rw [checked_eq_ok_iff]
  simp only [Bool.not_eq_eq_eq_not, Bool.not_true, Bool.not_eq_false, isPowerOfTwo_iff, trailingZeros, and_assoc]

/-- The check for zero of an alignment goes without saying. -/
theorem parseAlign_eq_ok_iff : parseAlign s = .ok r ↔
    ∃ n, (Unsigned s n ∨ LaxUnsigned s n) ∧ (n < 2 ^ 64 ∧ ∃ k, n = 2 ^ k) ∧ r = n.log2 := by
  have hzero (n : ℕ) : ¬ (n = 0 ∨ (!isPowerOfTwo n) = true) ↔ ∃ k, n = 2 ^ k := by
    rw [← isPowerOfTwo_iff]
    constructor
    · intro h
      simpa using (not_or.mp h).2
    · rintro h (rfl | hnot)
      · exact absurd h (by decide)
      · simp [h] at hnot
  unfold parseAlign
  rw [checked_eq_ok_iff]
  simp only [hzero, trailingZeros, and_assoc]

theorem simdLaneByte_eq_ok_iff : simdLaneByte s = .ok r ↔
    ∃ n, (Unsigned s n ∨ LaxUnsigned s n ∧ s.head? ≠ some plus) ∧ n < 2 ^ 64 ∧ n % 2 ^ 32 < 2 ^ 8 ∧
      r = n % 2 ^ 32 := by
  have hsign (c : UInt8) : ([c].isPrefixOf? s).isSome = true ↔ s.head? = some c := by
    simp only [Option.isSome_iff_exists, isPrefixOf?_singleton, List.head?_eq_some_iff]
  unfold simdLaneByte
  simp only [hsign]
  split_ifs with h
  · constructor
    · intro hthrow
      cases hthrow
    · rintro ⟨n, hn | ⟨hlax, hplus⟩, -⟩
      · exact (h.elim (ne_plus_of_unsigned hn) (ne_minus_of_unsigned (.inl hn))).elim
      · exact (h.elim hplus (ne_minus_of_unsigned (.inr hlax))).elim
  · push Not at h
    obtain ⟨hplus, hminus⟩ := h
    simp only [Except.bind_eq_ok, parseI64Str_of_ne hminus, stripPlus_of_ne hplus]
    constructor
    · rintro ⟨_, ⟨n, hn, hlt, rfl⟩, hok⟩
      split_ifs at hok with hfits
      cases hok
      rw [BitVec.toNat_setWidth, BitVec.toNat_ofNat, Nat.mod_eq_of_lt hlt] at hfits ⊢
      exact ⟨n, hn.imp_right fun hlax => ⟨hlax, hplus⟩, hlt, hfits, rfl⟩
    · rintro ⟨n, hn, hlt, hfits, rfl⟩
      refine ⟨_, ⟨n, hn.imp_right And.left, hlt, rfl⟩, ?_⟩
      rw [BitVec.toNat_setWidth, BitVec.toNat_ofNat, Nat.mod_eq_of_lt hlt, if_pos hfits]
      rfl

theorem nanPayload_eq_some_iff {fmt : FloatFmt} : nanPayload fmt s = some r ↔
    ((Unsigned s r ∨ LaxUnsigned s r) ∧ (hexPrefix? s).isSome) ∧ 0 < r ∧ r < 2 ^ fmt.mantBits := by
  unfold nanPayload
  simp only [Option.bind_eq_bind, Option.bind_eq_some_iff, Option.isSome_iff_exists]
  constructor
  · rintro ⟨t, ht, hok⟩
    split_ifs at hok with hnil
    obtain ⟨n, hn, hok⟩ := Option.bind_eq_some_iff.mp hok
    split_ifs at hok with hout
    cases hok
    push Not at hout
    exact ⟨⟨(parseU64Str_eq_ok_iff.mp (toOption_eq_some.mp hn)).1, t, ht⟩, by omega, by omega⟩
  · rintro ⟨⟨hr, t, ht⟩, hpos, hlt⟩
    have hne : t ≠ [] := by
      rintro rfl
      rcases unsigned_or_lax.mp hr with ⟨ds, hspells, -⟩ | ⟨t, ht', ds, hspells, -⟩
      · rcases hexPrefix?_eq_some.mp ht with rfl | rfl
        · exact not_decimal (c := 0x78) (w := [0x30, 0x78]) rfl (by decide) (by decide) hspells
        · exact not_decimal (c := 0x58) (w := [0x30, 0x58]) rfl (by decide) (by decide) hspells
      · rw [ht] at ht'
        cases ht'
        exact hspells.ne_nil rfl
    have hlt' : r < 2 ^ 64 := hlt.trans (Nat.pow_lt_pow_right (by decide) (by cases fmt <;> decide))
    refine ⟨t, ht, ?_⟩
    rw [if_neg hne, Option.bind_eq_some_iff]
    refine ⟨r, toOption_eq_some.mpr (parseU64Str_eq_ok_iff.mpr ⟨hr, hlt'⟩), if_neg (by omega)⟩

/-- A literal with a prefix has the prefix of the grammar. -/
theorem literal_payload_iff {fmt : FloatFmt} : (payload fmt).Literal s n ↔ Unsigned s n ∧ (hexPrefix? s).isSome := by
  simp only [Literal, Option.isSome_iff_exists, hexPrefix?_eq_some]
  refine and_congr_right fun h => ⟨?_, ?_⟩
  · rintro ⟨t, rfl⟩
    exact ⟨t, .inl rfl⟩
  · rintro ⟨t, rfl | rfl⟩
    · exact ⟨t, rfl⟩
    · cases h with
      | decimal h => exact absurd h (not_decimal (c := 0x58) rfl (by decide) (by simp))

/-- What is accepted, and what is kept of it. -/
theorem read_eq_ok_iff : f.read s = .ok r ↔
    ∃ n, (f.Literal s n ∨ f.LaxLiteral s n) ∧ (f.Fits n ∨ f.Wraps n) ∧ r = f.stored n := by
  cases f with
  | index =>
    simp only [read, Literal, LaxLiteral, Fits, Wraps, stored, or_false, parseIndex_eq_ok_iff, ← and_assoc,
      exists_eq_right']
  | offset | limit =>
    simp only [read, Literal, LaxLiteral, Fits, Wraps, stored, or_false, parseU64Str_eq_ok_iff, ← and_assoc,
      exists_eq_right']
  | align => simp only [read, Literal, LaxLiteral, Fits, Wraps, stored, or_false, parseAlign_eq_ok_iff]
  | pageSize => simp only [read, Literal, LaxLiteral, Fits, Wraps, stored, or_false, parsePageSize_eq_ok_iff]
  | lane =>
    simp only [read, Literal, LaxLiteral, Fits, Wraps, stored, simdLaneByte_eq_ok_iff]
    apply exists_congr
    intro n
    have hrange : n < 2 ^ 64 ∧ n % 2 ^ 32 < 2 ^ 8 ↔ n < 2 ^ 8 ∨ 2 ^ 8 ≤ n ∧ n < 2 ^ 64 ∧ n % 2 ^ 32 < 2 ^ 8 := by
      omega
    rw [← hrange, and_assoc (a := n < 2 ^ 64)]
  | payload fmt =>
    simp only [read, LaxLiteral, Fits, Wraps, stored, or_false, orError_eq_ok, nanPayload_eq_some_iff,
      literal_payload_iff, ← or_and_right, ← and_assoc, exists_eq_right']

/-- The texts that are read exactly. -/
theorem readsExactly_iff : f.ReadsExactly s ↔ ¬ f.Misreads s := by
  constructor
  · rintro hexact (⟨n, hlax, hin⟩ | ⟨n, hn, hwraps⟩)
    · obtain ⟨hn, -⟩ := (hexact _).mp ⟨_, read_eq_ok_iff.mpr ⟨n, .inr hlax, hin, rfl⟩, rfl⟩
      exact hn.unsigned.not_lax hlax.laxUnsigned
    · obtain ⟨hn', -⟩ := (hexact _).mp ⟨_, read_eq_ok_iff.mpr ⟨n, .inl hn, .inr hwraps, rfl⟩, rfl⟩
      exact denotes_stored_ne hwraps (hn'.unsigned.unique hn.unsigned)
  · intro hexact n
    constructor
    · rintro ⟨r, hr, rfl⟩
      obtain ⟨m, hm | hlax, hin, rfl⟩ := read_eq_ok_iff.mp hr
      · have hfits := hin.resolve_right fun hwraps => hexact (.inr ⟨m, hm, hwraps⟩)
        rw [denotes_stored hfits]
        exact ⟨hm, hfits⟩
      · exact absurd (.inl ⟨m, hlax, hin⟩) hexact
    · rintro ⟨hn, hfits⟩
      exact ⟨_, read_eq_ok_iff.mpr ⟨n, .inl hn, .inl hfits, rfl⟩, denotes_stored hfits⟩

end Field

/-- A constant or an unsigned field is read exactly just in case its text is none that only the readers let through, with
a second sign, a sign before the digits of an unsigned number or the prefix `0X`, and its number none that a cast wraps. -/
theorem integers_read_exactly_iff (N : Width) (f : Field) (s : List UInt8) :
    (N.ReadsExactly s ↔ ¬ N.Misreads s) ∧ (f.ReadsExactly s ↔ ¬ f.Misreads s) :=
  ⟨Width.readsExactly_iff, Field.readsExactly_iff⟩

/-- The largest number of 64 bits is taken for the constant -1 of 32 bits, the number 2 ^ 32 for lane 0, and `+5` and
`0X5` for indices. -/
theorem misread_texts :
    parseIntFit (0x30 :: 0x78 :: List.replicate 16 0x66) 32 = .ok (-1) ∧
      ¬ Width.w32.ReadsExactly (0x30 :: 0x78 :: List.replicate 16 0x66) ∧
      ¬ Field.lane.ReadsExactly (0x30 :: 0x78 :: 0x31 :: List.replicate 8 0x30) ∧
      ¬ Field.index.ReadsExactly [plus, 0x35] ∧ ¬ Field.index.ReadsExactly [0x30, 0x58, 0x35] := by
  have hspells (radix : ℕ) (w : List UInt8) (ds : List ℕ) :
      _ → Spells (toDigit radix) underscore w ds := (Numerals.spells_iff (toDigit_underscore radix)).mpr
  refine ⟨by decide, ?_, ?_, ?_, ?_⟩
  · rw [Width.readsExactly_iff, not_not]
    have hliteral := Unsigned.hex (hspells 16 (List.replicate 16 0x66) (List.replicate 16 15) (by decide))
    exact .inr ⟨_, .none hliteral, by simp [Width.Wraps, Width.bits, value]⟩
  · rw [Field.readsExactly_iff, not_not]
    have hliteral := Unsigned.hex (hspells 16 (0x31 :: List.replicate 8 0x30) (1 :: List.replicate 8 0) (by decide))
    exact .inr ⟨_, hliteral, by simp [Field.Wraps, value]⟩
  · rw [Field.readsExactly_iff, not_not]
    exact .inl ⟨_, .decimal (hspells 10 [0x35] [5] (by decide)), .inl (by simp [Field.Fits])⟩
  · rw [Field.readsExactly_iff, not_not]
    exact .inl ⟨_, .capital (hspells 16 [0x35] [5] (by decide)), .inl (by simp [Field.Fits])⟩

end Wasmrt.Wat
