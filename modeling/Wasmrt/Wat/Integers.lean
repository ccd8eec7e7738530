import Mathlib.Data.BitVec
import Mathlib.Data.FinEnum
import Mathlib.Tactic.Common
import Wasmrt.Library.Checks
import Wasmrt.Library.Numerals
import Wasmrt.Sexpr.Parser

/-!
# Integer literals of the text format

The readers of integers of `wat.rs`. One of unsigned numbers and one of signed ones serve every field, through casts and
checks of ranges, and both hand the digits to `from_str_radix`, which takes a sign of its own.

## Main definitions

* `parseU64Str`, `parseI64Str`: the two readers.
* `parseIntFit`: constants. `Field.read`: the unsigned fields.
* `Num`, `Int`: the literals of the text grammar.
* `LaxNum`, `LaxInt`: what the readers take besides.

## Main results

* `parseU64Str_eq_ok_iff`, `parseI64Str_eq_ok_iff`: what the two readers take, and for what.
-/

namespace Wasmrt.Wat

open Numerals (Spells placed strip value)

/-! ## The readers -/

/-- The errors of the readers of literals. -/
inductive Error
  | badNumber | badImmediate | invalidPageSize
  deriving DecidableEq, Repr

abbrev plus : UInt8 := 0x2b
abbrev minus : UInt8 := 0x2d
abbrev underscore : UInt8 := 0x5f

/-- The value of a digit, if it is one of the radix. -/
def toDigit (radix : ℕ) (c : UInt8) : Option ℕ := ((Sexpr.hexVal c).map (·.toNat)).filter (· < radix)

def isDigit (radix : ℕ) (c : UInt8) : Bool := (toDigit radix c).isSome

/-- What follows `0x` or `0X`. -/
def hexPrefix? (s : List UInt8) : Option (List UInt8) :=
  [0x30, 0x78].isPrefixOf? s <|> [0x30, 0x58].isPrefixOf? s

/-- What follows a plus sign, or all. -/
def stripPlus (s : List UInt8) : List UInt8 := ([plus].isPrefixOf? s).getD s

/-- The radix in which separators are looked at, by the prefix after the signs. -/
def sepRadix (s : List UInt8) : ℕ :=
  let hex := ([minus].isPrefixOf? s).getD s
  if (hexPrefix? (stripPlus hex)).isSome then 16 else 10

/-- The text without its separators, which have to stand between digits. -/
def stripSeps (s : List UInt8) : Except Error (List UInt8) := do
  ensure (placed (isDigit (sepRadix s)) underscore false s) .badNumber
  pure (strip underscore s)

/-- `u64::from_str_radix`. It takes a plus sign. -/
def fromStrRadix (src : List UInt8) (radix : ℕ) : Option ℕ := do
  let digits := stripPlus src
  if digits = [] then none
  else
    let ds ← digits.mapM (toDigit radix)
    if value radix ds < 2 ^ 64 then some (value radix ds) else none

/-- The number after the sign, decimal or with a prefix. -/
def magnitude (body : List UInt8) : Except Error ℕ := do
  let (digits, radix) := match hexPrefix? body with
    | some rest => (rest, 16)
    | none => (body, 10)
  ensure (digits ≠ []) .badNumber
  orError .badNumber (fromStrRadix digits radix)

def parseU64Str (s : List UInt8) : Except Error ℕ := do
  let t ← stripSeps s
  magnitude t

def parseI64Str (s : List UInt8) : Except Error (BitVec 64) := do
  let t ← stripSeps s
  match [minus].isPrefixOf? t with
  | some body =>
    let mag ← magnitude body
    ensure (mag ≤ 2 ^ 63 - 1 + 1) .badNumber
    pure (-BitVec.ofNat 64 mag)
  | none =>
    let mag ← magnitude (stripPlus t)
    pure (BitVec.ofNat 64 mag)

/-- A constant of at most 64 bits, signed or unsigned. -/
def parseIntFit (a : List UInt8) (bits : ℕ) : Except Error (BitVec 64) := do
  let v ← parseI64Str a
  if bits ≥ 64 then pure v
  else
    let min : ℤ := -2 ^ (bits - 1)
    let max : ℤ := 2 ^ bits - 1
    if v.toInt < min ∨ v.toInt > max then throw .badNumber
    else pure v

/-! ## The unsigned fields -/

/-- `u64::is_power_of_two`. -/
def isPowerOfTwo (n : ℕ) : Bool := n = 2 ^ n.log2

/-- `u64::trailing_zeros` of a power of two. -/
def trailingZeros (n : ℕ) : ℕ := n.log2

def parseIndex (a : List UInt8) : Except Error ℕ := do
  let n ← parseU64Str a
  if n < 2 ^ 32 then pure n else throw .badImmediate

/-- The alignment of an access, as its exponent. -/
def parseAlign (v : List UInt8) : Except Error ℕ := do
  let bytes ← parseU64Str v
  if bytes = 0 ∨ !isPowerOfTwo bytes then throw .badImmediate
  else pure (trailingZeros bytes)

/-- The size of a page, as its exponent. -/
def parsePageSize (n : List UInt8) : Except Error ℕ := do
  let n ← parseU64Str n
  if !isPowerOfTwo n then throw .invalidPageSize
  else pure (trailingZeros n)

/-- The number of a lane. -/
def simdLaneByte (a : List UInt8) : Except Error ℕ :=
  if ([plus].isPrefixOf? a).isSome ∨ ([minus].isPrefixOf? a).isSome then throw .badImmediate
  else do
    let v ← parseI64Str a
    let v := v.setWidth 32
    if v.toNat < 2 ^ 8 then pure v.toNat else throw .badImmediate

/-- The formats of floats. -/
inductive FloatFmt
  | f32 | f64
  deriving DecidableEq, Repr

/-- The bits of the mantissa that are stored. -/
def FloatFmt.mantBits : FloatFmt → ℕ
  | f32 => 23
  | f64 => 52

/-- The payload of a NaN, hexadecimal only. -/
def nanPayload (f : FloatFmt) (tail : List UInt8) : Option ℕ := do
  let hex ← hexPrefix? tail
  if hex = [] then none
  else
    let payload ← (parseU64Str tail).toOption
    if payload = 0 ∨ payload > 2 ^ f.mantBits - 1 then none
    else some payload

/-- The fields that hold unsigned literals. -/
inductive Field
  | index | offset | limit | align | pageSize | lane
  | payload (fmt : FloatFmt)
  deriving DecidableEq, Repr

/-- The reader of a field. -/
def Field.read : Field → List UInt8 → Except Error ℕ
  | index => parseIndex
  | offset => parseU64Str
  | limit => parseU64Str
  | align => parseAlign
  | pageSize => parsePageSize
  | lane => simdLaneByte
  | payload fmt => fun tail => orError .badNumber (nanPayload fmt tail)

/-! ## The grammar -/

/-- The unsigned integers of the text format. -/
inductive Unsigned : List UInt8 → ℕ → Prop
  | decimal {w : List UInt8} {ds : List ℕ} (h : Spells (toDigit 10) underscore w ds) : Unsigned w (value 10 ds)
  | hex {w : List UInt8} {ds : List ℕ} (h : Spells (toDigit 16) underscore w ds) :
      Unsigned (0x30 :: 0x78 :: w) (value 16 ds)

/-- Its signed ones. -/
inductive Signed : List UInt8 → ℤ → Prop
  | none {w : List UInt8} {n : ℕ} (h : Unsigned w n) : Signed w n
  | plus {w : List UInt8} {n : ℕ} (h : Unsigned w n) : Signed (plus :: w) n
  | minus {w : List UInt8} {n : ℕ} (h : Unsigned w n) : Signed (minus :: w) (-n)

/-- What is read as a number besides: with a plus sign right before the digits, or with the prefix `0X`. -/
inductive LaxUnsigned : List UInt8 → ℕ → Prop
  | decimal {w : List UInt8} {ds : List ℕ} (h : Spells (toDigit 10) underscore w ds) :
      LaxUnsigned (plus :: w) (value 10 ds)
  | hex {w : List UInt8} {ds : List ℕ} (h : Spells (toDigit 16) underscore w ds) :
      LaxUnsigned (0x30 :: 0x78 :: plus :: w) (value 16 ds)
  | capital {w : List UInt8} {ds : List ℕ} (h : Spells (toDigit 16) underscore w ds) :
      LaxUnsigned (0x30 :: 0x58 :: w) (value 16 ds)
  | capitalPlus {w : List UInt8} {ds : List ℕ} (h : Spells (toDigit 16) underscore w ds) :
      LaxUnsigned (0x30 :: 0x58 :: plus :: w) (value 16 ds)

/-- What is read as a signed one besides. A single plus sign is the sign. -/
inductive LaxSigned : List UInt8 → ℤ → Prop
  | none {w : List UInt8} {n : ℕ} (h : LaxUnsigned w n) (hsign : w.head? ≠ some Wat.plus) : LaxSigned w n
  | plus {w : List UInt8} {n : ℕ} (h : LaxUnsigned w n) : LaxSigned (plus :: w) n
  | minus {w : List UInt8} {n : ℕ} (h : LaxUnsigned w n) : LaxSigned (minus :: w) (-n)

/-! ## Characters -/

section Characters

variable {radix d : ℕ} {c : UInt8} {w t : List UInt8}

theorem toDigit_underscore (radix : ℕ) : toDigit radix underscore = none := rfl

theorem isDigit_underscore (radix : ℕ) : isDigit radix underscore = false := rfl

theorem isDigit_plus (radix : ℕ) : isDigit radix plus = false := rfl

theorem isDigit_minus (radix : ℕ) : isDigit radix minus = false := rfl

theorem isDigit_x (radix : ℕ) : isDigit radix 0x78 = false := rfl

theorem isDigit_X (radix : ℕ) : isDigit radix 0x58 = false := rfl

theorem isDigit_zero : isDigit 10 0x30 = true ∧ isDigit 16 0x30 = true := by decide

theorem toDigit_mono {radix' : ℕ} (hle : radix ≤ radix') (h : toDigit radix c = some d) :
    toDigit radix' c = some d := by
  rw [toDigit, Option.filter_eq_some_iff] at h ⊢
  simp only [decide_eq_true_eq] at h ⊢
  exact ⟨h.1, h.2.trans_le hle⟩

/-- What begins with a character. -/
theorem isPrefixOf?_singleton : [c].isPrefixOf? w = some t ↔ w = c :: t := by
  rw [List.isPrefixOf?_eq_some_iff_append_eq, List.singleton_append, eq_comm]

theorem hexPrefix?_eq_some {r : List UInt8} :
    hexPrefix? w = some r ↔ w = 0x30 :: 0x78 :: r ∨ w = 0x30 :: 0x58 :: r := by
  unfold hexPrefix?
  cases h : [0x30, 0x78].isPrefixOf? w with
  | some t =>
    obtain rfl := List.isPrefixOf?_eq_some_iff_append_eq.mp h
    simp [eq_comm]
  | none =>
    have hne : ∀ t, w ≠ 0x30 :: 0x78 :: t := by
      rintro t rfl
      simp [List.isPrefixOf?] at h
    rw [Option.orElse_eq_orElse, Option.orElse_eq_or, Option.none_or, List.isPrefixOf?_eq_some_iff_append_eq, eq_comm]
    simp [hne r]

/-- Without an `x` there is no prefix. -/
theorem hexPrefix?_eq_none (h : ∀ c ∈ w, c ≠ 0x78 ∧ c ≠ 0x58) : hexPrefix? w = none := by
  rw [Option.eq_none_iff_forall_ne_some]
  rintro r hr
  rcases hexPrefix?_eq_some.mp hr with rfl | rfl
  · exact (h 0x78 (by simp)).1 rfl
  · exact (h 0x58 (by simp)).2 rfl

@[simp]
theorem stripPlus_cons : stripPlus (plus :: w) = w := rfl

theorem stripPlus_of_ne (h : w.head? ≠ some plus) : stripPlus w = w := by
  rw [stripPlus, Option.getD_eq_iff]
  refine .inr ⟨Option.eq_none_iff_forall_ne_some.mpr ?_, rfl⟩
  rintro t ht
  rw [isPrefixOf?_singleton.mp ht] at h
  exact h rfl

/-- A text begins with a plus sign or loses nothing. -/
theorem stripPlus_cases (w : List UInt8) : (∃ t, w = plus :: t) ∨ w.head? ≠ some plus := by
  by_cases h : w.head? = some plus
  · exact .inl (List.head?_eq_some_iff.mp h)
  · exact .inr h

/-- Taking a plus sign and taking the separators go together. -/
theorem strip_stripPlus (h : placed (isDigit radix) underscore false w = true) :
    strip underscore (stripPlus w) = stripPlus (strip underscore w) ∧
      placed (isDigit radix) underscore false (stripPlus w) = true := by
  rcases stripPlus_cases w with ⟨t, rfl⟩ | hw
  · exact ⟨rfl, h⟩
  · rw [stripPlus_of_ne hw, stripPlus_of_ne]
    · exact ⟨rfl, h⟩
    · rintro hstrip
      obtain ⟨t, ht⟩ := List.head?_eq_some_iff.mp hstrip
      obtain ⟨w', rfl, -⟩ := Numerals.strip_eq_cons (isDigit_underscore radix) h (isDigit_plus radix) ht
      exact hw rfl

end Characters

/-! ## The digits -/

theorem toOption_eq_some {ε α : Type} {x : Except ε α} {a : α} : x.toOption = some a ↔ x = .ok a := by
  cases x <;> simp [Except.toOption]

section Digits

variable {radix r n : ℕ} {w : List UInt8}

theorem fromStrRadix_eq_some {src : List UInt8} :
    fromStrRadix src radix = some n ↔ stripPlus src ≠ [] ∧
      ∃ ds, (stripPlus src).mapM (toDigit radix) = some ds ∧ value radix ds = n ∧ n < 2 ^ 64 := by
  unfold fromStrRadix
  dsimp only
  split_ifs with hnil
  · simp [hnil]
  · simp only [Option.bind_eq_bind, Option.bind_eq_some_iff, Option.ite_none_right_eq_some, Option.some.injEq, ne_eq,
      hnil, not_false_eq_true, true_and]
    constructor
    · rintro ⟨ds, hds, hlt, rfl⟩
      exact ⟨ds, hds, rfl, hlt⟩
    · rintro ⟨ds, hds, rfl, hlt⟩
      exact ⟨ds, hds, hlt, rfl⟩

/-- `from_str_radix` on a text whose separators are checked and taken out. -/
theorem fromStrRadix_strip (h : placed (isDigit radix) underscore false w = true) :
    fromStrRadix (strip underscore w) radix = some n ↔
      ∃ ds, Spells (toDigit radix) underscore (stripPlus w) ds ∧ value radix ds = n ∧ n < 2 ^ 64 := by
  obtain ⟨hstrip, hplaced⟩ := strip_stripPlus h
  rw [fromStrRadix_eq_some, ← hstrip]
  constructor
  · rintro ⟨hne, ds, hds, hvalue⟩
    refine ⟨ds, (Numerals.spells_iff (toDigit_underscore radix)).mpr ⟨hplaced, ?_, hds⟩, hvalue⟩
    rintro hnil
    rw [hnil] at hne
    exact hne rfl
  · rintro ⟨ds, hspells, hvalue⟩
    have hds := hspells.mapM (toDigit_underscore radix)
    refine ⟨?_, ds, hds, hvalue⟩
    intro hnil
    rw [hnil] at hds
    exact hspells.digits_ne_nil (Option.some.inj hds).symm

/-- What `from_str_radix` reads is digits and a plus sign. -/
theorem mem_of_fromStrRadix {src : List UInt8} (h : fromStrRadix src radix = some n) :
    ∀ c ∈ src, c = plus ∨ isDigit radix c = true := by
  obtain ⟨-, ds, hds, -⟩ := fromStrRadix_eq_some.mp h
  have hall : ∀ c ∈ stripPlus src, isDigit radix c = true := by
    intro c hc
    obtain ⟨d, -, hd⟩ := Numerals.exists_of_mapM hds hc
    rw [isDigit, hd]
    rfl
  rcases stripPlus_cases src with ⟨t, rfl⟩ | hne
  · exact List.forall_mem_cons.mpr ⟨.inl rfl, fun c hc => .inr (hall c hc)⟩
  · rw [stripPlus_of_ne hne] at hall
    exact fun c hc => .inr (hall c hc)

/-- A decimal run has no `x`. -/
theorem ne_x_of_isDigit {c : UInt8} (h : c = underscore ∨ c = plus ∨ isDigit 10 c = true) : c ≠ 0x78 ∧ c ≠ 0x58 := by
  constructor
  · rintro rfl
    revert h
    decide
  · rintro rfl
    revert h
    decide

end Digits

/-! ## The number -/

theorem Spells.stripPlus_eq {radix : ℕ} {w : List UInt8} {ds : List ℕ} (h : Spells (toDigit radix) underscore w ds) :
    stripPlus w = w := by
  refine stripPlus_of_ne fun hhead => ?_
  obtain ⟨c, hc, hdigit⟩ := h.head
  rw [hhead] at hc
  cases hc
  cases hdigit

/-- What stands for a number, and what is taken for one. -/
theorem unsigned_or_lax {w : List UInt8} {n : ℕ} : Unsigned w n ∨ LaxUnsigned w n ↔
    (∃ ds, Spells (toDigit 10) underscore (stripPlus w) ds ∧ value 10 ds = n) ∨
      ∃ t, hexPrefix? w = some t ∧ ∃ ds, Spells (toDigit 16) underscore (stripPlus t) ds ∧ value 16 ds = n := by
  constructor
  · rintro ((⟨h⟩ | ⟨h⟩) | (⟨h⟩ | ⟨h⟩ | ⟨h⟩ | ⟨h⟩))
    · exact .inl ⟨_, by rwa [Spells.stripPlus_eq h], rfl⟩
    · exact .inr ⟨_, hexPrefix?_eq_some.mpr (.inl rfl), _, by rwa [Spells.stripPlus_eq h], rfl⟩
    · exact .inl ⟨_, h, rfl⟩
    · exact .inr ⟨_, hexPrefix?_eq_some.mpr (.inl rfl), _, h, rfl⟩
    · exact .inr ⟨_, hexPrefix?_eq_some.mpr (.inr rfl), _, by rwa [Spells.stripPlus_eq h], rfl⟩
    · exact .inr ⟨_, hexPrefix?_eq_some.mpr (.inr rfl), _, h, rfl⟩
  · rintro (⟨ds, h, rfl⟩ | ⟨t, ht, ds, h, rfl⟩)
    · rcases stripPlus_cases w with ⟨t, rfl⟩ | hw
      · exact .inr (.decimal h)
      · rw [stripPlus_of_ne hw] at h
        exact .inl (.decimal h)
    · rcases stripPlus_cases t with ⟨t, rfl⟩ | hw
      · rcases hexPrefix?_eq_some.mp ht with rfl | rfl
        · exact .inr (.hex h)
        · exact .inr (.capitalPlus h)
      · rw [stripPlus_of_ne hw] at h
        rcases hexPrefix?_eq_some.mp ht with rfl | rfl
        · exact .inl (.hex h)
        · exact .inr (.capital h)

theorem magnitude_eq_ok {body : List UInt8} {n : ℕ} : magnitude body = .ok n ↔
    (∃ t, hexPrefix? body = some t ∧ fromStrRadix t 16 = some n) ∨
      hexPrefix? body = none ∧ fromStrRadix body 10 = some n := by
  have hne {digits : List UInt8} {radix : ℕ} (h : fromStrRadix digits radix = some n) : digits ≠ [] := by
    rintro rfl
    cases h
  unfold magnitude
  cases h : hexPrefix? body with
  | some t => simpa using hne
  | none => simpa using hne

/-- A decimal text has no prefix, and its separators are checked the same between hexadecimal digits. -/
theorem placed_decimal {w : List UInt8} {radix : ℕ} (hradix : radix = 10 ∨ radix = 16)
    (hw : ∀ c ∈ w, c = underscore ∨ c = plus ∨ isDigit 10 c = true) :
    placed (isDigit radix) underscore false w = placed (isDigit 10) underscore false w := by
  refine Numerals.placed_congr fun c hc => ?_
  have hmono : isDigit 10 c = true → isDigit 16 c = true := by
    simp only [isDigit, Option.isSome_iff_exists]
    exact fun ⟨d, hd⟩ => ⟨d, toDigit_mono (by decide) hd⟩
  rcases hradix with rfl | rfl
  · rfl
  · rcases hw c hc with rfl | rfl | hdigit
    · rfl
    · rfl
    · rw [hdigit, hmono hdigit]

theorem mem_of_mem_strip {w : List UInt8} {P : UInt8 → Prop} (h : ∀ c ∈ strip underscore w, P c) :
    ∀ c ∈ w, c = underscore ∨ P c := by
  intro c hc
  by_cases hsep : c = underscore
  · exact .inl hsep
  · exact .inr (h c (List.mem_filter.mpr ⟨hc, by simpa using hsep⟩))

theorem hexPrefix?_strip_of_some {w t : List UInt8} (h : hexPrefix? w = some t) :
    hexPrefix? (strip underscore w) = some (strip underscore t) := by
  rw [hexPrefix?_eq_some] at h ⊢
  rcases h with rfl | rfl
  · exact .inl rfl
  · exact .inr rfl

/-- Taking out checked separators makes no prefix. -/
theorem hexPrefix?_strip_of_none {w : List UInt8} {radix : ℕ} (h : hexPrefix? w = none)
    (hplaced : placed (isDigit radix) underscore false w = true) : hexPrefix? (strip underscore w) = none := by
  have hsep := isDigit_underscore radix
  rw [Option.eq_none_iff_forall_ne_some] at h ⊢
  intro r hr
  rcases hexPrefix?_eq_some.mp hr with hr | hr
  · obtain ⟨w₁, rfl, hw₁, hplaced₁⟩ := Numerals.strip_eq_cons_of_first hplaced hr
    obtain ⟨w₂, rfl, -, -⟩ := Numerals.strip_eq_cons hsep hplaced₁ (isDigit_x radix) hw₁
    exact h w₂ (hexPrefix?_eq_some.mpr (.inl rfl))
  · obtain ⟨w₁, rfl, hw₁, hplaced₁⟩ := Numerals.strip_eq_cons_of_first hplaced hr
    obtain ⟨w₂, rfl, -, -⟩ := Numerals.strip_eq_cons hsep hplaced₁ (isDigit_X radix) hw₁
    exact h w₂ (hexPrefix?_eq_some.mpr (.inr rfl))

theorem placed_of_hexPrefix {w t : List UInt8} (h : hexPrefix? w = some t) (radix : ℕ) :
    placed (isDigit radix) underscore false w = placed (isDigit radix) underscore false t := by
  rcases hexPrefix?_eq_some.mp h with rfl | rfl
  · rw [Numerals.placed_cons_of_ne (by decide), Numerals.placed_cons_of_ne (by decide), isDigit_x]
  · rw [Numerals.placed_cons_of_ne (by decide), Numerals.placed_cons_of_ne (by decide), isDigit_X]

/-- Checked separators are what the digits after a plus sign need. -/
theorem placed_and_fromStrRadix {w : List UInt8} {radix n : ℕ} :
    placed (isDigit radix) underscore false w = true ∧ fromStrRadix (strip underscore w) radix = some n ↔
      ∃ ds, Spells (toDigit radix) underscore (stripPlus w) ds ∧ value radix ds = n ∧ n < 2 ^ 64 := by
  constructor
  · rintro ⟨hplaced, hread⟩
    exact (fromStrRadix_strip hplaced).mp hread
  · intro h
    have hplaced : placed (isDigit radix) underscore false w = true := by
      obtain ⟨ds, hspells, -⟩ := h
      rcases stripPlus_cases w with ⟨t, rfl⟩ | hw
      · exact hspells.placed (toDigit_underscore radix) false
      · rw [stripPlus_of_ne hw] at hspells
        exact hspells.placed (toDigit_underscore radix) false
    exact ⟨hplaced, (fromStrRadix_strip hplaced).mpr h⟩

/-- The number is read exactly, with the leniencies, whether the separators were checked between decimal digits or, as
after a prefix they have to be, between hexadecimal ones. -/
theorem magnitude_strip {w : List UInt8} {n radix : ℕ} (hradix : radix = 10 ∨ radix = 16)
    (hhex : (hexPrefix? w).isSome → radix = 16) :
    placed (isDigit radix) underscore false w = true ∧ magnitude (strip underscore w) = .ok n ↔
      (Unsigned w n ∨ LaxUnsigned w n) ∧ n < 2 ^ 64 := by
  rw [unsigned_or_lax, magnitude_eq_ok]
  cases h : hexPrefix? w with
  | some t =>
    obtain rfl := hhex (by rw [h]; rfl)
    have hdecimal : ¬ ∃ ds, Spells (toDigit 10) underscore (stripPlus w) ds ∧ value 10 ds = n := by
      rintro ⟨ds, hspells, -⟩
      have hx := hspells.mem
      rcases hexPrefix?_eq_some.mp h with rfl | rfl
      · exact absurd (hx 0x78 (.tail _ (.head _))) (by decide)
      · exact absurd (hx 0x58 (.tail _ (.head _))) (by decide)
    rw [placed_of_hexPrefix h, hexPrefix?_strip_of_some h]
    simp only [hdecimal, false_or, Option.some.injEq, exists_eq_left', reduceCtorEq, false_and, or_false,
      placed_and_fromStrRadix]
    constructor
    · rintro ⟨ds, hspells, hvalue, hlt⟩
      exact ⟨⟨ds, hspells, hvalue⟩, hlt⟩
    · rintro ⟨⟨ds, hspells, hvalue⟩, hlt⟩
      exact ⟨ds, hspells, hvalue, hlt⟩
  | none =>
    simp only [reduceCtorEq, false_and, exists_false, or_false]
    constructor
    · rintro ⟨hplaced, ⟨t, ht, -⟩ | ⟨-, hread⟩⟩
      · rw [hexPrefix?_strip_of_none h hplaced] at ht
        cases ht
      · rw [placed_decimal hradix (mem_of_mem_strip (mem_of_fromStrRadix hread))] at hplaced
        obtain ⟨ds, hspells, hvalue, hlt⟩ := placed_and_fromStrRadix.mp ⟨hplaced, hread⟩
        exact ⟨⟨ds, hspells, hvalue⟩, hlt⟩
    · rintro ⟨⟨ds, hspells, hvalue⟩, hlt⟩
      obtain ⟨hplaced, hread⟩ := placed_and_fromStrRadix.mpr ⟨ds, hspells, hvalue, hlt⟩
      refine ⟨?_, .inr ⟨hexPrefix?_strip_of_none h hplaced, hread⟩⟩
      rwa [placed_decimal hradix (mem_of_mem_strip (mem_of_fromStrRadix hread))]

theorem stripSeps_eq_ok {s t : List UInt8} :
    stripSeps s = .ok t ↔ placed (isDigit (sepRadix s)) underscore false s = true ∧ strip underscore s = t := by
  simp [stripSeps]

theorem sepRadix_cases (s : List UInt8) : sepRadix s = 10 ∨ sepRadix s = 16 := by
  unfold sepRadix
  dsimp only
  split_ifs
  · exact .inr rfl
  · exact .inl rfl

theorem sepRadix_of_hexPrefix {w : List UInt8} (h : (hexPrefix? w).isSome) :
    sepRadix w = 16 ∧ sepRadix (plus :: w) = 16 ∧ sepRadix (minus :: w) = 16 := by
  obtain ⟨t, ht⟩ := Option.isSome_iff_exists.mp h
  rcases hexPrefix?_eq_some.mp ht with rfl | rfl <;> exact ⟨rfl, rfl, rfl⟩

/-- The reader of unsigned numbers. -/
theorem parseU64Str_eq_ok_iff {s : List UInt8} {n : ℕ} :
    parseU64Str s = .ok n ↔ (Unsigned s n ∨ LaxUnsigned s n) ∧ n < 2 ^ 64 := by
  rw [← magnitude_strip (sepRadix_cases s) fun h => (sepRadix_of_hexPrefix h).1]
  simp [parseU64Str, stripSeps_eq_ok]

/-! ## The sign -/

section Sign

variable {w : List UInt8} {n : ℕ}

/-- No unsigned number begins with a minus sign. -/
theorem ne_minus_of_unsigned (h : Unsigned w n ∨ LaxUnsigned w n) : w.head? ≠ some minus := by
  rintro hw
  obtain ⟨t, rfl⟩ := List.head?_eq_some_iff.mp hw
  rcases unsigned_or_lax.mp h with ⟨ds, hspells, -⟩ | ⟨t, ht, -⟩
  · exact absurd (hspells.mem minus (.head _)) (by decide)
  · rcases hexPrefix?_eq_some.mp ht with ht | ht <;> cases ht

theorem ne_plus_of_unsigned (h : Unsigned w n) : w.head? ≠ some plus := by
  cases h with
  | decimal h =>
    rintro hw
    obtain ⟨c, hc, hdigit⟩ := h.head
    rw [hw] at hc
    cases hc
    cases hdigit
  | hex h => nofun

/-- A signed number and its number without the sign. -/
theorem signed_or_lax {s : List UInt8} {z : ℤ} : Signed s z ∨ LaxSigned s z ↔
    (∃ w n, (s = plus :: w ∨ s = w ∧ w.head? ≠ some plus) ∧ (Unsigned w n ∨ LaxUnsigned w n) ∧ z = n) ∨
      ∃ w n, s = minus :: w ∧ (Unsigned w n ∨ LaxUnsigned w n) ∧ z = -n := by
  constructor
  · rintro ((h | h | h) | (⟨h, hsign⟩ | h | h))
    · exact .inl ⟨_, _, .inr ⟨rfl, ne_plus_of_unsigned h⟩, .inl h, rfl⟩
    · exact .inl ⟨_, _, .inl rfl, .inl h, rfl⟩
    · exact .inr ⟨_, _, rfl, .inl h, rfl⟩
    · exact .inl ⟨_, _, .inr ⟨rfl, hsign⟩, .inr h, rfl⟩
    · exact .inl ⟨_, _, .inl rfl, .inr h, rfl⟩
    · exact .inr ⟨_, _, rfl, .inr h, rfl⟩
  · rintro (⟨w, n, rfl | ⟨rfl, hsign⟩, h | h, rfl⟩ | ⟨w, n, rfl, h | h, rfl⟩)
    · exact .inl (.plus h)
    · exact .inr (.plus h)
    · exact .inl (.none h)
    · exact .inr (.none h hsign)
    · exact .inl (.minus h)
    · exact .inr (.minus h)

/-- The reader of signed numbers, after a minus sign. -/
theorem parseI64Str_minus {v : BitVec 64} : parseI64Str (minus :: w) = .ok v ↔
    ∃ n, (Unsigned w n ∨ LaxUnsigned w n) ∧ n ≤ 2 ^ 63 ∧ v = -BitVec.ofNat 64 n := by
  have hplaced : placed (isDigit (sepRadix (minus :: w))) underscore false (minus :: w) =
      placed (isDigit (sepRadix (minus :: w))) underscore false w :=
    Numerals.placed_cons_of_ne (by decide)
  have hread (n : ℕ) := magnitude_strip (n := n) (sepRadix_cases (minus :: w)) fun h => (sepRadix_of_hexPrefix h).2.2
  have hstrip : strip underscore (minus :: w) = minus :: strip underscore w := rfl
  have hhead : [minus].isPrefixOf? (minus :: strip underscore w) = some (strip underscore w) := rfl
  simp only [parseI64Str, Except.bind_eq_ok, stripSeps_eq_ok, hplaced, hstrip]
  constructor
  · rintro ⟨_, ⟨hp, rfl⟩, hok⟩
    simp only [hhead, Except.bind_eq_ok, ensure_eq_ok, decide_eq_true_eq, Except.pure_eq_ok,
      exists_and_left, exists_const] at hok
    obtain ⟨n, hn, hle, rfl⟩ := hok
    exact ⟨n, ((hread n).mp ⟨hp, hn⟩).1, hle, rfl⟩
  · rintro ⟨n, hn, hle, rfl⟩
    obtain ⟨hp, hmag⟩ := (hread n).mpr ⟨hn, hle.trans_lt (by decide)⟩
    refine ⟨_, ⟨hp, rfl⟩, ?_⟩
    simp only [hhead, Except.bind_eq_ok, ensure_eq_ok, decide_eq_true_eq, Except.pure_eq_ok,
      exists_and_left, exists_const]
    exact ⟨n, hmag, hle, rfl⟩

/-- Without one. -/
theorem parseI64Str_of_ne {s : List UInt8} {v : BitVec 64} (hs : s.head? ≠ some minus) : parseI64Str s = .ok v ↔
    ∃ n, (Unsigned (stripPlus s) n ∨ LaxUnsigned (stripPlus s) n) ∧ n < 2 ^ 64 ∧ v = BitVec.ofNat 64 n := by
  have hradix : (hexPrefix? (stripPlus s)).isSome → sepRadix s = 16 := by
    intro h
    rcases stripPlus_cases s with ⟨t, rfl⟩ | hne
    · exact (sepRadix_of_hexPrefix h).2.1
    · rw [stripPlus_of_ne hne] at h
      exact (sepRadix_of_hexPrefix h).1
  have hread (n : ℕ) := magnitude_strip (n := n) (sepRadix_cases s) hradix
  have hplaced : placed (isDigit (sepRadix s)) underscore false (stripPlus s) =
      placed (isDigit (sepRadix s)) underscore false s := by
    rcases stripPlus_cases s with ⟨t, rfl⟩ | hne
    · exact (Numerals.placed_cons_of_ne (c := plus) (by decide)).symm
    · rw [stripPlus_of_ne hne]
  rw [hplaced] at hread
  have hminus (h : placed (isDigit (sepRadix s)) underscore false s = true) :
      [minus].isPrefixOf? (strip underscore s) = none := by
    rw [Option.eq_none_iff_forall_ne_some]
    intro t ht
    obtain ⟨w, rfl, -⟩ :=
      Numerals.strip_eq_cons (isDigit_underscore _) h (isDigit_minus _) (isPrefixOf?_singleton.mp ht)
    exact hs rfl
  simp only [parseI64Str, Except.bind_eq_ok, stripSeps_eq_ok]
  constructor
  · rintro ⟨_, ⟨hp, rfl⟩, hok⟩
    simp only [hminus hp, ← (strip_stripPlus hp).1, Except.bind_eq_ok, Except.pure_eq_ok] at hok
    obtain ⟨n, hn, rfl⟩ := hok
    obtain ⟨hunsigned, hlt⟩ := (hread n).mp ⟨hp, hn⟩
    exact ⟨n, hunsigned, hlt, rfl⟩
  · rintro ⟨n, hn, hlt, rfl⟩
    obtain ⟨hp, hmag⟩ := (hread n).mpr ⟨hn, hlt⟩
    refine ⟨_, ⟨hp, rfl⟩, ?_⟩
    simp only [hminus hp, ← (strip_stripPlus hp).1, Except.bind_eq_ok, Except.pure_eq_ok]
    exact ⟨n, hmag, rfl⟩

/-- The reader of signed numbers. -/
theorem parseI64Str_eq_ok_iff {s : List UInt8} {v : BitVec 64} : parseI64Str s = .ok v ↔
    ∃ z : ℤ, (Signed s z ∨ LaxSigned s z) ∧ -2 ^ 63 ≤ z ∧ z < 2 ^ 64 ∧ v = BitVec.ofInt 64 z := by
  simp only [signed_or_lax]
  by_cases hs : s.head? = some minus
  · obtain ⟨w, rfl⟩ := List.head?_eq_some_iff.mp hs
    rw [parseI64Str_minus]
    constructor
    · rintro ⟨n, hn, hle, rfl⟩
      refine ⟨-n, .inr ⟨w, n, rfl, hn, rfl⟩, by omega, by omega, ?_⟩
      rw [BitVec.ofInt_neg, BitVec.ofInt_natCast]
    · rintro ⟨_, ⟨w', n, hw | ⟨rfl, -⟩, hn, rfl⟩ | ⟨w', n, hw, hn, rfl⟩, hle, hlt, rfl⟩
      · cases hw
      · exact absurd rfl (ne_minus_of_unsigned hn)
      · cases hw
        refine ⟨n, hn, by omega, ?_⟩
        rw [BitVec.ofInt_neg, BitVec.ofInt_natCast]
  · rw [parseI64Str_of_ne hs]
    constructor
    · rintro ⟨n, hn, hlt, rfl⟩
      refine ⟨n, .inl ⟨stripPlus s, n, ?_, hn, rfl⟩, by omega, by omega, ?_⟩
      · rcases stripPlus_cases s with ⟨t, rfl⟩ | hne
        · exact .inl rfl
        · rw [stripPlus_of_ne hne]
          exact .inr ⟨rfl, hne⟩
      · rw [BitVec.ofInt_natCast]
    · rintro ⟨_, ⟨w', n, rfl | ⟨rfl, hne⟩, hn, rfl⟩ | ⟨w', n, rfl, -, -⟩, hle, hlt, rfl⟩
      · exact ⟨n, hn, by omega, by rw [BitVec.ofInt_natCast]⟩
      · rw [stripPlus_of_ne hne]
        exact ⟨n, hn, by omega, by rw [BitVec.ofInt_natCast]⟩
      · exact absurd rfl hs

end Sign

end Wasmrt.Wat
