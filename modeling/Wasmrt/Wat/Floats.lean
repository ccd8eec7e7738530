import Mathlib.Data.BitVec
import Mathlib.Data.FinEnum
import Mathlib.Tactic.Common
import Wasmrt.Wat.Integers

/-!
# Float literals of the text format

The reader of floats of `wat.rs`. It hands decimal literals to the standard library and reads the hexadecimal ones
itself: the digits go to an integer of 128 bits with a sticky bit for those that find no room, and the result is rounded
once, to a multiple of the last place of the target.

Bit patterns are natural numbers. The arithmetic of `i32` wraps, which no literal below 2 ^ 26 characters makes it do.

## Main definitions

* `checkFloatSyntax`: the check of the syntax.
* `HexAcc`, `hexMantissa`, `hexExponent`: reading the digits.
* `roundHex`, `composeFloatBits`: rounding, and the pattern of the result.
* `parseFloatBits`: the reader.
-/

namespace Wasmrt.Wat

/-! ## Formats -/

namespace FloatFmt

/-- The smallest exponent of a normal number. -/
def expMin : FloatFmt → ℤ
  | f32 => -126
  | f64 => -1022

def bias : FloatFmt → ℤ
  | f32 => 127
  | f64 => 1023

/-- The biased exponent of infinities. -/
def maxBiased : FloatFmt → ℕ
  | f32 => 0xff
  | f64 => 0x7ff

/-- The position of the sign. -/
def signShift (f : FloatFmt) : ℕ := f.mantBits + trailingZeros (f.maxBiased + 1)

/-- The pattern of infinity. -/
def expAll (f : FloatFmt) : ℕ := f.maxBiased <<< f.mantBits

/-- The bit of the sign. -/
def signBit (f : FloatFmt) (neg : Bool) : ℕ := if neg then 1 <<< f.signShift else 0

end FloatFmt

/-- The grammars of floats: of modules and of scripts. -/
inductive FloatCtx
  | ofModule | ofScript
  deriving DecidableEq, Repr

/-- What an `i32` holds of a number. -/
def i32 (z : ℤ) : ℤ := z.bmod (2 ^ 32)

/-! ## Syntax -/

abbrev dot : UInt8 := 0x2e
abbrev colon : UInt8 := 0x3a

/-- Are there digits, and what follows them and their separators? -/
def takeRun (p : UInt8 → Bool) (b : List UInt8) : Bool × List UInt8 :=
  let run (c : UInt8) : Bool := c = underscore || p c
  (b.head?.any run, b.dropWhile run)

/-- Is there a minus sign, and what follows the sign? -/
def takeSign : List UInt8 → Bool × List UInt8
  | [] => (false, [])
  | c :: b => if c = minus then (true, b) else if c = plus then (false, b) else (false, c :: b)

/-- What follows a point and its digits, if there is a point. -/
def dropFraction (digit : UInt8 → Bool) (b : List UInt8) : List UInt8 :=
  match [dot].isPrefixOf? b with
  | some frac => (takeRun digit frac).2
  | none => b

/-- At the end or at an exponent, which is decimal. -/
def checkExponent (isHex : Bool) : List UInt8 → Except Error Unit
  | [] => pure ()
  | c :: b => do
    let marker : UInt8 := if isHex then 0x70 else 0x65
    ensure (c ||| 0x20 = marker) .badNumber
    let (found, b) := takeRun (isDigit 10) (takeSign b).2
    ensure found .badNumber
    ensure (b = []) .badNumber

/-- What follows the sign and the prefix: digits, maybe a fraction and an exponent. -/
def checkFloatSyntax (body : List UInt8) (isHex : Bool) : Except Error Unit := do
  let digit := isDigit (if isHex then 16 else 10)
  let (found, b) := takeRun digit body
  ensure found .badNumber
  checkExponent isHex (dropFraction digit b)

/-! ## Digits -/

/-- What the digits have been read to. -/
structure HexAcc where
  mant : ℕ := 0
  sticky : Bool := false
  exp : ℤ := 0
  seenDigit : Bool := false
  seenDot : Bool := false
  deriving DecidableEq, Repr

/-- One more digit. When the integer is full, the digit is lost but for the sticky bit and the exponent. -/
def HexAcc.digit (a : HexAcc) (d : ℕ) : HexAcc :=
  if a.mant >>> 124 ≠ 0 then
    { a with
      seenDigit := true, sticky := a.sticky || d ≠ 0, exp := if a.seenDot then a.exp else i32 (a.exp + 4) }
  else
    { a with
      seenDigit := true, mant := (a.mant <<< 4) ||| d, exp := if a.seenDot then i32 (a.exp - 4) else a.exp }

/-- The digits up to the exponent, and the exponent with its marker. -/
def hexMantissa : List UInt8 → HexAcc → Option (HexAcc × List UInt8)
  | [], a => some (a, [])
  | c :: b, a =>
    if c = dot then if a.seenDot then none else hexMantissa b { a with seenDot := true }
    else if c = 0x70 ∨ c = 0x50 then some (a, c :: b)
    else if c = underscore then hexMantissa b a
    else match Sexpr.hexVal c with
      | some d => hexMantissa b (a.digit d.toNat)
      | none => none

/-- The digits of an exponent, which is cut off at 2 ^ 30. -/
def hexExponent : List UInt8 → ℤ → Option ℤ
  | [], pexp => some pexp
  | c :: b, pexp =>
    if c = underscore then hexExponent b pexp
    else match toDigit 10 c with
      | some d => hexExponent b (if pexp * 10 + d > 2 ^ 30 then 2 ^ 30 else pexp * 10 + d)
      | none => none

/-- The exponent after its marker, if there is one, added to the one of the digits. -/
def addExponent (exp : ℤ) : List UInt8 → Option ℤ
  | [] => some exp
  | _ :: b => do
    let (pneg, b) := takeSign b
    if b = [] then none
    else
      let pexp ← hexExponent b 0
      let pexp := if pneg then -pexp else pexp
      if -2 ^ 31 ≤ pexp ∧ pexp < 2 ^ 31 then some (i32 (exp + pexp)) else none

/-! ## Rounding -/

/-- The pattern of a significand at an exponent. One that is too large by one is carried, and nothing is rounded. -/
def composeFloatBits (q : ℕ) (ulpExp : ℤ) (neg : Bool) (f : FloatFmt) : ℕ :=
  let sign := f.signBit neg
  if q = 0 then sign
  else
    let prec := f.mantBits + 1
    let (q, ulpExp) := if q.size > prec then (q >>> 1, i32 (ulpExp + 1)) else (q, ulpExp)
    let e := i32 (ulpExp + q.size - 1)
    if e < f.expMin then sign ||| q
    else
      let biased := i32 (e + f.bias)
      if biased ≥ f.maxBiased then sign ||| f.expAll
      else sign ||| (biased.toNat <<< f.mantBits) ||| (q - 1 <<< (prec - 1))

/-- The significand `mant * 2 ^ exp` in units of the last place, which is `k` places up. -/
def roundMant (mant : ℕ) (sticky : Bool) (k : ℤ) : ℕ :=
  if k > 0 then
    -- all of it is below half of the last place
    if k > 128 then 0
    else
      let sh := (k - 1).toNat
      let guard := (mant >>> sh) &&& 1
      let sticky := sticky || mant &&& (1 <<< sh - 1) ≠ 0
      let q := if k = 128 then 0 else mant >>> k.toNat
      if guard ≠ 0 && (sticky || q &&& 1 ≠ 0) then q + 1 else q
  else (mant <<< (-k).toNat) % 2 ^ 128

/-- The pattern to which the digits round. A number that rounds to infinity is out of range. -/
def roundHex (mant : ℕ) (sticky : Bool) (exp : ℤ) (neg : Bool) (f : FloatFmt) : Option ℕ :=
  if mant = 0 then some (f.signBit neg)
  else
    let prec : ℤ := f.mantBits + 1
    let msb : ℤ := mant.size
    let e := i32 (exp + msb - 1)
    let ulpExp := max (f.expMin - prec + 1) (i32 (e - prec + 1))
    let q := roundMant mant sticky (i32 (ulpExp - exp))
    let bits := composeFloatBits q ulpExp neg f
    if bits.ldiff (1 <<< f.signShift) = f.expAll then none else some bits

/-! ## The reader -/

/-- What follows the hexadecimal prefix. -/
def parseHexBody (body : List UInt8) (neg : Bool) (f : FloatFmt) : Option ℕ := do
  let _ ← (checkFloatSyntax body true).toOption
  let (a, b) ← hexMantissa body {}
  if !a.seenDigit then none
  else
    let exp ← addExponent a.exp b
    roundHex a.mant a.sticky exp neg f

/-- A decimal literal, which the standard library rounds. A literal that it makes infinite is out of range. -/
def parseDecimalBody (decimal : FloatFmt → List UInt8 → Option ℕ) (s : List UInt8) (neg : Bool) (f : FloatFmt) :
    Option ℕ := do
  let _ ← (checkFloatSyntax s false).toOption
  let cleaned ← (stripSeps s).toOption
  let bits ← decimal f cleaned
  if bits &&& f.expAll = f.expAll then none else some (bits ||| f.signBit neg)

/-- What follows the colon of a NaN: a pattern, in scripts only, or a payload. -/
def nanBits (tail : List UInt8) (f : FloatFmt) (ctx : FloatCtx) : Option ℕ :=
  if tail = utf8Bytes "canonical" ∨ tail = utf8Bytes "arithmetic" then
    if ctx = .ofModule then none else some (f.expAll ||| 1 <<< (f.mantBits - 1))
  else (nanPayload f tail).map (f.expAll ||| ·)

/-- The spellings of NaNs with a colon. -/
def parseNan (head tail : List UInt8) (f : FloatFmt) (ctx : FloatCtx) : Option ℕ :=
  if head ∉ ["nan", "+nan", "-nan"].map utf8Bytes then none
  else (nanBits tail f ctx).map (· ||| f.signBit (head.head? = some minus))

/-- The reader of floats. `decimal` is the one of the standard library. -/
def parseFloatBits (decimal : FloatFmt → List UInt8 → Option ℕ) (lit : List UInt8) (f : FloatFmt) (ctx : FloatCtx) :
    Option ℕ :=
  match lit.dropWhile (· ≠ colon) with
  | _ :: tail => parseNan (lit.takeWhile (· ≠ colon)) tail f ctx
  | [] => do
    let _ ← (stripSeps lit).toOption
    let (neg, s) := takeSign lit
    if s = utf8Bytes "inf" then some (f.signBit neg ||| f.expAll)
    else if s = utf8Bytes "nan" then some (f.signBit neg ||| f.expAll ||| 1 <<< (f.mantBits - 1))
    else match hexPrefix? s with
      | none => parseDecimalBody decimal s neg f
      | some body => parseHexBody body neg f

end Wasmrt.Wat
