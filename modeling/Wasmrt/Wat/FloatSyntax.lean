import Mathlib.Data.BitVec
import Mathlib.Data.FinEnum
import Mathlib.Tactic.Common
import Wasmrt.Sexpr.Scanners
import Wasmrt.Wat.Floats
import Wasmrt.Wat.IntegerFields

/-!
# The syntax of float literals

The grammar of float literals, and the check of the syntax, which is exact for it where the separators are checked as
well.

## Main definitions

* `Body`: what follows the sign and the prefix.
* `HexFloat`: hexadecimal literals with their numbers.
* `FloatLiteral`: the grammar.

## Main results

* `checkFloatSyntax_iff`: the check of the syntax is exact.
-/

namespace Wasmrt.Wat

open Numerals (Spells placed strip value)

/-! ## The grammar -/

/-- A point and the digits after it, if there are any. -/
inductive Fraction (radix : ℕ) : List UInt8 → List ℕ → Prop
  | absent : Fraction radix [] []
  | empty : Fraction radix [dot] []
  | digits {w : List UInt8} {ds : List ℕ} (h : Spells (toDigit radix) underscore w ds) : Fraction radix (dot :: w) ds

/-- A sign and whether it is a minus sign. -/
inductive Sign : List UInt8 → Bool → Prop
  | none : Sign [] false
  | plus : Sign [plus] false
  | minus : Sign [minus] true

/-- An exponent after its marker, in decimal. -/
inductive Exponent (markers : List UInt8) : List UInt8 → ℤ → Prop
  | absent : Exponent markers [] 0
  | digits {c : UInt8} {sign w : List UInt8} {neg : Bool} {ds : List ℕ} (hc : c ∈ markers) (hsign : Sign sign neg)
      (h : Spells (toDigit 10) underscore w ds) :
      Exponent markers (c :: (sign ++ w)) (if neg then -value 10 ds else value 10 ds)

/-- Digits, a fraction and an exponent. -/
inductive Body (radix : ℕ) (markers : List UInt8) : List UInt8 → List ℕ → List ℕ → ℤ → Prop
  | mk {wi wf we : List UInt8} {di df : List ℕ} {p : ℤ} (hint : Spells (toDigit radix) underscore wi di)
      (hfrac : Fraction radix wf df) (hexp : Exponent markers we p) : Body radix markers (wi ++ (wf ++ we)) di df p

/-- The markers of exponents, `p` and `e`, small or capital. -/
def markers (isHex : Bool) : List UInt8 := if isHex then [0x70, 0x50] else [0x65, 0x45]

/-- The radix of the digits. -/
def radixOf (isHex : Bool) : ℕ := if isHex then 16 else 10

/-- A hexadecimal literal, with its sign and the number without the sign. The prefix is `0x`, and `0X` where a reader
takes that. -/
inductive HexFloat (x : UInt8) : List UInt8 → Bool → ℚ → Prop
  | mk {sign body : List UInt8} {neg : Bool} {di df : List ℕ} {p : ℤ} (hsign : Sign sign neg)
      (hbody : Body 16 (markers true) body di df p) :
      HexFloat x (sign ++ 0x30 :: x :: body) neg (value 16 (di ++ df) * 2 ^ (p - 4 * df.length))

/-- The float literals of modules and of scripts. -/
inductive FloatLiteral (f : FloatFmt) (ctx : FloatCtx) : List UInt8 → Prop
  | hex {s : List UInt8} {neg : Bool} {v : ℚ} (h : HexFloat 0x78 s neg v) : FloatLiteral f ctx s
  | decimal {sign body : List UInt8} {neg : Bool} {di df : List ℕ} {p : ℤ} (hsign : Sign sign neg)
      (hbody : Body 10 (markers false) body di df p) : FloatLiteral f ctx (sign ++ body)
  | inf {sign : List UInt8} {neg : Bool} (hsign : Sign sign neg) : FloatLiteral f ctx (sign ++ utf8Bytes "inf")
  | nan {sign : List UInt8} {neg : Bool} (hsign : Sign sign neg) : FloatLiteral f ctx (sign ++ utf8Bytes "nan")
  | payload {sign tail : List UInt8} {neg : Bool} {n : ℕ} (hsign : Sign sign neg)
      (htail : (Field.payload f).Literal tail n) (hfits : (Field.payload f).Fits n) :
      FloatLiteral f ctx (sign ++ utf8Bytes "nan:" ++ tail)
  | pattern {sign tail : List UInt8} {neg : Bool} (hsign : Sign sign neg) (hctx : ctx = .ofScript)
      (htail : tail ∈ ["canonical", "arithmetic"].map utf8Bytes) : FloatLiteral f ctx (sign ++ utf8Bytes "nan:" ++ tail)

/-! ## Runs -/

section Runs

variable {radix : ℕ} {w b : List UInt8} {ds : List ℕ}

/-- What ends a run of digits. -/
def Ends (radix : ℕ) (b : List UInt8) : Prop := ∀ c ∈ b.head?, c ≠ underscore ∧ isDigit radix c = false

theorem takeRun_of_ends (hw : ∀ c ∈ w, c = underscore ∨ (toDigit radix c).isSome) (hb : Ends radix b) :
    takeRun (isDigit radix) (w ++ b) = (decide (w ≠ []), b) := by
  have hrun : ∀ c ∈ w, (decide (c = underscore) || isDigit radix c) = true := by
    intro c hc
    simpa [isDigit] using hw c hc
  have hstop : ∀ c ∈ b.head?, (decide (c = underscore) || isDigit radix c) = false := by
    intro c hc
    simpa using hb c hc
  have hdrop : b.dropWhile (fun c => decide (c = underscore) || isDigit radix c) = b := by
    cases b with
    | nil => rfl
    | cons c b => exact List.dropWhile_cons_of_neg (by rw [hstop c rfl]; exact Bool.false_ne_true)
  rw [takeRun, List.dropWhile_append_of_pos hrun, hdrop]
  cases w with
  | nil =>
    cases b with
    | nil => rfl
    | cons c b => simpa using hstop c rfl
  | cons c w => simpa using hrun c List.mem_cons_self

theorem takeRun_spells (h : Spells (toDigit radix) underscore w ds) (hb : Ends radix b) :
    takeRun (isDigit radix) (w ++ b) = (true, b) := by
  rw [takeRun_of_ends h.mem hb, decide_eq_true h.ne_nil]

/-- A run, and what ends it. -/
theorem exists_takeRun (radix : ℕ) (b : List UInt8) :
    ∃ w r, b = w ++ r ∧ takeRun (isDigit radix) b = (decide (w ≠ []), r) ∧
      (∀ c ∈ w, c = underscore ∨ (toDigit radix c).isSome) ∧ Ends radix r := by
  obtain ⟨w, r, rfl, hw, hr⟩ := Sexpr.exists_run (fun c => decide (c = underscore) || isDigit radix c) b
  have hw' : ∀ c ∈ w, c = underscore ∨ (toDigit radix c).isSome := by
    intro c hc
    simpa [isDigit] using hw c hc
  have hr' : Ends radix r := by
    intro c hc
    simpa using hr c hc
  exact ⟨w, r, rfl, takeRun_of_ends hw' hr', hw', hr'⟩

end Runs

/-! ## The check of the syntax -/

section Syntax

variable {isHex : Bool} {radix : ℕ} {w b : List UInt8}

set_option maxRecDepth 8000 in
theorem or_eq_marker_iff : ∀ (isHex : Bool) (c : UInt8),
    c ||| 0x20 = (if isHex then 0x70 else 0x65) ↔ c ∈ markers isHex := by
  decide

/-- No marker is a digit of its literals. -/
theorem marker_ends {c : UInt8} (hc : c ∈ markers isHex) : c ≠ underscore ∧ isDigit (radixOf isHex) c = false := by
  have hall : ∀ c ∈ markers isHex, c ≠ underscore ∧ isDigit (radixOf isHex) c = false := by
    cases isHex <;>
      exact List.forall_mem_cons.mpr ⟨⟨by decide, by decide⟩, List.forall_mem_singleton.mpr ⟨by decide, by decide⟩⟩
  exact hall c hc

theorem ends_of_exponent {we : List UInt8} {p : ℤ} (h : Exponent (markers isHex) we p) : Ends (radixOf isHex) we := by
  cases h with
  | absent => nofun
  | digits hc hsign hw =>
    rintro c ⟨⟩
    exact marker_ends hc

theorem ends_of_fraction {wf we : List UInt8} {df : List ℕ} (h : Fraction radix wf df) (he : Ends radix we) :
    Ends radix (wf ++ we) := by
  cases h with
  | absent => exact he
  | empty =>
    rintro c ⟨⟩
    exact ⟨by decide, rfl⟩
  | digits h =>
    rintro c ⟨⟩
    exact ⟨by decide, rfl⟩

/-- A run of digits is one of the grammar just in case its separators are checked. -/
theorem exists_spells_iff (hne : w ≠ []) (hw : ∀ c ∈ w, c = underscore ∨ (toDigit radix c).isSome) :
    placed (isDigit radix) underscore false w = true ↔ ∃ ds, Spells (toDigit radix) underscore w ds :=
  ⟨fun h => Numerals.exists_spells (toDigit_underscore radix) hne h hw,
    fun ⟨_, h⟩ => h.placed (toDigit_underscore radix) false⟩

/-- The check of the separators goes on after what ends a run. -/
theorem placed_append_ends (hb : Ends radix b) :
    placed (isDigit radix) underscore false (w ++ b) =
      (placed (isDigit radix) underscore false w && placed (isDigit radix) underscore false b) := by
  cases b with
  | nil => simp
  | cons c b =>
    obtain ⟨hne, hc⟩ := hb c rfl
    rw [Numerals.placed_append_cons (isDigit_underscore radix) hne hc, Numerals.placed_cons_of_ne hne, hc]

/-- The sign is taken, whatever follows it. -/
theorem takeSign_append {sign : List UInt8} {neg : Bool} (hsign : Sign sign neg)
    (hw : w.head? ≠ some plus ∧ w.head? ≠ some minus) : takeSign (sign ++ w) = (neg, w) := by
  cases hsign with
  | none =>
    cases w with
    | nil => rfl
    | cons c w =>
      have hplus : c ≠ plus := fun h => hw.1 (congrArg some h)
      have hminus : c ≠ minus := fun h => hw.2 (congrArg some h)
      simp [takeSign, hplus, hminus]
  | plus => rfl
  | minus => rfl

theorem exists_takeSign (b : List UInt8) : ∃ sign, b = sign ++ (takeSign b).2 ∧ Sign sign (takeSign b).1 := by
  cases b with
  | nil => exact ⟨[], rfl, .none⟩
  | cons c b =>
    simp only [takeSign]
    split_ifs with hminus hplus
    · exact ⟨[minus], by rw [hminus]; rfl, .minus⟩
    · exact ⟨[plus], by rw [hplus]; rfl, .plus⟩
    · exact ⟨[], rfl, .none⟩

theorem placed_sign {sign : List UInt8} {neg : Bool} (hsign : Sign sign neg) :
    placed (isDigit radix) underscore false (sign ++ w) = placed (isDigit radix) underscore false w := by
  cases hsign with
  | none => rfl
  | plus => exact Numerals.placed_cons_of_ne (c := plus) (by decide)
  | minus => exact Numerals.placed_cons_of_ne (c := minus) (by decide)

/-- No digits begin with a sign. -/
theorem head_of_spells {ds : List ℕ} (h : Spells (toDigit radix) underscore w ds) :
    w.head? ≠ some plus ∧ w.head? ≠ some minus := by
  obtain ⟨c, hc, hdigit⟩ := h.head
  constructor <;>
  · intro hw
    rw [hw] at hc
    cases hc
    cases hdigit

theorem checkExponent_iff :
    checkExponent isHex b = .ok () ∧ placed (isDigit (radixOf isHex)) underscore false b = true ↔
      ∃ p, Exponent (markers isHex) b p := by
  have hradix : radixOf isHex = 10 ∨ radixOf isHex = 16 := by cases isHex <;> decide
  cases b with
  | nil => exact iff_of_true ⟨rfl, rfl⟩ ⟨0, .absent⟩
  | cons c b =>
    simp only [checkExponent, Except.bind_eq_ok, ensure_eq_ok, decide_eq_true_eq, or_eq_marker_iff, exists_const]
    constructor
    · rintro ⟨⟨hc, hfound, hrest⟩, hplaced⟩
      obtain ⟨hne, hdigit⟩ := marker_ends hc
      rw [Numerals.placed_cons_of_ne hne, hdigit] at hplaced
      obtain ⟨sign, hb, hsign⟩ := exists_takeSign b
      obtain ⟨w, r, hw_eq, hrun, hw, hr⟩ := exists_takeRun 10 (takeSign b).2
      rw [hrun] at hfound hrest
      obtain rfl := hrest
      rw [List.append_nil] at hw_eq
      rw [hb, hw_eq, placed_sign hsign, placed_decimal hradix ?_] at hplaced
      · obtain ⟨ds, hds⟩ := (exists_spells_iff (by simpa using hfound) hw).mp hplaced
        rw [hb, hw_eq]
        exact ⟨_, .digits hc hsign hds⟩
      · exact fun c hc => (hw c hc).imp_right .inr
    · rintro ⟨p, hexp⟩
      cases hexp with
      | @digits _ sign w neg ds hc hsign hds =>
        obtain ⟨hne, hdigit⟩ := marker_ends hc
        rw [takeSign_append hsign (head_of_spells hds), Numerals.placed_cons_of_ne hne, hdigit, placed_sign hsign,
          placed_decimal hradix fun c hc => (hds.mem c hc).imp_right .inr]
        have hrun := takeRun_spells hds (b := []) fun c hc => by cases hc
        rw [List.append_nil] at hrun
        rw [hrun]
        exact ⟨⟨hc, rfl, rfl⟩, hds.placed (toDigit_underscore 10) false⟩

theorem dropFraction_dot (p : UInt8 → Bool) (b : List UInt8) : dropFraction p (dot :: b) = (takeRun p b).2 := rfl

theorem dropFraction_of_ne (p : UInt8 → Bool) (h : b.head? ≠ some dot) : dropFraction p b = b := by
  have hnone : [dot].isPrefixOf? b = none := by
    rw [Option.eq_none_iff_forall_ne_some]
    intro t ht
    rw [isPrefixOf?_singleton.mp ht] at h
    exact h rfl
  rw [dropFraction, hnone]

theorem placed_dot : placed (isDigit radix) underscore false (dot :: b) = placed (isDigit radix) underscore false b :=
  Numerals.placed_cons_of_ne (c := dot) (by decide)

theorem checkFraction_iff :
    checkExponent isHex (dropFraction (isDigit (radixOf isHex)) b) = .ok () ∧
        placed (isDigit (radixOf isHex)) underscore false b = true ↔
      ∃ wf we df p, b = wf ++ we ∧ Fraction (radixOf isHex) wf df ∧ Exponent (markers isHex) we p := by
  constructor
  · rintro ⟨hcheck, hplaced⟩
    by_cases hdot : b.head? = some dot
    · obtain ⟨frac, rfl⟩ := List.head?_eq_some_iff.mp hdot
      obtain ⟨w, r, rfl, hrun, hw, hr⟩ := exists_takeRun (radixOf isHex) frac
      rw [dropFraction_dot, hrun] at hcheck
      rw [placed_dot, placed_append_ends hr, Bool.and_eq_true] at hplaced
      obtain ⟨p, hexp⟩ := checkExponent_iff.mp ⟨hcheck, hplaced.2⟩
      by_cases hne : w = []
      · subst hne
        exact ⟨[dot], r, [], p, rfl, .empty, hexp⟩
      · obtain ⟨ds, hds⟩ := (exists_spells_iff hne hw).mp hplaced.1
        exact ⟨dot :: w, r, ds, p, rfl, .digits hds, hexp⟩
    · rw [dropFraction_of_ne _ hdot] at hcheck
      obtain ⟨p, hexp⟩ := checkExponent_iff.mp ⟨hcheck, hplaced⟩
      exact ⟨[], b, [], p, rfl, .absent, hexp⟩
  · rintro ⟨wf, we, df, p, rfl, hfrac, hexp⟩
    have hends := ends_of_exponent hexp
    obtain ⟨hcheck, hplaced⟩ := checkExponent_iff.mpr ⟨p, hexp⟩
    cases hfrac with
    | absent =>
      rw [List.nil_append, dropFraction_of_ne]
      · exact ⟨hcheck, hplaced⟩
      · cases hexp with
        | absent => nofun
        | digits hc =>
          rintro ⟨⟩
          revert hc
          cases isHex <;> decide
    | empty =>
      have hrun := takeRun_of_ends (w := []) nofun hends
      rw [List.nil_append] at hrun
      rw [List.singleton_append, dropFraction_dot, hrun, placed_dot]
      exact ⟨hcheck, hplaced⟩
    | digits hds =>
      rw [List.cons_append, dropFraction_dot, takeRun_spells hds hends, placed_dot, placed_append_ends hends, hplaced,
        Bool.and_true]
      exact ⟨hcheck, hds.placed (toDigit_underscore _) false⟩

theorem checkFloatSyntax_eq_ok : checkFloatSyntax b isHex = .ok () ↔
    (takeRun (isDigit (radixOf isHex)) b).1 = true ∧
      checkExponent isHex (dropFraction (isDigit (radixOf isHex)) (takeRun (isDigit (radixOf isHex)) b).2) = .ok () := by
  simp [checkFloatSyntax, radixOf]

/-- What passes the check has no sign. -/
theorem head_of_checkFloatSyntax (h : checkFloatSyntax b isHex = .ok ()) :
    b.head? ≠ some plus ∧ b.head? ≠ some minus := by
  have hfound := (checkFloatSyntax_eq_ok.mp h).1
  simp only [takeRun] at hfound
  constructor <;>
  · intro hhead
    rw [hhead, Option.any_some] at hfound
    cases hfound

/-- The check of the syntax, where the separators are checked as well. -/
theorem checkFloatSyntax_iff (isHex : Bool) :
    checkFloatSyntax b isHex = .ok () ∧ placed (isDigit (radixOf isHex)) underscore false b = true ↔
      ∃ di df p, Body (radixOf isHex) (markers isHex) b di df p := by
  rw [checkFloatSyntax_eq_ok]
  constructor
  · rintro ⟨⟨hfound, hcheck⟩, hplaced⟩
    obtain ⟨w, r, rfl, hrun, hw, hr⟩ := exists_takeRun (radixOf isHex) b
    rw [hrun] at hfound hcheck
    rw [placed_append_ends hr, Bool.and_eq_true] at hplaced
    obtain ⟨di, hdi⟩ := (exists_spells_iff (by simpa using hfound) hw).mp hplaced.1
    obtain ⟨wf, we, df, p, rfl, hfrac, hexp⟩ := checkFraction_iff.mp ⟨hcheck, hplaced.2⟩
    exact ⟨di, df, p, .mk hdi hfrac hexp⟩
  · rintro ⟨di, df, p, ⟨hint, hfrac, hexp⟩⟩
    have hends := ends_of_fraction hfrac (ends_of_exponent hexp)
    obtain ⟨hcheck, hplaced⟩ := checkFraction_iff.mpr ⟨_, _, _, _, rfl, hfrac, hexp⟩
    rw [takeRun_spells hint hends, placed_append_ends hends, hplaced, Bool.and_true]
    exact ⟨⟨rfl, hcheck⟩, hint.placed (toDigit_underscore _) false⟩

end Syntax

end Wasmrt.Wat
