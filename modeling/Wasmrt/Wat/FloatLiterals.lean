import Mathlib.Data.BitVec
import Mathlib.Data.FinEnum
import Mathlib.Data.List.TakeWhile
import Mathlib.Tactic.Common
import Wasmrt.Wat.FloatRounding
import Wasmrt.Wat.FloatSyntax

/-!
# Float literals are read exactly

The reader accepts the literals of the grammar, but also the prefix `0X` and payloads with a sign, and gives a
hexadecimal literal the pattern to which its number rounds.

## Main results

* `parseFloatBits_hex`: hexadecimal literals are rounded correctly.
* `literal_of_parseFloatBits`: what is accepted is a literal, or one of those that are let through.
* `floats_read_exactly_iff`: the texts that are read exactly.
-/

namespace Wasmrt.Wat

open Numerals (Spells placed strip value)
open Rounding (Nearest)

/-! ## The digits -/

section Digits

variable {a : HexAcc} {ds : List ℕ} {F : ℕ}

/-- What has been read stands for the digits `ds`, `F` of them after the point: the last `t` digits found no room, and
`low` is what they stand for. -/
def HexAcc.Holds (a : HexAcc) (ds : List ℕ) (F : ℕ) : Prop :=
  ∃ t low : ℕ, value 16 ds = a.mant * 16 ^ t + low ∧ low < 16 ^ t ∧ (a.sticky = true ↔ low ≠ 0) ∧
    a.exp = 4 * t - 4 * F ∧ (t = 0 ∨ 2 ^ 124 ≤ a.mant) ∧ a.mant < 2 ^ 128 ∧ t ≤ ds.length

/-- One more digit keeps that. -/
theorem HexAcc.Holds.digit {d : ℕ} (h : a.Holds ds F) (hd : d < 16) (hF : F ≤ ds.length) (hlen : ds.length < 2 ^ 26) :
    (a.digit d).Holds (ds ++ [d]) (if a.seenDot then F + 1 else F) := by
  obtain ⟨t, low, hvalue, hlow, hsticky, hexp, ht₀, hmant, ht⟩ := h
  have hvalue' : value 16 (ds ++ [d]) = (a.mant * 16 ^ t + low) * 16 + d := by
    rw [Numerals.value_append, hvalue]
    simp
  have hlen' : (ds ++ [d]).length = ds.length + 1 := by rw [List.length_append, List.length_singleton]
  have hroom : a.mant >>> 124 ≠ 0 ↔ 2 ^ 124 ≤ a.mant := by
    rw [Nat.shiftRight_eq_div_pow, ne_eq, Nat.div_eq_zero_iff_lt (by positivity), not_lt]
  unfold HexAcc.digit
  by_cases hbig : a.mant >>> 124 ≠ 0
  · rw [if_pos hbig]
    refine ⟨t + 1, low * 16 + d, ?_, ?_, ?_, ?_, .inr (hroom.mp hbig), hmant, by omega⟩
    · rw [hvalue', pow_succ]
      ring
    · rw [pow_succ]
      omega
    · simp only [Bool.or_eq_true, hsticky, decide_eq_true_eq]
      omega
    · dsimp only
      rw [hexp]
      split_ifs
      · push_cast
        ring
      · rw [i32_of_range (by omega) (by omega)]
        push_cast
        ring
  · rw [if_neg hbig]
    rw [hroom, not_le] at hbig
    -- nothing has been lost yet
    obtain rfl := ht₀.resolve_right (not_le.mpr hbig)
    obtain rfl : low = 0 := by omega
    have hmant' : a.mant <<< 4 ||| d = a.mant * 16 + d := by
      rw [← Nat.shiftLeft_add_eq_or_of_lt (by omega), Nat.shiftLeft_eq]
    refine ⟨0, 0, ?_, by simp, hsticky, ?_, .inl rfl, ?_, Nat.zero_le _⟩
    · rw [hvalue']
      simp only [hmant']
      ring
    · dsimp only
      rw [hexp]
      split_ifs
      · rw [i32_of_range (by omega) (by omega)]
        push_cast
        ring
      · rfl
    · simp only [hmant']
      omega

@[simp]
theorem HexAcc.digit_seenDot (a : HexAcc) (d : ℕ) : (a.digit d).seenDot = a.seenDot := by
  unfold digit
  split_ifs <;> rfl

@[simp]
theorem HexAcc.digit_seenDigit (a : HexAcc) (d : ℕ) : (a.digit d).seenDigit = true := by
  unfold digit
  split_ifs <;> rfl

/-- A run of digits keeps it. -/
theorem HexAcc.Holds.foldl {es : List ℕ} (h : a.Holds ds F) (hes : ∀ e ∈ es, e < 16) (hF : F ≤ ds.length)
    (hlen : ds.length + es.length < 2 ^ 26) :
    (es.foldl HexAcc.digit a).Holds (ds ++ es) (if a.seenDot then F + es.length else F) ∧
      (es.foldl HexAcc.digit a).seenDot = a.seenDot ∧ (es ≠ [] → (es.foldl HexAcc.digit a).seenDigit = true) := by
  induction es generalizing a ds F with
  | nil =>
    exact ⟨by simpa using h, rfl, fun hne => absurd rfl hne⟩
  | cons e es ih =>
    rw [List.forall_mem_cons] at hes
    rw [List.length_cons] at hlen
    have hstep := h.digit hes.1 hF (by omega)
    have hF' : (if a.seenDot then F + 1 else F) ≤ (ds ++ [e]).length := by
      rw [List.length_append, List.length_singleton]
      split_ifs <;> omega
    obtain ⟨hholds, hdot, hdigit⟩ := ih hstep hes.2 hF' (by
      rw [List.length_append, List.length_singleton]
      omega)
    rw [HexAcc.digit_seenDot] at hholds hdot
    refine ⟨?_, hdot, fun _ => ?_⟩
    · rw [List.foldl_cons, List.length_cons]
      rw [List.append_assoc, List.singleton_append] at hholds
      convert hholds using 1
      split_ifs <;> omega
    · rw [List.foldl_cons]
      cases es with
      | nil => exact a.digit_seenDigit e
      | cons e' es => exact hdigit (List.cons_ne_nil _ _)

theorem hexVal_of_toDigit {radix d : ℕ} {c : UInt8} (h : toDigit radix c = some d) :
    ∃ v, Sexpr.hexVal c = some v ∧ v.toNat = d ∧ d < radix := by
  rw [toDigit, Option.filter_eq_some_iff, Option.map_eq_some_iff, decide_eq_true_eq] at h
  obtain ⟨⟨v, hv, hd⟩, hlt⟩ := h
  exact ⟨v, hv, hd, hlt⟩

theorem digits_lt {radix : ℕ} {w : List UInt8} (h : Spells (toDigit radix) underscore w ds) : ∀ d ∈ ds, d < radix := by
  intro d hd
  obtain ⟨c, -, hc⟩ := h.exists_char d hd
  exact (hexVal_of_toDigit hc).choose_spec.2.2

/-- The digits are taken one by one. -/
theorem hexMantissa_append {w b : List UInt8} (h : Spells (toDigit 16) underscore w ds) :
    hexMantissa (w ++ b) a = hexMantissa b (ds.foldl HexAcc.digit a) := by
  have hstep {c : UInt8} {d : ℕ} (hc : toDigit 16 c = some d) (b : List UInt8) (a : HexAcc) :
      hexMantissa (c :: b) a = hexMantissa b (a.digit d) := by
    have hne {x : UInt8} (hx : toDigit 16 x = none) : c ≠ x := by
      rintro rfl
      rw [hc] at hx
      cases hx
    obtain ⟨v, hv, rfl, -⟩ := hexVal_of_toDigit hc
    simp only [hexMantissa, if_neg (hne (x := dot) rfl), if_neg (hne (x := underscore) rfl), hv,
      if_neg (not_or.mpr ⟨hne (x := 0x70) rfl, hne (x := 0x50) rfl⟩)]
  have hskip (b : List UInt8) (a : HexAcc) : hexMantissa (underscore :: b) a = hexMantissa b a := by
    rw [hexMantissa, if_neg (by decide), if_neg (by decide), if_pos rfl]
  induction h generalizing a with
  | last hc => exact hstep hc b a
  | next hc _ ih => rw [List.cons_append, hstep hc, ih, List.foldl_cons]
  | skip hc _ ih => rw [List.cons_append, List.cons_append, hstep hc, hskip, ih, List.foldl_cons]

/-- The digits end where the exponent begins. -/
theorem hexMantissa_exponent {we : List UInt8} {p : ℤ} (h : Exponent (markers true) we p) :
    hexMantissa we a = some (a, we) := by
  cases h with
  | absent => rfl
  | @digits c _ _ _ _ hc =>
    have hc' : c = 0x70 ∨ c = 0x50 := by simpa [markers] using hc
    have hdot : c ≠ dot := by rcases hc' with rfl | rfl <;> decide
    rw [hexMantissa, if_neg hdot, if_pos hc']

/-- What the digits of a literal are read to. -/
theorem hexMantissa_body {wi wf we : List UInt8} {di df : List ℕ} {p : ℤ} (hint : Spells (toDigit 16) underscore wi di)
    (hfrac : Fraction 16 wf df) (hexp : Exponent (markers true) we p) (hlen : di.length + df.length < 2 ^ 26) :
    ∃ a, hexMantissa (wi ++ (wf ++ we)) {} = some (a, we) ∧ a.Holds (di ++ df) df.length ∧ a.seenDigit = true := by
  have hempty : HexAcc.Holds {} [] 0 := ⟨0, 0, by simp, by simp, by simp, by simp, .inl rfl, by simp, le_rfl⟩
  obtain ⟨hholds, hdot, hdigit⟩ := hempty.foldl (digits_lt hint) le_rfl (by rw [List.length_nil]; omega)
  have hdigit := hdigit hint.digits_ne_nil
  rw [if_neg (by simp), List.nil_append] at hholds
  rw [hexMantissa_append hint]
  generalize di.foldl HexAcc.digit {} = a at hholds hdot hdigit
  have hpoint (b : List UInt8) : hexMantissa (dot :: b) a = hexMantissa b { a with seenDot := true } := by
    simp [hexMantissa, hdot]
  have hholds' : HexAcc.Holds { a with seenDot := true } di 0 := hholds
  cases hfrac with
  | absent =>
    refine ⟨a, hexMantissa_exponent hexp, ?_, hdigit⟩
    rwa [List.append_nil]
  | empty =>
    refine ⟨{ a with seenDot := true }, ?_, ?_, hdigit⟩
    · rw [List.singleton_append, hpoint, hexMantissa_exponent hexp]
    · rwa [List.append_nil]
  | digits hdf =>
    obtain ⟨hholds, -, hdigit⟩ := hholds'.foldl (digits_lt hdf) (Nat.zero_le _) hlen
    refine ⟨_, ?_, ?_, hdigit hdf.digits_ne_nil⟩
    · rw [List.cons_append, hpoint, hexMantissa_append hdf, hexMantissa_exponent hexp]
    · rwa [if_pos rfl, Nat.zero_add] at hholds

end Digits

/-! ## The exponent -/

section Exponents

/-- An exponent that is cut off at 2 ^ 30 on both sides. -/
def cutOff (p : ℤ) : ℤ := max (-2 ^ 30) (min p (2 ^ 30))

/-- The digits are cut off when they are all read as they are one by one. -/
theorem hexExponent_eq {w : List UInt8} {ds : List ℕ} (h : Spells (toDigit 10) underscore w ds) (v : ℕ) :
    hexExponent w (min v (2 ^ 30) : ℕ) = some ((min (ds.foldl (fun v d => v * 10 + d) v) (2 ^ 30) : ℕ) : ℤ) := by
  have hstep {c : UInt8} {d : ℕ} (hc : toDigit 10 c = some d) (b : List UInt8) (v : ℕ) :
      hexExponent (c :: b) (min v (2 ^ 30) : ℕ) = hexExponent b (min (v * 10 + d) (2 ^ 30) : ℕ) := by
    have hne : c ≠ underscore := Numerals.ne_sep_of_digit (toDigit_underscore 10) hc
    simp only [hexExponent, if_neg hne, hc]
    congr 1
    split_ifs <;> omega
  have hskip (b : List UInt8) (v : ℤ) : hexExponent (underscore :: b) v = hexExponent b v := by
    simp [hexExponent]
  induction h generalizing v with
  | last hc =>
    rw [hstep hc]
    rfl
  | next hc _ ih => rw [hstep hc, ih, List.foldl_cons]
  | skip hc _ ih => rw [hstep hc, hskip, ih, List.foldl_cons]

/-- The exponent is added, cut off. -/
theorem addExponent_eq {we : List UInt8} {p exp : ℤ} (h : Exponent (markers true) we p)
    (hlow : -2 ^ 31 ≤ exp + cutOff p) (hhigh : exp + cutOff p < 2 ^ 31) :
    addExponent exp we = some (exp + cutOff p) := by
  cases h with
  | absent => exact congrArg some (add_zero exp).symm
  | @digits c sign w neg ds hc hsign hds =>
    have hread := hexExponent_eq hds 0
    have hvalue : ds.foldl (fun v d => v * 10 + d) 0 = value 10 ds := rfl
    rw [hvalue, Nat.zero_min, Nat.cast_zero] at hread
    have hcut : (if neg then -((min (value 10 ds) (2 ^ 30) : ℕ) : ℤ) else (min (value 10 ds) (2 ^ 30) : ℕ)) =
        cutOff (if neg then -value 10 ds else value 10 ds) := by
      unfold cutOff
      split_ifs <;> omega
    have hrange : -2 ^ 31 ≤ cutOff (if neg then -value 10 ds else value 10 ds) ∧
        cutOff (if neg then -value 10 ds else value 10 ds) < 2 ^ 31 := by
      unfold cutOff
      omega
    simp only [addExponent, takeSign_append hsign (head_of_spells hds), if_neg hds.ne_nil, hread, Option.bind_eq_bind,
      Option.bind_some, hcut, if_pos hrange, i32_of_range hlow hhigh]

/-- A number that is too large rounds to infinity or beyond. -/
theorem expAll_le_of_nearest {f : FloatFmt} {M b : ℕ} {e : ℤ} (hM : 0 < M) (he : 2048 ≤ e)
    (h : Nearest f.value (M * 2 ^ e) b) : f.expAll ≤ b := by
  have hall : f.value f.expAll = 2 ^ (f.mantBits : ℤ) * 2 ^ (f.ulpMin + (f.maxBiased - 1 : ℕ)) := by
    have hsplit : f.expAll = (f.maxBiased - 1) * 2 ^ f.mantBits + 2 ^ f.mantBits := by cases f <;> rfl
    rw [FloatFmt.value, hsplit,
      Rounding.binaryValue_eq _ _ (Nat.pow_le_pow_right two_pos (Nat.le_succ _)) (.inr le_rfl)]
    push_cast
    rw [zpow_natCast]
  refine (Rounding.nearest_self f.value_strictMono f.expAll).mono f.value_strictMono h ?_
  have hexp : (f.mantBits : ℤ) + (f.ulpMin + (f.maxBiased - 1 : ℕ)) ≤ e := by
    refine le_trans ?_ he
    cases f <;> decide
  have hone : (1 : ℚ) ≤ M := by exact_mod_cast hM
  calc f.value f.expAll = 2 ^ ((f.mantBits : ℤ) + (f.ulpMin + (f.maxBiased - 1 : ℕ))) := by
        rw [hall, ← zpow_add₀ two_ne_zero]
    _ ≤ 2 ^ e := zpow_le_zpow_right₀ one_le_two hexp
    _ ≤ M * 2 ^ e := le_mul_of_one_le_left (by positivity) hone

theorem value_zero (f : FloatFmt) : f.value 0 = 0 := by
  simp [FloatFmt.value, Rounding.binaryValue]

/-- A number that is too small rounds to zero. -/
theorem nearest_zero {f : FloatFmt} {M n : ℕ} {e : ℤ} (hM : M < 2 ^ n) (he : n + e ≤ -2048) :
    Nearest f.value (M * 2 ^ e) 0 := by
  have hone : f.value 1 = 2 ^ f.ulpMin := by
    have hlt : 1 < 2 ^ f.mantBits := Nat.one_lt_two_pow f.mantBits_pos.ne'
    simp [FloatFmt.value, Rounding.binaryValue, hlt]
  have hsmall : (M * 2 ^ e : ℚ) < 2 ^ ((n : ℤ) + e) := by
    have hcast : (M : ℚ) < 2 ^ (n : ℤ) := by
      rw [zpow_natCast]
      exact_mod_cast hM
    rw [zpow_add₀ two_ne_zero]
    exact mul_lt_mul_of_pos_right hcast (by positivity)
  have hulp : (2 : ℚ) ^ ((n : ℤ) + e) * 2 ≤ 2 ^ f.ulpMin := by
    rw [← zpow_add_one₀ two_ne_zero]
    refine zpow_le_zpow_right₀ one_le_two (le_trans (add_le_add_left he 1) ?_)
    cases f <;> decide
  refine Rounding.nearest_of_le f.value_strictMono ?_ (.inl ?_)
  · rw [value_zero]
    positivity
  · rw [value_zero, hone]
    linarith

/-- Cutting the exponent off makes no difference to what a literal of this length rounds to. -/
theorem exists_nearest_cutOff {f : FloatFmt} {M F n b' : ℕ} {p : ℤ} (hM : M < 16 ^ n) (hF : F ≤ n) (hn : n < 2 ^ 26)
    (h : Nearest f.value (M * 2 ^ (cutOff p - 4 * F)) b') :
    ∃ b, Nearest f.value (M * 2 ^ (p - 4 * F)) b ∧ (b = b' ∨ f.expAll ≤ b ∧ f.expAll ≤ b') := by
  rcases Nat.eq_zero_or_pos M with rfl | hpos
  · refine ⟨b', ?_, .inl rfl⟩
    simpa using h
  have hpow : M < 2 ^ (4 * n) := by rwa [pow_mul]
  rcases le_or_gt p (2 ^ 30) with hhigh | hhigh
  · rcases le_or_gt (-2 ^ 30) p with hlow | hlow
    · have hsame : cutOff p = p := by
        unfold cutOff
        omega
      rw [hsame] at h
      exact ⟨b', h, .inl rfl⟩
    · have hcut : cutOff p = -2 ^ 30 := by
        unfold cutOff
        omega
      have hzero : b' = 0 := h.unique f.value_strictMono (nearest_zero hpow (by push_cast; omega))
      exact ⟨0, nearest_zero hpow (by push_cast; omega), .inl hzero.symm⟩
  · have hcut : cutOff p = 2 ^ 30 := by
      unfold cutOff
      omega
    obtain ⟨b, hb⟩ := Rounding.exists_nearest f.value_strictMono (x := (M * 2 ^ (p - 4 * F) : ℚ))
      (by rw [value_zero]; positivity) (Rounding.exists_lt_binaryValue _ _ _)
    exact ⟨b, hb, .inr ⟨expAll_le_of_nearest hpos (by omega) hb, expAll_le_of_nearest hpos (by omega) h⟩⟩

/-- Hexadecimal digits round to the pattern that is the nearest to their number. -/
theorem parseHexBody_eq {f : FloatFmt} {body : List UInt8} {di df : List ℕ} {p : ℤ} (neg : Bool)
    (hbody : Body 16 (markers true) body di df p) (hlen : body.length < 2 ^ 26) :
    ∃ b, Nearest f.value (value 16 (di ++ df) * 2 ^ (p - 4 * df.length)) b ∧
      parseHexBody body neg f = if b < f.expAll then some (f.signBit neg + b) else none := by
  have hcheck : checkFloatSyntax body true = .ok () :=
    ((checkFloatSyntax_iff true).mpr ⟨di, df, p, hbody⟩).1
  cases hbody with
  | @mk wi wf we _ _ _ hint hfrac hexp =>
    have hdf_len : df.length ≤ wf.length := by
      cases hfrac with
      | absent => rfl
      | empty => exact Nat.zero_le _
      | digits h => exact h.length_le.trans (Nat.le_succ _)
    have hdigits : di.length + df.length < 2 ^ 26 := by
      have hdi_len := hint.length_le
      simp only [List.length_append] at hlen
      omega
    obtain ⟨a, hread, ⟨t, low, hvalue, hlow, hsticky, ha, hroom, hmant, ht⟩, hdigit⟩ :=
      hexMantissa_body hint hfrac hexp hdigits
    rw [List.length_append] at ht
    have hcut : -2 ^ 30 ≤ cutOff p ∧ cutOff p ≤ 2 ^ 30 := by
      unfold cutOff
      omega
    have hexponent : addExponent a.exp we = some (a.exp + cutOff p) := addExponent_eq hexp (by omega) (by omega)
    -- the exact number, in terms of what was kept and what was lost
    have hpow : (0 : ℚ) < 16 ^ t := by positivity
    have hexact : ((a.mant : ℚ) + low / 16 ^ t) * 2 ^ (a.exp + cutOff p) =
        value 16 (di ++ df) * 2 ^ (cutOff p - 4 * df.length) := by
      have hplaces : a.exp + cutOff p = 4 * t + (cutOff p - 4 * df.length) := by
        rw [ha]
        ring
      have hbase : (2 : ℚ) ^ (4 * t : ℤ) = 16 ^ t := by
        rw [zpow_mul, zpow_natCast]
        norm_num
      rw [hplaces, zpow_add₀ two_ne_zero, hbase, hvalue, ← mul_assoc, add_mul, div_mul_cancel₀ _ hpow.ne']
      push_cast
      ring
    have hlost : (0 : ℚ) ≤ low / 16 ^ t ∧ (low : ℚ) / 16 ^ t < 1 := by
      refine ⟨by positivity, (div_lt_one hpow).mpr ?_⟩
      exact_mod_cast hlow
    have hsticky' : a.sticky = true ↔ (0 : ℚ) < low / 16 ^ t := by
      rw [hsticky, div_pos_iff_of_pos_right hpow, Nat.cast_pos, Nat.pos_iff_ne_zero]
    have hfull : (low : ℚ) / 16 ^ t = 0 ∨ 2 ^ 124 ≤ a.mant := by
      refine hroom.imp_left ?_
      rintro rfl
      obtain rfl : low = 0 := by omega
      simp
    have hlow_exp : -2 ^ 30 - 2 ^ 29 ≤ a.exp + cutOff p := by omega
    obtain ⟨b', hnearest', hround⟩ :=
      roundHex_eq (f := f) neg hmant hlost.1 hlost.2 hsticky' hfull hlow_exp (by omega)
    rw [hexact] at hnearest'
    obtain ⟨b, hnearest, hb⟩ := exists_nearest_cutOff (n := (di ++ df).length) (by
      refine Numerals.value_lt fun d hd => (List.mem_append.mp hd).elim (digits_lt hint d) fun hd => ?_
      cases hfrac with
      | absent => cases hd
      | empty => cases hd
      | digits h => exact digits_lt h d hd) (by rw [List.length_append]; omega) (by rw [List.length_append]; exact hdigits) hnearest'
    refine ⟨b, hnearest, ?_⟩
    have hparse : parseHexBody (wi ++ (wf ++ we)) neg f = roundHex a.mant a.sticky (a.exp + cutOff p) neg f := by
      simp [parseHexBody, hcheck, Except.toOption, hread, hdigit, hexponent]
    rw [hparse, hround]
    rcases hb with rfl | ⟨hb, hb'⟩
    · rfl
    · rw [if_neg (not_lt.mpr hb), if_neg (not_lt.mpr hb')]

end Exponents

/-! ## The reader -/

section Reader

variable {decimal : FloatFmt → List UInt8 → Option ℕ} {f : FloatFmt} {ctx : FloatCtx} {s : List UInt8} {neg : Bool}
  {v : ℚ}

/-- The characters of a number. -/
theorem Body.mem {radix : ℕ} {markers body : List UInt8} {di df : List ℕ} {p : ℤ} (h : Body radix markers body di df p) :
    ∀ c ∈ body, (toDigit radix c).isSome ∨ (toDigit 10 c).isSome ∨ c ∈ markers ∨ c ∈ [underscore, dot, plus, minus] := by
  have hrun {r : ℕ} {w : List UInt8} {ds : List ℕ} (h : Spells (toDigit r) underscore w ds) :
      ∀ c ∈ w, (toDigit r c).isSome ∨ c ∈ [underscore, dot, plus, minus] := by
    intro c hc
    refine (h.mem c hc).symm.imp_right ?_
    rintro rfl
    exact List.mem_cons_self
  cases h with
  | mk hint hfrac hexp =>
    refine List.forall_mem_append.mpr ⟨fun c hc => (hrun hint c hc).imp_right fun h => .inr (.inr h),
      List.forall_mem_append.mpr ⟨?_, ?_⟩⟩
    · cases hfrac with
      | absent => nofun
      | empty => exact List.forall_mem_singleton.mpr (.inr (.inr (.inr (by decide))))
      | digits h =>
        refine List.forall_mem_cons.mpr ⟨.inr (.inr (.inr (by decide))), fun c hc => ?_⟩
        exact (hrun h c hc).imp_right fun h => .inr (.inr h)
    · cases hexp with
      | absent => nofun
      | digits hc hsign h =>
        refine List.forall_mem_cons.mpr ⟨.inr (.inr (.inl hc)), List.forall_mem_append.mpr ⟨?_, fun c hc => ?_⟩⟩
        · cases hsign with
          | none => nofun
          | plus => exact List.forall_mem_singleton.mpr (.inr (.inr (.inr (by decide))))
          | minus => exact List.forall_mem_singleton.mpr (.inr (.inr (.inr (by decide))))
        · exact .inr ((hrun h c hc).imp_right .inr)

theorem Sign.ne_colon {sign : List UInt8} (h : Sign sign neg) : ∀ c ∈ sign, c ≠ colon := by
  cases h with
  | none => nofun
  | plus => exact List.forall_mem_singleton.mpr (by decide)
  | minus => exact List.forall_mem_singleton.mpr (by decide)

theorem Body.ne_colon {radix : ℕ} {markers body : List UInt8} {di df : List ℕ} {p : ℤ}
    (h : Body radix markers body di df p) (hdigit : toDigit radix colon = none) (hmarkers : colon ∉ markers) :
    ∀ c ∈ body, c ≠ colon := by
  rintro c hc rfl
  rcases h.mem colon hc with h | h | h | h
  · rw [hdigit] at h
    cases h
  · cases h
  · exact hmarkers h
  · revert h
    decide

theorem sepRadix_sign {sign w : List UInt8} (hsign : Sign sign neg) (hw : w.head? ≠ some plus ∧ w.head? ≠ some minus) :
    sepRadix (sign ++ w) = if (hexPrefix? w).isSome then 16 else 10 := by
  have hminus : [minus].isPrefixOf? w = none := by
    rw [Option.eq_none_iff_forall_ne_some]
    intro t ht
    rw [isPrefixOf?_singleton.mp ht] at hw
    exact hw.2 rfl
  have hsign_plus : [minus].isPrefixOf? (plus :: w) = none := rfl
  have hsign_minus : [minus].isPrefixOf? (minus :: w) = some w := rfl
  cases hsign with
  | none => rw [List.nil_append, sepRadix, hminus, Option.getD_none, stripPlus_of_ne hw.1]
  | plus => rw [List.singleton_append, sepRadix, hsign_plus, Option.getD_none, stripPlus_cons]
  | minus => rw [List.singleton_append, sepRadix, hsign_minus, Option.getD_some, stripPlus_of_ne hw.1]

/-- Hexadecimal literals are rounded correctly, with either prefix. -/
theorem parseFloatBits_hex {x : UInt8} (hx : x = 0x78 ∨ x = 0x58) (h : HexFloat x s neg v) (hlen : s.length < 2 ^ 26) :
    ∃ b, Nearest f.value v b ∧
      parseFloatBits decimal s f ctx = if b < f.expAll then some (f.signBit neg + b) else none := by
  cases h with
  | @mk sign body _ di df p hsign hbody =>
    rw [List.length_append, List.length_cons, List.length_cons] at hlen
    obtain ⟨b, hnearest, hparse⟩ := parseHexBody_eq (f := f) neg hbody (by omega)
    refine ⟨b, hnearest, ?_⟩
    rw [← hparse]
    have hprefix : hexPrefix? (0x30 :: x :: body) = some body := by
      rw [hexPrefix?_eq_some]
      exact hx.imp (fun h => by rw [h]) fun h => by rw [h]
    have hhead : (0x30 :: x :: body).head? ≠ some plus ∧ (0x30 :: x :: body).head? ≠ some minus :=
      ⟨by rintro ⟨⟩, by rintro ⟨⟩⟩
    have hcolon : (sign ++ 0x30 :: x :: body).dropWhile (· ≠ colon) = [] := by
      simp only [List.dropWhile_eq_nil_iff, decide_eq_true_eq, List.forall_mem_append, List.forall_mem_cons]
      refine ⟨hsign.ne_colon, by decide, ?_, hbody.ne_colon rfl (by decide)⟩
      rcases hx with rfl | rfl <;> decide
    have hseps : stripSeps (sign ++ 0x30 :: x :: body) = .ok (strip underscore (sign ++ 0x30 :: x :: body)) := by
      rw [stripSeps_eq_ok, sepRadix_sign hsign hhead, hprefix]
      refine ⟨?_, rfl⟩
      rw [Option.isSome_some, if_pos rfl, placed_sign hsign, placed_of_hexPrefix hprefix]
      exact ((checkFloatSyntax_iff true).mpr ⟨di, df, p, hbody⟩).2
    have hinf : (0x30 :: x :: body) ≠ utf8Bytes "inf" := fun h =>
      absurd (congrArg List.head? h) (by rw [List.head?_cons]; decide)
    have hnan : (0x30 :: x :: body) ≠ utf8Bytes "nan" := fun h =>
      absurd (congrArg List.head? h) (by rw [List.head?_cons]; decide)
    simp only [parseFloatBits, hcolon, hseps, Except.toOption, takeSign_append hsign hhead, if_neg hinf, if_neg hnan,
      hprefix, Option.bind_eq_bind, Option.bind_some]

/-- A payload that only the reader of integers lets through. -/
def LaxPayload (f : FloatFmt) (s : List UInt8) : Prop :=
  ∃ sign neg tail n, s = sign ++ utf8Bytes "nan:" ++ tail ∧ Sign sign neg ∧ (Field.payload f).LaxLiteral tail n ∧
    (Field.payload f).Fits n

/-- A NaN that is accepted is `nan` with a sign, and what follows the colon is a pattern or a payload. -/
theorem parseNan_isSome {head tail : List UInt8} (h : (parseNan head tail f ctx).isSome) :
    ∃ sign neg, Sign sign neg ∧ head = sign ++ utf8Bytes "nan" ∧
      (ctx = .ofScript ∧ tail ∈ ["canonical", "arithmetic"].map utf8Bytes ∨ ∃ n, nanPayload f tail = some n) := by
  have hhead : head ∈ ["nan", "+nan", "-nan"].map utf8Bytes := by
    by_contra hhead
    rw [parseNan, if_pos hhead] at h
    cases h
  rw [parseNan, if_neg (not_not.mpr hhead), Option.isSome_map, nanBits] at h
  have htail : ctx = .ofScript ∧ tail ∈ ["canonical", "arithmetic"].map utf8Bytes ∨ ∃ n, nanPayload f tail = some n := by
    split_ifs at h with hpattern hctx
    · cases h
    · refine .inl ⟨?_, by simpa using hpattern⟩
      cases ctx with
      | ofModule => exact absurd rfl hctx
      | ofScript => rfl
    · rw [Option.isSome_map] at h
      exact .inr (Option.isSome_iff_exists.mp h)
  simp only [List.map_cons, List.map_nil, List.mem_cons, List.not_mem_nil, or_false] at hhead
  rcases hhead with rfl | rfl | rfl
  · exact ⟨[], false, .none, rfl, htail⟩
  · exact ⟨[plus], false, .plus, rfl, htail⟩
  · exact ⟨[minus], true, .minus, rfl, htail⟩

/-- What is accepted is a literal, but for the prefix `0X` and payloads with a sign. -/
theorem literal_of_parseFloatBits {bits : ℕ} (h : parseFloatBits decimal s f ctx = some bits) :
    FloatLiteral f ctx s ∨ (∃ neg v, HexFloat 0x58 s neg v) ∨ LaxPayload f s := by
  unfold parseFloatBits at h
  split at h
  · rename_i c tail hcolon
    obtain ⟨sign, neg, hsign, hhead, htail⟩ := parseNan_isSome (Option.isSome_of_mem h)
    have hs : s = sign ++ utf8Bytes "nan:" ++ tail := by
      have hc : c = colon := by
        have hhead := List.head?_dropWhile_not (fun c => decide (c ≠ colon)) s
        rw [hcolon] at hhead
        simpa using hhead
      have hsplit := List.takeWhile_append_dropWhile (p := fun c => decide (c ≠ colon)) (l := s)
      rw [hcolon, hhead, hc] at hsplit
      rw [← hsplit, List.append_assoc, List.append_assoc]
      rfl
    subst hs
    rcases htail with ⟨hctx, htail⟩ | ⟨n, hn⟩
    · exact .inl (.pattern hsign hctx htail)
    · obtain ⟨⟨hn | hlax, hprefix⟩, hfits⟩ := Field.nanPayload_eq_some_iff.mp hn
      · exact .inl (.payload hsign (Field.literal_payload_iff.mpr ⟨hn, hprefix⟩) hfits)
      · exact .inr (.inr ⟨sign, neg, tail, n, rfl, hsign, ⟨hlax, hprefix⟩, hfits⟩)
  · rename_i hcolon
    simp only [Option.bind_eq_bind, Option.bind_eq_some_iff] at h
    obtain ⟨t, hseps, h⟩ := h
    obtain ⟨sign, hs, hsign⟩ := exists_takeSign s
    generalize takeSign s = r at h hs hsign
    obtain ⟨neg, w⟩ := r
    dsimp only at h hs hsign
    subst hs
    split_ifs at h with hinf hnan
    · subst hinf
      exact .inl (.inf hsign)
    · subst hnan
      exact .inl (.nan hsign)
    · split at h
      · rename_i hprefix
        simp only [parseDecimalBody, Option.bind_eq_bind, Option.bind_eq_some_iff] at h
        obtain ⟨_, hcheck, -⟩ := h
        rw [toOption_eq_some] at hseps hcheck
        have hplaced := (stripSeps_eq_ok.mp hseps).1
        rw [sepRadix_sign hsign (head_of_checkFloatSyntax hcheck), hprefix, placed_sign hsign] at hplaced
        obtain ⟨di, df, p, hbody⟩ := (checkFloatSyntax_iff false).mp ⟨hcheck, hplaced⟩
        exact .inl (.decimal hsign hbody)
      · rename_i body hprefix
        simp only [parseHexBody, Option.bind_eq_bind, Option.bind_eq_some_iff] at h
        obtain ⟨_, hcheck, -⟩ := h
        rw [toOption_eq_some] at hseps hcheck
        have hplaced := (stripSeps_eq_ok.mp hseps).1
        have hhead : w.head? ≠ some plus ∧ w.head? ≠ some minus := by
          rcases hexPrefix?_eq_some.mp hprefix with rfl | rfl <;> exact ⟨by rintro ⟨⟩, by rintro ⟨⟩⟩
        rw [sepRadix_sign hsign hhead, hprefix, placed_sign hsign, placed_of_hexPrefix hprefix] at hplaced
        obtain ⟨di, df, p, hbody⟩ := (checkFloatSyntax_iff true).mp ⟨hcheck, hplaced⟩
        rcases hexPrefix?_eq_some.mp hprefix with rfl | rfl
        · exact .inl (.hex (.mk hsign hbody))
        · exact .inr (.inl ⟨_, _, .mk hsign hbody⟩)

theorem head_of_body {radix : ℕ} {markers body : List UInt8} {di df : List ℕ} {p : ℤ}
    (h : Body radix markers body di df p) : body.head? ≠ some plus ∧ body.head? ≠ some minus := by
  cases h with
  | @mk wi wf we _ _ _ hint hfrac hexp =>
    have hhead := head_of_spells hint
    rwa [← List.head?_append_of_ne_nil _ hint.ne_nil] at hhead

theorem HexFloat.rest {x : UInt8} (h : HexFloat x s neg v) : ∃ body, (takeSign s).2 = 0x30 :: x :: body := by
  cases h with
  | @mk sign body _ _ _ _ hsign hbody =>
    rw [takeSign_append hsign ⟨by rintro ⟨⟩, by rintro ⟨⟩⟩]
    exact ⟨body, rfl⟩

/-- What follows the sign of a literal. -/
theorem FloatLiteral.rest (h : FloatLiteral f ctx s) :
    (∃ body, (takeSign s).2 = 0x30 :: 0x78 :: body) ∨ (∃ di df p, Body 10 (markers false) (takeSign s).2 di df p) ∨
      (takeSign s).2 = utf8Bytes "inf" ∨ (takeSign s).2 = utf8Bytes "nan" ∨
      ∃ tail, (takeSign s).2 = utf8Bytes "nan:" ++ tail ∧
        ((∃ n, (Field.payload f).Literal tail n) ∨ tail ∈ ["canonical", "arithmetic"].map utf8Bytes) := by
  cases h with
  | hex h => exact .inl h.rest
  | decimal hsign hbody =>
    rw [takeSign_append hsign (head_of_body hbody)]
    exact .inr (.inl ⟨_, _, _, hbody⟩)
  | inf hsign =>
    rw [takeSign_append hsign (by decide)]
    exact .inr (.inr (.inl rfl))
  | nan hsign =>
    rw [takeSign_append hsign (by decide)]
    exact .inr (.inr (.inr (.inl rfl)))
  | @payload sign tail neg n hsign htail hfits =>
    rw [List.append_assoc, takeSign_append hsign ⟨by rintro ⟨⟩, by rintro ⟨⟩⟩]
    exact .inr (.inr (.inr (.inr ⟨tail, rfl, .inl ⟨n, htail⟩⟩)))
  | @pattern sign tail neg hsign hctx htail =>
    rw [List.append_assoc, takeSign_append hsign ⟨by rintro ⟨⟩, by rintro ⟨⟩⟩]
    exact .inr (.inr (.inr (.inr ⟨tail, rfl, .inr htail⟩)))

/-- The prefix `0X` makes no literal. -/
theorem HexFloat.not_literal (h : HexFloat 0x58 s neg v) : ¬ FloatLiteral f ctx s := by
  obtain ⟨body, hcapital⟩ := h.rest
  intro hliteral
  have hrest := hliteral.rest
  rw [hcapital] at hrest
  rcases hrest with ⟨body, hrest⟩ | ⟨di, df, p, hbody⟩ | hrest | hrest | ⟨tail, hrest, -⟩
  · cases hrest
  · exact absurd (hbody.mem 0x58 (.tail _ (.head _))) (by decide)
  · exact absurd (congrArg List.head? hrest) (by rw [List.head?_cons]; decide)
  · exact absurd (congrArg List.head? hrest) (by rw [List.head?_cons]; decide)
  · exact absurd (congrArg List.head? hrest) (by rintro ⟨⟩)

/-- What has a prefix is no pattern. -/
theorem not_pattern_of_hexPrefix {tail : List UInt8} (h : (hexPrefix? tail).isSome) :
    tail ∉ ["canonical", "arithmetic"].map utf8Bytes := by
  intro hpattern
  simp only [List.map_cons, List.map_nil, List.mem_cons, List.not_mem_nil, or_false] at hpattern
  rcases hpattern with rfl | rfl
  · revert h
    decide
  · revert h
    decide

/-- A payload with a sign makes none. -/
theorem LaxPayload.not_literal (h : LaxPayload f s) : ¬ FloatLiteral f ctx s := by
  obtain ⟨sign, neg, tail, n, rfl, hsign, ⟨hlax, hprefix⟩, -⟩ := h
  intro hliteral
  have hrest := hliteral.rest
  rw [List.append_assoc, takeSign_append hsign ⟨by rintro ⟨⟩, by rintro ⟨⟩⟩] at hrest
  dsimp only at hrest
  have hhead : (utf8Bytes "nan:" ++ tail).head? = some 0x6e := rfl
  rcases hrest with ⟨body, hrest⟩ | ⟨di, df, p, hbody⟩ | hrest | hrest | ⟨tail', hrest, htail⟩
  · rw [hrest] at hhead
    cases hhead
  · exact absurd (hbody.mem 0x6e (List.mem_of_mem_head? hhead)) (by decide)
  · rw [hrest] at hhead
    exact absurd hhead (by decide)
  · exact absurd (congrArg List.length hrest) (by
      rw [List.length_append]
      have hlen : (utf8Bytes "nan:").length = (utf8Bytes "nan").length + 1 := by decide
      omega)
  · rw [← List.append_cancel_left hrest] at htail
    rcases htail with ⟨m, hliteral⟩ | hpattern
    · exact hliteral.unsigned.not_lax hlax
    · exact not_pattern_of_hexPrefix hprefix hpattern

/-- And is accepted all the same. -/
theorem LaxPayload.accepted (h : LaxPayload f s) : parseFloatBits decimal s f ctx ≠ none := by
  obtain ⟨sign, neg, tail, n, rfl, hsign, ⟨hlax, hprefix⟩, hfits⟩ := h
  have hpayload : nanPayload f tail = some n := Field.nanPayload_eq_some_iff.mpr ⟨⟨.inr hlax, hprefix⟩, hfits⟩
  have hbits : (nanBits tail f ctx).isSome := by
    have hnot := not_pattern_of_hexPrefix hprefix
    simp only [List.map_cons, List.map_nil, List.mem_cons, List.not_mem_nil, or_false] at hnot
    rw [nanBits, if_neg hnot, hpayload]
    rfl
  have hnan (head : List UInt8) (hhead : head ∈ ["nan", "+nan", "-nan"].map utf8Bytes) :
      parseNan head tail f ctx ≠ none := by
    rw [parseNan, if_neg (not_not.mpr hhead), ← Option.isSome_iff_ne_none, Option.isSome_map]
    exact hbits
  cases hsign with
  | none => exact hnan (utf8Bytes "nan") (by decide)
  | plus => exact hnan (utf8Bytes "+nan") (by decide)
  | minus => exact hnan (utf8Bytes "-nan") (by decide)

end Reader

/-! ## Reading exactly -/

section Exact

variable (decimal : FloatFmt → List UInt8 → Option ℕ) (f : FloatFmt) (ctx : FloatCtx) (s : List UInt8)

/-- A hexadecimal literal is given the pattern to which it rounds, or refused when it rounds to infinity, and what is no
literal is refused. -/
def ReadsFloatExactly : Prop :=
  (∀ neg v, HexFloat 0x78 s neg v → s.length < 2 ^ 26 → ∃ b, Nearest f.value v b ∧
      parseFloatBits decimal s f ctx = if b < f.expAll then some (f.signBit neg + b) else none) ∧
    (¬ FloatLiteral f ctx s → parseFloatBits decimal s f ctx = none)

/-- What is taken for a literal: a finite number with the prefix `0X`, or a payload with a sign or that prefix. -/
def MisreadsFloat : Prop :=
  (∃ neg v b, HexFloat 0x58 s neg v ∧ Nearest f.value v b ∧ b < f.expAll) ∨ LaxPayload f s

/-- Texts below 2 ^ 26 characters are read exactly just in case they are none of those that are let through, and longer
ones if they do not look like them. -/
theorem floats_read_exactly_iff :
    (s.length < 2 ^ 26 → (ReadsFloatExactly decimal f ctx s ↔ ¬ MisreadsFloat f s)) ∧
      ((∀ neg v, ¬ HexFloat 0x58 s neg v) → ¬ LaxPayload f s → ReadsFloatExactly decimal f ctx s) := by
  have hhex : ∀ neg v, HexFloat 0x78 s neg v → s.length < 2 ^ 26 → ∃ b, Nearest f.value v b ∧
      parseFloatBits decimal s f ctx = if b < f.expAll then some (f.signBit neg + b) else none :=
    fun neg v h hlen => parseFloatBits_hex (.inl rfl) h hlen
  refine ⟨fun hlen => ⟨?_, fun hexact => ⟨hhex, fun hnot => ?_⟩⟩, fun hcapital hlax => ⟨hhex, fun hnot => ?_⟩⟩
  · rintro ⟨-, hrefuse⟩ (⟨neg, v, b, hcapital, hnearest, hfinite⟩ | hlax)
    · obtain ⟨b', hnearest', hparse⟩ : ∃ b', Nearest f.value v b' ∧ parseFloatBits decimal s f ctx = _ :=
        parseFloatBits_hex (.inr rfl) hcapital hlen
      rw [hnearest'.unique f.value_strictMono hnearest, if_pos hfinite, hrefuse hcapital.not_literal] at hparse
      cases hparse
    · exact hlax.accepted (hrefuse hlax.not_literal)
  · by_contra hsome
    obtain ⟨bits, hbits⟩ := Option.ne_none_iff_exists'.mp hsome
    rcases literal_of_parseFloatBits hbits with h | ⟨neg, v, hcapital⟩ | hlax
    · exact hnot h
    · obtain ⟨b, hnearest, hparse⟩ := parseFloatBits_hex (f := f) (.inr rfl) hcapital hlen
      rw [hparse] at hbits
      split_ifs at hbits with hfinite
      exact hexact (.inl ⟨neg, v, b, hcapital, hnearest, hfinite⟩)
    · exact hexact (.inr hlax)
  · by_contra hsome
    obtain ⟨bits, hbits⟩ := Option.ne_none_iff_exists'.mp hsome
    rcases literal_of_parseFloatBits hbits with h | ⟨neg, v, h⟩ | h
    · exact hnot h
    · exact hcapital neg v h
    · exact hlax h

/-- The text `0x0` is one of them. -/
theorem zero_read_exactly : ReadsFloatExactly (fun _ _ => none) .f32 .ofModule [0x30, 0x78, 0x30] := by
  refine (floats_read_exactly_iff (fun _ _ => none) .f32 .ofModule [0x30, 0x78, 0x30]).2 (fun neg v h => ?_) fun h => ?_
  · obtain ⟨body, hrest⟩ := h.rest
    cases hrest
  · obtain ⟨sign, neg, tail, n, hs, hsign, -, -⟩ := h
    have hrest := congrArg (fun s => (takeSign s).2.head?) hs
    rw [List.append_assoc, takeSign_append hsign ⟨by rintro ⟨⟩, by rintro ⟨⟩⟩] at hrest
    cases hrest

/-- The prefix `0X` is let through, and so is the payload `+1`. -/
theorem misread_floats :
    parseFloatBits (fun _ _ => none) [0x30, 0x58, 0x30] .f32 .ofModule = some 0 ∧
      parseFloatBits (fun _ _ => none) (utf8Bytes "nan:0x+1") .f64 .ofModule = some 0x7ff0000000000001 ∧
      ¬ ReadsFloatExactly (fun _ _ => none) .f32 .ofModule [0x30, 0x58, 0x30] ∧
      ¬ ReadsFloatExactly (fun _ _ => none) .f64 .ofModule (utf8Bytes "nan:0x+1") := by
  have hcapital : parseFloatBits (fun _ _ => none) [0x30, 0x58, 0x30] .f32 .ofModule = some 0 := rfl
  have hpayload : parseFloatBits (fun _ _ => none) (utf8Bytes "nan:0x+1") .f64 .ofModule = some 0x7ff0000000000001 :=
    rfl
  have hspells (radix : ℕ) (w : List UInt8) (ds : List ℕ) :
      _ → Spells (toDigit radix) underscore w ds := (Numerals.spells_iff (toDigit_underscore radix)).mpr
  refine ⟨hcapital, hpayload, fun h => ?_, fun h => ?_⟩
  · have hlax : HexFloat 0x58 [0x30, 0x58, 0x30] false _ :=
      .mk .none (.mk (hspells 16 [0x30] [0] (by decide)) .absent .absent)
    rw [h.2 hlax.not_literal] at hcapital
    cases hcapital
  · have hlax : LaxPayload .f64 (utf8Bytes "nan:0x+1") :=
      ⟨[], false, utf8Bytes "0x+1", _, by decide, .none, ⟨.hex (hspells 16 [0x31] [1] (by decide)), by decide⟩, by
        simp [Field.Fits, FloatFmt.mantBits]⟩
    rw [h.2 hlax.not_literal] at hpayload
    cases hpayload

end Exact

end Wasmrt.Wat
