import Wasmrt.Sexpr.Lexemes

/-!
# Strings are scanned exactly

How parsers run, and the scanner of strings: it reads what the lexical grammar takes for a string, and nothing else.

## Main results

* `readsAt_stay`, `readsAt_take`, `readsAt_after`, `readsAt_fail`: exactness of a parser that takes one branch.
* `readsAt_parseString`: strings.
* `StringLit.raw`: a string is also one to a scanner that does not look inside.
-/

namespace Wasmrt.Sexpr

open Recognizer (Exact ExactAt Iterates)

/-- Exactness of a parser at a cursor. -/
abbrev ReadsAt {α : Type} (p : Parser α) (R : α → List UInt8 → List UInt8 → Prop) (c : Cursor) : Prop :=
  ExactAt Cursor.rest none p R c

/-! ## Running parsers -/

section Run

variable {α β : Type} {R : α → List UInt8 → List UInt8 → Prop} {c : Cursor}

@[simp]
theorem ahead_bind (f : List UInt8 → Parser α) (c : Cursor) : (ahead >>= f) c = f c.rest c := rfl

@[simp]
theorem advance_bind (n : ℕ) (f : Unit → Parser α) (c : Cursor) :
    (advance n >>= f) c = f () ⟨c.pos + n, c.rest.drop n⟩ := rfl

theorem bind_run {p : Parser α} {f : α → Parser β} {a : α} {c c' : Cursor} (h : p c = .ok (a, c')) :
    (p >>= f) c = f a c' := by
  have hbind : (p >>= f) c = (p c >>= fun x => f x.1 x.2) := rfl
  rw [hbind, h]
  rfl

@[simp]
theorem pure_run (a : α) (c : Cursor) : (pure a : Parser α) c = .ok (a, c) := rfl

@[simp]
theorem fail_run (kind : ParseErrorKind) (c : Cursor) : (fail kind : Parser α) c = .error (some ⟨kind, c.pos⟩) := rfl

@[simp]
theorem ite_run (p : Prop) [Decidable p] (f g : Parser α) (c : Cursor) :
    (if p then f else g) c = if p then f c else g c := by
  split <;> rfl

/-- A parser that stands still, where the relation leaves nothing else to do. -/
theorem readsAt_stay {p : Parser α} {a : α} (h : p c = .ok (a, c)) (hread : R a [] c.rest)
    (honly : ∀ b w r, c.rest = w ++ r → R b w r → b = a ∧ w = []) : ReadsAt p R c :=
  .of_ok h rfl hread honly

/-- A parser that takes the next bytes, where the relation leaves nothing else to do. -/
theorem readsAt_take {p : Parser α} {a : α} {pos j : ℕ} (w rest : List UInt8)
    (h : p ⟨pos, w ++ rest⟩ = .ok (a, ⟨j, rest⟩)) (hread : R a w rest)
    (honly : ∀ b w' r, w ++ rest = w' ++ r → R b w' r → b = a ∧ w' = w) : ReadsAt p R ⟨pos, w ++ rest⟩ :=
  .of_ok h rfl hread honly

/-- A parser that takes the next bytes before another. -/
theorem readsAt_after {p q : Parser α} {pos j : ℕ} {R' : α → List UInt8 → List UInt8 → Prop} (u v : List UInt8)
    (h : p ⟨pos, u ++ v⟩ = q ⟨j, v⟩) (hq : ReadsAt q R' ⟨j, v⟩)
    (hR : ∀ a w r, u ++ v = w ++ r → (R a w r ↔ ∃ w', w = u ++ w' ∧ R' a w' r)) : ReadsAt p R ⟨pos, u ++ v⟩ where
  sound a s' hok := by
    obtain ⟨w, hrest, hread⟩ := hq.sound a s' (h.symm.trans hok)
    have hinput : u ++ v = (u ++ w) ++ s'.rest := by rw [List.append_assoc, ← hrest]
    exact ⟨u ++ w, hinput, (hR _ _ _ hinput).mpr ⟨w, rfl, hread⟩⟩
  complete a w r hinput hread := by
    obtain ⟨w', rfl, hread'⟩ := (hR a w r hinput).mp hread
    rw [List.append_assoc] at hinput
    rw [h]
    exact hq.complete a w' r (List.append_cancel_left hinput) hread'
  ends hfail := hq.ends (h.symm.trans hfail)

theorem readsAt_fail {p : Parser α} {x : ParseError} (h : p c = .error (some x))
    (hR : ∀ a w r, c.rest = w ++ r → ¬ R a w r) : ReadsAt p R c :=
  .fail h nofun hR

end Run

/-! ## Escapes -/

theorem hexVal_rbrace : hexVal rbrace = none := by decide

theorem hexVal_u : hexVal 0x75 = none := by decide

/-- No letter of a simple escape is a hexadecimal digit. -/
theorem hexVal_of_simpleEscape {e v : UInt8} (h : simpleEscape e = some v) : hexVal e = none := by
  unfold simpleEscape at h
  split_ifs at h with h₁ h₂ h₃ h₄
  · subst h₁; decide
  · subst h₂; decide
  · subst h₃; decide
  · rcases h₄ with rfl | rfl | rfl <;> decide

/-- One digit, or none more. -/
inductive DigitStep : ℕ → ℕ ⊕ ℕ → List UInt8 → List UInt8 → Prop
  | stop {cp : ℕ} {r : List UInt8} (hstop : ∀ c ∈ r.head?, c = rbrace) : DigitStep cp (.inr cp) [] r
  | digit {cp : ℕ} {c d : UInt8} {r : List UInt8} (hdigit : hexVal c = some d) (hfits : cp * 16 + d.toNat < 2 ^ 32) :
      DigitStep cp (.inl (cp * 16 + d.toNat)) [c] r

theorem exact_digitStep (cp : ℕ) : Exact Cursor.rest none (digitStep cp) (DigitStep cp) := by
  rintro ⟨pos, _ | ⟨c, rest⟩⟩
  · refine readsAt_stay rfl (.stop nofun) ?_
    rintro b w r hinput (_ | _)
    · exact ⟨rfl, rfl⟩
    · cases hinput
  by_cases hc : c = rbrace
  · subst hc
    refine readsAt_stay (by simp [digitStep]) (.stop (by simp)) ?_
    rintro b w r hinput (_ | ⟨hdigit, _⟩)
    · exact ⟨rfl, rfl⟩
    · cases hinput
      cases hexVal_rbrace.symm.trans hdigit
  cases hd : hexVal c with
  | none =>
    refine readsAt_fail (x := ⟨.badEscape, pos⟩) (by simp [digitStep, hc, hd]) ?_
    rintro b w r hinput (⟨hstop⟩ | ⟨hdigit, _⟩)
    · obtain rfl := hinput
      exact hc (hstop c rfl)
    · cases hinput
      cases hd.symm.trans hdigit
  | some d =>
    by_cases hfits : cp * 16 + d.toNat < 2 ^ 32
    · refine readsAt_take (j := pos + 1) [c] rest ?_ (.digit hd hfits) ?_
      · simp only [digitStep, ahead_bind, List.singleton_append, hc, hd, if_neg, not_false_eq_true, hfits, if_pos]
        rfl
      · rintro b w r hinput (⟨hstop⟩ | ⟨hdigit, _⟩)
        · obtain rfl := hinput
          exact absurd (hstop c rfl) hc
        · cases hinput
          cases hd.symm.trans hdigit
          exact ⟨rfl, rfl⟩
    · refine readsAt_fail (x := ⟨.badEscape, pos⟩) (by simp only [digitStep, ahead_bind, hc, hd, hfits, if_false]; rfl) ?_
      rintro b w r hinput (⟨hstop⟩ | ⟨hdigit, hfits'⟩)
      · obtain rfl := hinput
        exact hc (hstop c rfl)
      · cases hinput
        cases hd.symm.trans hdigit
        exact hfits hfits'

/-- The digits run up to the brace that closes them. -/
theorem exact_digits (cp : ℕ) : Exact Cursor.rest none (loop digitStep cp)
    (fun cp' w r => Digits cp cp' w ∧ ∀ c ∈ r.head?, c = rbrace) := by
  refine Recognizer.exact_loopM_of_unroll (G := fun cp cp' w r => Digits cp cp' w ∧ ∀ c ∈ r.head?, c = rbrace)
    exact_digitStep ?_ ?_ cp
  · rintro a a' w r (_ | _)
    exact List.cons_ne_nil _ _
  · intro cp cp' w r
    constructor
    · rintro ⟨_ | ⟨hdigit, hfits, hrest⟩, hstop⟩
      · exact .inl (.stop hstop)
      · exact .inr ⟨_, [_], _, rfl, .digit hdigit hfits, hrest, hstop⟩
    · rintro (hstep | ⟨a', w₁, w₂, rfl, hstep, hrest, hstop⟩)
      · cases hstep with
        | stop hstop => exact ⟨.nil _, hstop⟩
      · cases hstep with
        | digit hdigit hfits => exact ⟨.cons hdigit hfits hrest, hstop⟩

/-- What follows the `u` of an escape. -/
inductive UnicodeTail : List UInt8 → List UInt8 → List UInt8 → Prop
  | intro {cp : ℕ} {ds bytes r : List UInt8} (hdigits : Digits 0 cp ds) (hchar : encodeChar cp = some bytes) :
      UnicodeTail bytes (lbrace :: (ds ++ [rbrace])) r

/-- A Unicode escape after its digits: the brace, and the character. -/
def closeEscape (cp : ℕ) : Parser (List UInt8) := do
  if (← ahead) = [] then fail .badEscape
  else
    advance 1
    match encodeChar cp with
    | none => fail .badEscape
    | some bytes => pure bytes

theorem exact_parseUnicodeEscape : Exact Cursor.rest none parseUnicodeEscape UnicodeTail := by
  rintro ⟨pos, rest⟩
  by_cases hhead : rest.head? = some lbrace
  · obtain ⟨rest, rfl⟩ := List.head?_eq_some_iff.mp hhead
    -- the digits, then the brace and the character
    have hclose : ∀ cp c, (∀ b ∈ c.rest.head?, b = rbrace) →
        ReadsAt (closeEscape cp) (fun bytes w _ => w = [rbrace] ∧ encodeChar cp = some bytes) c := by
      rintro cp ⟨pos, _ | ⟨b, rest⟩⟩ hstop
      · refine readsAt_fail (x := ⟨.badEscape, pos⟩) rfl ?_
        rintro a w r hinput ⟨rfl, _⟩
        cases hinput
      · obtain rfl := hstop b rfl
        cases hchar : encodeChar cp with
        | none =>
          refine readsAt_fail (x := ⟨.badEscape, pos + 1⟩) (by simp [closeEscape, hchar]) ?_
          rintro a w r _ ⟨_, hsome⟩
          cases hsome
        | some bytes =>
          refine readsAt_take (j := pos + 1) [rbrace] rest (by simp [closeEscape, hchar]; rfl) ⟨rfl, rfl⟩ ?_
          rintro a w r _ ⟨rfl, hsome⟩
          cases hsome
          exact ⟨rfl, rfl⟩
    refine readsAt_after (j := pos + 1) [lbrace] rest (q := loop digitStep 0 >>= closeEscape) ?_
      ((exact_digits 0 _).bind fun cp c hok => hclose cp c ?_) ?_
    · simp only [parseUnicodeEscape, ahead_bind, ne_eq]
      rfl
    · obtain ⟨_, _, _, hstop⟩ := (exact_digits 0 _).sound _ _ hok
      exact hstop
    · intro bytes w r _
      constructor
      · rintro ⟨hdigits, hchar⟩
        exact ⟨_, rfl, _, _, [rbrace], rfl, ⟨hdigits, by simp⟩, rfl, hchar⟩
      · rintro ⟨_, rfl, cp, ds, _, rfl, ⟨hdigits, _⟩, rfl, hchar⟩
        exact .intro hdigits hchar
  · refine readsAt_fail (x := ⟨.badEscape, pos⟩) (by simp [parseUnicodeEscape, hhead]) ?_
    rintro bytes w r hinput ⟨_, _⟩
    obtain rfl := hinput
    exact hhead rfl

theorem exact_parseEscape :
    Exact Cursor.rest none parseEscape (fun bytes w _ => Escape false bytes w) := by
  rintro ⟨pos, _ | ⟨e, rest⟩⟩
  · refine readsAt_fail (x := ⟨.badEscape, pos⟩) rfl ?_
    rintro bytes w r hinput (_ | _ | _) <;> cases hinput
  cases hsimple : simpleEscape e with
  | some v =>
    refine readsAt_take (j := pos + 1) [e] rest (by simp [parseEscape, hsimple]) (.simple hsimple) ?_
    rintro bytes w r hinput (hsimple' | ⟨hhi, _⟩ | _)
    · cases hinput
      cases hsimple.symm.trans hsimple'
      exact ⟨rfl, rfl⟩
    · cases hinput
      cases hhi.symm.trans (hexVal_of_simpleEscape hsimple)
    · cases hinput
      cases hsimple
  | none =>
    by_cases hu : e = 0x75
    · subst hu
      refine readsAt_after (j := pos + 1) [0x75] rest (q := parseUnicodeEscape) (by simp [parseEscape, hsimple])
        (exact_parseUnicodeEscape _) ?_
      intro bytes w r hinput
      constructor
      · rintro (hsimple' | ⟨hhi, _⟩ | ⟨hdigits, hchar, _⟩)
        · cases hinput
          cases hsimple.symm.trans hsimple'
        · cases hinput
          cases hexVal_u.symm.trans hhi
        · exact ⟨_, rfl, .intro hdigits hchar⟩
      · rintro ⟨_, rfl, ⟨hdigits, hchar⟩⟩
        exact .unicode hdigits hchar nofun
    cases hhi : hexVal e with
    | none =>
      refine readsAt_fail (x := ⟨.badEscape, pos + 1⟩) (by simp [parseEscape, hsimple, hu, hhi]) ?_
      rintro bytes w r hinput (hsimple' | ⟨hhi', _⟩ | _) <;> cases hinput
      · cases hsimple.symm.trans hsimple'
      · cases hhi.symm.trans hhi'
      · exact hu rfl
    | some hi =>
      cases hlo : rest.head?.bind hexVal with
      | none =>
        refine readsAt_fail (x := ⟨.badEscape, pos + 1⟩) (by simp [parseEscape, hsimple, hu, hhi, hlo]) ?_
        rintro bytes w r hinput (hsimple' | ⟨_, hlo'⟩ | _) <;> cases hinput
        · cases hsimple.symm.trans hsimple'
        · cases hlo.symm.trans hlo'
        · exact hu rfl
      | some lo =>
        obtain ⟨d, hd, hlo'⟩ := Option.bind_eq_some_iff.mp hlo
        obtain ⟨rest, rfl⟩ := List.head?_eq_some_iff.mp hd
        refine readsAt_take (j := pos + 1 + 1) [e, d] rest ?_ (.hex hhi hlo') ?_
        · simp [parseEscape, hsimple, hu, hhi, hlo']
          rfl
        · rintro bytes w r hinput (hsimple' | ⟨hhi', hlo''⟩ | _) <;> cases hinput
          · cases hsimple.symm.trans hsimple'
          · cases hhi.symm.trans hhi'
            cases hlo'.symm.trans hlo''
            exact ⟨rfl, rfl⟩
          · exact absurd rfl hu

/-! ## Strings -/

theorem utf8Len_eq_some {c : UInt8} {len : ℕ} (h : utf8Len c = some len) :
    (0xc2 ≤ c.toNat ∧ c.toNat ≤ 0xdf ∧ len = 2) ∨ (0xe0 ≤ c.toNat ∧ c.toNat ≤ 0xef ∧ len = 3) ∨
      (0xf0 ≤ c.toNat ∧ c.toNat ≤ 0xf4 ∧ len = 4) := by
  unfold utf8Len at h
  simp only [UInt8.le_iff_toNat_le, UInt8.reduceToNat] at h
  split_ifs at h <;> cases h <;> omega

theorem utf8Len_of_lt {c : UInt8} (h : c < 0x80) : utf8Len c = none := by
  have hc : c.toNat < 0x80 := UInt8.lt_iff_toNat_lt.mp h
  cases hlen : utf8Len c with
  | none => rfl
  | some len =>
    have := utf8Len_eq_some hlen
    omega

theorem utf8Len_ne_zero {c : UInt8} {len : ℕ} (h : utf8Len c = some len) : len ≠ 0 := by
  have := utf8Len_eq_some h
  omega

theorem StringItem.ne_nil {strict : Bool} {b w : List UInt8} (h : StringItem strict b w) : w ≠ [] := by
  cases h <;> exact List.cons_ne_nil _ _

/-- One character of a string, or its end. -/
inductive StringStep (buf : List UInt8) : List UInt8 ⊕ List UInt8 → List UInt8 → List UInt8 → Prop
  | close {r : List UInt8} : StringStep buf (.inr buf) [quote] r
  | item {b w r : List UInt8} (h : StringItem false b w) : StringStep buf (.inl (buf ++ b)) w r

theorem exact_stringStep (buf : List UInt8) : Exact Cursor.rest none (stringStep buf) (StringStep buf) := by
  rintro ⟨pos, _ | ⟨c, rest⟩⟩
  · refine readsAt_fail (x := ⟨.unterminatedString, pos⟩) rfl ?_
    rintro x w r hinput (_ | hitem)
    · cases hinput
    · exact hitem.ne_nil (List.append_eq_nil_iff.mp hinput.symm).1
  by_cases hquote : c = quote
  · subst hquote
    refine readsAt_take (j := pos + 1) [quote] rest (by simp [stringStep]; rfl) .close ?_
    rintro x w r hinput (_ | hitem)
    · exact ⟨rfl, rfl⟩
    · cases hitem with
      | plain hquote => cases hinput; exact absurd rfl hquote
      | utf8 hlead => cases hinput; cases hlead
      | escape => cases hinput
  by_cases hbackslash : c = backslash
  · subst hbackslash
    refine readsAt_after (j := pos + 1) [backslash] rest (q := parseEscape >>= fun bytes => pure (.inl (buf ++ bytes)))
      rfl ((exact_parseEscape _).bind fun bytes c _ => .pure _) ?_
    intro x w r hinput
    constructor
    · rintro (_ | hitem)
      · cases hinput
      · cases hitem with
        | plain _ hbackslash => cases hinput; exact absurd rfl hbackslash
        | utf8 hlead => cases hinput; cases hlead
        | escape h => exact ⟨_, rfl, _, _, [], (List.append_nil _).symm, h, rfl, rfl⟩
    · rintro ⟨_, rfl, bytes, w, _, rfl, h, rfl, rfl⟩
      rw [List.append_nil]
      exact .item (.escape h)
  by_cases hprints : c < 0x20 ∨ c = 0x7f
  · refine readsAt_fail (x := ⟨.illegalCharacter, pos⟩) (by simp [stringStep, hquote, hbackslash, hprints]) ?_
    rintro x w r hinput (_ | hitem)
    · cases hinput
      exact hquote rfl
    · cases hitem with
      | plain _ _ hprints' => cases hinput; exact hprints' hprints
      | utf8 hlead =>
        cases hinput
        rcases hprints with hlt | rfl
        · cases (utf8Len_of_lt (UInt8.lt_trans hlt (by decide))).symm.trans hlead
        · cases hlead
      | escape => cases hinput; exact hbackslash rfl
  by_cases hascii : c < 0x80
  · refine readsAt_take (j := pos + 1) [c] rest ?_ (.item (.plain hquote hbackslash hprints hascii)) ?_
    · simp [stringStep, hquote, hbackslash, hprints, hascii]
      rfl
    · rintro x w r hinput (_ | hitem)
      · cases hinput
        exact absurd rfl hquote
      · cases hitem with
        | plain => cases hinput; exact ⟨rfl, rfl⟩
        | utf8 hlead => cases hinput; cases (utf8Len_of_lt hascii).symm.trans hlead
        | escape => cases hinput; exact absurd rfl hbackslash
  cases hlead : utf8Len c with
  | none =>
    refine readsAt_fail (x := ⟨.malformedUtf8, pos⟩) ?_ ?_
    · simp [stringStep, hquote, hbackslash, hprints, hascii, hlead]
    · rintro x w r hinput (_ | hitem)
      · cases hinput
        exact hquote rfl
      · cases hitem with
        | plain _ _ _ hascii' => cases hinput; exact hascii hascii'
        | utf8 hlead' => cases hinput; cases hlead.symm.trans hlead'
        | escape => cases hinput; exact hbackslash rfl
  | some len =>
    have hstep : stringStep buf ⟨pos, c :: rest⟩ =
        if ((c :: rest).take len).length = len ∧ isUtf8 ((c :: rest).take len) = true then
          .ok (.inl (buf ++ (c :: rest).take len), ⟨pos + len, (c :: rest).drop len⟩)
        else .error (some ⟨.malformedUtf8, pos⟩) := by
      simp only [stringStep, ahead_bind, ite_run, if_neg hquote, if_neg hbackslash, if_neg hprints, if_neg hascii, hlead]
      rfl
    by_cases hseq : ((c :: rest).take len).length = len ∧ isUtf8 ((c :: rest).take len) = true
    · rw [if_pos hseq] at hstep
      have hitem : StringItem false ((c :: rest).take len) ((c :: rest).take len) := by
        obtain ⟨len, rfl⟩ := Nat.exists_eq_succ_of_ne_zero (utf8Len_ne_zero hlead)
        exact .utf8 hlead hseq.1 hseq.2
      refine .of_ok hstep (List.take_append_drop len _).symm (.item hitem) ?_
      rintro x w r hinput (_ | hitem')
      · cases hinput
        exact absurd rfl hquote
      · cases hitem' with
        | plain _ _ _ hascii' => cases hinput; exact absurd hascii' hascii
        | @utf8 _ seq _ hlead' hlength =>
          cases hinput
          cases hlead.symm.trans hlead'
          subst hlength
          have htake : (c :: (seq ++ r)).take (c :: seq).length = c :: seq := List.take_left
          exact ⟨congrArg (fun t => Sum.inl (buf ++ t)) htake.symm, htake.symm⟩
        | escape => cases hinput; exact absurd rfl hbackslash
    · rw [if_neg hseq] at hstep
      refine readsAt_fail hstep ?_
      rintro x w r hinput (_ | hitem)
      · cases hinput
        exact hquote rfl
      · cases hitem with
        | plain _ _ _ hascii' => cases hinput; exact hascii hascii'
        | @utf8 _ seq _ hlead' hlength hutf8 =>
          cases hinput
          cases hlead.symm.trans hlead'
          subst hlength
          have htake : (c :: (seq ++ r)).take (c :: seq).length = c :: seq := List.take_left
          exact hseq ⟨congrArg List.length htake, (congrArg isUtf8 htake).trans hutf8⟩
        | escape => cases hinput; exact hbackslash rfl

/-- A string, from its opening quote on. -/
theorem readsAt_parseString (pos : ℕ) (rest : List UInt8) :
    ReadsAt parseString (fun s w _ => StringLit false s w) ⟨pos, quote :: rest⟩ := by
  have hbody : Exact Cursor.rest none (loop stringStep []) (fun s w _ => StringBody false s w) := by
    refine fun c => (Recognizer.exact_loopM_of_unroll
      (G := fun buf s w _ => ∃ s', s = buf ++ s' ∧ StringBody false s' w) exact_stringStep ?_ ?_ [] c).congr ?_
    · rintro a a' w r (_ | hitem)
      exact hitem.ne_nil
    · intro buf s w r
      constructor
      · rintro ⟨_, rfl, _ | ⟨hitem, hrest⟩⟩
        · rw [List.append_nil]
          exact .inl .close
        · exact .inr ⟨_, _, _, rfl, .item hitem, _, (List.append_assoc ..).symm, hrest⟩
      · rintro (hstep | ⟨buf', w₁, w₂, rfl, hstep, s', rfl, hrest⟩)
        · cases hstep
          exact ⟨[], (List.append_nil _).symm, .close⟩
        · cases hstep with
          | item hitem => exact ⟨_, List.append_assoc .., .cons hitem hrest⟩
    · intro s w r _
      constructor
      · rintro ⟨_, rfl, h⟩
        exact h
      · exact fun h => ⟨s, rfl, h⟩
  refine readsAt_after (j := pos + 1) [quote] rest (q := loop stringStep []) rfl (hbody _) ?_
  intro s w r _
  constructor
  · rintro ⟨h⟩
    exact ⟨_, rfl, h⟩
  · rintro ⟨_, rfl, h⟩
    exact ⟨h⟩

/-! ## Strings that are not looked into -/

theorem isUtf8_iff {bytes : List UInt8} : isUtf8 bytes = true ↔ ∃ cs : List Char, bytes = cs.flatMap String.utf8EncodeChar := by
  rw [isUtf8, ByteArray.validateUTF8_eq_true_iff]
  constructor
  · rintro ⟨cs, hcs⟩
    refine ⟨cs, ?_⟩
    have h := congrArg ByteArray.data hcs
    simp [List.utf8Encode] at h
    exact h
  · rintro ⟨cs, rfl⟩
    refine ⟨cs, ?_⟩
    ext1
    simp [List.utf8Encode]

/-- The bytes of a character after its first. -/
theorem continuation_ge {c : UInt8} {seq : List UInt8} (hlead : utf8Len c = some (c :: seq).length)
    (hutf8 : isUtf8 (c :: seq) = true) : ∀ b ∈ seq, 0x80 ≤ b.toNat := by
  have hlen := utf8Len_eq_some hlead
  obtain ⟨_ | ⟨ch, cs⟩, hcs⟩ := isUtf8_iff.mp hutf8
  · cases hcs
  have hsmall : ∀ n, n < 256 → (UInt8.ofNat n).toNat = n := fun n hn => UInt8.toNat_ofNat_of_lt' hn
  rw [List.flatMap_cons, String.utf8EncodeChar] at hcs
  split_ifs at hcs <;> rw [List.cons_append] at hcs <;> obtain ⟨rfl, rfl⟩ := List.cons.inj hcs <;>
    simp only [List.nil_append, List.cons_append, List.length_cons] at hlen <;>
    rw [hsmall _ (by omega)] at hlen
  · omega
  · have hnil : cs.flatMap String.utf8EncodeChar = [] := List.length_eq_zero_iff.mp (by omega)
    rw [hnil]
    simp only [List.append_nil, List.mem_singleton, forall_eq]
    rw [hsmall _ (by omega)]
    omega
  · have hnil : cs.flatMap String.utf8EncodeChar = [] := List.length_eq_zero_iff.mp (by omega)
    rw [hnil]
    simp only [List.append_nil, List.mem_cons, forall_eq_or_imp, List.not_mem_nil, false_imp_iff, implies_true, and_true]
    rw [hsmall _ (by omega), hsmall _ (by omega)]
    omega
  · have hnil : cs.flatMap String.utf8EncodeChar = [] := List.length_eq_zero_iff.mp (by omega)
    rw [hnil]
    simp only [List.append_nil, List.mem_cons, forall_eq_or_imp, List.not_mem_nil, false_imp_iff, implies_true, and_true]
    rw [hsmall _ (by omega), hsmall _ (by omega), hsmall _ (by omega)]
    omega
theorem rawPieces_append {w w' r : List UInt8} (hw : ∀ c ∈ w, c ≠ quote ∧ c ≠ backslash)
    (h : Iterates RawPiece () () w' r) : Iterates RawPiece () () (w ++ w') r := by
  induction w with
  | nil => exact h
  | cons c w ih =>
    obtain ⟨hquote, hbackslash⟩ := hw c List.mem_cons_self
    exact .next (w := [c]) (.char hquote hbackslash) (ih fun d hd => hw d (List.mem_cons_of_mem c hd))

theorem plain_of_hexVal {c d : UInt8} (h : hexVal c = some d) : c ≠ quote ∧ c ≠ backslash := by
  constructor
  · rintro rfl
    cases h
  · rintro rfl
    cases h

theorem plain_of_digits {cp cp' : ℕ} {ds : List UInt8} (h : Digits cp cp' ds) :
    ∀ c ∈ ds, c ≠ quote ∧ c ≠ backslash := by
  induction h with
  | nil => nofun
  | cons hdigit _ _ ih =>
    rintro c (_ | ⟨_, hc⟩)
    · exact plain_of_hexVal hdigit
    · exact ih c hc

theorem plain_of_ge {c : UInt8} (h : 0x80 ≤ c.toNat) : c ≠ quote ∧ c ≠ backslash := by
  constructor
  · rintro rfl
    exact absurd h (by decide)
  · rintro rfl
    exact absurd h (by decide)

theorem rawPieces_escape {w w' r : List UInt8} {c : UInt8} (hw : ∀ d ∈ w, d ≠ quote ∧ d ≠ backslash)
    (h : Iterates RawPiece () () w' r) : Iterates RawPiece () () (backslash :: c :: (w ++ w')) r :=
  .next (w := [backslash, c]) .escape (rawPieces_append hw h)

theorem StringItem.rawPieces {b w w' r : List UInt8} (hitem : StringItem false b w) (h : Iterates RawPiece () () w' r) :
    Iterates RawPiece () () (w ++ w') r := by
  cases hitem with
  | plain hquote hbackslash => exact .next (.char hquote hbackslash) h
  | @utf8 c seq len hlead hlength hutf8 =>
    subst hlength
    refine rawPieces_append ?_ h
    rintro d (_ | ⟨_, hd⟩)
    · have := utf8Len_eq_some hlead
      exact plain_of_ge (by omega)
    · exact plain_of_ge (continuation_ge hlead hutf8 d hd)
  | escape hescape =>
    cases hescape with
    | simple => exact rawPieces_escape nofun h
    | hex _ hlo =>
      refine rawPieces_escape (w := [_]) ?_ h
      rintro d (_ | ⟨_, hd⟩)
      · exact plain_of_hexVal hlo
      · cases hd
    | unicode hdigits =>
      refine rawPieces_escape (w := lbrace :: (_ ++ [rbrace])) ?_ h
      simp only [List.mem_cons, List.mem_append, List.not_mem_nil, or_false]
      rintro d (rfl | hd | rfl)
      · decide
      · exact plain_of_digits hdigits d hd
      · decide

theorem StringBody.rawPieces {s w : List UInt8} (h : StringBody false s w) :
    ∃ w', w = w' ++ [quote] ∧ ∀ r, Iterates RawPiece () () w' (quote :: r) := by
  induction h with
  | close => exact ⟨[], rfl, fun r => .stop (.finish (by simp))⟩
  | cons hitem _ ih =>
    obtain ⟨w', rfl, hrun⟩ := ih
    exact ⟨_, (List.append_assoc ..).symm, fun r => hitem.rawPieces (hrun r)⟩

theorem StringLit.cons {s w : List UInt8} (h : StringLit false s w) : ∃ w', w = quote :: w' := by
  obtain ⟨_⟩ := h
  exact ⟨_, rfl⟩

theorem StringLit.raw {s w r : List UInt8} (h : StringLit false s w) : RawString w r := by
  obtain ⟨h⟩ := h
  obtain ⟨w', rfl, hrun⟩ := h.rawPieces
  exact .closed (hrun r)

end Wasmrt.Sexpr
