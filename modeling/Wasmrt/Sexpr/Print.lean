import Wasmrt.Sexpr.Boundaries

/-!
# Printing

Trees are printed with a space after each token. The bytes of a string are printed as escapes, and names are quoted
where they have to be.

## Main results

* `parseAllAnnotated_print`: what was parsed and is printed is parsed again, to the same trees.
* `exact_iff_nothingSlips`: the parser accepts the sources that it should, as long as it reads nothing in them that slips
  through.
* `parseAll_exact`: the parser with insertion, printing and termination.
-/

namespace Wasmrt.Sexpr

/-! ## Strings and names -/

def hexDigit (n : ℕ) : UInt8 := if n < 10 then UInt8.ofNat (0x30 + n) else UInt8.ofNat (0x57 + n)

/-- A byte as an escape. -/
def escapeByte (b : UInt8) : List UInt8 := [backslash, hexDigit (b.toNat / 16), hexDigit (b.toNat % 16)]

def printString (s : List UInt8) : List UInt8 := quote :: (s.flatMap escapeByte ++ [quote])

/-- A name, quoted where it is no bare one. -/
def printName (name : List UInt8) : List UInt8 :=
  if name ≠ [] ∧ name.all isIdchar = true ∧ name ≠ [dollar] then name
  else match name with
    | [] => []
    | c :: s => c :: printString s

theorem hexVal_hexDigit : ∀ n < 16, hexVal (hexDigit n) = some (UInt8.ofNat n) := by decide

theorem ofNat_hex (b : UInt8) : UInt8.ofNat (b.toNat / 16) * 16 + UInt8.ofNat (b.toNat % 16) = b := by
  apply UInt8.toNat_inj.mp
  have := b.toNat_lt
  simp only [UInt8.toNat_add, UInt8.toNat_mul, UInt8.toNat_ofNat', UInt8.reduceToNat]
  omega

theorem stringLit_printString (s : List UInt8) : StringLit true s (printString s) := by
  refine ⟨?_⟩
  induction s with
  | nil => exact .close
  | cons b s ih =>
    have hhi : b.toNat / 16 < 16 := by
      have := b.toNat_lt
      omega
    have hlo : b.toNat % 16 < 16 := Nat.mod_lt _ (by decide)
    have hitem : StringItem true [b] (escapeByte b) := by
      have hescape : Escape true _ [hexDigit (b.toNat / 16), hexDigit (b.toNat % 16)] :=
        .hex (hexVal_hexDigit _ hhi) (hexVal_hexDigit _ hlo)
      rw [ofNat_hex] at hescape
      exact .escape hescape
    rw [List.flatMap_cons, List.append_assoc]
    exact .cons hitem ih

/-- The name of an atom can be printed. -/
theorem atomText_printName {name text : List UInt8} (h : AtomText false name text) : AtomText true name (printName name) := by
  unfold printName
  by_cases hbare : name ≠ [] ∧ name.all isIdchar = true ∧ name ≠ [dollar]
  · rw [if_pos hbare]
    exact .bare hbare.1 (List.all_eq_true.mp hbare.2.1) hbare.2.2
  · rw [if_neg hbare]
    cases h with
    | bare hne hchars hdollar => exact absurd ⟨hne, List.all_eq_true.mpr hchars, hdollar⟩ hbare
    | @quoted c s w hsigil _ hne hutf8 => exact .quoted hsigil (stringLit_printString s) hne hutf8

/-! ## Trees -/

abbrev blank : Lexeme := .space 0x20

/-- The items of a list with the annotations between them, from the index of the first item on. -/
def weave : ℕ → List (List Lexeme) → List (ℕ × List Lexeme) → List Lexeme
  | _, [], annots => annots.flatMap (·.2)
  | k, item :: items, annots =>
    (annots.takeWhile (·.1 ≤ k)).flatMap (·.2) ++ (item ++ weave (k + 1) items (annots.dropWhile (·.1 ≤ k)))

mutual

/-- The lexemes of a tree. -/
def lexemes : Sexpr → List Lexeme
  | .atom name => [.atom name (printName name), blank]
  | .str s => [.str s (printString s), blank]
  | .list items annots =>
    .lpar :: blank :: (weave 0 (itemLexemes items) (annotLexemes annots) ++ [.rpar, blank])

def itemLexemes : List Sexpr → List (List Lexeme)
  | [] => []
  | v :: items => lexemes v :: itemLexemes items

def annotLexemes : List (Annot Sexpr) → List (ℕ × List Lexeme)
  | [] => []
  | a :: annots => oneAnnotLexemes a :: annotLexemes annots

/-- The lexemes of an annotation, with the index of the item that it precedes. -/
def oneAnnotLexemes : Annot Sexpr → ℕ × List Lexeme
  | ⟨before, id, body⟩ => (before, .annot id id :: blank :: (weave 0 (itemLexemes body) [] ++ [.rpar, blank]))

end

/-- A source for some forms, and the annotations between them. -/
def print (forms : List Sexpr) (annots : List (Annot Sexpr)) : List UInt8 :=
  bytesOf (weave 0 (itemLexemes forms) (annotLexemes annots))

theorem weave_annot (k : ℕ) (items : List (List Lexeme)) (ls : List Lexeme) (annots : List (ℕ × List Lexeme)) :
    weave k items ((k, ls) :: annots) = ls ++ weave k items annots := by
  cases items with
  | nil => exact List.flatMap_cons
  | cons item items =>
    have hk : decide (k ≤ k) = true := decide_eq_true (Nat.le_refl k)
    simp only [weave, List.takeWhile_cons, List.dropWhile_cons, hk, if_true, List.flatMap_cons, List.append_assoc]

theorem weave_item {k : ℕ} (item : List Lexeme) (items : List (List Lexeme)) {annots : List (ℕ × List Lexeme)}
    (h : ∀ a ∈ annots, k < a.1) : weave k (item :: items) annots = item ++ weave (k + 1) items annots := by
  rw [weave]
  cases annots with
  | nil => rfl
  | cons a annots =>
    have hk : ¬ decide (a.1 ≤ k) = true := by
      rw [decide_eq_true_eq, Nat.not_le]
      exact h a List.mem_cons_self
    simp only [List.takeWhile_cons, List.dropWhile_cons, if_neg hk]
    rfl

theorem Forest.le_before {n k : ℕ} {ls : List Lexeme} {items : List Sexpr} {annots : List (Annot Sexpr)}
    (h : Forest n k ls items annots) : ∀ a ∈ annotLexemes annots, k ≤ a.1 := by
  induction h with
  | nil => exact nofun
  | trivia _ _ ih => exact ih
  | atom _ ih | str _ ih | list _ _ _ ih => exact fun a ha => Nat.le_of_succ_le (ih a ha)
  | annot _ _ _ ih =>
    rintro a (_ | ⟨_, ha⟩)
    · exact Nat.le_refl _
    · exact ih a ha

theorem delimited_blank (ls : List Lexeme) (r : List UInt8) : Delimited (bytesOf (blank :: ls) ++ r) := by
  rintro c ⟨⟩
  exact .inl rfl

/-- The ids of the annotations that are kept need no quotes. -/
theorem known_isIdchar : ∀ id ∈ knownAnnotations, id ≠ [] ∧ ∀ c ∈ id, isIdchar c = true := by
  have hall : knownAnnotations.all (fun id => !id.isEmpty && id.all isIdchar) = true := by decide +kernel
  intro id hid
  have h := List.all_eq_true.mp hall id hid
  rw [Bool.and_eq_true, Bool.not_eq_true', List.isEmpty_eq_false_iff, List.all_eq_true] at h
  exact h

theorem Forest.lt_before {n k : ℕ} {ls : List Lexeme} {items : List Sexpr} {annots as : List (Annot Sexpr)}
    (h : Forest n (k + 1) ls items annots) (has : as = annots ∨ as = []) : ∀ a ∈ annotLexemes as, k < a.1 := by
  rcases has with rfl | rfl
  · exact h.le_before
  · exact nofun

/-- What is printed spells the trees, with the annotations or without, and may stand before anything. -/
theorem Forest.printed {n k : ℕ} {ls : List Lexeme} {items : List Sexpr} {annots as : List (Annot Sexpr)}
    (h : Forest n k ls items annots) (hvalid : ∀ l ∈ ls, ∃ r, l.Valid false r) (has : as = annots ∨ as = []) :
    Forest n k (weave k (itemLexemes items) (annotLexemes as)) items as ∧
      ∀ r, Reads true (weave k (itemLexemes items) (annotLexemes as)) r := by
  induction h generalizing as with
  | nil =>
    obtain rfl : as = [] := has.elim id id
    exact ⟨.nil, fun _ => trivial⟩
  | trivia _ _ ih => exact ih (fun l hl => hvalid l (List.mem_cons_of_mem _ hl)) has
  | @atom n k name text ls items annots hrest ih =>
    obtain ⟨htree, hreads⟩ := ih (fun l hl => hvalid l (List.mem_cons_of_mem _ hl)) has
    obtain ⟨_, htext, _⟩ := hvalid _ List.mem_cons_self
    rw [itemLexemes, weave_item _ _ (hrest.lt_before has), lexemes]
    exact ⟨.atom (.trivia rfl htree), fun r => ⟨⟨atomText_printName htext, delimited_blank _ _⟩, rfl, hreads r⟩⟩
  | @str n k s text ls items annots hrest ih =>
    obtain ⟨htree, hreads⟩ := ih (fun l hl => hvalid l (List.mem_cons_of_mem _ hl)) has
    rw [itemLexemes, weave_item _ _ (hrest.lt_before has), lexemes]
    exact ⟨.str (.trivia rfl htree), fun r => ⟨⟨stringLit_printString s, delimited_blank _ _⟩, rfl, hreads r⟩⟩
  | @list n k body ls items items' annots annots' hbody hrest ih ih' =>
    obtain ⟨htreeBody, hreadsBody⟩ := ih (fun l hl => hvalid l (by simp [hl])) (.inl rfl)
    obtain ⟨htree, hreads⟩ := ih' (fun l hl => hvalid l (by simp [hl])) has
    have hrow : ∀ body rest : List Lexeme, (.lpar :: blank :: (body ++ [.rpar, blank])) ++ rest =
        .lpar :: ((blank :: body) ++ .rpar :: (blank :: rest)) := by
      intro body rest
      simp only [List.cons_append, List.append_assoc, List.nil_append]
    rw [itemLexemes, weave_item _ _ (hrest.lt_before has), lexemes, hrow]
    refine ⟨.list (.trivia rfl htreeBody) (.trivia rfl htree), fun r => ⟨⟨nofun, nofun⟩, ?_⟩⟩
    exact reads_append.mpr ⟨⟨rfl, hreadsBody _⟩, trivial, rfl, hreads r⟩
  | @annot n k id text body ls items items' annots annots' hbody hrest ih ih' =>
    rcases has with rfl | rfl
    · obtain ⟨htreeBody, hreadsBody⟩ := ih (fun l hl => hvalid l (by simp [hl])) (.inr rfl)
      obtain ⟨htree, hreads⟩ := ih' (fun l hl => hvalid l (by simp [hl])) (.inl rfl)
      obtain ⟨_, hknown, _⟩ := hvalid _ List.mem_cons_self
      have hrow : ∀ body rest : List Lexeme, (.annot id id :: blank :: (body ++ [.rpar, blank])) ++ rest =
          .annot id id :: ((blank :: body) ++ .rpar :: (blank :: rest)) := by
        intro body rest
        simp only [List.cons_append, List.append_assoc, List.nil_append]
      rw [annotLexemes, oneAnnotLexemes, weave_annot, hrow]
      obtain ⟨hne, hchars⟩ := known_isIdchar id hknown
      refine ⟨.annot (.trivia rfl htreeBody) (.trivia rfl htree), fun r => ⟨⟨hknown, .bare hne hchars ?_⟩, ?_⟩⟩
      · rintro c ⟨⟩
        rfl
      · exact reads_append.mpr ⟨⟨rfl, hreadsBody _⟩, trivial, rfl, hreads r⟩
    · exact ih' (fun l hl => hvalid l (by simp [hl])) (.inr rfl)

theorem Reads.exists_valid {strict : Bool} {ls : List Lexeme} {r : List UInt8} (h : Reads strict ls r) :
    ∀ l ∈ ls, ∃ r', l.Valid strict r' := by
  induction ls with
  | nil => nofun
  | cons l ls ih =>
    rintro l' (_ | ⟨_, hl'⟩)
    · exact ⟨_, h.1⟩
    · exact ih h.2 l' hl'

/-- What was parsed can be printed, with its annotations or without them, as a source that is right in every way. -/
theorem source_print {src : List UInt8} {forms : List Sexpr} {annots as : List (Annot Sexpr)}
    (h : parseAllAnnotated src = .ok (forms, annots)) (has : as = annots ∨ as = []) :
    ∃ ls, Source true ls (print forms as) forms as := by
  obtain ⟨ls, hsource⟩ := parseAllAnnotated_eq_ok_iff.mp h
  obtain ⟨htree, hreads⟩ := hsource.tree.printed hsource.reads.exists_valid has
  exact ⟨_, rfl, hreads [], htree⟩

theorem Source.lenient {strict : Bool} {ls : List Lexeme} {src : List UInt8} {forms : List Sexpr}
    {annots : List (Annot Sexpr)} (h : Source strict ls src forms annots) : Source false ls src forms annots :=
  ⟨h.bytes, h.reads.lenient, h.tree⟩

theorem parseAllAnnotated_print {src : List UInt8} {forms : List Sexpr} {annots as : List (Annot Sexpr)}
    (h : parseAllAnnotated src = .ok (forms, annots)) (has : as = annots ∨ as = []) :
    parseAllAnnotated (print forms as) = .ok (forms, as) := by
  obtain ⟨ls, hsource⟩ := source_print h has
  exact parseAllAnnotated_eq_ok_iff.mpr ⟨ls, hsource.lenient⟩

/-! ## The parser -/

theorem parseAll_eq_ok_iff {src : List UInt8} {forms : List Sexpr} :
    parseAll src = .ok forms ↔ ∃ annots, parseAllAnnotated src = .ok (forms, annots) := by
  unfold parseAll
  cases h : parseAllAnnotated src with
  | error x => exact iff_of_false nofun fun ⟨_, h⟩ => nomatch h
  | ok contents =>
    constructor
    · intro hok
      cases hok
      exact ⟨contents.2, rfl⟩
    · rintro ⟨annots, hok⟩
      cases hok
      rfl

/-- Is the source one that the lexical grammar allows, with these forms? -/
def Spells (src : List UInt8) (forms : List Sexpr) : Prop := ∃ ls annots, Source true ls src forms annots

/-- No lexeme that the parser reads in the source slips through: no block comment and no skipped annotation is cut off by
the end, no string in a skipped annotation is none, and no code point is without digits. -/
def NothingSlips (src : List UInt8) : Prop :=
  ∀ ls forms annots, Source false ls src forms annots → Reads true ls []

theorem exact_iff_nothingSlips {src : List UInt8} :
    (∀ forms, parseAll src = .ok forms ↔ Spells src forms) ↔ NothingSlips src := by
  constructor
  · intro h ls forms annots hsource
    have hok : parseAll src = .ok forms :=
      parseAll_eq_ok_iff.mpr ⟨annots, parseAllAnnotated_eq_ok_iff.mpr ⟨ls, hsource⟩⟩
    obtain ⟨ls', annots', hstrict⟩ := (h forms).mp hok
    obtain rfl := hsource.reads.unique hstrict.reads.lenient (hsource.bytes.trans hstrict.bytes.symm)
    exact hstrict.reads
  · intro h forms
    constructor
    · intro hok
      obtain ⟨annots, hok⟩ := parseAll_eq_ok_iff.mp hok
      obtain ⟨ls, hsource⟩ := parseAllAnnotated_eq_ok_iff.mp hok
      exact ⟨ls, annots, hsource.bytes, h ls forms annots hsource, hsource.tree⟩
    · rintro ⟨ls, annots, hsource⟩
      exact parseAll_eq_ok_iff.mpr ⟨annots, parseAllAnnotated_eq_ok_iff.mpr ⟨ls, hsource.lenient⟩⟩

/-- The parser accepts what the lexical grammar allows, where nothing slips through; trivia next to a token do not matter;
what was parsed can be printed and parsed again; and no loop runs on. -/
theorem parseAll_exact (src : List UInt8) :
    ((∀ forms, parseAll src = .ok forms ↔ Spells src forms) ↔ NothingSlips src) ∧
      (∀ ls v ls' forms annots, Source false (ls ++ ls') (bytesOf (ls ++ ls')) forms annots → TokenBoundary ls ls' →
        (∀ l ∈ v, l.isToken = false) → Reads false v (bytesOf ls') →
        (ls.getLast? = some .lpar → ∀ text, v.head? ≠ some (.line text)) →
        parseAll (bytesOf (ls ++ ls')) = .ok forms ∧ parseAll (bytesOf (ls ++ (v ++ ls'))) = .ok forms) ∧
      (∀ forms, parseAll src = .ok forms → parseAll (print forms []) = .ok forms) ∧ parseAll src ≠ .error none := by
  refine ⟨exact_iff_nothingSlips, ?_, ?_, ?_⟩
  · intro ls v ls' forms annots hsource hboundary htrivia hv hline
    exact ⟨parseAll_eq_ok_iff.mpr ⟨annots, parseAllAnnotated_eq_ok_iff.mpr ⟨_, hsource⟩⟩,
      parseAll_eq_ok_iff.mpr ⟨annots, parseAllAnnotated_insert hsource hboundary htrivia hv hline⟩⟩
  · intro forms h
    obtain ⟨annots, h⟩ := parseAll_eq_ok_iff.mp h
    exact parseAll_eq_ok_iff.mpr ⟨[], parseAllAnnotated_print h (.inr rfl)⟩
  · intro h
    unfold parseAll at h
    cases hok : parseAllAnnotated src with
    | error x =>
      rw [hok] at h
      cases h
      exact parseAllAnnotated_ends src hok
    | ok contents =>
      rw [hok] at h
      cases h

/-- A blank put inside `()`, and `()` printed. -/
theorem parseAll_exact_parens :
    (parseAll [lparen, rparen] = .ok [.list [] []] ∧ parseAll [lparen, 0x20, rparen] = .ok [.list [] []]) ∧
      parseAll (print [.list [] []] []) = .ok [.list [] []] := by
  have hreads : Reads false [.lpar, .rpar] [] := ⟨⟨nofun, nofun⟩, trivial, trivial⟩
  have htree : Forest maxDepth 0 [.lpar, .rpar] [.list [] []] [] := .list .nil .nil
  have hinsert := (parseAll_exact []).2.1 [.lpar] [blank] [.rpar] [.list [] []] [] ⟨rfl, hreads, htree⟩
    (.inl (by rintro l ⟨⟩; rfl)) (by rintro l (_ | ⟨_, hl⟩); rfl; cases hl) ⟨rfl, trivial⟩ (by rintro _ text ⟨⟩)
  exact ⟨hinsert, (parseAll_exact _).2.2.1 _ hinsert.1⟩

/-- A block comment that is never closed slips through. -/
theorem parseAll_slips : parseAll [lparen, semicolon] = .ok [] ∧ ¬ Spells [lparen, semicolon] [] := by
  have hblock : Block false [] [] := .stop (.cutOff rfl)
  have hsource : Source false [.block []] [lparen, semicolon] [] [] := ⟨rfl, ⟨hblock, trivial⟩, .trivia rfl .nil⟩
  refine ⟨parseAll_eq_ok_iff.mpr ⟨[], parseAllAnnotated_eq_ok_iff.mpr ⟨_, hsource⟩⟩, ?_⟩
  rintro ⟨ls, annots, hstrict⟩
  obtain rfl := hsource.reads.unique hstrict.reads.lenient (hsource.bytes.trans hstrict.bytes.symm)
  have hclosed : Block true [] [] := hstrict.reads.1
  generalize hempty : ([] : List UInt8) = text at hclosed
  cases hclosed with
  | stop hone =>
    cases hone with
    | cutOff hlenient => cases hlenient
  | next hone => exact hone.ne_nil _ _ _ _ (List.append_eq_nil_iff.mp hempty.symm).1

end Wasmrt.Sexpr
