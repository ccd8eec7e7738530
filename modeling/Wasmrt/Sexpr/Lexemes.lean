import Wasmrt.Sexpr.Parser

/-!
# The lexical grammar of S-expressions

A source is a row of lexemes, some of them trivia and the others tokens, and the tokens spell a forest. The relations
here say what each lexeme may be, and what may follow it.

Four things that no source should hold get past the parser, and the relations admit them where the flag `strict` is
off: a code point without digits, a string in a skipped annotation that is none, and a block comment or a skipped
annotation that the end of the source cuts off.

## Main definitions

* `Lexeme`, `Lexeme.Valid`: the lexemes, and when one is right before what follows it.
* `Reads`: rows of lexemes.
* `Forest`: the trees that a row of lexemes spells.
* `Source`: a whole source.
-/

namespace Wasmrt.Sexpr

open Recognizer (Iterates)

/-! ## Strings -/

/-- The digits of a code point, from the value before them to the value after them. -/
inductive Digits : ℕ → ℕ → List UInt8 → Prop
  | nil (cp : ℕ) : Digits cp cp []
  | cons {cp cp' : ℕ} {c d : UInt8} {w : List UInt8} (hdigit : hexVal c = some d) (hfits : cp * 16 + d.toNat < 2 ^ 32)
      (hrest : Digits (cp * 16 + d.toNat) cp' w) : Digits cp cp' (c :: w)

/-- The bytes that an escape stands for, from what follows its backslash. -/
inductive Escape (strict : Bool) : List UInt8 → List UInt8 → Prop
  | simple {e v : UInt8} (hsimple : simpleEscape e = some v) : Escape strict [v] [e]
  | hex {c d hi lo : UInt8} (hhi : hexVal c = some hi) (hlo : hexVal d = some lo) : Escape strict [hi * 16 + lo] [c, d]
  | unicode {cp : ℕ} {ds bytes : List UInt8} (hdigits : Digits 0 cp ds) (hchar : encodeChar cp = some bytes)
      (hsome : strict = true → ds ≠ []) : Escape strict bytes (0x75 :: lbrace :: (ds ++ [rbrace]))

/-- A character of a string. -/
inductive StringItem (strict : Bool) : List UInt8 → List UInt8 → Prop
  | plain {c : UInt8} (hquote : c ≠ quote) (hbackslash : c ≠ backslash) (hprints : ¬ (c < 0x20 ∨ c = 0x7f))
      (hascii : c < 0x80) : StringItem strict [c] [c]
  | utf8 {c : UInt8} {seq : List UInt8} {len : ℕ} (hlead : utf8Len c = some len) (hlength : (c :: seq).length = len)
      (hutf8 : isUtf8 (c :: seq) = true) : StringItem strict (c :: seq) (c :: seq)
  | escape {bytes w : List UInt8} (h : Escape strict bytes w) : StringItem strict bytes (backslash :: w)

/-- What follows the opening quote of a string. -/
inductive StringBody (strict : Bool) : List UInt8 → List UInt8 → Prop
  | close : StringBody strict [] [quote]
  | cons {b s w w' : List UInt8} (hitem : StringItem strict b w) (hrest : StringBody strict s w') :
      StringBody strict (b ++ s) (w ++ w')

/-- A string. -/
inductive StringLit (strict : Bool) : List UInt8 → List UInt8 → Prop
  | intro {s w : List UInt8} (h : StringBody strict s w) : StringLit strict s (quote :: w)

/-! ## Comments -/

/-- The text of a line comment runs up to the end of the line. -/
structure Line (w r : List UInt8) : Prop where
  within : newline ∉ w
  maximal : ∀ c ∈ r.head?, c = newline

/-- A piece of a block comment, at a depth. -/
inductive BlockPiece (strict : Bool) : ℕ → ℕ ⊕ Unit → List UInt8 → List UInt8 → Prop
  | finish {r : List UInt8} : BlockPiece strict 0 (.inr ()) [] r
  | cutOff {d : ℕ} (hlenient : strict = false) : BlockPiece strict (d + 1) (.inr ()) [] []
  | opens {d : ℕ} {r : List UInt8} : BlockPiece strict (d + 1) (.inl (d + 2)) [lparen, semicolon] r
  | closes {d : ℕ} {r : List UInt8} : BlockPiece strict (d + 1) (.inl d) [semicolon, rparen] r
  | char {d : ℕ} {c : UInt8} {r : List UInt8} (hopens : ¬ (c = lparen ∧ r.head? = some semicolon))
      (hcloses : ¬ (c = semicolon ∧ r.head? = some rparen)) : BlockPiece strict (d + 1) (.inl (d + 1)) [c] r

/-- What follows the opening of a block comment. -/
abbrev Block (strict : Bool) : List UInt8 → List UInt8 → Prop := Iterates (BlockPiece strict) 1 ()

/-! ## Annotations -/

/-- The id of an annotation. -/
inductive AnnotationId (strict : Bool) : List UInt8 → List UInt8 → List UInt8 → Prop
  | bare {w r : List UInt8} (hne : w ≠ []) (hchars : ∀ c ∈ w, isIdchar c = true)
      (hmaximal : ∀ c ∈ r.head?, isIdchar c = false) : AnnotationId strict w w r
  | quoted {s w r : List UInt8} (h : StringLit strict s w) (hne : s ≠ []) (hutf8 : isUtf8 s = true) :
      AnnotationId strict s w r

/-- A piece of what stands between quotes, whatever it is; a backslash takes the next byte along. -/
inductive RawPiece : Unit → Unit ⊕ Unit → List UInt8 → List UInt8 → Prop
  | finish {r : List UInt8} (hquote : ∀ c ∈ r.head?, c = quote) : RawPiece () (.inr ()) [] r
  | escape {c : UInt8} {r : List UInt8} : RawPiece () (.inl ()) [backslash, c] r
  | cutOff : RawPiece () (.inl ()) [backslash] []
  | char {c : UInt8} {r : List UInt8} (hquote : c ≠ quote) (hbackslash : c ≠ backslash) : RawPiece () (.inl ()) [c] r

/-- Anything between quotes, of which the second may be missing at the end of the source. -/
inductive RawString : List UInt8 → List UInt8 → Prop
  | closed {w r : List UInt8} (h : Iterates RawPiece () () w (quote :: r)) : RawString (quote :: (w ++ [quote])) r
  | cutOff {w : List UInt8} (h : Iterates RawPiece () () w []) : RawString (quote :: w) []

/-- A piece of an annotation that is skipped, so many parentheses deep. -/
inductive AnnotationPiece (strict : Bool) : ℕ → ℕ ⊕ Unit → List UInt8 → List UInt8 → Prop
  | finish {r : List UInt8} : AnnotationPiece strict 0 (.inr ()) [] r
  | cutOff {d : ℕ} (hlenient : strict = false) : AnnotationPiece strict (d + 1) (.inr ()) [] []
  | str {d : ℕ} {s w r : List UInt8} (h : StringLit strict s w) : AnnotationPiece strict (d + 1) (.inl (d + 1)) w r
  | raw {d : ℕ} {w r : List UInt8} (hlenient : strict = false) (h : RawString w r) :
      AnnotationPiece strict (d + 1) (.inl (d + 1)) w r
  | line {d : ℕ} {w r : List UInt8} (h : Line w r) :
      AnnotationPiece strict (d + 1) (.inl (d + 1)) (semicolon :: semicolon :: w) r
  | block {d : ℕ} {w r : List UInt8} (h : Block strict w r) :
      AnnotationPiece strict (d + 1) (.inl (d + 1)) (lparen :: semicolon :: w) r
  | opens {d : ℕ} {r : List UInt8} (hblock : r.head? ≠ some semicolon) :
      AnnotationPiece strict (d + 1) (.inl (d + 2)) [lparen] r
  | closes {d : ℕ} {r : List UInt8} : AnnotationPiece strict (d + 1) (.inl d) [rparen] r
  | char {d : ℕ} {c : UInt8} {r : List UInt8} (hsource : isSourceChar c = true) (hquote : c ≠ quote)
      (hlparen : c ≠ lparen) (hrparen : c ≠ rparen) (hline : ¬ (c = semicolon ∧ r.head? = some semicolon)) :
      AnnotationPiece strict (d + 1) (.inl (d + 1)) [c] r

/-- What follows the id of an annotation that is skipped. -/
abbrev AnnotationBody (strict : Bool) : List UInt8 → List UInt8 → Prop := Iterates (AnnotationPiece strict) 1 ()

/-! ## Atoms -/

/-- The name of an atom, from its text. -/
inductive AtomText (strict : Bool) : List UInt8 → List UInt8 → Prop
  | bare {w : List UInt8} (hne : w ≠ []) (hchars : ∀ c ∈ w, isIdchar c = true) (hdollar : w ≠ [dollar]) :
      AtomText strict w w
  | quoted {c : UInt8} {s w : List UInt8} (hsigil : c = dollar ∨ c = atSign) (h : StringLit strict s w) (hne : s ≠ [])
      (hutf8 : isUtf8 s = true) : AtomText strict (c :: s) (c :: w)

/-- What may follow a string or an atom. -/
def Delimited (r : List UInt8) : Prop := ∀ c ∈ r.head?, isSpace c = true ∨ c = lparen ∨ c = rparen ∨ c = semicolon

/-! ## Lexemes -/

/-- The lexemes: trivia first, then tokens, both with their texts. -/
inductive Lexeme
  | space (c : UInt8)
  | line (text : List UInt8)
  | block (text : List UInt8)
  | skipped (id idText text : List UInt8)
  | lpar
  | rpar
  | str (bytes text : List UInt8)
  | atom (name text : List UInt8)
  | annot (id text : List UInt8)

namespace Lexeme

/-- Is the lexeme a token? -/
def isToken : Lexeme → Bool
  | .space _ | .line _ | .block _ | .skipped .. => false
  | _ => true

/-- The bytes of a lexeme. -/
def bytes : Lexeme → List UInt8
  | .space c => [c]
  | .line text => semicolon :: semicolon :: text
  | .block text => lparen :: semicolon :: text
  | .skipped _ idText text => lparen :: atSign :: (idText ++ text)
  | .lpar => [lparen]
  | .rpar => [rparen]
  | .str _ text => text
  | .atom _ text => text
  | .annot _ text => lparen :: atSign :: text

/-- Is a lexeme right, before what follows it? -/
def Valid (strict : Bool) : Lexeme → List UInt8 → Prop
  | .space c, _ => isSpace c = true
  | .line text, r => Line text r
  | .block text, r => Block strict text r
  | .skipped id idText text, r =>
    id ∉ knownAnnotations ∧ AnnotationId strict id idText (text ++ r) ∧ AnnotationBody strict text r
  | .lpar, r => r.head? ≠ some semicolon ∧ r.head? ≠ some atSign
  | .rpar, _ => True
  | .str s text, r => StringLit strict s text ∧ Delimited r
  | .atom name text, r => AtomText strict name text ∧ Delimited r
  | .annot id text, r => id ∈ knownAnnotations ∧ AnnotationId strict id text r

end Lexeme

/-- The bytes of a row of lexemes. -/
def bytesOf (ls : List Lexeme) : List UInt8 := ls.flatMap Lexeme.bytes

/-- Is each lexeme of a row right, before `r`? -/
def Reads (strict : Bool) : List Lexeme → List UInt8 → Prop
  | [], _ => True
  | l :: ls, r => l.Valid strict (bytesOf ls ++ r) ∧ Reads strict ls r

/-- The forest that a row of lexemes spells, and its annotations, where `n` levels may be opened and `k` items stand
before. -/
inductive Forest : ℕ → ℕ → List Lexeme → List Sexpr → List (Annot Sexpr) → Prop
  | nil {n k : ℕ} : Forest n k [] [] []
  | trivia {n k : ℕ} {l : Lexeme} {ls : List Lexeme} {items : List Sexpr} {annots : List (Annot Sexpr)}
      (htrivia : l.isToken = false) (hrest : Forest n k ls items annots) : Forest n k (l :: ls) items annots
  | atom {n k : ℕ} {name text : List UInt8} {ls : List Lexeme} {items : List Sexpr} {annots : List (Annot Sexpr)}
      (hrest : Forest n (k + 1) ls items annots) : Forest n k (.atom name text :: ls) (.atom name :: items) annots
  | str {n k : ℕ} {s text : List UInt8} {ls : List Lexeme} {items : List Sexpr} {annots : List (Annot Sexpr)}
      (hrest : Forest n (k + 1) ls items annots) : Forest n k (.str s text :: ls) (.str s :: items) annots
  | list {n k : ℕ} {body ls : List Lexeme} {items items' : List Sexpr} {annots annots' : List (Annot Sexpr)}
      (hbody : Forest n 0 body items annots) (hrest : Forest (n + 1) (k + 1) ls items' annots') :
      Forest (n + 1) k (.lpar :: (body ++ .rpar :: ls)) (.list items annots :: items') annots'
  | annot {n k : ℕ} {id text : List UInt8} {body ls : List Lexeme} {items items' : List Sexpr}
      {annots annots' : List (Annot Sexpr)} (hbody : Forest n 0 body items annots)
      (hrest : Forest (n + 1) k ls items' annots') :
      Forest (n + 1) k (.annot id text :: (body ++ .rpar :: ls)) items' (⟨k, id, items⟩ :: annots')

/-- A source as a row of lexemes, with its forms and the annotations at its top. -/
structure Source (strict : Bool) (ls : List Lexeme) (src : List UInt8) (forms : List Sexpr)
    (annots : List (Annot Sexpr)) : Prop where
  bytes : bytesOf ls = src
  reads : Reads strict ls []
  tree : Forest maxDepth 0 ls forms annots

/-! ## Leniency

What a strict relation allows, the lenient one does. -/

theorem Escape.lenient {strict : Bool} {b w : List UInt8} (h : Escape strict b w) : Escape false b w := by
  cases h with
  | simple hsimple => exact .simple hsimple
  | hex hhi hlo => exact .hex hhi hlo
  | unicode hdigits hchar _ => exact .unicode hdigits hchar nofun

theorem StringItem.lenient {strict : Bool} {b w : List UInt8} (h : StringItem strict b w) : StringItem false b w := by
  cases h with
  | plain hquote hbackslash hprints hascii => exact .plain hquote hbackslash hprints hascii
  | utf8 hlead hlength hutf8 => exact .utf8 hlead hlength hutf8
  | escape h => exact .escape h.lenient

theorem StringBody.lenient {strict : Bool} {s w : List UInt8} (h : StringBody strict s w) : StringBody false s w := by
  induction h with
  | close => exact .close
  | cons hitem _ ih => exact .cons hitem.lenient ih

theorem StringLit.lenient {strict : Bool} {s w : List UInt8} (h : StringLit strict s w) : StringLit false s w := by
  obtain ⟨h⟩ := h
  exact ⟨h.lenient⟩

theorem BlockPiece.lenient {strict : Bool} (d : ℕ) (x : ℕ ⊕ Unit) (w r : List UInt8) (h : BlockPiece strict d x w r) :
    BlockPiece false d x w r := by
  cases h with
  | finish => exact .finish
  | cutOff _ => exact .cutOff rfl
  | opens => exact .opens
  | closes => exact .closes
  | char hopens hcloses => exact .char hopens hcloses

theorem AnnotationId.lenient {strict : Bool} {id w r : List UInt8} (h : AnnotationId strict id w r) :
    AnnotationId false id w r := by
  cases h with
  | bare hne hchars hmaximal => exact .bare hne hchars hmaximal
  | quoted h hne hutf8 => exact .quoted h.lenient hne hutf8

theorem AnnotationPiece.lenient {strict : Bool} (d : ℕ) (x : ℕ ⊕ Unit) (w r : List UInt8)
    (h : AnnotationPiece strict d x w r) : AnnotationPiece false d x w r := by
  cases h with
  | finish => exact .finish
  | cutOff _ => exact .cutOff rfl
  | str h => exact .str h.lenient
  | raw _ h => exact .raw rfl h
  | line h => exact .line h
  | block h => exact .block (h.mono BlockPiece.lenient)
  | opens hblock => exact .opens hblock
  | closes => exact .closes
  | char hsource hquote hlparen hrparen hline => exact .char hsource hquote hlparen hrparen hline

theorem AtomText.lenient {strict : Bool} {name w : List UInt8} (h : AtomText strict name w) : AtomText false name w := by
  cases h with
  | bare hne hchars hdollar => exact .bare hne hchars hdollar
  | quoted hsigil h hne hutf8 => exact .quoted hsigil h.lenient hne hutf8

theorem Lexeme.Valid.lenient {strict : Bool} {l : Lexeme} {r : List UInt8} (h : l.Valid strict r) : l.Valid false r := by
  cases l with
  | space _ | line _ | lpar | rpar => exact h
  | block _ => exact Iterates.mono BlockPiece.lenient h
  | skipped _ _ _ => exact ⟨h.1, h.2.1.lenient, h.2.2.mono AnnotationPiece.lenient⟩
  | str _ _ | atom _ _ => exact ⟨h.1.lenient, h.2⟩
  | annot _ _ => exact ⟨h.1, h.2.lenient⟩

theorem Reads.lenient {strict : Bool} {ls : List Lexeme} {r : List UInt8} (h : Reads strict ls r) :
    Reads false ls r := by
  induction ls with
  | nil => trivial
  | cons l ls ih => exact ⟨h.1.lenient, ih h.2⟩

/-! ## Looking ahead

A lexeme sees one byte of what follows it. -/

theorem BlockPiece.lookahead {strict : Bool} (d : ℕ) (x : ℕ ⊕ Unit) (w r r' : List UInt8) (hhead : r.head? = r'.head?)
    (h : BlockPiece strict d x w r) : BlockPiece strict d x w r' := by
  cases h with
  | finish => exact .finish
  | cutOff hlenient =>
    obtain rfl := List.head?_eq_none_iff.mp hhead.symm
    exact .cutOff hlenient
  | opens => exact .opens
  | closes => exact .closes
  | char hopens hcloses => exact .char (hhead ▸ hopens) (hhead ▸ hcloses)

theorem RawPiece.lookahead (u : Unit) (x : Unit ⊕ Unit) (w r r' : List UInt8) (hhead : r.head? = r'.head?)
    (h : RawPiece u x w r) : RawPiece u x w r' := by
  cases h with
  | finish hquote => exact .finish (hhead ▸ hquote)
  | escape => exact .escape
  | cutOff =>
    obtain rfl := List.head?_eq_none_iff.mp hhead.symm
    exact .cutOff
  | char hquote hbackslash => exact .char hquote hbackslash

theorem RawString.lookahead {w r r' : List UInt8} (hhead : r.head? = r'.head?) (h : RawString w r) : RawString w r' := by
  cases h with
  | closed h =>
    have hquote : (quote :: r).head? = (quote :: r').head? := rfl
    exact .closed (h.lookahead RawPiece.lookahead hquote)
  | cutOff h =>
    obtain rfl := List.head?_eq_none_iff.mp hhead.symm
    exact .cutOff h

theorem Line.lookahead {w r r' : List UInt8} (hhead : r.head? = r'.head?) (h : Line w r) : Line w r' :=
  ⟨h.within, hhead ▸ h.maximal⟩

theorem AnnotationId.lookahead {strict : Bool} {id w r r' : List UInt8} (hhead : r.head? = r'.head?)
    (h : AnnotationId strict id w r) : AnnotationId strict id w r' := by
  cases h with
  | bare hne hchars hmaximal => exact .bare hne hchars (hhead ▸ hmaximal)
  | quoted h hne hutf8 => exact .quoted h hne hutf8

theorem AnnotationPiece.lookahead {strict : Bool} (d : ℕ) (x : ℕ ⊕ Unit) (w r r' : List UInt8)
    (hhead : r.head? = r'.head?) (h : AnnotationPiece strict d x w r) : AnnotationPiece strict d x w r' := by
  cases h with
  | finish => exact .finish
  | cutOff hlenient =>
    obtain rfl := List.head?_eq_none_iff.mp hhead.symm
    exact .cutOff hlenient
  | str h => exact .str h
  | raw hlenient h => exact .raw hlenient (h.lookahead hhead)
  | line h => exact .line (h.lookahead hhead)
  | block h => exact .block (h.lookahead BlockPiece.lookahead hhead)
  | opens hblock => exact .opens (hhead ▸ hblock)
  | closes => exact .closes
  | char hsource hquote hlparen hrparen hline => exact .char hsource hquote hlparen hrparen (hhead ▸ hline)

theorem Lexeme.Valid.lookahead {strict : Bool} {l : Lexeme} {r r' : List UInt8} (hhead : r.head? = r'.head?)
    (h : l.Valid strict r) : l.Valid strict r' := by
  cases l with
  | space _ | rpar => exact h
  | line _ => exact Line.lookahead hhead h
  | block _ => exact Iterates.lookahead BlockPiece.lookahead hhead h
  | skipped _ _ _ =>
    exact ⟨h.1, h.2.1.lookahead (Recognizer.head?_append_congr hhead _), h.2.2.lookahead AnnotationPiece.lookahead hhead⟩
  | lpar => exact ⟨hhead ▸ h.1, hhead ▸ h.2⟩
  | str _ _ | atom _ _ => exact ⟨h.1, fun c hc => h.2 c (hhead ▸ hc)⟩
  | annot _ _ => exact ⟨h.1, h.2.lookahead hhead⟩

/-! ## Rows of lexemes -/

@[simp]
theorem bytesOf_nil : bytesOf [] = [] := rfl

@[simp]
theorem bytesOf_cons (l : Lexeme) (ls : List Lexeme) : bytesOf (l :: ls) = l.bytes ++ bytesOf ls := rfl

@[simp]
theorem bytesOf_append (ls ls' : List Lexeme) : bytesOf (ls ++ ls') = bytesOf ls ++ bytesOf ls' := List.flatMap_append

theorem reads_append {strict : Bool} {ls ls' : List Lexeme} {r : List UInt8} :
    Reads strict (ls ++ ls') r ↔ Reads strict ls (bytesOf ls' ++ r) ∧ Reads strict ls' r := by
  induction ls with
  | nil => exact ⟨fun h => ⟨trivial, h⟩, fun h => h.2⟩
  | cons l ls ih =>
    simp only [List.cons_append, Reads, bytesOf_append, List.append_assoc]
    rw [ih, and_assoc]

/-! ## Forests -/

/-- A value: a row of lexemes that spells one tree, without trivia around it. -/
inductive IsValue : ℕ → List Lexeme → Sexpr → Prop
  | atom {n : ℕ} {name text : List UInt8} : IsValue n [.atom name text] (.atom name)
  | str {n : ℕ} {s text : List UInt8} : IsValue n [.str s text] (.str s)
  | list {n : ℕ} {body : List Lexeme} {items : List Sexpr} {annots : List (Annot Sexpr)}
      (hbody : Forest n 0 body items annots) : IsValue (n + 1) (.lpar :: (body ++ [.rpar])) (.list items annots)

theorem add_length_cons (k : ℕ) (v : Sexpr) (items : List Sexpr) :
    k + (v :: items).length = k + 1 + items.length := by
  rw [List.length_cons]
  omega

theorem Forest.append {n k : ℕ} {ls ls' : List Lexeme} {items items' : List Sexpr} {annots annots' : List (Annot Sexpr)}
    (h : Forest n k ls items annots) (h' : Forest n (k + items.length) ls' items' annots') :
    Forest n k (ls ++ ls') (items ++ items') (annots ++ annots') := by
  induction h with
  | nil => exact h'
  | trivia htrivia _ ih => exact .trivia htrivia (ih h')
  | atom _ ih => exact .atom (ih (add_length_cons .. ▸ h'))
  | str _ ih => exact .str (ih (add_length_cons .. ▸ h'))
  | list hbody _ _ ih =>
    rw [List.cons_append, List.append_assoc]
    exact .list hbody (ih (add_length_cons .. ▸ h'))
  | annot hbody _ _ ih =>
    rw [List.cons_append, List.append_assoc]
    exact .annot hbody (ih h')

theorem IsValue.forest {n : ℕ} {lv : List Lexeme} {v : Sexpr} (h : IsValue n lv v) (k : ℕ) : Forest n k lv [v] [] := by
  cases h with
  | atom => exact .atom .nil
  | str => exact .str .nil
  | list hbody => exact .list hbody .nil

/-- A forest is its annotations, its first tree and what follows. -/
theorem Forest.split {n k : ℕ} {ls : List Lexeme} {v : Sexpr} {items : List Sexpr} {annots : List (Annot Sexpr)}
    (h : Forest n k ls (v :: items) annots) :
    ∃ pre as lv rest as', ls = pre ++ (lv ++ rest) ∧ annots = as ++ as' ∧ Forest n k pre [] as ∧ IsValue n lv v ∧
      Forest n (k + 1) rest items as' := by
  generalize hvs : v :: items = vs at h
  induction h with
  | nil => cases hvs
  | @trivia _ _ l _ _ _ htrivia _ ih =>
    obtain ⟨pre, as, lv, rest, as', rfl, rfl, hpre, hv, hrest⟩ := ih hvs
    exact ⟨l :: pre, as, lv, rest, as', rfl, rfl, .trivia htrivia hpre, hv, hrest⟩
  | atom hrest _ =>
    cases hvs
    exact ⟨[], [], _, _, _, rfl, rfl, .nil, .atom, hrest⟩
  | str hrest _ =>
    cases hvs
    exact ⟨[], [], _, _, _, rfl, rfl, .nil, .str, hrest⟩
  | @list _ _ body ls _ _ _ _ hbody hrest _ _ =>
    cases hvs
    refine ⟨[], [], _, ls, _, ?_, rfl, .nil, .list hbody, hrest⟩
    rw [List.nil_append, List.cons_append, List.append_assoc, List.singleton_append]
  | @annot _ k id text body ls items _ _ _ hbody _ _ ih =>
    obtain ⟨pre, as, lv, rest, as', rfl, rfl, hpre, hv, hrest⟩ := ih hvs
    refine ⟨.annot id text :: (body ++ .rpar :: pre), ⟨k, id, items⟩ :: as, lv, rest, as', ?_, rfl, .annot hbody hpre,
      hv, hrest⟩
    simp only [List.cons_append, List.append_assoc]

end Wasmrt.Sexpr
