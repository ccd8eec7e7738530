import Wasmrt.Library.Recognizer

/-!
# The parser of S-expressions

The parser of `sexpr.rs`, over bytes. It skips comments and the annotations that it does not know, and keeps those that
it knows beside the items of the list in which they stand.

The nesting cap is a number of levels that may still be opened. A parser for what stands inside a list is handed down
from level to level, and there is none below the last.

## Main definitions

* `Sexpr`, `Annot`: the tree.
* `Cursor`, `Parser`: what is left to read, and parsers that fail with a `ParseError`.
* `parseAllAnnotated`, `parseAll`: the parser.
-/

namespace Wasmrt

/-! ## The tree -/

/-- An annotation, over the type of its items: the index of the item that it precedes, its id and its items. -/
structure Annot (S : Type) where
  before : ℕ
  id : List UInt8
  body : List S
  deriving DecidableEq, Repr

/-- A node: an atom as it is written, a string as the bytes it stands for, or a list with the annotations between its
items. -/
inductive Sexpr
  | atom (text : List UInt8)
  | str (bytes : List UInt8)
  | list (items : List Sexpr) (annots : List (Annot Sexpr))
  deriving Repr

/-- The bytes of a text. -/
def utf8Bytes (s : String) : List UInt8 := s.toUTF8.data.toList

/-- The ids of the annotations that are kept. -/
def knownAnnotations : List (List UInt8) :=
  ["custom", "name", "metadata.code.branch_hint"].map utf8Bytes

/-! ## Characters -/

namespace Sexpr

abbrev quote : UInt8 := 0x22
abbrev dollar : UInt8 := 0x24
abbrev lparen : UInt8 := 0x28
abbrev rparen : UInt8 := 0x29
abbrev semicolon : UInt8 := 0x3b
abbrev atSign : UInt8 := 0x40
abbrev backslash : UInt8 := 0x5c
abbrev lbrace : UInt8 := 0x7b
abbrev rbrace : UInt8 := 0x7d
abbrev newline : UInt8 := 0x0a

/-- The white space of a source. -/
def isSpace (c : UInt8) : Bool := c == 0x20 || c == 0x09 || c == 0x0d || c == newline

/-- The characters of names other than letters and digits. -/
def idSymbols : List UInt8 :=
  [0x21, 0x23, dollar, 0x25, 0x26, 0x27, 0x2a, 0x2b, 0x2d, 0x2e, 0x2f, 0x3a, 0x3c, 0x3d, 0x3e, 0x3f, atSign, backslash,
    0x5e, 0x5f, 0x60, 0x7c, 0x7e]

/-- Is the byte an `idchar`? -/
def isIdchar (c : UInt8) : Bool :=
  (0x30 ≤ c && c ≤ 0x39) || (0x41 ≤ c && c ≤ 0x5a) || (0x61 ≤ c && c ≤ 0x7a) || idSymbols.contains c

/-- May the byte appear outside strings and comments? -/
def isSourceChar (c : UInt8) : Bool := (0x21 ≤ c && c ≤ 0x7e) || isSpace c

/-- The length of the UTF-8 sequence that a byte leads; `none` for one that leads none. -/
def utf8Len (lead : UInt8) : Option ℕ :=
  if 0xc2 ≤ lead ∧ lead ≤ 0xdf then some 2
  else if 0xe0 ≤ lead ∧ lead ≤ 0xef then some 3
  else if 0xf0 ≤ lead ∧ lead ≤ 0xf4 then some 4
  else none

/-- Are the bytes well-formed UTF-8? -/
def isUtf8 (bytes : List UInt8) : Bool := (ByteArray.mk bytes.toArray).validateUTF8

/-- The value of a hexadecimal digit. -/
def hexVal (c : UInt8) : Option UInt8 :=
  if 0x30 ≤ c ∧ c ≤ 0x39 then some (c - 0x30)
  else if 0x61 ≤ c ∧ c ≤ 0x66 then some (c - 0x61 + 10)
  else if 0x41 ≤ c ∧ c ≤ 0x46 then some (c - 0x41 + 10)
  else none

/-- The bytes of the character of a code point. -/
def encodeChar (cp : ℕ) : Option (List UInt8) :=
  if cp.isValidChar then some (String.utf8EncodeChar (Char.ofNat cp)) else none

/-! ## Parsers -/

inductive ParseErrorKind
  | unexpectedEof | unexpectedParen | unterminatedString | unterminatedList | badEscape | nestingTooDeep
  | unexpectedChar | illegalCharacter | malformedUtf8 | emptyIdentifier | emptyAnnotationId
  deriving DecidableEq, Repr

/-- A failure, with the offset where it was noticed. -/
structure ParseError where
  kind : ParseErrorKind
  offset : ℕ
  deriving DecidableEq, Repr

/-- The position, and the bytes from there on. Past the end there are none. -/
structure Cursor where
  pos : ℕ
  rest : List UInt8
  deriving DecidableEq, Repr

/-- Parsers. No error stands for a loop that does not end. -/
abbrev Parser := StateT Cursor (Except (Option ParseError))

def fail {α : Type} (kind : ParseErrorKind) : Parser α := fun c => .error (some ⟨kind, c.pos⟩)

/-- Move on by some bytes. -/
def advance (n : ℕ) : Parser Unit := fun c => .ok ((), ⟨c.pos + n, c.rest.drop n⟩)

/-- The bytes ahead. -/
def ahead : Parser (List UInt8) := fun c => .ok (c.rest, c)

/-- Repeat a step that says how to go on or what the loop returns. Each step moves on, so that the loop ends. -/
def loop {α β : Type} (step : α → Parser (α ⊕ β)) : α → Parser β := Recognizer.loopM Cursor.rest none step

/-! ## Strings -/

/-- One more digit of a code point. Overflow is refused. -/
def digitStep (cp : ℕ) : Parser (ℕ ⊕ ℕ) := do
  match ← ahead with
  | [] => pure (.inr cp)
  | c :: _ =>
    if c = rbrace then pure (.inr cp)
    else match hexVal c with
      | none => fail .badEscape
      | some d =>
        if cp * 16 + d.toNat < 2 ^ 32 then do
          advance 1
          pure (.inl (cp * 16 + d.toNat))
        else fail .badEscape

/-- The bytes of an escaped code point, after its `u`. -/
def parseUnicodeEscape : Parser (List UInt8) := do
  if (← ahead).head? ≠ some lbrace then fail .badEscape
  else
    advance 1
    let cp ← loop digitStep 0
    if (← ahead) = [] then fail .badEscape
    else
      advance 1
      match encodeChar cp with
      | none => fail .badEscape
      | some bytes => pure bytes

/-- The byte of an escape of one letter. -/
def simpleEscape (e : UInt8) : Option UInt8 :=
  if e = 0x74 then some 0x09
  else if e = 0x6e then some newline
  else if e = 0x72 then some 0x0d
  else if e = quote ∨ e = 0x27 ∨ e = backslash then some e
  else none

/-- The bytes of an escape, after its backslash. -/
def parseEscape : Parser (List UInt8) := do
  match ← ahead with
  | [] => fail .badEscape
  | e :: _ =>
    advance 1
    match simpleEscape e with
    | some v => pure [v]
    | none =>
      if e = 0x75 then parseUnicodeEscape
      else match hexVal e with
        | none => fail .badEscape
        | some hi =>
          match (← ahead).head?.bind hexVal with
          | none => fail .badEscape
          | some lo => do
            advance 1
            pure [hi * 16 + lo]

/-- One more piece of a string: the bytes it stands for, until the closing quote. -/
def stringStep (buf : List UInt8) : Parser (List UInt8 ⊕ List UInt8) := do
  match ← ahead with
  | [] => fail .unterminatedString
  | c :: _ =>
    if c = quote then do
      advance 1
      pure (.inr buf)
    else if c = backslash then do
      advance 1
      let bytes ← parseEscape
      pure (.inl (buf ++ bytes))
    else if c < 0x20 ∨ c = 0x7f then fail .illegalCharacter
    else if c < 0x80 then do
      advance 1
      pure (.inl (buf ++ [c]))
    else match utf8Len c with
      | none => fail .malformedUtf8
      | some len =>
        let seq := (← ahead).take len
        if seq.length = len ∧ isUtf8 seq then do
          advance len
          pure (.inl (buf ++ seq))
        else fail .malformedUtf8

/-- A string, from its opening quote on. -/
def parseString : Parser (List UInt8) := do
  advance 1
  loop stringStep []

/-! ## Trivia -/

/-- Up to the end of the line. -/
def skipLine : Parser Unit := do
  advance ((← ahead).takeWhile (· ≠ newline)).length

/-- One more piece of a block comment, `depth` comments deep. The end of the input ends it as well. -/
def blockStep (depth : ℕ) : Parser (ℕ ⊕ Unit) := do
  let bs ← ahead
  if depth = 0 ∨ bs = [] then pure (.inr ())
  else if [lparen, semicolon] <+: bs then do
    advance 2
    pure (.inl (depth + 1))
  else if [semicolon, rparen] <+: bs then do
    advance 2
    pure (.inl (depth - 1))
  else do
    advance 1
    pure (.inl depth)

/-- A block comment, after its opening. -/
def skipBlock : Parser Unit := loop blockStep 1

/-- One more byte of a string in an annotation that is skipped; a backslash takes the next byte along. -/
def rawStep (_ : Unit) : Parser (Unit ⊕ Unit) := do
  match ← ahead with
  | [] => pure (.inr ())
  | c :: _ =>
    if c = quote then pure (.inr ())
    else do
      advance (if c = backslash then 2 else 1)
      pure (.inl ())

/-- A string in an annotation that is skipped. -/
def skipRawString : Parser Unit := do
  advance 1
  loop rawStep ()
  advance 1

/-- The id of an annotation, right after its `@`: a run of `idchar`s or a string. -/
def readAnnotationId : Parser (List UInt8) := do
  match ← ahead with
  | [] => fail .emptyAnnotationId
  | c :: _ =>
    if c = quote then do
      let s ← parseString
      if s = [] then fail .emptyAnnotationId
      else if isUtf8 s then pure s
      else fail .malformedUtf8
    else if isIdchar c then do
      let id := (← ahead).takeWhile isIdchar
      advance id.length
      pure id
    else fail .emptyAnnotationId

/-- One more piece of an annotation that is skipped, `depth` parentheses deep. -/
def annotationStep (depth : ℕ) : Parser (ℕ ⊕ Unit) := do
  match ← ahead with
  | [] => pure (.inr ())
  | c :: bs =>
    if depth = 0 then pure (.inr ())
    else if c = quote then do
      skipRawString
      pure (.inl depth)
    else if [semicolon, semicolon] <+: c :: bs then do
      skipLine
      pure (.inl depth)
    else if [lparen, semicolon] <+: c :: bs then do
      advance 2
      skipBlock
      pure (.inl depth)
    else if c = lparen then do
      advance 1
      pure (.inl (depth + 1))
    else if c = rparen then do
      advance 1
      pure (.inl (depth - 1))
    else if isSourceChar c then do
      advance 1
      pure (.inl depth)
    else fail .illegalCharacter

/-- An annotation that means nothing here. -/
def skipAnnotation : Parser Unit := do
  advance 2
  let _ ← readAnnotationId
  loop annotationStep 1

/-- One piece of trivia; `false` when what is ahead begins a value. -/
def skipOneTrivia : Parser Bool := do
  match ← ahead with
  | [] => pure false
  | c :: bs =>
    if isSpace c then do
      advance 1
      pure true
    else if [semicolon, semicolon] <+: c :: bs then do
      advance 2
      skipLine
      pure true
    else if [lparen, semicolon] <+: c :: bs then do
      advance 2
      skipBlock
      pure true
    else if [lparen, atSign] <+: c :: bs then do
      skipAnnotation
      pure true
    else pure false

/-- What stands inside a list: its items, and the annotations between them. -/
abbrev Contents := List Sexpr × List (Annot Sexpr)

/-- Where annotations are kept: the index of the next item, and the parser of what stands inside an annotation, if one
more level may be opened. -/
abbrev Keeps := ℕ × Option (Parser Contents)

scoped instance lawfulBEq_bytes : LawfulBEq (List UInt8) := inferInstance

/-- One more piece of trivia, or an annotation that is kept. -/
def triviaStep (into : Option Keeps) (annots : List (Annot Sexpr)) :
    Parser (List (Annot Sexpr) ⊕ List (Annot Sexpr)) := do
  let skip : Parser (List (Annot Sexpr) ⊕ List (Annot Sexpr)) := do
    if ← skipOneTrivia then pure (.inl annots) else pure (.inr annots)
  match into with
  | none => skip
  | some (before, inner) =>
    if [lparen, atSign] <+: (← ahead) then do
      let mark ← get
      advance 2
      let id ← readAnnotationId
      if id ∈ knownAnnotations then
        match inner with
        | none => fail .nestingTooDeep
        | some body => do
          let (items, _) ← body
          pure (.inl (annots ++ [⟨before, id, items⟩]))
      else do
        set mark
        skip
    else skip

/-- Skip trivia. Annotations that are known are added to `annots`, if they are kept. -/
def skipTriviaInto (into : Option Keeps) (annots : List (Annot Sexpr)) : Parser (List (Annot Sexpr)) :=
  loop (triviaStep into) annots

/-! ## Values -/

/-- A token ends before white space, a parenthesis, a comment or the end. -/
def requireDelimiter : Parser Unit := do
  match ← ahead with
  | [] => pure ()
  | c :: _ =>
    if isSpace c ∨ c = lparen ∨ c = rparen ∨ c = semicolon then pure () else fail .unexpectedChar

/-- A run of `idchar`s. No delimiter is one; what is none and no character of a source either is refused. -/
def parseAtom : Parser (List UInt8) := do
  let text := (← ahead).takeWhile isIdchar
  advance text.length
  match ← ahead with
  | [] => pure text
  | c :: _ => if isSourceChar c then pure text else fail .illegalCharacter

/-- A list, by the parser of what stands inside. -/
def parseList (inner : Option (Parser Contents)) : Parser Sexpr := do
  match inner with
  | none => fail .nestingTooDeep
  | some body =>
    advance 1
    let (items, annots) ← body
    pure (.list items annots)

/-- An atom. A `$` or an `@` right before a string makes one token with it. -/
def parseAtomValue : Parser Sexpr := do
  let text ← parseAtom
  if text = [] then fail .unexpectedChar
  else if (text = [dollar] ∨ text = [atSign]) ∧ (← ahead).head? = some quote then do
    let s ← parseString
    requireDelimiter
    if s = [] then fail .emptyIdentifier
    else if isUtf8 s then pure (.atom (text ++ s))
    else fail .malformedUtf8
  else do
    requireDelimiter
    if text = [dollar] then fail .emptyIdentifier else pure (.atom text)

/-- A value, after trivia. -/
def parseValue (inner : Option (Parser Contents)) : Parser Sexpr := do
  let _ ← skipTriviaInto none []
  match ← ahead with
  | [] => fail .unexpectedEof
  | c :: _ =>
    if c = lparen then parseList inner
    else if c = rparen then fail .unexpectedParen
    else if c = quote then do
      let s ← parseString
      requireDelimiter
      pure (.str s)
    else if c = semicolon then fail .unexpectedChar
    else parseAtomValue

/-- One more item of a list, until its closing parenthesis. -/
def itemsStep (inner : Option (Parser Contents)) (got : Contents) : Parser (Contents ⊕ Contents) := do
  let (items, annots) := got
  let annots ← skipTriviaInto (some (items.length, inner)) annots
  match ← ahead with
  | [] => fail .unterminatedList
  | c :: _ =>
    if c = rparen then do
      advance 1
      pure (.inr (items, annots))
    else do
      let v ← parseValue inner
      pure (.inl (items ++ [v], annots))

/-- The parser of what stands inside a list, where `n` more levels may be opened. -/
def innerAt : ℕ → Option (Parser Contents)
  | 0 => none
  | n + 1 => some (loop (itemsStep (innerAt n)) ([], []))

/-- The cap on nesting. -/
def maxDepth : ℕ := 1024

/-- One more form at the top, and the trivia after it. -/
def formsStep (got : Contents) : Parser (Contents ⊕ Contents) := do
  let (forms, annots) := got
  if (← ahead) = [] then pure (.inr (forms, annots))
  else do
    let v ← parseValue (innerAt maxDepth)
    let annots ← skipTriviaInto (some (forms.length + 1, innerAt maxDepth)) annots
    pure (.inl (forms ++ [v], annots))

/-- The forms of a source, and the annotations between them. -/
def parseForms : Parser Contents := do
  let annots ← skipTriviaInto (some (0, innerAt maxDepth)) []
  loop formsStep ([], annots)

/-- Parse a source, with the annotations at its top. -/
def parseAllAnnotated (src : List UInt8) : Except (Option ParseError) Contents := (·.1) <$> parseForms ⟨0, src⟩

/-- Parse a source. -/
def parseAll (src : List UInt8) : Except (Option ParseError) (List Sexpr) := (·.1) <$> parseAllAnnotated src

end Sexpr

end Wasmrt
