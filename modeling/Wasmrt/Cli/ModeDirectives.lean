import Wasmrt.Cli.Pin

/-!
# The directives of a pin DB

A comment that reads `mode:`, in whatever letters and with blanks wherever they may stand, is a directive. The reader
of a DB takes the first comment that has `mode:` letter for letter, so it can miss a directive, and it never looks at
a second one.

## Main definitions

* `directive`: the mode that a line spells.
* `FailsClosed`: no directive of a DB is lost.
* `Governed`: the first directive that is written letter for letter is as strict as any.

## Main results

* `modeFromDb_eq`: which line the reader goes by.
* `failsClosed_iff`: the DBs whose directives are kept.
-/

namespace Wasmrt

/-- The word of a directive. -/
def modeWord : Text := ['m', 'o', 'd', 'e']

/-- The mode a value spells. A name that is not known is `enforce`. -/
def spelledMode (value : Text) : Mode := (parseMode (Text.firstToken value).toAsciiLowercase).getD .enforce

/-- What a comment says, without blanks at its ends. -/
def commentBody (line : Text) : Option Text := (['#'].isPrefixOf? (Text.trim line)).map Text.trim

/-- The value of a comment that reads `mode:` in letters of either case, with blanks before the colon or not. -/
def directiveValue (body : Text) : Option Text :=
  if Text.toAsciiLowercase (body.take 4) = modeWord then [':'].isPrefixOf? ((body.drop 4).dropWhile isWhitespace)
  else none

/-- The mode that a line spells, if it is a directive. -/
def directive (line : Text) : Option Mode := do
  let body ← commentBody line
  let value ← directiveValue body
  pure (spelledMode value)

/-- A comment that begins with `mode:` letter for letter. -/
def isVerbatim (line : Text) : Bool :=
  (commentBody line).any fun body => (modeWord ++ [':']).isPrefixOf body

/-- The directives of a DB, in order. -/
def directives (text : Text) : List Text := text.lines.filter fun line => (directive line).isSome

/-- No directive of a DB is lost: the mode read is at least as strict as each line spells, it is absent only where no
line is a directive, and other lines have no part in it. -/
structure FailsClosed (text : Text) : Prop where
  strict : ∀ line ∈ text.lines, ∀ m, directive line = some m → ∃ m', modeFromDb text = some m' ∧ m ≤ m'
  absent : (∀ line ∈ text.lines, directive line = none) → modeFromDb text = none
  other_lines : ∀ text', directives text' = directives text → modeFromDb text' = modeFromDb text

/-- There is no directive, or the first one that is written letter for letter is as strict as any. -/
def Governed (text : Text) : Prop :=
  (∀ line ∈ text.lines, directive line = none) ∨
    ∃ line₀ m₀, text.lines.find? isVerbatim = some line₀ ∧ directive line₀ = some m₀ ∧
      ∀ line ∈ text.lines, ∀ m, directive line = some m → m ≤ m₀

/-! ## What the reader goes by -/

/-- A prefix that is there is followed by what is left. -/
theorem isPrefixOf?_eq_some_iff {α : Type*} [DecidableEq α] {p l rest : List α} :
    p.isPrefixOf? l = some rest ↔ l = p ++ rest := by
  induction p generalizing l with
  | nil => simp [List.isPrefixOf?]
  | cons a p ih =>
    cases l with
    | nil => simp [List.isPrefixOf?]
    | cons b l =>
      rw [List.isPrefixOf?, List.cons_append, List.cons.injEq]
      by_cases h : a = b
      · simp [h, ih]
      · simp [h, Ne.symm h]

/-- A directive spells its word and its colon, and what follows is its value. -/
theorem directiveValue_eq_some_iff {body value : Text} :
    directiveValue body = some value ↔
      ∃ word blanks : Text, body = word ++ blanks ++ ':' :: value ∧ word.toAsciiLowercase = modeWord ∧
        ∀ c ∈ blanks, isWhitespace c := by
  constructor
  · intro h
    rw [directiveValue] at h
    split_ifs at h with hword
    rw [isPrefixOf?_eq_some_iff] at h
    refine ⟨body.take 4, (body.drop 4).takeWhile isWhitespace, ?_, hword, ?_⟩
    · rw [List.append_assoc, show ':' :: value = [':'] ++ value from rfl, ← h, List.takeWhile_append_dropWhile,
        List.take_append_drop]
    · exact fun c hc => List.mem_takeWhile_imp hc
  · rintro ⟨word, blanks, rfl, hword, hblanks⟩
    have hlen : word.length = 4 := by simpa [Text.toAsciiLowercase, modeWord] using congrArg List.length hword
    have htake : (word ++ blanks ++ ':' :: value).take 4 = word := by
      rw [List.append_assoc, ← hlen, List.take_left]
    have hdrop : (word ++ blanks ++ ':' :: value).drop 4 = blanks ++ ':' :: value := by
      rw [List.append_assoc, ← hlen, List.drop_left]
    rw [directiveValue, htake, if_pos hword, hdrop, List.dropWhile_append_of_pos hblanks]
    rfl

/-- The value of a comment that is written letter for letter. -/
theorem directiveValue_verbatim (value : Text) : directiveValue (modeWord ++ [':'] ++ value) = some value :=
  directiveValue_eq_some_iff.mpr ⟨modeWord, [], by simp, by decide, by simp⟩

/-- The reader recognises the lines that are written letter for letter. -/
theorem lineMode_eq (line : Text) : lineMode line = if isVerbatim line then directive line else none := by
  rw [lineMode, isVerbatim, directive, commentBody]
  cases ['#'].isPrefixOf? (Text.trim line) with
  | none => rfl
  | some rest =>
    change (['m', 'o', 'd', 'e', ':'].isPrefixOf? (Text.trim rest) >>= fun value => some (spelledMode value)) =
      if (modeWord ++ [':']).isPrefixOf (Text.trim rest) then
        directiveValue (Text.trim rest) >>= fun value => some (spelledMode value) else none
    cases hvalue : ['m', 'o', 'd', 'e', ':'].isPrefixOf? (Text.trim rest) with
    | none =>
      rw [if_neg]
      · rfl
      · rw [List.isPrefixOf_iff_prefix]
        rintro ⟨value, h⟩
        have hsome : ['m', 'o', 'd', 'e', ':'].isPrefixOf? (Text.trim rest) = some value :=
          isPrefixOf?_eq_some_iff.mpr h.symm
        rw [hvalue] at hsome
        cases hsome
    | some value =>
      have hbody : Text.trim rest = modeWord ++ [':'] ++ value := isPrefixOf?_eq_some_iff.mp hvalue
      rw [if_pos (List.isPrefixOf_iff_prefix.mpr ⟨value, hbody.symm⟩), hbody, directiveValue_verbatim]

/-- A line that is written letter for letter is a directive. -/
theorem isSome_directive_of_isVerbatim {line : Text} (h : isVerbatim line) : (directive line).isSome := by
  obtain ⟨body, hbody, hprefix⟩ := (Option.any_eq_true _ _).mp h
  obtain ⟨value, rfl⟩ := List.isPrefixOf_iff_prefix.mp hprefix
  rw [directive, Option.mem_def.mp hbody]
  rw [Option.bind_eq_bind, Option.bind_some, directiveValue_verbatim]
  rfl

/-- A search whose finds are all of some shape is a search for that shape. -/
theorem findSome?_ite {α β : Type*} (p : α → Bool) (f : α → Option β) (hf : ∀ a, p a → (f a).isSome) (l : List α) :
    (l.findSome? fun a => if p a then f a else none) = (l.find? p).bind f := by
  induction l with
  | nil => rfl
  | cons a l ih =>
    rw [List.findSome?_cons, List.find?_cons]
    cases hp : p a with
    | false => simpa using ih
    | true =>
      obtain ⟨b, hb⟩ := Option.isSome_iff_exists.mp (hf a hp)
      simp [hb]

/-- The mode read is that of the first line that is written letter for letter. -/
theorem modeFromDb_eq (text : Text) : modeFromDb text = (text.lines.find? isVerbatim).bind directive := by
  rw [modeFromDb, funext lineMode_eq]
  exact findSome?_ite isVerbatim directive (fun _ => isSome_directive_of_isVerbatim) text.lines

/-- Only directives matter to the reader. -/
theorem modeFromDb_eq_of_directives {text text' : Text} (h : directives text' = directives text) :
    modeFromDb text' = modeFromDb text := by
  have hfind : ∀ t : Text, t.lines.find? isVerbatim = (directives t).find? isVerbatim := by
    intro t
    rw [directives, List.find?_filter]
    congr 1
    ext line
    by_cases hline : isVerbatim line
    · simp [hline, isSome_directive_of_isVerbatim hline]
    · simp [hline]
  rw [modeFromDb_eq, modeFromDb_eq, hfind, hfind, h]

/-! ## Failing closed -/

/-- The directives of a DB are kept exactly when the first one that is written letter for letter is as strict as
any. -/
theorem failsClosed_iff (text : Text) : FailsClosed text ↔ Governed text := by
  constructor
  · intro h
    rcases Classical.em (∀ line ∈ text.lines, directive line = none) with hnone | hsome
    · exact .inl hnone
    · -- Some line is a directive, so a mode is read, and the line it is read from is the first verbatim one.
      push Not at hsome
      obtain ⟨line, hline, hdirective⟩ := hsome
      obtain ⟨m, hm⟩ := Option.ne_none_iff_exists'.mp hdirective
      obtain ⟨m₀, hm₀, -⟩ := h.strict line hline m hm
      have hread := hm₀
      rw [modeFromDb_eq, Option.bind_eq_some_iff] at hread
      obtain ⟨line₀, hfind, hline₀⟩ := hread
      refine .inr ⟨line₀, m₀, hfind, hline₀, fun line' hline' m' hm' => ?_⟩
      obtain ⟨m₁, hm₁, hle⟩ := h.strict line' hline' m' hm'
      rw [hm₀, Option.some.injEq] at hm₁
      exact hm₁ ▸ hle
  · rintro (hnone | ⟨line₀, m₀, hfind, hline₀, hle⟩)
    · have hread : modeFromDb text = none := by
        rw [modeFromDb_eq, Option.bind_eq_none_iff]
        exact fun line hline => hnone line (List.mem_of_find?_eq_some hline)
      refine ⟨fun line hline m hm => ?_, fun _ => hread, fun _ => modeFromDb_eq_of_directives⟩
      rw [hnone line hline] at hm
      cases hm
    · have hread : modeFromDb text = some m₀ := by rw [modeFromDb_eq, hfind]; exact hline₀
      refine ⟨fun line hline m hm => ⟨m₀, hread, hle line hline m hm⟩, fun hnone => ?_,
        fun _ => modeFromDb_eq_of_directives⟩
      rw [hnone line₀ (List.mem_of_find?_eq_some hfind)] at hline₀
      cases hline₀

/-- A capital letter is enough to lose a directive. -/
theorem not_failsClosed_of_capital :
    ¬FailsClosed ['#', ' ', 'M', 'o', 'd', 'e', ':', ' ', 'e', 'n', 'f', 'o', 'r', 'c', 'e', '\n'] := by
  intro h
  obtain ⟨m, hm, -⟩ := h.strict ['#', ' ', 'M', 'o', 'd', 'e', ':', ' ', 'e', 'n', 'f', 'o', 'r', 'c', 'e']
    (by decide) .enforce (by decide)
  have hread : modeFromDb ['#', ' ', 'M', 'o', 'd', 'e', ':', ' ', 'e', 'n', 'f', 'o', 'r', 'c', 'e', '\n'] = none := by
    decide
  rw [hread] at hm
  cases hm

/-- A second directive is not read, even if it is the stricter one. -/
example : modeFromDb (['#', 'm', 'o', 'd', 'e', ':', 'o', 'f', 'f', '\n'] ++
    ['#', 'm', 'o', 'd', 'e', ':', 'e', 'n', 'f', 'o', 'r', 'c', 'e', '\n']) = some .off := by decide

end Wasmrt
