import Mathlib.Data.BitVec
import Mathlib.Data.FinEnum
import Mathlib.Data.List.DropRight
import Mathlib.Tactic.Common
import Wasmrt.Library.Checks

/-!
# Module pins

A pin DB is a text: one digest on a line, comments, and a `# mode:` directive that says how an unpinned
module is treated.

## Main definitions

* `Mode`, `modeFromDb`: the policy a DB declares.
* `Db.parse`: the digests it approves.
* `decideAction`: the policy matrix.

## Main results

* `AddsDirective.parse_eq_ok`, `AddsDirective.modeFromDb_eq`: what a directive added to a DB changes.
-/

namespace Wasmrt

/-! ## Text -/

/-- The characters of a text file. -/
abbrev Text := List Char

/-- Unicode white space. -/
def isWhitespace (c : Char) : Bool :=
  let n := c.toNat
  (0x09 ≤ n && n ≤ 0x0d) || n == 0x20 || n == 0x85 || n == 0xa0 || n == 0x1680 ||
    (0x2000 ≤ n && n ≤ 0x200a) || n == 0x2028 || n == 0x2029 || n == 0x202f || n == 0x205f || n == 0x3000

namespace Text

/-- Drop a carriage return at the end of a line. -/
def stripCr (line : Text) : Text := if line.getLast? = some '\r' then line.dropLast else line

/-- The rest of the lines of a text, `line` being the one that has begun. -/
def linesFrom (line : Text) : Text → List Text
  | [] => if line.isEmpty then [] else [line]
  | c :: cs => if c = '\n' then stripCr line :: linesFrom [] cs else linesFrom (line ++ [c]) cs

/-- The lines of a text. The last one need not be ended. -/
def lines (t : Text) : List Text := linesFrom [] t

/-- Drop white space at both ends. -/
def trim (t : Text) : Text := (t.dropWhile isWhitespace).rdropWhile isWhitespace

/-- The first token of a text, empty if there is none. -/
def firstToken (t : Text) : Text := (t.dropWhile isWhitespace).takeWhile fun c => !isWhitespace c

/-- ASCII letters in lower case. -/
def toAsciiLowercase (t : Text) : Text := t.map Char.toLower

/-- The length of a text in bytes. -/
def byteLength (t : Text) : ℕ := (t.map Char.utf8Size).sum

/-- A line break in the middle of a text. -/
theorem linesFrom_append (line a b : Text) :
    linesFrom line (a ++ '\n' :: b) = linesFrom line (a ++ ['\n']) ++ lines b := by
  induction a generalizing line with
  | nil => rfl
  | cons c a ih =>
    rw [List.cons_append, List.cons_append, linesFrom, linesFrom]
    split_ifs
    · rw [ih, List.cons_append]
    · exact ih _

/-- A text that ends with a line break has its lines before those of what follows. -/
theorem lines_append {a : Text} (ha : a = [] ∨ ∃ a', a = a' ++ ['\n']) (b : Text) :
    lines (a ++ b) = lines a ++ lines b := by
  rcases ha with rfl | ⟨a', rfl⟩
  · rfl
  · rw [List.append_assoc, List.singleton_append]
    exact linesFrom_append [] a' b

/-- One line. -/
theorem lines_line {line : Text} (hline : '\n' ∉ line) : lines (line ++ ['\n']) = [stripCr line] := by
  have hfrom : ∀ (begun rest : Text), '\n' ∉ rest → linesFrom begun (rest ++ ['\n']) = [stripCr (begun ++ rest)] := by
    intro begun rest hrest
    induction rest generalizing begun with
    | nil => rw [List.append_nil]; rfl
    | cons c rest ih =>
      rw [List.mem_cons, not_or] at hrest
      rw [List.cons_append, linesFrom, if_neg (Ne.symm hrest.1), ih _ hrest.2, List.append_assoc]
      rfl
  exact hfrom [] line hline

end Text

/-! ## Digests -/

/-- A SHA-256 digest. -/
abbrev Digest := Vector UInt8 32

/-- The characters of a digest's hexadecimal spelling. -/
def hexLen : ℕ := 64

/-- The value of a hexadecimal digit. -/
def hexDigit (c : Char) : Option ℕ :=
  if '0' ≤ c ∧ c ≤ '9' then some (c.toNat - '0'.toNat)
  else if 'a' ≤ c ∧ c ≤ 'f' then some (c.toNat - 'a'.toNat + 10)
  else if 'A' ≤ c ∧ c ≤ 'F' then some (c.toNat - 'A'.toNat + 10)
  else none

/-- The digest of a hexadecimal spelling: exactly 64 digits. -/
def parseHex (s : Text) : Option Digest :=
  if s.byteLength ≠ hexLen then none
  else (s.mapM hexDigit).map fun ds =>
    Vector.ofFn fun i => UInt8.ofNat (ds.getD (2 * i) 0 * 16 + ds.getD (2 * i + 1) 0)

/-! ## Policy -/

/-- How strictly an unpinned module is treated. -/
inductive Mode
  | off
  | warn
  | enforce
  deriving DecidableEq, Repr

namespace Mode

/-- The place of a mode in the ladder. -/
def rank : Mode → ℕ
  | off => 0
  | warn => 1
  | enforce => 2

instance : LE Mode := ⟨fun a b => a.rank ≤ b.rank⟩
instance : DecidableLE Mode := fun a b => inferInstanceAs (Decidable (a.rank ≤ b.rank))

end Mode

/-- The stricter of two modes. -/
def stricter (a b : Mode) : Mode := if b.rank < a.rank then a else b

/-- A mode by its name. -/
def parseMode (s : Text) : Option Mode :=
  if s = ['o', 'f', 'f'] then some .off
  else if s = ['w', 'a', 'r', 'n'] then some .warn
  else if s = ['e', 'n', 'f', 'o', 'r', 'c', 'e'] then some .enforce
  else none

/-- The mode a line of a DB declares, if it is a directive. A name that is not known is `enforce`. -/
def lineMode (line : Text) : Option Mode := do
  let rest ← ['#'].isPrefixOf? (Text.trim line)
  let value ← ['m', 'o', 'd', 'e', ':'].isPrefixOf? (Text.trim rest)
  pure ((parseMode (Text.firstToken value).toAsciiLowercase).getD .enforce)

/-- The mode a DB declares: its first directive. -/
def modeFromDb (text : Text) : Option Mode := text.lines.findSome? lineMode

/-- What the gate does with a module. -/
inductive Action
  | run
  | deny
  | prompt
  deriving DecidableEq, Repr

/-- The policy matrix. -/
def decideAction (explicit : Option Mode) (pinned optOut tty armed : Bool) : Action :=
  if pinned then .run
  else
    match explicit with
    | some .off => .run
    | some .enforce => .deny
    | some .warn => if optOut then .run else if tty then .prompt else .deny
    | none => if !armed then .run else if optOut then .run else .deny

namespace Db

/-- The digests of some lines; an error names the first line that is neither a comment, blank nor a digest,
the first line having number `i + 1`. -/
def parseLines : ℕ → List Text → Except ℕ (List Digest)
  | _, [] => pure []
  | i, line :: rest => do
    let line := Text.trim line
    if line.isEmpty || line.head? = some '#' then parseLines (i + 1) rest
    else do
      let d ← orError (i + 1) (parseHex (Text.firstToken line).toAsciiLowercase)
      let ds ← parseLines (i + 1) rest
      pure (d :: ds)

/-- The digests a DB approves. -/
def parse (text : Text) : Except ℕ (List Digest) := parseLines 0 text.lines

end Db

/-! ## A directive added to a DB -/

/-- `text'` is `text` with a directive of mode `m` added as a line of its own. -/
structure AddsDirective (text : Text) (m : Mode) (text' : Text) : Prop where
  exists_split : ∃ a line b, text = a ++ b ∧ text' = a ++ (line ++ ['\n']) ++ b ∧
    (a = [] ∨ ∃ a', a = a' ++ ['\n']) ∧ '\n' ∉ line ∧ lineMode (Text.stripCr line) = some m

theorem AddsDirective.lines {text text' : Text} {m : Mode} (h : AddsDirective text m text') :
    ∃ ls line ls', text.lines = ls ++ ls' ∧ text'.lines = ls ++ line :: ls' ∧ lineMode line = some m := by
  obtain ⟨a, line, b, rfl, rfl, ha, hline, hmode⟩ := h.exists_split
  refine ⟨a.lines, Text.stripCr line, b.lines, Text.lines_append ha b, ?_, hmode⟩
  rw [List.append_assoc, Text.lines_append ha, Text.lines_append (.inr ⟨line, rfl⟩), Text.lines_line hline]
  rfl

/-- A directive is a comment. -/
theorem head?_trim_of_lineMode {line : Text} {m : Mode} (h : lineMode line = some m) :
    (Text.trim line).head? = some '#' := by
  obtain ⟨rest, hrest, -⟩ := Option.bind_eq_some_iff.mp h
  cases htrim : Text.trim line with
  | nil =>
    rw [htrim] at hrest
    cases hrest
  | cons c cs =>
    rw [htrim, List.isPrefixOf?, List.isPrefixOf?] at hrest
    split_ifs at hrest with hc
    rw [List.head?_cons, ← beq_iff_eq.mp hc]

theorem Db.parseLines_cons {line : Text} {ls : List Text} {i : ℕ} {ds : List Digest} :
    parseLines i (line :: ls) = .ok ds ↔
      if (Text.trim line).isEmpty || (Text.trim line).head? = some '#' then parseLines (i + 1) ls = .ok ds
      else ∃ d ds', parseHex (Text.firstToken (Text.trim line)).toAsciiLowercase = some d ∧
        parseLines (i + 1) ls = .ok ds' ∧ ds = d :: ds' := by
  rw [parseLines]
  split_ifs with hcomment
  · rfl
  · simp only [Except.bind_eq_ok, orError_eq_ok, Except.pure_eq_ok]
    constructor
    · rintro ⟨d, hd, ds', hds', rfl⟩
      exact ⟨d, ds', hd, hds', rfl⟩
    · rintro ⟨d, ds', hd, hds', rfl⟩
      exact ⟨d, hd, ds', hds', rfl⟩

/-- What a DB approves does not depend on the numbers of its lines. -/
theorem Db.parseLines_shift {ls : List Text} {i j : ℕ} {ds : List Digest} :
    parseLines i ls = .ok ds ↔ parseLines j ls = .ok ds := by
  induction ls generalizing i j ds with
  | nil => rfl
  | cons line ls ih =>
    rw [parseLines_cons, parseLines_cons]
    split_ifs
    · exact ih
    · exact exists_congr fun d => exists_congr fun ds' => and_congr_right fun _ => and_congr_left fun _ => ih

/-- A directive changes nothing of what a DB approves. -/
theorem Db.parseLines_insert {ls ls' : List Text} {line : Text} {m : Mode} (h : lineMode line = some m)
    {i : ℕ} {ds : List Digest} :
    parseLines i (ls ++ line :: ls') = .ok ds ↔ parseLines i (ls ++ ls') = .ok ds := by
  induction ls generalizing i ds with
  | nil =>
    rw [List.nil_append, parseLines_cons, if_pos (by simp [head?_trim_of_lineMode h])]
    exact parseLines_shift
  | cons l ls ih =>
    rw [List.cons_append, List.cons_append, parseLines_cons, parseLines_cons]
    split_ifs
    · exact ih
    · exact exists_congr fun d => exists_congr fun ds' => and_congr_right fun _ => and_congr_left fun _ => ih

theorem AddsDirective.parse_eq_ok {text text' : Text} {m : Mode} (h : AddsDirective text m text')
    {ds : List Digest} : Db.parse text' = .ok ds ↔ Db.parse text = .ok ds := by
  obtain ⟨ls, line, ls', hls, hls', hmode⟩ := h.lines
  rw [Db.parse, Db.parse, hls, hls']
  exact Db.parseLines_insert hmode

/-- A directive governs a DB unless one stands before it. -/
theorem AddsDirective.modeFromDb_eq {text text' : Text} {m : Mode} (h : AddsDirective text m text') :
    modeFromDb text' = modeFromDb text ∨ modeFromDb text' = some m := by
  obtain ⟨ls, line, ls', hls, hls', hmode⟩ := h.lines
  rw [modeFromDb, modeFromDb, hls, hls', List.findSome?_append, List.findSome?_append, List.findSome?_cons, hmode]
  cases ls.findSome? lineMode with
  | some m' => exact .inl rfl
  | none => exact .inr rfl

end Wasmrt
