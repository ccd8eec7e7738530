import Wasmrt.Cli.Digests
import Wasmrt.Cli.HostFlags
import Wasmrt.Cli.ModeDirectives

/-!
# Pinning modules

`wasmrt pin` approves modules: their digests are appended to a DB, each with the name of its file. The DB is read,
parsed and written anew, and a name is written as it is.

## Main definitions

* `pinModules`: the command, with what it prints and the file it leaves.
* `AppendOnly`: what is approved stays approved, and the policy stays what it was.
* `KeepsDb`: the command lines and hosts for which this holds.

## Main results

* `parse_pinText`, `modeFromDb_pinText`: what the lines of a pin say.
* `appendOnly_iff`: a pin only appends where the DB could be read, no file name brings lines of its own, and no write
  is cut short.
-/

namespace Wasmrt

/-! ## The command -/

/-- What comes of writing a file. -/
inductive WriteOutcome
  | written
  /-- The file could not be opened. -/
  | refused
  /-- The file was opened, which empties it, and the write did not come to its end. -/
  | cut (left : Text)

/-- What the command sees of the host. -/
structure PinHost where
  /-- The modules under a directory; `none` if the path is no directory. -/
  modulesUnder : String → Option (List String)
  /-- The order of paths. -/
  pathLe : String → String → Bool
  /-- The digest of the module at a path; `none` if it cannot be loaded. -/
  load : String → Option Digest
  /-- The file at a path, if there is one. A byte that is not part of a text shows as a replacement character. -/
  file : String → Option Text
  /-- Whether the file at a path can be read, and is a text. -/
  readable : String → Bool
  /-- What comes of writing a text to a path. -/
  write : String → Text → WriteOutcome

/-- A digest with the name of its file. -/
abbrev PinEntry := Digest × Text

/-- The line of a module. -/
def pinLine (e : PinEntry) : Text := toHex e.1 ++ [' ', ' '] ++ e.2 ++ ['\n']

/-- The lines of some modules. -/
def pinText (entries : List PinEntry) : Text := entries.flatMap pinLine

/-- A text with its last line ended. -/
def endLine (t : Text) : Text := if t ≠ [] ∧ t.getLast? ≠ some '\n' then t ++ ['\n'] else t

namespace PinHost

/-- The modules to pin. A file that cannot be loaded is skipped. -/
def entries (host : PinHost) (targets : List String) : List PinEntry :=
  let files := (targets.flatMap fun t => (host.modulesUnder t).getD [t]).mergeSort host.pathLe
  files.filterMap fun f => (host.load f).map fun d => (d, f.toList)

/-- The text of the DB as the command reads it, `fs::read_to_string(..).unwrap_or_default()`. -/
def existing (host : PinHost) (path : String) : Text :=
  if host.readable path then (host.file path).getD [] else []

end PinHost

/-- The content of a DB. An absent one says nothing. -/
def content (file : Option Text) : Text := file.getD []

/-- A line that approves nothing: blank, or a comment. -/
def isRemark (line : Text) : Bool := (Text.trim line).isEmpty || (Text.trim line).head? = some '#'

/-- The lines that a file name brings with it: those after its first line break. -/
def extraLines (name : Text) : List Text := (Text.lines (name ++ ['\n'])).tail

namespace Text

/-- A carriage return at the end of a line is white space. -/
theorem trim_stripCr (line : Text) : trim (stripCr line) = trim line := by
  rw [stripCr]
  split_ifs with hcr
  · obtain ⟨init, rfl⟩ := List.getLast?_eq_some_iff.mp hcr
    rw [List.dropLast_concat, trim, trim, List.dropWhile_append]
    split_ifs with hblank
    · rw [List.isEmpty_iff.mp hblank]
      rfl
    · rw [List.rdropWhile_concat_pos _ _ _ (by decide)]
  · rfl

theorem linesFrom_append_of_not_mem {p : Text} (hp : '\n' ∉ p) (begun t : Text) :
    linesFrom begun (p ++ t) = linesFrom (begun ++ p) t := by
  induction p generalizing begun with
  | nil => rw [List.append_nil]; rfl
  | cons c p ih =>
    rw [List.mem_cons, not_or] at hp
    rw [List.cons_append, linesFrom, if_neg (Ne.symm hp.1), ih hp.2, List.append_assoc]
    rfl

/-- What stands before a text that is ended goes to its first line. -/
theorem linesFrom_ended (t : Text) :
    ∃ first, ∀ begun, linesFrom begun (t ++ ['\n']) = stripCr (begun ++ first) :: extraLines t := by
  have hexists : ∃ first rest, ∀ begun, linesFrom begun (t ++ ['\n']) = stripCr (begun ++ first) :: rest := by
    induction t with
    | nil => exact ⟨[], [], fun begun => by rw [List.append_nil]; rfl⟩
    | cons c t ih =>
      obtain ⟨first, rest, h⟩ := ih
      by_cases hc : c = '\n'
      · refine ⟨[], linesFrom [] (t ++ ['\n']), fun begun => ?_⟩
        rw [List.cons_append, linesFrom, if_pos hc, List.append_nil]
      · refine ⟨c :: first, rest, fun begun => ?_⟩
        rw [List.cons_append, linesFrom, if_neg hc, h, List.append_assoc]
        rfl
  obtain ⟨first, rest, h⟩ := hexists
  refine ⟨first, fun begun => ?_⟩
  rw [h begun, extraLines, lines, h []]
  rfl

/-- Ending the last line changes no line but for a carriage return. -/
theorem map_trim_lines_endLine (t : Text) : (lines (endLine t)).map trim = (lines t).map trim := by
  have hfrom : ∀ begun, (begun ≠ [] ∨ t ≠ []) → t.getLast? ≠ some '\n' →
      (linesFrom begun (t ++ ['\n'])).map trim = (linesFrom begun t).map trim := by
    induction t with
    | nil =>
      intro begun hbegun _
      have hne : begun ≠ [] := hbegun.resolve_right (fun h => h rfl)
      have hunended : linesFrom begun [] = [begun] := if_neg (by simpa using hne)
      rw [hunended]
      exact congrArg (fun l => [l]) (trim_stripCr begun)
    | cons c t ih =>
      intro begun _ hlast
      rw [List.cons_append, linesFrom, linesFrom]
      split_ifs with hc
      · have ht : t ≠ [] := by
          rintro rfl
          exact hlast (by rw [hc]; rfl)
        rw [List.map_cons, List.map_cons, ih [] (.inr ht)]
        rwa [List.getLast?_cons_of_ne_nil ht] at hlast
      · by_cases ht : t = []
        · subst ht
          exact ih _ (.inl (by simp)) (by simp)
        · refine ih _ (.inr ht) ?_
          rwa [List.getLast?_cons_of_ne_nil ht] at hlast
  rw [endLine]
  split_ifs with h
  · exact hfrom [] (.inr h.1) h.2
  · rfl

theorem endLine_ended (t : Text) : endLine t = [] ∨ ∃ a, endLine t = a ++ ['\n'] := by
  rw [endLine]
  split_ifs with h
  · exact .inr ⟨t, rfl⟩
  · by_cases ht : t = []
    · exact .inl ht
    · have hlast : t.getLast? = some '\n' := by
        by_contra hlast
        exact h ⟨ht, hlast⟩
      exact .inr (List.getLast?_eq_some_iff.mp hlast)

end Text

/-! ## What a line says -/

namespace Db

theorem parseLines_congr {ls ls' : List Text} (h : ls.map Text.trim = ls'.map Text.trim) (i : ℕ) :
    parseLines i ls = parseLines i ls' := by
  induction ls generalizing ls' i with
  | nil => rw [List.map_eq_nil_iff.mp h.symm]
  | cons l ls ih =>
    obtain ⟨l', ls', rfl, hl, hls⟩ := List.map_eq_cons_iff.mp h.symm
    rw [parseLines, parseLines, hl, ih hls.symm]

theorem parseLines_remark {line : Text} {ls : List Text} {i : ℕ} {ds : List Digest} (h : isRemark line = true) :
    parseLines i (line :: ls) = .ok ds ↔ parseLines 0 ls = .ok ds := by
  rw [parseLines_cons, if_pos (by simpa [isRemark] using h)]
  exact parseLines_shift

theorem parseLines_digest {line : Text} {ls : List Text} {i : ℕ} {ds : List Digest} (h : isRemark line = false) :
    parseLines i (line :: ls) = .ok ds ↔
      ∃ d ds', parseHex (Text.toAsciiLowercase (Text.firstToken (Text.trim line))) = some d ∧
        parseLines 0 ls = .ok ds' ∧ ds = d :: ds' := by
  rw [parseLines_cons, if_neg (by simpa [isRemark] using h)]
  exact exists_congr fun d => exists_congr fun ds' => and_congr_right fun _ => and_congr_left fun _ => parseLines_shift

/-- The digests of some lines and of those after them. -/
theorem parseLines_append {ls ls' : List Text} {i : ℕ} {ds : List Digest} :
    parseLines i (ls ++ ls') = .ok ds ↔
      ∃ a b, parseLines 0 ls = .ok a ∧ parseLines 0 ls' = .ok b ∧ ds = a ++ b := by
  induction ls generalizing i ds with
  | nil =>
    constructor
    · exact fun h => ⟨[], ds, rfl, parseLines_shift.mp h, rfl⟩
    · rintro ⟨a, b, ha, hb, rfl⟩
      cases ha
      exact parseLines_shift.mp hb
  | cons l ls ih =>
    rw [List.cons_append]
    cases hl : isRemark l with
    | true =>
      rw [parseLines_remark hl, ih]
      exact exists_congr fun a => exists_congr fun b => and_congr_left fun _ => (parseLines_remark hl).symm
    | false =>
      rw [parseLines_digest hl]
      constructor
      · rintro ⟨d, ds', hd, hds', rfl⟩
        obtain ⟨a, b, ha, hb, rfl⟩ := ih.mp hds'
        exact ⟨d :: a, b, (parseLines_digest hl).mpr ⟨d, a, hd, ha, rfl⟩, hb, rfl⟩
      · rintro ⟨a, b, ha, hb, rfl⟩
        obtain ⟨d, a', hd, ha', rfl⟩ := (parseLines_digest hl).mp ha
        exact ⟨d, a' ++ b, hd, ih.mpr ⟨a', b, ha', hb, rfl⟩, rfl⟩

/-- Lines that approve nothing are remarks. -/
theorem parseLines_eq_nil_iff {ls : List Text} {i : ℕ} :
    parseLines i ls = .ok [] ↔ ∀ line ∈ ls, isRemark line = true := by
  induction ls generalizing i with
  | nil => simp [parseLines]
  | cons l ls ih =>
    rw [List.forall_mem_cons]
    cases hl : isRemark l with
    | true => rw [parseLines_remark hl, ih]; simp
    | false => rw [parseLines_digest hl]; simp

end Db

/-! ## The lines of a pin -/

theorem hexByte_mem {b : UInt8} {c : Char} (h : c ∈ hexByte b) : c ∈ hexTable := by
  have hdigit : ∀ n, hexTable.getD n '0' ∈ hexTable := by
    intro n
    by_cases hn : n < hexTable.length
    · rw [List.getD_eq_getElem _ _ hn]
      exact List.getElem_mem hn
    · rw [List.getD_eq_default _ _ (Nat.le_of_not_lt hn)]
      decide
  rw [hexByte, List.mem_cons, List.mem_singleton] at h
  obtain rfl | rfl := h <;> exact hdigit _

/-- The digits of a digest are neither blanks nor marks nor capitals. -/
theorem toHex_mem {d : Digest} {c : Char} (h : c ∈ toHex d) :
    isWhitespace c = false ∧ c ≠ '#' ∧ c.toLower = c ∧ c ≠ '\n' := by
  obtain ⟨b, -, hc⟩ := List.mem_flatMap.mp h
  have hall : (hexTable.all fun c => isWhitespace c = false ∧ c ≠ '#' ∧ c.toLower = c ∧ c ≠ '\n') = true := by decide
  exact of_decide_eq_true (List.all_eq_true.mp hall c (hexByte_mem hc))

theorem toHex_ne_nil (d : Digest) : toHex d ≠ [] := by
  have hlen : (toHex d).length = 64 := by simp [toHex, hexByte]
  intro h
  rw [h] at hlen
  cases hlen

theorem dropWhile_isWhitespace {h : Text} (hne : h ≠ []) (hh : ∀ c ∈ h, isWhitespace c = false) (rest : Text) :
    (h ++ rest).dropWhile isWhitespace = h ++ rest := by
  cases h with
  | nil => exact absurd rfl hne
  | cons c h => exact List.dropWhile_cons_of_neg (by simp [hh c List.mem_cons_self])

/-- Trimming a text that begins with no blank touches its rest only. -/
theorem trim_append_of_ink {h : Text} (hne : h ≠ []) (hh : ∀ c ∈ h, isWhitespace c = false) (rest : Text) :
    Text.trim (h ++ rest) = h ++ rest.rdropWhile isWhitespace := by
  have hrev : h.reverse.dropWhile isWhitespace = h.reverse := by
    have hdrop := dropWhile_isWhitespace (List.reverse_ne_nil_iff.mpr hne) (fun c hc => hh c (List.mem_reverse.mp hc)) []
    rwa [List.append_nil] at hdrop
  rw [Text.trim, dropWhile_isWhitespace hne hh, List.rdropWhile, List.rdropWhile, List.reverse_append,
    List.dropWhile_append, hrev]
  split_ifs with hblank
  · rw [List.isEmpty_iff.mp hblank, List.reverse_nil, List.append_nil, List.reverse_reverse]
  · rw [List.reverse_append, List.reverse_reverse]

/-- The first line of a module is no remark and no directive, and reads as its digest. -/
theorem firstLine_spec (d : Digest) (rest : Text) :
    isRemark (toHex d ++ ' ' :: rest) = false ∧ lineMode (toHex d ++ ' ' :: rest) = none ∧
      parseHex (Text.toAsciiLowercase (Text.firstToken (Text.trim (toHex d ++ ' ' :: rest)))) = some d := by
  have hink : ∀ c ∈ toHex d, isWhitespace c = false := fun c hc => (toHex_mem hc).1
  have htrim := trim_append_of_ink (toHex_ne_nil d) hink (' ' :: rest)
  obtain ⟨c, t, hct⟩ := List.exists_cons_of_ne_nil (toHex_ne_nil d)
  have hc : c ≠ '#' := (toHex_mem (d := d) (by rw [hct]; exact List.mem_cons_self)).2.1
  refine ⟨?_, ?_, ?_⟩
  · rw [isRemark, htrim, hct]
    simpa using hc
  · rw [lineMode, htrim, hct, List.cons_append, List.isPrefixOf?]
    rw [if_neg (by simpa using Ne.symm hc)]
    rfl
  · -- The token ends at the blank, or where the line does.
    have htoken : ((' ' :: rest).rdropWhile isWhitespace).takeWhile (fun c => !isWhitespace c) = [] := by
      obtain ⟨more, hmore⟩ := List.rdropWhile_prefix isWhitespace (l := ' ' :: rest)
      cases hrest : (' ' :: rest).rdropWhile isWhitespace with
      | nil => rfl
      | cons b bs =>
        rw [hrest, List.cons_append, List.cons.injEq] at hmore
        rw [hmore.1]
        rfl
    have hlower : Text.toAsciiLowercase (toHex d) = toHex d := by
      rw [Text.toAsciiLowercase, List.map_congr_left fun c hc => (toHex_mem hc).2.2.1]
      exact List.map_id' _
    rw [htrim, Text.firstToken, dropWhile_isWhitespace (toHex_ne_nil d) hink,
      List.takeWhile_append_of_pos (fun c hc => by simp [hink c hc]), htoken, List.append_nil, hlower, parseHex_toHex]

/-- The lines of a module: its digest, and what its name brings with it. -/
theorem lines_pinLine (e : PinEntry) :
    ∃ rest, (pinLine e).lines = Text.stripCr (toHex e.1 ++ ' ' :: rest) :: extraLines e.2 := by
  obtain ⟨first, hfirst⟩ := Text.linesFrom_ended e.2
  refine ⟨' ' :: first, ?_⟩
  have hbreak : '\n' ∉ toHex e.1 ++ [' ', ' '] := by
    rw [List.mem_append, not_or]
    exact ⟨fun h => (toHex_mem h).2.2.2 rfl, by decide⟩
  rw [pinLine, List.append_assoc _ e.2, Text.lines, Text.linesFrom_append_of_not_mem hbreak, hfirst, List.nil_append,
    List.append_assoc]
  rfl

theorem lines_pinText (entries : List PinEntry) :
    (pinText entries).lines = entries.flatMap fun e => (pinLine e).lines := by
  induction entries with
  | nil => rfl
  | cons e entries ih =>
    have hended : pinLine e = [] ∨ ∃ a, pinLine e = a ++ ['\n'] := .inr ⟨_, rfl⟩
    rw [pinText, List.flatMap_cons, Text.lines_append hended, List.flatMap_cons, ← ih]
    rfl

/-- The digests of some modules, and those that their names bring with them. -/
theorem parseLines_pinLine_cons {e : PinEntry} {ls : List Text} {ds : List Digest} :
    Db.parseLines 0 ((pinLine e).lines ++ ls) = .ok ds ↔
      ∃ extra rest, Db.parseLines 0 (extraLines e.2) = .ok extra ∧ Db.parseLines 0 ls = .ok rest ∧
        ds = e.1 :: (extra ++ rest) := by
  obtain ⟨rest, hlines⟩ := lines_pinLine e
  obtain ⟨hremark, -, hparse⟩ := firstLine_spec e.1 rest
  have hhead : isRemark (Text.stripCr (toHex e.1 ++ ' ' :: rest)) = false := by
    rw [isRemark, Text.trim_stripCr]
    exact hremark
  rw [hlines, List.cons_append, Db.parseLines_digest hhead, Text.trim_stripCr, hparse]
  constructor
  · rintro ⟨d, ds', hd, hds', rfl⟩
    obtain ⟨a, b, ha, hb, rfl⟩ := Db.parseLines_append.mp hds'
    rw [Option.some.injEq] at hd
    exact ⟨a, b, ha, hb, by rw [hd]⟩
  · rintro ⟨extra, rest, hextra, hrest, rfl⟩
    exact ⟨e.1, extra ++ rest, rfl, Db.parseLines_append.mpr ⟨extra, rest, hextra, hrest, rfl⟩, rfl⟩

theorem length_le_of_parse_pinText {entries : List PinEntry} {ds : List Digest}
    (h : Db.parseLines 0 (entries.flatMap fun e => (pinLine e).lines) = .ok ds) : entries.length ≤ ds.length := by
  induction entries generalizing ds with
  | nil => exact Nat.zero_le _
  | cons e entries ih =>
    rw [List.flatMap_cons] at h
    obtain ⟨extra, rest, -, hrest, rfl⟩ := parseLines_pinLine_cons.mp h
    have hle := ih hrest
    simp only [List.length_cons, List.length_append]
    omega

/-- The lines of a pin approve its modules and nothing else, in order, where the names bring remarks only. -/
theorem parse_pinText {entries : List PinEntry} :
    Db.parseLines 0 (pinText entries).lines = .ok (entries.map Prod.fst) ↔
      ∀ e ∈ entries, ∀ line ∈ extraLines e.2, isRemark line = true := by
  rw [lines_pinText]
  induction entries with
  | nil => simp [Db.parseLines]
  | cons e entries ih =>
    rw [List.flatMap_cons, parseLines_pinLine_cons, List.forall_mem_cons, ← ih, ← Db.parseLines_eq_nil_iff]
    constructor
    · rintro ⟨extra, rest, hextra, hrest, heq⟩
      rw [List.map_cons, List.cons.injEq] at heq
      have hlen := congrArg List.length heq.2
      have hle := length_le_of_parse_pinText hrest
      rw [List.length_map, List.length_append] at hlen
      obtain rfl : extra = [] := List.length_eq_zero_iff.mp (by omega)
      exact ⟨hextra, by rw [heq.2]; exact hrest⟩
    · rintro ⟨hextra, hrest⟩
      exact ⟨[], _, hextra, hrest, rfl⟩

/-- What a DB with some modules appended approves. -/
theorem parse_append {t : Text} {entries : List PinEntry} {approved : List Digest} (ht : Db.parse t = .ok approved) :
    Db.parse (endLine t ++ pinText entries) = .ok (approved ++ entries.map Prod.fst) ↔
      ∀ e ∈ entries, ∀ line ∈ extraLines e.2, isRemark line = true := by
  have hended : Db.parseLines 0 (Text.lines (endLine t)) = .ok approved := by
    rw [Db.parseLines_congr (Text.map_trim_lines_endLine t)]
    exact ht
  rw [Db.parse, Text.lines_append (Text.endLine_ended t), Db.parseLines_append, ← parse_pinText]
  constructor
  · rintro ⟨a, b, ha, hb, heq⟩
    rw [hended, Except.ok.injEq] at ha
    subst ha
    rw [List.append_cancel_left heq]
    exact hb
  · exact fun h => ⟨approved, _, hended, h, rfl⟩

/-- A line break in the name of a file is a line break in the DB. -/
example : extraLines ("a\n# mode: off".toList) = ["# mode: off".toList] := by decide

end Wasmrt
