import Mathlib.Data.BitVec
import Mathlib.Data.FinEnum
import Mathlib.Tactic.Common
import Wasmrt.Sexpr.Exact

/-!
# Where lexemes begin and end

The first bytes of a lexeme tell its kind, so that a source is a row of lexemes in one way only. More trivia may be put
next to any token, and the row that comes about spells the same forest.

## Main results

* `Reads.unique`: a source has one row of lexemes.
* `reads_insert`, `forest_filter_iff`: inserting trivia.
-/

namespace Wasmrt.Sexpr

open Recognizer (Iterates)

/-! ## Kinds -/

/-- The kinds of lexemes that the first bytes tell apart. -/
inductive Kind
  | space | line | block | annots | lpar | rpar | str | atom
  deriving DecidableEq

/-- The kind of the lexeme ahead. -/
def kindAhead : List UInt8 → Kind
  | [] => .atom
  | c :: r =>
    if isSpace c then .space
    else if c = semicolon then .line
    else if c = lparen then
      if r.head? = some semicolon then .block else if r.head? = some atSign then .annots else .lpar
    else if c = rparen then .rpar
    else if c = quote then .str
    else .atom

namespace Lexeme

def kind : Lexeme → Kind
  | .space _ => .space
  | .line _ => .line
  | .block _ => .block
  | .skipped .. => .annots
  | .lpar => .lpar
  | .rpar => .rpar
  | .str .. => .str
  | .atom .. => .atom
  | .annot .. => .annots

theorem Valid.kindAhead {l : Lexeme} {r : List UInt8} (h : l.Valid false r) : kindAhead (l.bytes ++ r) = l.kind := by
  cases l with
  | space c => exact if_pos h
  | line _ | block _ | rpar => rfl
  | skipped _ _ _ | annot _ _ => rfl
  | lpar =>
    obtain ⟨hsemicolon, hat⟩ := h
    simp only [bytes, List.singleton_append, Sexpr.kindAhead, if_neg hsemicolon, if_neg hat]
    rfl
  | str s text =>
    obtain ⟨w, rfl⟩ := h.1.cons
    rfl
  | atom name text =>
    obtain ⟨c, w, rfl, hidchar⟩ := h.1.cons
    have hspace : isSpace c = false := by
      rw [Bool.eq_false_iff]
      intro hspace
      cases hidchar.symm.trans (isIdchar_of_delimiter (.inl hspace))
    have hne : ∀ d, isIdchar d = false → c ≠ d := by
      rintro d hd rfl
      cases hidchar.symm.trans hd
    simp only [bytes, List.cons_append, Sexpr.kindAhead, hspace, if_neg (hne semicolon (by decide)),
      if_neg (hne lparen (by decide)), if_neg (hne rparen (by decide)), if_neg (hne quote isIdchar_quote)]
    rfl

theorem Valid.ne_nil {l : Lexeme} {r : List UInt8} (h : l.Valid false r) : l.bytes ≠ [] := by
  cases l with
  | str s text =>
    obtain ⟨w, rfl⟩ := h.1.cons
    exact List.cons_ne_nil _ _
  | atom name text =>
    obtain ⟨c, w, rfl, _⟩ := h.1.cons
    exact List.cons_ne_nil _ _
  | space _ | line _ | block _ | skipped _ _ _ | lpar | rpar | annot _ _ => exact List.cons_ne_nil _ _

/-- The bytes ahead are one lexeme, and what follows it. -/
theorem Valid.unique {l l' : Lexeme} {r r' : List UInt8} (h : l.Valid false r) (h' : l'.Valid false r')
    (hbytes : l.bytes ++ r = l'.bytes ++ r') : l = l' := by
  have hkind : l.kind = l'.kind := by rw [← h.kindAhead, hbytes, h'.kindAhead]
  cases l with
  | space c =>
    cases l' <;> cases hkind
    cases hbytes
    rfl
  | line text =>
    cases l' with
    | line text' =>
      have hinput : text ++ r = text' ++ r' := (List.cons.inj (List.cons.inj hbytes).2).2
      obtain ⟨_, rfl, _⟩ := (exact_skipLine ⟨0, text ++ r⟩).unique () () rfl h hinput h'
      rfl
    | _ => cases hkind
  | block text =>
    cases l' with
    | block text' =>
      have hinput : text ++ r = text' ++ r' := (List.cons.inj (List.cons.inj hbytes).2).2
      obtain ⟨_, rfl, _⟩ := (exact_skipBlock ⟨0, text ++ r⟩).unique () () rfl h hinput h'
      rfl
    | _ => cases hkind
  | skipped id idText text =>
    have hid := exact_readAnnotationId ⟨0, idText ++ (text ++ r)⟩
    cases l' with
    | skipped id' idText' text' =>
      have hinput : (idText ++ text) ++ r = (idText' ++ text') ++ r' := (List.cons.inj (List.cons.inj hbytes).2).2
      rw [List.append_assoc, List.append_assoc] at hinput
      obtain ⟨rfl, rfl, hrest⟩ := hid.unique _ _ rfl h.2.1 hinput h'.2.1
      obtain ⟨_, rfl, _⟩ := (exact_annotationBody ⟨0, text ++ r⟩).unique () () rfl h.2.2 hrest h'.2.2
      rfl
    | annot id' text' =>
      have hinput : (idText ++ text) ++ r = text' ++ r' := (List.cons.inj (List.cons.inj hbytes).2).2
      rw [List.append_assoc] at hinput
      obtain ⟨rfl, _⟩ := hid.unique _ _ rfl h.2.1 hinput h'.2
      exact absurd h'.1 h.1
    | _ => cases hkind
  | lpar | rpar => cases l' <;> cases hkind; rfl
  | str s text =>
    cases l' with
    | str s' text' =>
      obtain ⟨w, rfl⟩ := h.1.cons
      obtain ⟨rfl, rfl, _⟩ := (readsAt_parseString 0 (w ++ r)).unique _ _ rfl h.1 hbytes h'.1
      rfl
    | _ => cases hkind
  | atom name text =>
    cases l' with
    | atom name' text' =>
      have hread : ∃ name'', Sexpr.atom name = .atom name'' ∧ AtomText false name'' text ∧ Delimited r := ⟨name, rfl, h⟩
      have hread' : ∃ name'', Sexpr.atom name' = .atom name'' ∧ AtomText false name'' text' ∧ Delimited r' :=
        ⟨name', rfl, h'⟩
      obtain ⟨hv, rfl, _⟩ := (exact_parseAtomValue ⟨0, text ++ r⟩).unique _ _ rfl hread hbytes hread'
      cases hv
      rfl
    | _ => cases hkind
  | annot id text =>
    have hid := exact_readAnnotationId ⟨0, text ++ r⟩
    cases l' with
    | skipped id' idText' text' =>
      have hinput : text ++ r = (idText' ++ text') ++ r' := (List.cons.inj (List.cons.inj hbytes).2).2
      rw [List.append_assoc] at hinput
      obtain ⟨rfl, _⟩ := hid.unique _ _ rfl h.2 hinput h'.2.1
      exact absurd h.1 h'.1
    | annot id' text' =>
      have hinput : text ++ r = text' ++ r' := (List.cons.inj (List.cons.inj hbytes).2).2
      obtain ⟨rfl, rfl, _⟩ := hid.unique _ _ rfl h.2 hinput h'.2
      rfl
    | _ => cases hkind

end Lexeme

/-- A source is a row of lexemes in one way. -/
theorem Reads.unique {ls ls' : List Lexeme} (h : Reads false ls []) (h' : Reads false ls' [])
    (hbytes : bytesOf ls = bytesOf ls') : ls = ls' := by
  induction ls generalizing ls' with
  | nil =>
    cases ls' with
    | nil => rfl
    | cons l' ls' => exact absurd (List.append_eq_nil_iff.mp hbytes.symm).1 h'.1.ne_nil
  | cons l ls ih =>
    cases ls' with
    | nil => exact absurd (List.append_eq_nil_iff.mp hbytes).1 h.1.ne_nil
    | cons l' ls' =>
      have hinput : l.bytes ++ (bytesOf ls ++ []) = l'.bytes ++ (bytesOf ls' ++ []) := by
        rw [List.append_nil, List.append_nil]
        exact hbytes
      obtain rfl := h.1.unique h'.1 hinput
      rw [ih h.2 h'.2 (List.append_cancel_left hbytes)]

/-! ## Tokens -/

theorem Forest.skip {n k : ℕ} {pre ls : List Lexeme} {items : List Sexpr} {annots : List (Annot Sexpr)}
    (hpre : ∀ l ∈ pre, l.isToken = false) (h : Forest n k ls items annots) : Forest n k (pre ++ ls) items annots := by
  induction pre with
  | nil => exact h
  | cons l pre ih => exact .trivia (hpre l List.mem_cons_self) (ih fun l' hl' => hpre l' (List.mem_cons_of_mem l hl'))

theorem Forest.filter {n k : ℕ} {ls : List Lexeme} {items : List Sexpr} {annots : List (Annot Sexpr)}
    (h : Forest n k ls items annots) : Forest n k (ls.filter Lexeme.isToken) items annots := by
  induction h with
  | nil => exact .nil
  | trivia htrivia _ ih =>
    rw [List.filter_cons_of_neg (Bool.not_eq_true _ ▸ htrivia)]
    exact ih
  | atom _ ih => exact .atom ih
  | str _ ih => exact .str ih
  | list _ _ ih ih' =>
    rw [List.filter_cons_of_pos rfl, List.filter_append, List.filter_cons_of_pos rfl]
    exact .list ih ih'
  | annot _ _ ih ih' =>
    rw [List.filter_cons_of_pos rfl, List.filter_append, List.filter_cons_of_pos rfl]
    exact .annot ih ih'

/-- The tokens of a list, after its parenthesis. -/
theorem filter_eq_closed {ls body rest : List Lexeme} (h : ls.filter Lexeme.isToken = body ++ .rpar :: rest) :
    ∃ body' rest', ls = body' ++ .rpar :: rest' ∧ body'.filter Lexeme.isToken = body ∧
      rest'.filter Lexeme.isToken = rest := by
  obtain ⟨m, m', rfl, hbody, hrest⟩ := List.filter_eq_append_iff.mp h
  obtain ⟨pre, rest', rfl, hpre, _, hrest⟩ := List.filter_eq_cons_iff.mp hrest
  refine ⟨m ++ pre, rest', (List.append_assoc ..).symm, ?_, hrest⟩
  rw [List.filter_append, hbody, List.filter_eq_nil_iff.mpr hpre, List.append_nil]

/-- A forest depends on the tokens only. -/
theorem forest_filter_iff {n k : ℕ} {ls : List Lexeme} {items : List Sexpr} {annots : List (Annot Sexpr)} :
    Forest n k (ls.filter Lexeme.isToken) items annots ↔ Forest n k ls items annots := by
  refine ⟨fun h => ?_, Forest.filter⟩
  have hskip : ∀ {pre : List Lexeme}, (∀ l ∈ pre, ¬ l.isToken = true) → ∀ l ∈ pre, l.isToken = false :=
    fun hpre l hl => Bool.eq_false_iff.mpr (hpre l hl)
  generalize htokens : ls.filter Lexeme.isToken = tokens at h
  induction h generalizing ls with
  | nil =>
    rw [← List.append_nil ls]
    exact .skip (hskip (List.filter_eq_nil_iff.mp htokens)) .nil
  | @trivia _ _ l _ _ _ htrivia _ _ =>
    have hl : l ∈ ls.filter Lexeme.isToken := htokens ▸ List.mem_cons_self
    cases htrivia.symm.trans (List.mem_filter.mp hl).2
  | atom _ ih =>
    obtain ⟨pre, rest, rfl, hpre, _, hrest⟩ := List.filter_eq_cons_iff.mp htokens
    exact .skip (hskip hpre) (.atom (ih hrest))
  | str _ ih =>
    obtain ⟨pre, rest, rfl, hpre, _, hrest⟩ := List.filter_eq_cons_iff.mp htokens
    exact .skip (hskip hpre) (.str (ih hrest))
  | list _ _ ih ih' =>
    obtain ⟨pre, rest, rfl, hpre, _, hrest⟩ := List.filter_eq_cons_iff.mp htokens
    obtain ⟨body, rest, rfl, hbody, hrest⟩ := filter_eq_closed hrest
    exact .skip (hskip hpre) (.list (ih hbody) (ih' hrest))
  | annot _ _ ih ih' =>
    obtain ⟨pre, rest, rfl, hpre, _, hrest⟩ := List.filter_eq_cons_iff.mp htokens
    obtain ⟨body, rest, rfl, hbody, hrest⟩ := filter_eq_closed hrest
    exact .skip (hskip hpre) (.annot (ih hbody) (ih' hrest))

/-! ## More trivia

A comment or an annotation that is closed may stand before anything. -/

theorem BlockPiece.anywhere {strict : Bool} {d : ℕ} {w r : List UInt8} (hr : r ≠ [])
    (h : Iterates (BlockPiece strict) d () w r) (r' : List UInt8) : Iterates (BlockPiece strict) d () w r' := by
  refine h.anywhere BlockPiece.ne_nil BlockPiece.lookahead ?_ ?_ hr r'
  · rintro d b w r r' hr (_ | _)
    · exact .finish
    · exact absurd rfl hr
  · rintro d d' w r (_ | _ | _ | _)
    · exact .inl fun _ => .opens
    · exact .inl fun _ => .closes
    · refine .inr ?_
      rintro b w' r' hr' (_ | _)
      exact absurd rfl hr'

theorem AnnotationPiece.anywhere {strict : Bool} {d : ℕ} {w r : List UInt8} (hr : r ≠ [])
    (h : Iterates (AnnotationPiece strict) d () w r) (r' : List UInt8) : Iterates (AnnotationPiece strict) d () w r' := by
  have hmore : ∀ d b w' r', r' ≠ [] → AnnotationPiece strict (d + 1) (.inr b) w' r' → w' ≠ [] := by
    rintro d b w' r' hr' (_ | _)
    exact absurd rfl hr'
  refine h.anywhere AnnotationPiece.ne_nil AnnotationPiece.lookahead ?_ ?_ hr r'
  · rintro d b w r r' hr (_ | _)
    · exact .finish
    · exact absurd rfl hr
  · intro d d' w r h
    cases h with
    | str h => exact .inl fun _ => .str h
    | closes => exact .inl fun _ => .closes
    | raw | line | block | opens | char => exact .inr (hmore _)

/-- The body of an annotation that is closed has at least its parenthesis. -/
theorem annotationBody_ne_nil {strict : Bool} {w r : List UInt8} (hr : r ≠ []) (h : AnnotationBody strict w r) :
    w ≠ [] := by
  cases h with
  | stop hone =>
    cases hone
    exact absurd rfl hr
  | next hone _ =>
    have := AnnotationPiece.ne_nil _ _ _ _ hone
    simp [this]

namespace Lexeme

/-- Trivia may stand before anything, but for a line comment. -/
theorem Valid.anywhere {strict : Bool} {l : Lexeme} {r : List UInt8} (htrivia : l.isToken = false)
    (hline : ∀ text, l ≠ .line text) (hr : r ≠ []) (h : l.Valid strict r) (r' : List UInt8) : l.Valid strict r' := by
  cases l with
  | space _ => exact h
  | line text => exact absurd rfl (hline text)
  | block _ => exact BlockPiece.anywhere hr h r'
  | skipped id idText text =>
    obtain ⟨hunknown, hid, hbody⟩ := h
    refine ⟨hunknown, hid.lookahead ?_, AnnotationPiece.anywhere hr hbody r'⟩
    obtain ⟨c, w, rfl⟩ := List.exists_cons_of_ne_nil (annotationBody_ne_nil hr hbody)
    rfl
  | lpar | rpar | str _ _ | atom _ _ | annot _ _ => cases htrivia

/-- Trivia end the token before them. -/
theorem head_of_trivia {strict : Bool} {l : Lexeme} {r : List UInt8} (htrivia : l.isToken = false)
    (h : l.Valid strict r) : ∀ c ∈ (l.bytes ++ r).head?, isSpace c = true ∨ c = lparen ∨ c = rparen ∨ c = semicolon := by
  cases l with
  | space c =>
    rintro d ⟨⟩
    exact .inl h
  | line text =>
    rintro d ⟨⟩
    exact .inr (.inr (.inr rfl))
  | block _ | skipped _ _ _ =>
    rintro d ⟨⟩
    exact .inr (.inl rfl)
  | lpar | rpar | str _ _ | atom _ _ | annot _ _ => cases htrivia

/-- A token may be followed by trivia, but for a line comment after an opening parenthesis. -/
theorem Valid.before_trivia {strict : Bool} {l t : Lexeme} {r r' : List UInt8} (htoken : l.isToken = true)
    (h : l.Valid strict r) (htrivia : t.isToken = false) (ht : t.Valid strict r')
    (hline : l = .lpar → ∀ text, t ≠ .line text) : l.Valid strict (t.bytes ++ r') := by
  have hdelimited := head_of_trivia htrivia ht
  cases l with
  | lpar =>
    cases t with
    | space c =>
      have hspace : isSpace c = true := ht
      constructor
      · rintro ⟨⟩
        cases hspace
      · rintro ⟨⟩
        cases hspace
    | line text => exact absurd rfl (hline rfl text)
    | block _ | skipped _ _ _ => exact ⟨nofun, nofun⟩
    | lpar | rpar | str _ _ | atom _ _ | annot _ _ => cases htrivia
  | rpar => trivial
  | str _ _ | atom _ _ => exact ⟨h.1, hdelimited⟩
  | annot id text =>
    refine ⟨h.1, ?_⟩
    cases h.2 with
    | bare hne hchars _ => exact .bare hne hchars fun c hc => isIdchar_of_delimiter (hdelimited c hc)
    | quoted hlit hne hutf8 => exact .quoted hlit hne hutf8
  | space _ | line _ | block _ | skipped _ _ _ => cases htoken

end Lexeme

theorem Reads.lookahead {strict : Bool} {ls : List Lexeme} {r r' : List UInt8} (hhead : r.head? = r'.head?)
    (h : Reads strict ls r) : Reads strict ls r' := by
  induction ls with
  | nil => trivial
  | cons l ls ih => exact ⟨h.1.lookahead (Recognizer.head?_append_congr hhead _), ih h.2⟩

/-- A place next to a token. -/
def TokenBoundary (ls ls' : List Lexeme) : Prop :=
  (∀ l ∈ ls.getLast?, l.isToken = true) ∨ ∃ l ∈ ls'.head?, l.isToken = true

/-- No line comment is followed by a token right away. -/
theorem Lexeme.Valid.not_line {strict : Bool} {l : Lexeme} {r text : List UInt8} (htoken : l.isToken = true)
    (h : l.Valid strict r) : ¬ Line text (l.bytes ++ r) := by
  intro hline
  have hkind := h.lenient.kindAhead
  obtain ⟨c, w, hbytes⟩ := List.exists_cons_of_ne_nil h.lenient.ne_nil
  rw [hbytes] at hline hkind
  obtain rfl := hline.maximal c rfl
  cases l with
  | space _ | line _ | block _ | skipped _ _ _ => cases htoken
  | lpar | rpar | str _ _ | atom _ _ | annot _ _ => cases hkind

/-- What stands before a boundary may stand before trivia. -/
theorem Lexeme.Valid.before_inserted {strict : Bool} {l t : Lexeme} {ls' : List Lexeme} {r' : List UInt8}
    (h : l.Valid strict (bytesOf ls')) (hls' : Reads strict ls' [])
    (hboundary : l.isToken = true ∨ ∃ l' ∈ ls'.head?, l'.isToken = true) (htrivia : t.isToken = false)
    (ht : t.Valid strict r') (hline : l = .lpar → ∀ text, t ≠ .line text) : l.Valid strict (t.bytes ++ r') := by
  cases htoken : l.isToken with
  | true => exact h.before_trivia htoken htrivia ht hline
  | false =>
    obtain ⟨l', hl', htoken'⟩ : ∃ l' ∈ ls'.head?, l'.isToken = true :=
      hboundary.resolve_left (by rw [htoken]; nofun)
    obtain ⟨ls', rfl⟩ := List.head?_eq_some_iff.mp hl'
    have hvalid : l'.Valid strict (bytesOf ls') := by
      have hfirst := hls'.1
      rwa [List.append_nil] at hfirst
    refine h.anywhere htoken ?_ ?_ _
    · rintro text rfl
      exact hvalid.not_line htoken' h
    · rw [bytesOf_cons]
      have := hvalid.lenient.ne_nil
      simp [this]

/-- Trivia may be put next to any token; only a line comment right after an opening parenthesis would make the opening
of a block comment of it. -/
theorem reads_insert {strict : Bool} {ls v ls' : List Lexeme} (hrow : Reads strict (ls ++ ls') [])
    (hboundary : TokenBoundary ls ls') (htrivia : ∀ l ∈ v, l.isToken = false) (hv : Reads strict v (bytesOf ls'))
    (hline : ls.getLast? = some .lpar → ∀ text, v.head? ≠ some (.line text)) : Reads strict (ls ++ (v ++ ls')) [] := by
  cases v with
  | nil => exact hrow
  | cons t v =>
    obtain ⟨hls, hls'⟩ := reads_append.mp hrow
    rw [List.append_nil] at hls
    have hrest : Reads strict (t :: v ++ ls') [] := reads_append.mpr ⟨by rwa [List.append_nil], hls'⟩
    refine reads_append.mpr ⟨?_, hrest⟩
    rw [List.append_nil]
    rcases List.eq_nil_or_concat' ls with rfl | ⟨init, l, rfl⟩
    · trivial
    obtain ⟨hinit, hl, _⟩ := reads_append.mp hls
    rw [List.getLast?_concat] at hline
    have hne : l.bytes ≠ [] := hl.lenient.ne_nil
    have hl' : l.Valid strict (t.bytes ++ bytesOf (v ++ ls')) := by
      refine Lexeme.Valid.before_inserted hl hls' ?_ (htrivia t List.mem_cons_self) ?_ ?_
      · exact hboundary.imp (fun h => h l (by rw [List.getLast?_concat]; rfl)) id
      · have hfirst := hrest.1
        rwa [List.append_nil] at hfirst
      · rintro rfl text rfl
        exact hline rfl text rfl
    refine reads_append.mpr ⟨hinit.lookahead ?_, hl', trivial⟩
    obtain ⟨c, w, hbytes⟩ := List.exists_cons_of_ne_nil hne
    simp only [bytesOf_cons, hbytes]
    rfl

/-- More trivia next to a token do not change what a source spells. -/
theorem parseAllAnnotated_insert {ls v ls' : List Lexeme} {forms : List Sexpr} {annots : List (Annot Sexpr)}
    (hsource : Source false (ls ++ ls') (bytesOf (ls ++ ls')) forms annots) (hboundary : TokenBoundary ls ls')
    (htrivia : ∀ l ∈ v, l.isToken = false) (hv : Reads false v (bytesOf ls'))
    (hline : ls.getLast? = some .lpar → ∀ text, v.head? ≠ some (.line text)) :
    parseAllAnnotated (bytesOf (ls ++ (v ++ ls'))) = .ok (forms, annots) := by
  have htokens : (ls ++ (v ++ ls')).filter Lexeme.isToken = (ls ++ ls').filter Lexeme.isToken := by
    have hnone : v.filter Lexeme.isToken = [] := by
      rw [List.filter_eq_nil_iff]
      intro l hl htoken
      cases (htrivia l hl).symm.trans htoken
    rw [List.filter_append, List.filter_append, List.filter_append, hnone, List.nil_append]
  refine parseAllAnnotated_eq_ok_iff.mpr ⟨_, rfl, reads_insert hsource.reads hboundary htrivia hv hline, ?_⟩
  rw [← forest_filter_iff, htokens]
  exact hsource.tree.filter

end Wasmrt.Sexpr
