import Wasmrt.Sexpr.Strings

/-!
# Comments, annotations and atoms are scanned exactly

Each scanner reads what the lexical grammar allows it to, with its leniency.

## Main results

* `exact_skipLine`, `exact_skipBlock`: comments.
* `exact_readAnnotationId`, `exact_annotationBody`: annotations that are skipped.
* `exact_parseAtomValue`: atoms.
-/

namespace Wasmrt.Sexpr

open Recognizer (Exact ExactAt Iterates)

/-! ## Runs -/

theorem takeWhile_append {P : UInt8 → Bool} {w r : List UInt8} (hw : ∀ c ∈ w, P c = true)
    (hr : ∀ c ∈ r.head?, P c = false) : (w ++ r).takeWhile P = w := by
  rw [List.takeWhile_append_of_pos hw]
  cases r with
  | nil => exact List.append_nil w
  | cons c r =>
    rw [List.takeWhile_cons_of_neg (by rw [hr c rfl]; nofun), List.append_nil]

/-- A list is a run and what does not go on with it. -/
theorem exists_run (P : UInt8 → Bool) (l : List UInt8) :
    ∃ w r, l = w ++ r ∧ (∀ c ∈ w, P c = true) ∧ ∀ c ∈ r.head?, P c = false := by
  induction l with
  | nil => exact ⟨[], [], rfl, nofun, nofun⟩
  | cons c l ih =>
    cases hc : P c with
    | true =>
      obtain ⟨w, r, rfl, hw, hr⟩ := ih
      refine ⟨c :: w, r, rfl, ?_, hr⟩
      rintro d (_ | ⟨_, hd⟩)
      · exact hc
      · exact hw d hd
    | false =>
      refine ⟨[], c :: l, rfl, nofun, ?_⟩
      rintro d ⟨⟩
      exact hc

theorem run_unique {P : UInt8 → Bool} {w w' r r' : List UInt8} (h : w ++ r = w' ++ r') (hw : ∀ c ∈ w, P c = true)
    (hr : ∀ c ∈ r.head?, P c = false) (hw' : ∀ c ∈ w', P c = true) (hr' : ∀ c ∈ r'.head?, P c = false) : w' = w := by
  rw [← takeWhile_append hw hr, h, takeWhile_append hw' hr']

/-! ## Comments -/

theorem line_iff {w r : List UInt8} :
    Line w r ↔ (∀ c ∈ w, decide (c ≠ newline) = true) ∧ ∀ c ∈ r.head?, decide (c ≠ newline) = false := by
  simp only [decide_eq_true_eq, decide_eq_false_iff_not, not_not]
  constructor
  · rintro ⟨hwithin, hmaximal⟩
    exact ⟨fun c hc h => hwithin (h ▸ hc), hmaximal⟩
  · rintro ⟨hwithin, hmaximal⟩
    exact ⟨fun h => hwithin _ h rfl, hmaximal⟩

/-- The two semicolons of a line comment are within it. -/
theorem Line.cons_cons {w r : List UInt8} (h : Line w r) : Line (semicolon :: semicolon :: w) r := by
  refine ⟨?_, h.maximal⟩
  simp only [List.mem_cons, not_or]
  exact ⟨by decide, by decide, h.within⟩

theorem Line.of_comment {w r rest : List UInt8} (h : Line w r) (hinput : semicolon :: semicolon :: rest = w ++ r) :
    ∃ w', w = semicolon :: semicolon :: w' ∧ Line w' r := by
  match w with
  | [] =>
    obtain rfl := hinput
    cases h.maximal semicolon rfl
  | [c] =>
    cases hinput
    cases h.maximal semicolon rfl
  | c :: d :: w =>
    cases hinput
    exact ⟨w, rfl, fun hw => h.within (by simp [hw]), h.maximal⟩

theorem exact_skipLine : Exact Cursor.rest none skipLine (fun _ w r => Line w r) := by
  rintro ⟨pos, rest⟩
  obtain ⟨w, r, rfl, hw, hr⟩ := exists_run (fun c => decide (c ≠ newline)) rest
  refine readsAt_take (a := ()) (j := pos + w.length) w r ?_ (line_iff.mpr ⟨hw, hr⟩) ?_
  · have hrun := takeWhile_append hw hr
    have hskip : skipLine ⟨pos, w ++ r⟩ = .ok ((), ⟨pos + ((w ++ r).takeWhile (fun c => decide (c ≠ newline))).length,
        (w ++ r).drop ((w ++ r).takeWhile (fun c => decide (c ≠ newline))).length⟩) := rfl
    rw [hskip, hrun, List.drop_left]
  · rintro ⟨⟩ w' r' hinput hline
    obtain ⟨hw', hr'⟩ := line_iff.mp hline
    exact ⟨rfl, run_unique hinput hw hr hw' hr'⟩

theorem prefix_pair_iff {a b c : UInt8} {r : List UInt8} : [a, b] <+: c :: r ↔ c = a ∧ r.head? = some b := by
  rw [List.cons_prefix_cons, List.singleton_prefix_iff_head?_eq_some, eq_comm]

theorem blockStep_cons (d pos : ℕ) (c : UInt8) (rest : List UInt8) :
    blockStep (d + 1) ⟨pos, c :: rest⟩ =
      if c = lparen ∧ rest.head? = some semicolon then .ok (.inl (d + 2), ⟨pos + 2, rest.tail⟩)
      else if c = semicolon ∧ rest.head? = some rparen then .ok (.inl d, ⟨pos + 2, rest.tail⟩)
      else .ok (.inl (d + 1), ⟨pos + 1, rest⟩) := by
  have hne : ¬ (d + 1 = 0 ∨ c :: rest = []) := by simp
  simp only [blockStep, ahead_bind, ite_run, if_neg hne, prefix_pair_iff]
  cases rest <;> rfl

theorem exact_blockStep (d : ℕ) : Exact Cursor.rest none (blockStep d) (BlockPiece false d) := by
  rintro ⟨pos, rest⟩
  cases d with
  | zero =>
    refine readsAt_stay rfl .finish ?_
    rintro x w r hinput ⟨⟩
    exact ⟨rfl, rfl⟩
  | succ d =>
    cases rest with
    | nil =>
      refine readsAt_stay rfl (.cutOff rfl) ?_
      rintro x w r hinput (_ | _ | _ | _ | _)
      · exact ⟨rfl, rfl⟩
      all_goals cases hinput
    | cons c rest =>
      have hstep := blockStep_cons d pos c rest
      by_cases hopens : c = lparen ∧ rest.head? = some semicolon
      · rw [if_pos hopens] at hstep
        obtain ⟨rfl, hhead⟩ := hopens
        obtain ⟨rest, rfl⟩ := List.head?_eq_some_iff.mp hhead
        refine readsAt_take [lparen, semicolon] rest hstep .opens ?_
        rintro x w r hinput (_ | _ | _ | _ | ⟨hopens, _⟩)
        · cases hinput
        · exact ⟨rfl, rfl⟩
        · cases hinput
        · cases hinput
          exact absurd ⟨rfl, rfl⟩ hopens
      rw [if_neg hopens] at hstep
      by_cases hcloses : c = semicolon ∧ rest.head? = some rparen
      · rw [if_pos hcloses] at hstep
        obtain ⟨rfl, hhead⟩ := hcloses
        obtain ⟨rest, rfl⟩ := List.head?_eq_some_iff.mp hhead
        refine readsAt_take [semicolon, rparen] rest hstep .closes ?_
        rintro x w r hinput (_ | _ | _ | _ | ⟨_, hcloses⟩)
        · cases hinput
        · cases hinput
        · exact ⟨rfl, rfl⟩
        · cases hinput
          exact absurd ⟨rfl, rfl⟩ hcloses
      rw [if_neg hcloses] at hstep
      refine readsAt_take [c] rest hstep (.char hopens hcloses) ?_
      rintro x w r hinput (_ | _ | _ | _ | _)
      · cases hinput
      · cases hinput
        exact absurd ⟨rfl, rfl⟩ hopens
      · cases hinput
        exact absurd ⟨rfl, rfl⟩ hcloses
      · cases hinput
        exact ⟨rfl, rfl⟩

theorem BlockPiece.ne_nil {strict : Bool} (d d' : ℕ) (w r : List UInt8) (h : BlockPiece strict d (.inl d') w r) :
    w ≠ [] := by
  cases h <;> exact List.cons_ne_nil _ _

theorem exact_skipBlock : Exact Cursor.rest none skipBlock (fun _ => Block false) :=
  Recognizer.exact_loopM exact_blockStep BlockPiece.ne_nil 1

/-! ## Strings in annotations that are skipped -/

theorem rawStep_cons (pos : ℕ) (c : UInt8) (rest : List UInt8) :
    rawStep () ⟨pos, c :: rest⟩ =
      if c = quote then .ok (.inr (), ⟨pos, c :: rest⟩)
      else if c = backslash then .ok (.inl (), ⟨pos + 2, rest.tail⟩)
      else .ok (.inl (), ⟨pos + 1, rest⟩) := by
  by_cases hquote : c = quote
  · simp [rawStep, hquote]
  by_cases hbackslash : c = backslash
  · subst hbackslash
    cases rest <;> rfl
  · simp only [rawStep, ahead_bind, ite_run, if_neg hquote, if_neg hbackslash]
    rfl

theorem exact_rawStep (u : Unit) : Exact Cursor.rest none (rawStep u) (RawPiece u) := by
  rintro ⟨pos, _ | ⟨c, rest⟩⟩
  · refine readsAt_stay rfl (.finish nofun) ?_
    rintro x w r hinput (_ | _ | _ | _)
    · exact ⟨rfl, rfl⟩
    all_goals cases hinput
  have hstep := rawStep_cons pos c rest
  by_cases hquote : c = quote
  · rw [if_pos hquote] at hstep
    subst hquote
    refine readsAt_stay hstep (.finish (by simp)) ?_
    rintro x w r hinput (_ | _ | _ | ⟨hquote, _⟩)
    · exact ⟨rfl, rfl⟩
    · cases hinput
    · cases hinput
    · cases hinput
      exact absurd rfl hquote
  rw [if_neg hquote] at hstep
  by_cases hbackslash : c = backslash
  · rw [if_pos hbackslash] at hstep
    subst hbackslash
    cases rest with
    | nil =>
      refine readsAt_take [backslash] [] hstep .cutOff ?_
      rintro x w r hinput (⟨hstop⟩ | _ | _ | ⟨_, hbackslash⟩)
      · obtain rfl := hinput
        exact absurd (hstop _ rfl) hquote
      · cases hinput
      · exact ⟨rfl, rfl⟩
      · cases hinput
        exact absurd rfl hbackslash
    | cons d rest =>
      refine readsAt_take [backslash, d] rest hstep .escape ?_
      rintro x w r hinput (⟨hstop⟩ | _ | _ | ⟨_, hbackslash⟩)
      · obtain rfl := hinput
        exact absurd (hstop _ rfl) hquote
      · cases hinput
        exact ⟨rfl, rfl⟩
      · cases hinput
      · cases hinput
        exact absurd rfl hbackslash
  · rw [if_neg hbackslash] at hstep
    refine readsAt_take [c] rest hstep (.char hquote hbackslash) ?_
    rintro x w r hinput (⟨hstop⟩ | _ | _ | _)
    · obtain rfl := hinput
      exact absurd (hstop _ rfl) hquote
    · cases hinput
      exact absurd rfl hbackslash
    · cases hinput
      exact absurd rfl hbackslash
    · cases hinput
      exact ⟨rfl, rfl⟩

theorem RawPiece.ne_nil (u u' : Unit) (w r : List UInt8) (h : RawPiece u (.inl u') w r) : w ≠ [] := by
  cases h <;> exact List.cons_ne_nil _ _

theorem exact_rawLoop : Exact Cursor.rest none (loop rawStep ()) (Iterates RawPiece ()) :=
  Recognizer.exact_loopM exact_rawStep RawPiece.ne_nil ()

/-- What is left after the pieces is the end, or a quote. -/
theorem head?_of_rawPieces {w r : List UInt8} (h : Iterates RawPiece () () w r) : ∀ c ∈ r.head?, c = quote := by
  obtain ⟨_, _, ⟨hquote⟩⟩ := h.exists_stop
  exact hquote

theorem readsAt_skipRawString (pos : ℕ) (rest : List UInt8) :
    ReadsAt skipRawString (fun _ => RawString) ⟨pos, quote :: rest⟩ := by
  have hclose : ∀ c, (∀ b ∈ c.rest.head?, b = quote) →
      ReadsAt (advance 1) (fun _ w r => w = [quote] ∨ w = [] ∧ r = []) c := by
    rintro ⟨pos, _ | ⟨c, rest⟩⟩ hstop
    · have hskip : advance 1 ⟨pos, []⟩ = .ok ((), ⟨pos + 1, []⟩) := rfl
      refine .of_ok (w := []) hskip rfl (.inr ⟨rfl, rfl⟩) ?_
      rintro ⟨⟩ w r hinput (rfl | ⟨rfl, rfl⟩)
      · cases hinput
      · exact ⟨rfl, rfl⟩
    · obtain rfl := hstop c rfl
      refine readsAt_take (a := ()) (j := pos + 1) [quote] rest rfl (.inl rfl) ?_
      rintro ⟨⟩ w r hinput (rfl | ⟨rfl, rfl⟩)
      · exact ⟨rfl, rfl⟩
      · cases hinput
  refine readsAt_after (j := pos + 1) [quote] rest (q := loop rawStep () >>= fun _ => advance 1) rfl
    ((exact_rawLoop _).bind fun _ c hok => hclose c ?_) ?_
  · obtain ⟨_, _, hrun⟩ := (exact_rawLoop _).sound _ _ hok
    exact head?_of_rawPieces hrun
  · intro _ w r _
    constructor
    · rintro (hrun | hrun)
      · exact ⟨_, rfl, (), _, [quote], rfl, hrun, .inl rfl⟩
      · exact ⟨_, rfl, (), _, [], (List.append_nil _).symm, hrun, .inr ⟨rfl, rfl⟩⟩
    · rintro ⟨_, rfl, _, w₁, _, rfl, hrun, rfl | ⟨rfl, rfl⟩⟩
      · exact .closed hrun
      · rw [List.append_nil] at hrun ⊢
        exact .cutOff hrun

/-! ## Annotations -/

theorem isIdchar_quote : isIdchar quote = false := by decide

theorem exact_readAnnotationId : Exact Cursor.rest none readAnnotationId (AnnotationId false) := by
  rintro ⟨pos, _ | ⟨c, rest⟩⟩
  · refine readsAt_fail (x := ⟨.emptyAnnotationId, pos⟩) rfl ?_
    rintro id w r hinput (⟨hne, _⟩ | ⟨⟨_⟩, _⟩)
    · exact hne (List.append_eq_nil_iff.mp hinput.symm).1
    · cases hinput
  by_cases hquote : c = quote
  · subst hquote
    let check : List UInt8 → Parser (List UInt8) := fun s =>
      if s = [] then fail .emptyAnnotationId else if isUtf8 s then pure s else fail .malformedUtf8
    have hcheck : ∀ s c, ReadsAt (check s) (fun id w _ => w = [] ∧ id = s ∧ s ≠ [] ∧ isUtf8 s = true) c := by
      intro s c
      by_cases hne : s = []
      · refine readsAt_fail (x := ⟨.emptyAnnotationId, c.pos⟩) (by simp [check, hne]) ?_
        rintro id w r _ ⟨_, _, hne', _⟩
        exact hne' hne
      by_cases hutf8 : isUtf8 s = true
      · refine readsAt_stay (by simp [check, hne, hutf8]) ⟨rfl, rfl, hne, hutf8⟩ ?_
        rintro id w r _ ⟨hw, hid, _⟩
        exact ⟨hid, hw⟩
      · refine readsAt_fail (x := ⟨.malformedUtf8, c.pos⟩) (by simp [check, hne, hutf8]) ?_
        rintro id w r _ ⟨_, _, _, hutf8'⟩
        exact hutf8 hutf8'
    refine .of_eq (q := parseString >>= check) rfl
      (((readsAt_parseString pos rest).bind fun s c _ => hcheck s c).congr ?_)
    intro id w r hinput
    constructor
    · rintro ⟨s, w, _, rfl, h, rfl, rfl, hne, hutf8⟩
      rw [List.append_nil]
      exact .quoted h hne hutf8
    · rintro (⟨hne, hchars, _⟩ | ⟨h, hne, hutf8⟩)
      · obtain ⟨d, w, rfl⟩ := List.exists_cons_of_ne_nil hne
        cases hinput
        cases isIdchar_quote.symm.trans (hchars _ List.mem_cons_self)
      · exact ⟨id, w, [], (List.append_nil _).symm, h, rfl, rfl, hne, hutf8⟩
  by_cases hidchar : isIdchar c = true
  · obtain ⟨w, r, hsplit, hw, hr⟩ := exists_run isIdchar (c :: rest)
    have hrun := takeWhile_append hw hr
    have htake : readAnnotationId ⟨pos, c :: rest⟩ = .ok ((c :: rest).takeWhile isIdchar,
        ⟨pos + ((c :: rest).takeWhile isIdchar).length, (c :: rest).drop ((c :: rest).takeWhile isIdchar).length⟩) := by
      simp only [readAnnotationId, ahead_bind, ite_run, if_neg hquote, if_pos hidchar]
      rfl
    have hread : readAnnotationId ⟨pos, c :: rest⟩ = .ok (w, ⟨pos + w.length, r⟩) := by
      rw [htake, hsplit, hrun, List.drop_left]
    have hne : w ≠ [] := by
      rintro rfl
      obtain rfl := hsplit
      cases hidchar.symm.trans (hr c rfl)
    refine .of_ok hread hsplit (.bare hne hw hr) ?_
    rintro id w' r' hinput (⟨_, hw', hr'⟩ | ⟨h, _⟩)
    · obtain rfl := run_unique (hsplit.symm.trans hinput) hw hr hw' hr'
      exact ⟨rfl, rfl⟩
    · obtain ⟨_⟩ := h
      cases hinput
      exact absurd rfl hquote
  · refine readsAt_fail (x := ⟨.emptyAnnotationId, pos⟩) (by simp [readAnnotationId, hquote, hidchar]) ?_
    rintro id w r hinput (⟨hne, hchars, _⟩ | ⟨⟨_⟩, _⟩)
    · obtain ⟨d, w, rfl⟩ := List.exists_cons_of_ne_nil hne
      cases hinput
      exact hidchar (hchars _ List.mem_cons_self)
    · cases hinput
      exact hquote rfl

theorem AnnotationPiece.ne_nil {strict : Bool} (d d' : ℕ) (w r : List UInt8) (h : AnnotationPiece strict d (.inl d') w r) :
    w ≠ [] := by
  cases h with
  | str h =>
    obtain ⟨_⟩ := h
    exact List.cons_ne_nil _ _
  | raw _ h => cases h <;> exact List.cons_ne_nil _ _
  | line | block | opens | closes | char => exact List.cons_ne_nil _ _

/-- A parser of one piece of an annotation: what it reads is the piece. -/
theorem readsAt_piece {p : Parser Unit} {d d' pos : ℕ} {rest : List UInt8} {R : List UInt8 → List UInt8 → Prop}
    (hp : ReadsAt p (fun _ => R) ⟨pos, rest⟩)
    (hR : ∀ x w r, rest = w ++ r → (AnnotationPiece false d x w r ↔ x = .inl d' ∧ R w r)) :
    ReadsAt (p >>= fun _ => pure (.inl d')) (AnnotationPiece false d) ⟨pos, rest⟩ := by
  refine (hp.bind fun _ c _ => .pure _).congr ?_
  intro x w r hinput
  rw [hR x w r hinput]
  constructor
  · rintro ⟨_, w, _, rfl, h, rfl, rfl⟩
    rw [List.append_nil]
    exact ⟨rfl, h⟩
  · rintro ⟨rfl, h⟩
    exact ⟨(), w, [], (List.append_nil _).symm, h, rfl, rfl⟩

theorem exact_annotationStep (d : ℕ) : Exact Cursor.rest none (annotationStep d) (AnnotationPiece false d) := by
  rintro ⟨pos, rest⟩
  cases d with
  | zero =>
    have hstep : annotationStep 0 ⟨pos, rest⟩ = .ok (.inr (), ⟨pos, rest⟩) := by cases rest <;> rfl
    refine readsAt_stay hstep .finish ?_
    rintro x w r hinput ⟨⟩
    exact ⟨rfl, rfl⟩
  | succ d =>
    cases rest with
    | nil =>
      refine readsAt_stay rfl (.cutOff rfl) ?_
      intro x w r hinput h
      cases x with
      | inl d' => exact absurd (List.append_eq_nil_iff.mp hinput.symm).1 (h.ne_nil _ _ _ _)
      | inr => cases h; exact ⟨rfl, rfl⟩
    | cons c rest =>
      have hd : ¬ d + 1 = 0 := Nat.succ_ne_zero d
      by_cases hquote : c = quote
      · subst hquote
        refine .of_eq (q := skipRawString >>= fun _ => pure (.inl (d + 1))) rfl
          (readsAt_piece (readsAt_skipRawString pos rest) ?_)
        intro x w r hinput
        constructor
        · rintro (_ | _ | h | ⟨_, h⟩ | _ | _ | _ | _ | ⟨_, hquote, _⟩)
          · cases hinput
          · exact ⟨rfl, h.raw⟩
          · exact ⟨rfl, h⟩
          · cases hinput
          · cases hinput
          · cases hinput
          · cases hinput
          · cases hinput
            exact absurd rfl hquote
        · rintro ⟨rfl, h⟩
          exact .raw rfl h
      by_cases hline : c = semicolon ∧ rest.head? = some semicolon
      · obtain ⟨rfl, hhead⟩ := hline
        obtain ⟨rest, rfl⟩ := List.head?_eq_some_iff.mp hhead
        refine .of_eq (q := skipLine >>= fun _ => pure (.inl (d + 1))) rfl
          (readsAt_piece (exact_skipLine ⟨pos, semicolon :: semicolon :: rest⟩) ?_)
        intro x w r hinput
        constructor
        · rintro (_ | _ | h | ⟨_, h⟩ | h | _ | _ | _ | ⟨_, _, _, _, hline⟩)
          · cases hinput
          · obtain ⟨_⟩ := h
            cases hinput
          · cases h <;> cases hinput
          · exact ⟨rfl, h.cons_cons⟩
          · cases hinput
          · cases hinput
          · cases hinput
          · cases hinput
            exact absurd ⟨rfl, rfl⟩ hline
        · rintro ⟨rfl, h⟩
          obtain ⟨w, rfl, hline'⟩ := h.of_comment hinput
          exact .line hline'
      by_cases hblock : c = lparen ∧ rest.head? = some semicolon
      · obtain ⟨rfl, hhead⟩ := hblock
        obtain ⟨rest, rfl⟩ := List.head?_eq_some_iff.mp hhead
        refine readsAt_after (j := pos + 2) [lparen, semicolon] rest (q := skipBlock >>= fun _ => pure (.inl (d + 1))) rfl
          ((exact_skipBlock _).bind fun _ c _ => .pure _) ?_
        intro x w r hinput
        constructor
        · rintro (_ | _ | h | ⟨_, h⟩ | _ | h | hblock | _ | ⟨_, _, hlparen, _⟩)
          · cases hinput
          · obtain ⟨_⟩ := h
            cases hinput
          · cases h <;> cases hinput
          · cases hinput
          · exact ⟨_, rfl, (), _, [], (List.append_nil _).symm, h, rfl, rfl⟩
          · cases hinput
            exact absurd rfl hblock
          · cases hinput
          · cases hinput
            exact absurd rfl hlparen
        · rintro ⟨_, rfl, _, w, _, rfl, h, rfl, rfl⟩
          rw [List.append_nil]
          exact .block h
      have hstep : annotationStep (d + 1) ⟨pos, c :: rest⟩ =
          if c = lparen then .ok (.inl (d + 2), ⟨pos + 1, rest⟩)
          else if c = rparen then .ok (.inl d, ⟨pos + 1, rest⟩)
          else if isSourceChar c = true then .ok (.inl (d + 1), ⟨pos + 1, rest⟩)
          else .error (some ⟨.illegalCharacter, pos⟩) := by
        simp only [annotationStep, ahead_bind, ite_run, if_neg hd, if_neg hquote, prefix_pair_iff, if_neg hline,
          if_neg hblock]
        rfl
      by_cases hlparen : c = lparen
      · subst hlparen
        rw [if_pos rfl] at hstep
        have hhead : rest.head? ≠ some semicolon := fun h => hblock ⟨rfl, h⟩
        refine readsAt_take [lparen] rest hstep (.opens hhead) ?_
        rintro x w r hinput (_ | _ | h | ⟨_, h⟩ | _ | _ | _ | _ | ⟨_, _, hlparen, _⟩)
        · cases hinput
        · obtain ⟨_⟩ := h
          cases hinput
        · cases h <;> cases hinput
        · cases hinput
        · cases hinput
          exact absurd rfl hhead
        · exact ⟨rfl, rfl⟩
        · cases hinput
        · cases hinput
          exact absurd rfl hlparen
      rw [if_neg hlparen] at hstep
      by_cases hrparen : c = rparen
      · subst hrparen
        rw [if_pos rfl] at hstep
        refine readsAt_take [rparen] rest hstep .closes ?_
        rintro x w r hinput (_ | _ | h | ⟨_, h⟩ | _ | _ | _ | _ | ⟨_, _, _, hrparen, _⟩)
        · cases hinput
        · obtain ⟨_⟩ := h
          cases hinput
        · cases h <;> cases hinput
        · cases hinput
        · cases hinput
        · cases hinput
        · exact ⟨rfl, rfl⟩
        · cases hinput
          exact absurd rfl hrparen
      rw [if_neg hrparen] at hstep
      have hother : ∀ x w r, c :: rest = w ++ r → AnnotationPiece false (d + 1) x w r →
          isSourceChar c = true ∧ x = .inl (d + 1) ∧ w = [c] := by
        rintro x w r hinput (_ | _ | h | ⟨_, h⟩ | _ | _ | _ | _ | ⟨hsource, _⟩)
        · cases hinput
        · obtain ⟨_⟩ := h
          cases hinput
          exact absurd rfl hquote
        · cases h <;> cases hinput <;> exact absurd rfl hquote
        · cases hinput
          exact absurd ⟨rfl, rfl⟩ hline
        · cases hinput
          exact absurd rfl hlparen
        · cases hinput
          exact absurd rfl hlparen
        · cases hinput
          exact absurd rfl hrparen
        · cases hinput
          exact ⟨hsource, rfl, rfl⟩
      by_cases hsource : isSourceChar c = true
      · rw [if_pos hsource] at hstep
        refine readsAt_take [c] rest hstep (.char hsource hquote hlparen hrparen hline) ?_
        exact fun x w r hinput h => (hother x w r hinput h).2
      · rw [if_neg hsource] at hstep
        exact readsAt_fail hstep fun x w r hinput h => hsource (hother x w r hinput h).1

theorem exact_annotationBody : Exact Cursor.rest none (loop annotationStep 1) (fun _ => AnnotationBody false) :=
  Recognizer.exact_loopM exact_annotationStep AnnotationPiece.ne_nil 1

/-! ## Atoms -/

theorem isSpace_iff {c : UInt8} : isSpace c = true ↔ c = 0x20 ∨ c = 0x09 ∨ c = 0x0d ∨ c = newline := by
  simp only [isSpace, Bool.or_eq_true, beq_iff_eq, or_assoc]

theorem isIdchar_of_delimiter {c : UInt8} (h : isSpace c = true ∨ c = lparen ∨ c = rparen ∨ c = semicolon) :
    isIdchar c = false := by
  rw [isSpace_iff] at h
  rcases h with (rfl | rfl | rfl | rfl) | rfl | rfl | rfl <;> decide

theorem isSourceChar_of_delimiter {c : UInt8} (h : isSpace c = true ∨ c = lparen ∨ c = rparen ∨ c = semicolon) :
    isSourceChar c = true := by
  rw [isSpace_iff] at h
  rcases h with (rfl | rfl | rfl | rfl) | rfl | rfl | rfl <;> decide

theorem exact_requireDelimiter : Exact Cursor.rest none requireDelimiter (fun _ w r => w = [] ∧ Delimited r) := by
  rintro ⟨pos, _ | ⟨c, rest⟩⟩
  · refine readsAt_stay rfl ⟨rfl, nofun⟩ ?_
    rintro ⟨⟩ w r _ ⟨rfl, _⟩
    exact ⟨rfl, rfl⟩
  by_cases hdelimiter : isSpace c = true ∨ c = lparen ∨ c = rparen ∨ c = semicolon
  · refine readsAt_stay (a := ()) ?_ ⟨rfl, ?_⟩ ?_
    · simp only [requireDelimiter, ahead_bind, ite_run, if_pos hdelimiter]
      rfl
    · rintro d ⟨⟩
      exact hdelimiter
    · rintro ⟨⟩ w r _ ⟨rfl, _⟩
      exact ⟨rfl, rfl⟩
  · refine readsAt_fail (x := ⟨.unexpectedChar, pos⟩) ?_ ?_
    · simp only [requireDelimiter, ahead_bind, ite_run, if_neg hdelimiter]
      rfl
    · rintro _ w r hinput ⟨rfl, hr⟩
      obtain rfl := hinput
      exact hdelimiter (hr c rfl)

/-- An atom starts with the run of `idchar`s ahead, and is no longer unless a string follows its sigil. -/
theorem AtomText.of_run {t r₀ name w r : List UInt8} (h : AtomText false name w) (hr : Delimited r)
    (hinput : t ++ r₀ = w ++ r) (ht : ∀ c ∈ t, isIdchar c = true) (hr₀ : ∀ c ∈ r₀.head?, isIdchar c = false) :
    (w = t ∧ name = t ∧ t ≠ [] ∧ t ≠ [dollar]) ∨
      ∃ s w', (t = [dollar] ∨ t = [atSign]) ∧ name = t ++ s ∧ w = t ++ w' ∧ StringLit false s w' ∧ s ≠ [] ∧
        isUtf8 s = true := by
  cases h with
  | bare hne hchars hdollar =>
    obtain rfl := run_unique hinput ht hr₀ hchars fun c hc => isIdchar_of_delimiter (hr c hc)
    exact .inl ⟨rfl, rfl, hne, hdollar⟩
  | @quoted c s w hsigil h hne hutf8 =>
    have hidchar : isIdchar c = true := by rcases hsigil with rfl | rfl <;> decide
    have hhead : ∀ d ∈ (w ++ r).head?, isIdchar d = false := by
      obtain ⟨_⟩ := h
      rintro d ⟨⟩
      exact isIdchar_quote
    obtain rfl : [c] = t := run_unique hinput ht hr₀ (by simpa using hidchar) hhead
    refine .inr ⟨s, w, ?_, rfl, rfl, h, hne, hutf8⟩
    rcases hsigil with rfl | rfl
    · exact .inl rfl
    · exact .inr rfl

theorem parseAtom_append {t r : List UInt8} (pos : ℕ) (ht : ∀ c ∈ t, isIdchar c = true)
    (hr : ∀ c ∈ r.head?, isIdchar c = false) : parseAtom ⟨pos, t ++ r⟩ =
      if ∀ c ∈ r.head?, isSourceChar c = true then .ok (t, ⟨pos + t.length, r⟩)
      else .error (some ⟨.illegalCharacter, pos + t.length⟩) := by
  simp only [parseAtom, ahead_bind, advance_bind, takeWhile_append ht hr, List.drop_left]
  cases r with
  | nil =>
    rw [if_pos nofun]
    rfl
  | cons c r =>
    simp only [ite_run, List.head?_cons, Option.mem_def, Option.some.injEq, forall_eq']
    rfl

/-- What follows the run of `idchar`s of a quoted name. -/
theorem readsAt_quotedName (t : List UInt8) (pos : ℕ) (rest : List UInt8) :
    ReadsAt (do
      let s ← parseString
      requireDelimiter
      if s = [] then fail .emptyIdentifier
      else if isUtf8 s then pure (Sexpr.atom (t ++ s))
      else fail .malformedUtf8)
      (fun v w r => ∃ s, v = .atom (t ++ s) ∧ StringLit false s w ∧ s ≠ [] ∧ isUtf8 s = true ∧ Delimited r)
      ⟨pos, quote :: rest⟩ := by
  let check : List UInt8 → Parser Sexpr := fun s =>
    if s = [] then fail .emptyIdentifier else if isUtf8 s then pure (.atom (t ++ s)) else fail .malformedUtf8
  have hcheck : ∀ s c, ReadsAt (check s) (fun v w _ => w = [] ∧ v = .atom (t ++ s) ∧ s ≠ [] ∧ isUtf8 s = true) c := by
    intro s c
    by_cases hne : s = []
    · refine readsAt_fail (x := ⟨.emptyIdentifier, c.pos⟩) (by simp [check, hne]) ?_
      rintro v w r _ ⟨_, _, hne', _⟩
      exact hne' hne
    by_cases hutf8 : isUtf8 s = true
    · refine readsAt_stay (by simp [check, hne, hutf8]) ⟨rfl, rfl, hne, hutf8⟩ ?_
      rintro v w r _ ⟨hw, hv, _⟩
      exact ⟨hv, hw⟩
    · refine readsAt_fail (x := ⟨.malformedUtf8, c.pos⟩) (by simp [check, hne, hutf8]) ?_
      rintro v w r _ ⟨_, _, _, hutf8'⟩
      exact hutf8 hutf8'
  refine ((readsAt_parseString pos rest).bind fun s c _ =>
    (exact_requireDelimiter c).bind fun _ c _ => hcheck s c).congr ?_
  intro v w r _
  constructor
  · rintro ⟨s, w, _, rfl, h, _, _, _, rfl, ⟨rfl, hr⟩, rfl, rfl, hne, hutf8⟩
    rw [List.append_nil, List.append_nil]
    exact ⟨s, rfl, h, hne, hutf8, hr⟩
  · rintro ⟨s, rfl, h, hne, hutf8, hr⟩
    exact ⟨s, w, [], (List.append_nil _).symm, h, (), [], [], rfl, ⟨rfl, hr⟩, rfl, rfl, hne, hutf8⟩

/-- A bare name ends where its run does. -/
theorem readsAt_bareName (t : List UInt8) (c : Cursor) :
    ReadsAt (do
      requireDelimiter
      if t = [dollar] then fail .emptyIdentifier else pure (Sexpr.atom t))
      (fun v w r => v = .atom t ∧ w = [] ∧ t ≠ [dollar] ∧ Delimited r) c := by
  let check : Parser Sexpr := if t = [dollar] then fail .emptyIdentifier else pure (.atom t)
  have hcheck : ∀ c, ReadsAt check (fun v w _ => v = .atom t ∧ w = [] ∧ t ≠ [dollar]) c := by
    intro c
    by_cases hdollar : t = [dollar]
    · refine readsAt_fail (x := ⟨.emptyIdentifier, c.pos⟩) (by simp [check, hdollar]) ?_
      rintro v w r _ ⟨_, _, hdollar'⟩
      exact hdollar' hdollar
    · refine readsAt_stay (by simp [check, hdollar]) ⟨rfl, rfl, hdollar⟩ ?_
      rintro v w r _ ⟨hv, hw, _⟩
      exact ⟨hv, hw⟩
  refine ((exact_requireDelimiter c).bind fun _ c _ => hcheck c).congr ?_
  intro v w r _
  constructor
  · rintro ⟨_, _, _, rfl, ⟨rfl, hr⟩, rfl, rfl, hdollar⟩
    exact ⟨rfl, rfl, hdollar, hr⟩
  · rintro ⟨rfl, rfl, hdollar, hr⟩
    exact ⟨(), [], [], rfl, ⟨rfl, hr⟩, rfl, rfl, hdollar⟩

/-- An atom, with what follows it. -/
theorem exact_parseAtomValue : Exact Cursor.rest none parseAtomValue
    (fun v w r => ∃ name, v = .atom name ∧ AtomText false name w ∧ Delimited r) := by
  rintro ⟨pos, rest⟩
  obtain ⟨t, r₀, rfl, ht, hr₀⟩ := exists_run isIdchar rest
  have hatom := parseAtom_append pos ht hr₀
  by_cases hsource : ∀ c ∈ r₀.head?, isSourceChar c = true
  · rw [if_pos hsource] at hatom
    by_cases hne : t = []
    · refine readsAt_fail (x := ⟨.unexpectedChar, pos + t.length⟩) ?_ ?_
      · rw [parseAtomValue, bind_run hatom, if_pos hne]
        rfl
      · rintro v w r hinput ⟨name, rfl, h, hr⟩
        rcases h.of_run hr hinput ht hr₀ with ⟨_, _, hne', _⟩ | ⟨s, w', hsigil, _⟩
        · exact hne' hne
        · rcases hsigil with rfl | rfl <;> cases hne
    by_cases hquoted : (t = [dollar] ∨ t = [atSign]) ∧ r₀.head? = some quote
    · obtain ⟨hsigil, hhead⟩ := hquoted
      obtain ⟨rest, rfl⟩ := List.head?_eq_some_iff.mp hhead
      refine readsAt_after t (quote :: rest) ?_ (readsAt_quotedName t (pos + t.length) rest) ?_
      · rw [parseAtomValue, bind_run hatom, if_neg hne, ahead_bind, if_pos ⟨hsigil, hhead⟩]
      · intro v w r hinput
        constructor
        · rintro ⟨name, rfl, h, hr⟩
          rcases h.of_run hr hinput ht hr₀ with ⟨rfl, _⟩ | ⟨s, w', _, rfl, rfl, hlit, hne', hutf8⟩
          · obtain rfl := List.append_cancel_left hinput
            rcases hr quote rfl with h | h | h | h <;> cases h
          · exact ⟨w', rfl, s, rfl, hlit, hne', hutf8, hr⟩
        · rintro ⟨w', rfl, s, rfl, hlit, hne', hutf8, hr⟩
          refine ⟨_, rfl, ?_, hr⟩
          rcases hsigil with rfl | rfl
          · exact .quoted (.inl rfl) hlit hne' hutf8
          · exact .quoted (.inr rfl) hlit hne' hutf8
    · refine readsAt_after t r₀ ?_ (readsAt_bareName t ⟨pos + t.length, r₀⟩) ?_
      · rw [parseAtomValue, bind_run hatom, if_neg hne, ahead_bind, if_neg hquoted]
      · intro v w r hinput
        constructor
        · rintro ⟨name, rfl, h, hr⟩
          rcases h.of_run hr hinput ht hr₀ with ⟨rfl, rfl, _, hdollar⟩ | ⟨s, w', hsigil, _, rfl, hlit, _⟩
          · exact ⟨[], (List.append_nil _).symm, rfl, rfl, hdollar, hr⟩
          · rw [List.append_assoc] at hinput
            obtain rfl := List.append_cancel_left hinput
            obtain ⟨_⟩ := hlit
            exact absurd ⟨hsigil, rfl⟩ hquoted
        · rintro ⟨_, rfl, rfl, rfl, hdollar, hr⟩
          rw [List.append_nil]
          exact ⟨t, rfl, .bare hne ht hdollar, hr⟩
  · rw [if_neg hsource] at hatom
    refine readsAt_fail (Recognizer.bind_eq_error.mpr (.inl hatom)) ?_
    rintro v w r hinput ⟨name, rfl, h, hr⟩
    apply hsource
    rcases h.of_run hr hinput ht hr₀ with ⟨rfl, _⟩ | ⟨s, w', _, _, rfl, hlit, _⟩
    · obtain rfl := List.append_cancel_left hinput
      exact fun c hc => isSourceChar_of_delimiter (hr c hc)
    · rw [List.append_assoc] at hinput
      obtain rfl := List.append_cancel_left hinput
      obtain ⟨_⟩ := hlit
      rintro c ⟨⟩
      decide

end Wasmrt.Sexpr
