import Wasmrt.Sexpr.Scanners

/-!
# The parser is exact

What the parser accepts is a row of lexemes that spells a forest, with the leniency of the lexical grammar, and it
returns that forest.

## Main results

* `exact_skipTriviaInto`, `readsAt_parseValue`, `exact_items`: trivia, values and lists.
* `parseAllAnnotated_eq_ok_iff`: whole sources.
-/

namespace Wasmrt.Sexpr

open Recognizer (Exact ExactAt Iterates)

/-! ## One piece of trivia -/

/-- Trivia stop where a value, a closing parenthesis or the end is ahead. -/
def Stops (r : List UInt8) : Prop :=
  ∀ c ∈ r.head?, isSpace c = false ∧ ¬ (c = semicolon ∧ r.tail.head? = some semicolon) ∧
    ¬ (c = lparen ∧ (r.tail.head? = some semicolon ∨ r.tail.head? = some atSign))

/-- One piece of trivia, or none. -/
inductive OneTrivia : Bool → List UInt8 → List UInt8 → Prop
  | space {c : UInt8} {r : List UInt8} (h : isSpace c = true) : OneTrivia true [c] r
  | line {text r : List UInt8} (h : Line text r) : OneTrivia true (semicolon :: semicolon :: text) r
  | block {text r : List UInt8} (h : Block false text r) : OneTrivia true (lparen :: semicolon :: text) r
  | skipped {id idText text r : List UInt8} (hunknown : id ∉ knownAnnotations)
      (hid : AnnotationId false id idText (text ++ r)) (hbody : AnnotationBody false text r) :
      OneTrivia true (lparen :: atSign :: (idText ++ text)) r
  | stop {r : List UInt8} (hstops : Stops r) : OneTrivia false [] r

theorem oneTrivia_true_iff {w r : List UInt8} :
    OneTrivia true w r ↔ ∃ l : Lexeme, l.isToken = false ∧ w = l.bytes ∧ l.Valid false r := by
  constructor
  · rintro (h | h | h | ⟨hunknown, hid, hbody⟩)
    · exact ⟨.space _, rfl, rfl, h⟩
    · exact ⟨.line _, rfl, rfl, h⟩
    · exact ⟨.block _, rfl, rfl, h⟩
    · exact ⟨.skipped _ _ _, rfl, rfl, hunknown, hid, hbody⟩
  · rintro ⟨l, htrivia, rfl, hvalid⟩
    cases l with
    | space _ => exact .space hvalid
    | line _ => exact .line hvalid
    | block _ => exact .block hvalid
    | skipped _ _ _ => exact .skipped hvalid.1 hvalid.2.1 hvalid.2.2
    | lpar | rpar | str _ _ | atom _ _ | annot _ _ => cases htrivia

theorem isSpace_semicolon : isSpace semicolon = false := by decide

theorem isSpace_lparen : isSpace lparen = false := by decide

/-- Where trivia stop, no piece of trivia is ahead. -/
theorem Stops.not_oneTrivia {w r : List UInt8} (h : Stops (w ++ r)) : ¬ OneTrivia true w r := by
  rintro (hspace | _ | _ | _)
  · cases hspace.symm.trans (h _ rfl).1
  · exact (h _ rfl).2.1 ⟨rfl, rfl⟩
  · exact (h _ rfl).2.2 ⟨rfl, .inl rfl⟩
  · exact (h _ rfl).2.2 ⟨rfl, .inr rfl⟩

theorem skipOneTrivia_of_stops {pos : ℕ} {rest : List UInt8} (h : Stops rest) :
    skipOneTrivia ⟨pos, rest⟩ = .ok (false, ⟨pos, rest⟩) := by
  cases rest with
  | nil => rfl
  | cons c rest =>
    obtain ⟨hspace, hline, hparen⟩ := h c rfl
    have hblock : ¬ (c = lparen ∧ rest.head? = some semicolon) := fun h => hparen ⟨h.1, .inl h.2⟩
    have hannot : ¬ (c = lparen ∧ rest.head? = some atSign) := fun h => hparen ⟨h.1, .inr h.2⟩
    simp only [List.tail_cons] at hline
    simp only [skipOneTrivia, ahead_bind, ite_run, hspace, prefix_pair_iff, if_neg hline, if_neg hblock, if_neg hannot]
    rfl

/-- One piece of trivia, other than an annotation. -/
theorem readsAt_skipOneTrivia {pos : ℕ} {rest : List UInt8} (hannot : ¬ [lparen, atSign] <+: rest) :
    ReadsAt skipOneTrivia OneTrivia ⟨pos, rest⟩ := by
  by_cases hstops : Stops rest
  · refine readsAt_stay (skipOneTrivia_of_stops hstops) (.stop hstops) ?_
    rintro (_ | _) w r hinput h
    · cases h
      exact ⟨rfl, rfl⟩
    · obtain rfl := hinput
      exact absurd h hstops.not_oneTrivia
  cases rest with
  | nil => exact absurd nofun hstops
  | cons c rest =>
    rw [prefix_pair_iff] at hannot
    by_cases hspace : isSpace c = true
    · refine readsAt_take (j := pos + 1) [c] rest ?_ (.space hspace) ?_
      · simp only [List.singleton_append, skipOneTrivia, ahead_bind, ite_run, if_pos hspace]
        rfl
      · rintro b w r hinput (_ | _ | _ | _ | h)
        · cases hinput
          exact ⟨rfl, rfl⟩
        · cases hinput
          cases isSpace_semicolon.symm.trans hspace
        · cases hinput
          cases isSpace_lparen.symm.trans hspace
        · cases hinput
          cases isSpace_lparen.symm.trans hspace
        · obtain rfl := hinput
          exact absurd h hstops
    by_cases hline : c = semicolon ∧ rest.head? = some semicolon
    · obtain ⟨rfl, hhead⟩ := hline
      obtain ⟨rest, rfl⟩ := List.head?_eq_some_iff.mp hhead
      refine readsAt_after (j := pos + 2) [semicolon, semicolon] rest (q := skipLine >>= fun _ => pure true) rfl
        ((exact_skipLine _).bind fun _ c _ => .pure _) ?_
      intro b w r hinput
      constructor
      · rintro (hspace' | h | _ | _ | h)
        · cases hinput
          exact absurd hspace' hspace
        · exact ⟨_, rfl, (), _, [], (List.append_nil _).symm, h, rfl, rfl⟩
        · cases hinput
        · cases hinput
        · obtain rfl := hinput
          exact absurd h hstops
      · rintro ⟨_, rfl, _, w, _, rfl, h, rfl, rfl⟩
        rw [List.append_nil]
        exact .line h
    by_cases hblock : c = lparen ∧ rest.head? = some semicolon
    · obtain ⟨rfl, hhead⟩ := hblock
      obtain ⟨rest, rfl⟩ := List.head?_eq_some_iff.mp hhead
      refine readsAt_after (j := pos + 2) [lparen, semicolon] rest (q := skipBlock >>= fun _ => pure true) rfl
        ((exact_skipBlock _).bind fun _ c _ => .pure _) ?_
      intro b w r hinput
      constructor
      · rintro (hspace' | _ | h | _ | h)
        · cases hinput
          exact absurd hspace' hspace
        · cases hinput
        · exact ⟨_, rfl, (), _, [], (List.append_nil _).symm, h, rfl, rfl⟩
        · cases hinput
        · obtain rfl := hinput
          exact absurd h hstops
      · rintro ⟨_, rfl, _, w, _, rfl, h, rfl, rfl⟩
        rw [List.append_nil]
        exact .block h
    refine absurd ?_ hstops
    rintro d ⟨⟩
    exact ⟨Bool.eq_false_iff.mpr hspace, hline, fun h => h.2.elim (fun h' => hblock ⟨h.1, h'⟩) fun h' => hannot ⟨h.1, h'⟩⟩

/-! ## Trivia, with the annotations that are kept -/

/-- What stands inside a list where `n` levels may be opened, with the closing parenthesis. -/
inductive Items (n : ℕ) : Contents → List UInt8 → List UInt8 → Prop
  | intro {ls : List Lexeme} {items : List Sexpr} {annots : List (Annot Sexpr)} {r : List UInt8}
      (hreads : Reads false ls (rparen :: r)) (htree : Forest n 0 ls items annots) :
      Items n (items, annots) (bytesOf ls ++ [rparen]) r

/-- A parser of what stands inside a list, if one of `n` levels may be opened. -/
inductive Inner : ℕ → Option (Parser Contents) → Prop
  | none : Inner 0 none
  | some {n : ℕ} {p : Parser Contents} (h : Exact Cursor.rest none p (Items n)) : Inner (n + 1) (some p)

/-- One piece of trivia, one annotation that is kept, or nothing more. -/
inductive TriviaStep (n k : ℕ) (annots : List (Annot Sexpr)) :
    List (Annot Sexpr) ⊕ List (Annot Sexpr) → List UInt8 → List UInt8 → Prop
  | trivia {w r : List UInt8} (h : OneTrivia true w r) : TriviaStep n k annots (.inl annots) w r
  | annot {m : ℕ} {id text w r : List UInt8} {items : List Sexpr} {inner : List (Annot Sexpr)} (hlevel : n = m + 1)
      (hknown : id ∈ knownAnnotations) (hid : AnnotationId false id text (w ++ r)) (hbody : Items m (items, inner) w r) :
      TriviaStep n k annots (.inl (annots ++ [⟨k, id, items⟩])) (lparen :: atSign :: (text ++ w)) r
  | stop {r : List UInt8} (h : Stops r) : TriviaStep n k annots (.inr annots) [] r

/-- What follows the id of an annotation, whether it is kept or skipped. -/
def afterId (k : ℕ) (inner : Option (Parser Contents)) (annots : List (Annot Sexpr)) (id : List UInt8) :
    Parser (List (Annot Sexpr) ⊕ List (Annot Sexpr)) :=
  if id ∈ knownAnnotations then
    match inner with
    | none => fail .nestingTooDeep
    | some body => do
      let (items, _) ← body
      pure (.inl (annots ++ [⟨k, id, items⟩]))
  else do
    loop annotationStep 1
    pure (.inl annots)

theorem skipOneTrivia_annot (pos : ℕ) (rest : List UInt8) :
    skipOneTrivia ⟨pos, lparen :: atSign :: rest⟩ =
      ((readAnnotationId >>= fun _ => loop annotationStep 1) >>= fun _ => pure true) ⟨pos + 2, rest⟩ := rfl

/-- An annotation whose id is not known is read anew, to the same end. -/
theorem triviaStep_annot (k : ℕ) (inner : Option (Parser Contents)) (annots : List (Annot Sexpr)) (pos : ℕ)
    (rest : List UInt8) : triviaStep (some (k, inner)) annots ⟨pos, lparen :: atSign :: rest⟩ =
      (readAnnotationId >>= afterId k inner annots) ⟨pos + 2, rest⟩ := by
  have hannot : [lparen, atSign] <+: lparen :: atSign :: rest := ⟨rest, rfl⟩
  let mark : Cursor := ⟨pos, lparen :: atSign :: rest⟩
  let again : Parser (List (Annot Sexpr) ⊕ List (Annot Sexpr)) := fun _ =>
    (skipOneTrivia >>= fun b => if b then pure (.inl annots) else pure (.inr annots)) mark
  let kept : List UInt8 → Parser (List (Annot Sexpr) ⊕ List (Annot Sexpr)) := fun id =>
    match inner with
    | none => fail .nestingTooDeep
    | some body => do
      let (items, _) ← body
      pure (.inl (annots ++ [⟨k, id, items⟩]))
  have hstep : triviaStep (some (k, inner)) annots mark =
      (readAnnotationId >>= fun id => if id ∈ knownAnnotations then kept id else again) ⟨pos + 2, rest⟩ := by
    simp only [triviaStep, ahead_bind, ite_run, mark, if_pos hannot]
    rfl
  refine hstep.trans ?_
  cases hid : readAnnotationId ⟨pos + 2, rest⟩ with
  | error x => rw [Recognizer.bind_eq_error.mpr (.inl hid), Recognizer.bind_eq_error.mpr (.inl hid)]
  | ok x =>
    obtain ⟨id, c⟩ := x
    rw [bind_run hid, bind_run hid]
    unfold afterId
    by_cases hknown : id ∈ knownAnnotations
    · rw [if_pos hknown, if_pos hknown]
    · rw [if_neg hknown, if_neg hknown]
      have hskip : skipOneTrivia mark = (loop annotationStep 1 >>= fun _ => pure true) c := by
        refine (skipOneTrivia_annot pos rest).trans ?_
        cases hbody : loop annotationStep 1 c with
        | error y =>
          have hfail : (readAnnotationId >>= fun _ => loop annotationStep 1) ⟨pos + 2, rest⟩ = .error y :=
            Recognizer.bind_eq_error.mpr (.inr ⟨id, c, hid, hbody⟩)
          rw [Recognizer.bind_eq_error.mpr (.inl hfail), Recognizer.bind_eq_error.mpr (.inl hbody)]
        | ok y =>
          have hok : (readAnnotationId >>= fun _ => loop annotationStep 1) ⟨pos + 2, rest⟩ = .ok y :=
            Recognizer.bind_eq_ok.mpr ⟨id, c, hid, hbody⟩
          rw [bind_run hok, bind_run hbody]
      cases hbody : loop annotationStep 1 c with
      | error y =>
        rw [Recognizer.bind_eq_error.mpr (.inl hbody)] at hskip ⊢
        exact Recognizer.bind_eq_error.mpr (.inl hskip)
      | ok y =>
        rw [bind_run hbody] at hskip ⊢
        exact bind_run hskip

theorem triviaStep_of_not_annot (k : ℕ) (inner : Option (Parser Contents)) (annots : List (Annot Sexpr))
    {c : Cursor} (h : ¬ [lparen, atSign] <+: c.rest) : triviaStep (some (k, inner)) annots c =
      (skipOneTrivia >>= fun b => pure (if b then .inl annots else .inr annots)) c := by
  have hstep : triviaStep (some (k, inner)) annots c =
      (skipOneTrivia >>= fun b => if b then pure (.inl annots) else pure (.inr annots)) c := by
    simp only [triviaStep, ahead_bind, ite_run, if_neg h]
  have hbranch : (fun b => if b = true then pure (.inl annots) else pure (.inr annots) :
      Bool → Parser (List (Annot Sexpr) ⊕ List (Annot Sexpr))) =
        fun b => pure (if b then .inl annots else .inr annots) := by
    funext b
    cases b <;> rfl
  rw [hstep, hbranch]

theorem readsAt_afterId {n : ℕ} {inner : Option (Parser Contents)} (hinner : Inner n inner) (k : ℕ)
    (annots : List (Annot Sexpr)) (id : List UInt8) (c : Cursor) :
    ReadsAt (afterId k inner annots id)
      (fun x w r => (id ∈ knownAnnotations ∧ ∃ m items as, n = m + 1 ∧ Items m (items, as) w r ∧
          x = .inl (annots ++ [⟨k, id, items⟩])) ∨
        id ∉ knownAnnotations ∧ AnnotationBody false w r ∧ x = .inl annots) c := by
  unfold afterId
  by_cases hknown : id ∈ knownAnnotations
  · rw [if_pos hknown]
    cases hinner with
    | none =>
      refine readsAt_fail rfl ?_
      rintro x w r _ (⟨_, _, _, _, hlevel, _⟩ | ⟨hunknown, _⟩)
      · cases hlevel
      · exact hunknown hknown
    | @some n p hp =>
      refine ((hp c).bind fun contents c _ => .pure _).congr ?_
      intro x w r _
      constructor
      · rintro ⟨⟨items, as⟩, w, _, rfl, h, rfl, rfl⟩
        rw [List.append_nil]
        exact .inl ⟨hknown, n, items, as, rfl, h, rfl⟩
      · rintro (⟨_, m, items, as, hlevel, h, rfl⟩ | ⟨hunknown, _⟩)
        · cases hlevel
          exact ⟨(items, as), w, [], (List.append_nil _).symm, h, rfl, rfl⟩
        · exact absurd hknown hunknown
  · rw [if_neg hknown]
    refine ((exact_annotationBody c).bind fun _ c _ => .pure _).congr ?_
    intro x w r _
    constructor
    · rintro ⟨_, w, _, rfl, h, rfl, rfl⟩
      rw [List.append_nil]
      exact .inr ⟨hknown, h, rfl⟩
    · rintro (⟨hknown', _⟩ | ⟨_, h, rfl⟩)
      · exact absurd hknown' hknown
      · exact ⟨(), w, [], (List.append_nil _).symm, h, rfl, rfl⟩

theorem exact_triviaStep {n : ℕ} {inner : Option (Parser Contents)} (hinner : Inner n inner) (k : ℕ)
    (annots : List (Annot Sexpr)) :
    Exact Cursor.rest none (triviaStep (some (k, inner)) annots) (TriviaStep n k annots) := by
  rintro ⟨pos, rest⟩
  by_cases hannot : [lparen, atSign] <+: rest
  · obtain ⟨rest, rfl⟩ := hannot
    refine readsAt_after [lparen, atSign] rest (triviaStep_annot k inner annots pos rest)
      ((exact_readAnnotationId _).bind fun id c _ => readsAt_afterId hinner k annots id c) ?_
    intro x w r hinput
    constructor
    · rintro (h | ⟨hlevel, hknown, hid, hbody⟩ | h)
      · cases h with
        | space hspace =>
          cases hinput
          cases isSpace_lparen.symm.trans hspace
        | line | block => cases hinput
        | skipped hunknown hid hbody => exact ⟨_, rfl, _, _, _, rfl, hid, .inr ⟨hunknown, hbody, rfl⟩⟩
      · exact ⟨_, rfl, _, _, _, rfl, hid, .inl ⟨hknown, _, _, _, hlevel, hbody, rfl⟩⟩
      · obtain rfl := hinput
        exact absurd ⟨rfl, .inr rfl⟩ (h _ rfl).2.2
    · rintro ⟨_, rfl, id, w₁, w₂, rfl, hid, hafter⟩
      show TriviaStep n k annots x (lparen :: atSign :: (w₁ ++ w₂)) r
      rcases hafter with ⟨hknown, m, items, as, hlevel, hbody, rfl⟩ | ⟨hunknown, hbody, rfl⟩
      · exact .annot hlevel hknown hid hbody
      · exact .trivia (.skipped hunknown hid hbody)
  · refine .of_eq (triviaStep_of_not_annot k inner annots hannot)
      (((readsAt_skipOneTrivia hannot).bind fun b c _ => .pure _).congr ?_)
    intro x w r hinput
    constructor
    · rintro ⟨b, w, _, rfl, h, rfl, rfl⟩
      rw [List.append_nil]
      cases b with
      | false => cases h with
        | stop h => exact .stop h
      | true => exact .trivia h
    · rintro (h | _ | h)
      · exact ⟨true, w, [], (List.append_nil _).symm, h, rfl, rfl⟩
      · obtain rfl := hinput
        exact absurd ⟨_, rfl⟩ hannot
      · exact ⟨false, [], [], rfl, .stop h, rfl, rfl⟩

/-- Trivia and annotations, up to where they stop. -/
inductive TriviaRow (n k : ℕ) (annots : List (Annot Sexpr)) : List (Annot Sexpr) → List UInt8 → List UInt8 → Prop
  | intro {ls : List Lexeme} {res as : List (Annot Sexpr)} {w r : List UInt8} (hw : w = bytesOf ls)
      (hres : res = annots ++ as) (hreads : Reads false ls r) (htree : Forest n k ls [] as) (hstops : Stops r) :
      TriviaRow n k annots res w r

/-- A list, after its parenthesis: what stands inside, the closing parenthesis and what follows. -/
theorem reads_closed {ls ls' : List Lexeme} {r : List UInt8} :
    Reads false (ls ++ .rpar :: ls') r ↔ Reads false ls (rparen :: (bytesOf ls' ++ r)) ∧ Reads false ls' r := by
  rw [reads_append]
  exact ⟨fun ⟨h, _, h'⟩ => ⟨h, h'⟩, fun ⟨h, h'⟩ => ⟨h, trivial, h'⟩⟩

theorem bytesOf_closed (ls ls' : List Lexeme) :
    bytesOf (ls ++ .rpar :: ls') = (bytesOf ls ++ [rparen]) ++ bytesOf ls' := by
  rw [bytesOf_append, List.append_assoc]
  rfl

theorem TriviaStep.ne_nil {n k : ℕ} (annots annots' : List (Annot Sexpr)) (w r : List UInt8)
    (h : TriviaStep n k annots (.inl annots') w r) : w ≠ [] := by
  cases h with
  | trivia h => cases h <;> exact List.cons_ne_nil _ _
  | annot => exact List.cons_ne_nil _ _

theorem triviaRow_unroll {n k : ℕ} (annots res : List (Annot Sexpr)) (w r : List UInt8) :
    TriviaRow n k annots res w r ↔ TriviaStep n k annots (.inr res) w r ∨
      ∃ annots' w₁ w₂, w = w₁ ++ w₂ ∧ TriviaStep n k annots (.inl annots') w₁ (w₂ ++ r) ∧
        TriviaRow n k annots' res w₂ r := by
  constructor
  · rintro ⟨rfl, rfl, hreads, htree, hstops⟩
    generalize hitems : ([] : List Sexpr) = items at htree
    cases htree with
    | nil =>
      rw [List.append_nil]
      exact .inl (.stop hstops)
    | @trivia _ _ l ls _ _ htrivia hrest =>
      subst hitems
      have hone := oneTrivia_true_iff.mpr ⟨l, htrivia, rfl, hreads.1⟩
      exact .inr ⟨annots, l.bytes, bytesOf ls, rfl, .trivia hone, .intro rfl rfl hreads.2 hrest hstops⟩
    | atom | str | list => cases hitems
    | @annot n _ id text body ls items _ as as' hbody hrest =>
      subst hitems
      obtain ⟨⟨hknown, hid⟩, hrow⟩ := hreads
      obtain ⟨hinside, hafter⟩ := reads_closed.mp hrow
      rw [bytesOf_closed, List.append_assoc] at hid
      refine .inr ⟨annots ++ [⟨k, id, items⟩], lparen :: atSign :: (text ++ (bytesOf body ++ [rparen])), bytesOf ls, ?_,
        .annot rfl hknown hid (.intro hinside hbody), .intro rfl ?_ hafter hrest hstops⟩
      · rw [bytesOf_cons, bytesOf_closed]
        simp only [Lexeme.bytes, List.cons_append, List.append_assoc]
      · rw [List.append_assoc, List.singleton_append]
  · rintro (hstep | ⟨annots', w₁, w₂, rfl, hstep, @⟨ls, _, as, _, _, rfl, rfl, hreads, htree, hstops⟩⟩)
    · cases hstep with
      | stop hstops => exact .intro (by rfl) (List.append_nil _).symm (by trivial) .nil hstops
    · cases hstep with
      | trivia h =>
        obtain ⟨l, htrivia, rfl, hvalid⟩ := oneTrivia_true_iff.mp h
        exact .intro (bytesOf_cons l _).symm rfl ⟨hvalid, hreads⟩ (.trivia htrivia htree) hstops
      | @annot m id text w _ items inner hlevel hknown hid hbody =>
        subst hlevel
        cases hbody with
        | @intro body _ _ _ hinside hbody =>
          have hid' : AnnotationId false id text (bytesOf (body ++ .rpar :: ls) ++ r) := by
            rw [bytesOf_closed, List.append_assoc]
            exact hid
          have hrow : Reads false (.annot id text :: (body ++ .rpar :: ls)) r :=
            ⟨⟨hknown, hid'⟩, reads_closed.mpr ⟨hinside, hreads⟩⟩
          refine .intro ?_ (List.append_assoc ..) hrow (.annot hbody htree) hstops
          rw [bytesOf_cons, bytesOf_closed]
          simp only [Lexeme.bytes, List.cons_append, List.append_assoc]

theorem exact_skipTriviaInto {n : ℕ} {inner : Option (Parser Contents)} (hinner : Inner n inner) (k : ℕ)
    (annots : List (Annot Sexpr)) :
    Exact Cursor.rest none (skipTriviaInto (some (k, inner)) annots) (TriviaRow n k annots) :=
  Recognizer.exact_loopM_of_unroll (exact_triviaStep hinner k) TriviaStep.ne_nil triviaRow_unroll annots

/-! ## Values -/

/-- A value, with what follows it. -/
inductive ValueRow (n : ℕ) : Sexpr → List UInt8 → List UInt8 → Prop
  | intro {lv : List Lexeme} {v : Sexpr} {r : List UInt8} (hreads : Reads false lv r) (hvalue : IsValue n lv v) :
      ValueRow n v (bytesOf lv) r

theorem valueRow_iff {n : ℕ} {v : Sexpr} {w r : List UInt8} :
    ValueRow n v w r ↔ (∃ name, v = .atom name ∧ AtomText false name w ∧ Delimited r) ∨
      (∃ s, v = .str s ∧ StringLit false s w ∧ Delimited r) ∨
      ∃ m items annots w', n = m + 1 ∧ v = .list items annots ∧ w = lparen :: w' ∧ Items m (items, annots) w' r ∧
        (w' ++ r).head? ≠ some semicolon ∧ (w' ++ r).head? ≠ some atSign := by
  constructor
  · rintro ⟨hreads, hvalue⟩
    cases hvalue with
    | @atom _ name text =>
      rw [bytesOf_cons, bytesOf_nil, List.append_nil]
      exact .inl ⟨name, rfl, hreads.1⟩
    | @str _ s text =>
      rw [bytesOf_cons, bytesOf_nil, List.append_nil]
      exact .inr (.inl ⟨s, rfl, hreads.1⟩)
    | @list n body items annots hbody =>
      obtain ⟨hlpar, hrow⟩ := hreads
      obtain ⟨hinside, _⟩ := reads_closed.mp hrow
      rw [bytesOf_closed, bytesOf_nil, List.append_nil] at hlpar
      refine .inr (.inr ⟨n, items, annots, bytesOf body ++ [rparen], rfl, rfl, ?_, .intro hinside hbody, hlpar⟩)
      rw [bytesOf_cons, bytesOf_closed, bytesOf_nil, List.append_nil]
      rfl
  · rintro (⟨name, rfl, htext, hr⟩ | ⟨s, rfl, htext, hr⟩ | ⟨m, items, annots, w', rfl, rfl, rfl, hitems, hlpar⟩)
    · have hrow : ValueRow n (.atom name) (bytesOf [.atom name w]) r := .intro ⟨⟨htext, hr⟩, trivial⟩ .atom
      rwa [bytesOf_cons, bytesOf_nil, List.append_nil] at hrow
    · have hrow : ValueRow n (.str s) (bytesOf [.str s w]) r := .intro ⟨⟨htext, hr⟩, trivial⟩ .str
      rwa [bytesOf_cons, bytesOf_nil, List.append_nil] at hrow
    · cases hitems with
      | @intro body _ _ _ hinside hbody =>
        have hbytes : bytesOf (body ++ [.rpar]) = bytesOf body ++ [rparen] := by
          rw [bytesOf_closed, bytesOf_nil, List.append_nil]
        have hrow : ValueRow (m + 1) (.list items annots) (bytesOf (.lpar :: (body ++ [.rpar]))) r := by
          refine .intro ⟨?_, reads_closed.mpr ⟨hinside, trivial⟩⟩ (.list hbody)
          rw [hbytes]
          exact hlpar
        rwa [bytesOf_cons, hbytes] at hrow

theorem skipTriviaInto_none_of_stops {c : Cursor} (h : Stops c.rest) : skipTriviaInto none [] c = .ok ([], c) := by
  have hstep : triviaStep none [] c = .ok (.inr [], c) := by
    have hnone : triviaStep none [] c =
        (skipOneTrivia >>= fun b => if b then pure (.inl []) else pure (.inr [])) c := rfl
    rw [hnone, bind_run (skipOneTrivia_of_stops h)]
    rfl
  exact Recognizer.loopFor_succ_eq_ok.mpr (.inl hstep)

/-- An atom starts with an `idchar`. -/
theorem AtomText.cons {name w : List UInt8} (h : AtomText false name w) : ∃ c w', w = c :: w' ∧ isIdchar c = true := by
  cases h with
  | bare hne hchars =>
    obtain ⟨c, w, rfl⟩ := List.exists_cons_of_ne_nil hne
    exact ⟨c, w, rfl, hchars c List.mem_cons_self⟩
  | quoted hsigil =>
    refine ⟨_, _, rfl, ?_⟩
    rcases hsigil with rfl | rfl <;> decide

/-- A value after the trivia before it. -/
def valueNext (inner : Option (Parser Contents)) : Parser Sexpr := do
  match ← ahead with
  | [] => fail .unexpectedEof
  | c :: _ =>
    if c = lparen then parseList inner
    else if c = rparen then fail .unexpectedParen
    else if c = quote then do
      let s ← parseString
      requireDelimiter
      pure (.str s)
    else if c = semicolon then fail .unexpectedChar
    else parseAtomValue

/-- Where trivia stop, a value is read exactly. -/
theorem readsAt_parseValue {n : ℕ} {inner : Option (Parser Contents)} (hinner : Inner n inner) {c : Cursor}
    (hstops : Stops c.rest) : ReadsAt (parseValue inner) (ValueRow n) c := by
  obtain ⟨pos, rest⟩ := c
  have hvalue : parseValue inner ⟨pos, rest⟩ = valueNext inner ⟨pos, rest⟩ :=
    bind_run (skipTriviaInto_none_of_stops hstops)
  rw [valueNext, ahead_bind] at hvalue
  -- what a value may begin with
  have hfirst : ∀ v w r c rest', rest = c :: rest' → rest = w ++ r → ValueRow n v w r →
      isIdchar c = true ∧ (∃ name, v = .atom name ∧ AtomText false name w ∧ Delimited r) ∨
      c = quote ∧ (∃ s, v = .str s ∧ StringLit false s w ∧ Delimited r) ∨
      c = lparen ∧ ∃ m items annots w', n = m + 1 ∧ v = .list items annots ∧ w = lparen :: w' ∧
        Items m (items, annots) w' r := by
    intro v w r c rest' hcons hinput h
    rcases valueRow_iff.mp h with ⟨name, rfl, htext, hr⟩ | ⟨s, rfl, hlit, hr⟩ |
      ⟨m, items, annots, w', hlevel, rfl, rfl, hitems, _⟩
    · obtain ⟨d, w', rfl, hidchar⟩ := htext.cons
      cases hcons.symm.trans hinput
      exact .inl ⟨hidchar, name, rfl, htext, hr⟩
    · obtain ⟨w', rfl⟩ := hlit.cons
      cases hcons.symm.trans hinput
      exact .inr (.inl ⟨rfl, s, rfl, hlit, hr⟩)
    · cases hcons.symm.trans hinput
      exact .inr (.inr ⟨rfl, m, items, annots, w', hlevel, rfl, rfl, hitems⟩)
  cases rest with
  | nil =>
    refine readsAt_fail (x := ⟨.unexpectedEof, pos⟩) hvalue ?_
    intro v w r hinput h
    obtain ⟨rfl, rfl⟩ := List.append_eq_nil_iff.mp hinput.symm
    rcases valueRow_iff.mp h with ⟨name, _, htext, _⟩ | ⟨s, _, hlit, _⟩ | ⟨_, _, _, _, _, _, hw, _⟩
    · obtain ⟨_, _, hw, _⟩ := htext.cons
      cases hw
    · obtain ⟨_, hw⟩ := hlit.cons
      cases hw
    · cases hw
  | cons c rest =>
    have hfirst := fun v w r => hfirst v w r c rest rfl
    have hvalue : parseValue inner ⟨pos, c :: rest⟩ =
        if c = lparen then parseList inner ⟨pos, c :: rest⟩
        else if c = rparen then .error (some ⟨.unexpectedParen, pos⟩)
        else if c = quote then
          (parseString >>= fun s => requireDelimiter >>= fun _ => pure (Sexpr.str s)) ⟨pos, c :: rest⟩
        else if c = semicolon then .error (some ⟨.unexpectedChar, pos⟩)
        else parseAtomValue ⟨pos, c :: rest⟩ :=
      hvalue.trans (by simp only [ite_run, fail_run])
    by_cases hlparen : c = lparen
    · subst hlparen
      rw [if_pos rfl] at hvalue
      have honly : ∀ v w r, lparen :: rest = w ++ r → ValueRow n v w r → ∃ m items annots w', n = m + 1 ∧
          v = .list items annots ∧ w = lparen :: w' ∧ Items m (items, annots) w' r := by
        intro v w r hinput h
        rcases hfirst v w r hinput h with ⟨hidchar, _⟩ | ⟨hc, _⟩ | ⟨_, h⟩
        · cases hidchar
        · cases hc
        · exact h
      cases hinner with
      | none =>
        refine readsAt_fail (x := ⟨.nestingTooDeep, pos⟩) (hvalue.trans rfl) ?_
        intro v w r hinput h
        obtain ⟨_, _, _, _, hlevel, _⟩ := honly v w r hinput h
        cases hlevel
      | @some n p hp =>
        refine readsAt_after (j := pos + 1) [lparen] rest
          (q := p >>= fun contents => pure (.list contents.1 contents.2)) (hvalue.trans rfl)
          ((hp _).bind fun contents c _ => .pure _) ?_
        intro v w r hinput
        constructor
        · intro h
          obtain ⟨m, items, annots, w', hlevel, rfl, rfl, hitems⟩ := honly v w r hinput h
          cases hlevel
          exact ⟨w', rfl, (items, annots), w', [], (List.append_nil _).symm, hitems, rfl, rfl⟩
        · rintro ⟨_, rfl, ⟨items, annots⟩, w', _, rfl, hitems, rfl, rfl⟩
          rw [List.append_nil] at hinput ⊢
          cases hinput
          obtain ⟨_, _, hparen⟩ := hstops lparen rfl
          exact valueRow_iff.mpr (.inr (.inr ⟨n, items, annots, w', rfl, rfl, rfl, hitems,
            fun h => hparen ⟨rfl, .inl h⟩, fun h => hparen ⟨rfl, .inr h⟩⟩))
    rw [if_neg hlparen] at hvalue
    by_cases hrparen : c = rparen
    · subst hrparen
      rw [if_pos rfl] at hvalue
      refine readsAt_fail hvalue ?_
      intro v w r hinput h
      rcases hfirst v w r hinput h with ⟨hidchar, _⟩ | ⟨hc, _⟩ | ⟨hc, _⟩
      · cases hidchar
      · cases hc
      · cases hc
    rw [if_neg hrparen] at hvalue
    by_cases hquote : c = quote
    · subst hquote
      rw [if_pos rfl] at hvalue
      refine .of_eq hvalue (((readsAt_parseString pos rest).bind fun s c _ =>
        (exact_requireDelimiter c).bind fun _ c _ => .pure _).congr ?_)
      intro v w r hinput
      constructor
      · rintro ⟨s, w, _, rfl, hlit, _, _, _, rfl, ⟨rfl, hr⟩, rfl, rfl⟩
        rw [List.append_nil, List.append_nil]
        exact valueRow_iff.mpr (.inr (.inl ⟨s, rfl, hlit, hr⟩))
      · intro h
        rcases hfirst v w r hinput h with ⟨hidchar, _⟩ | ⟨_, s, rfl, hlit, hr⟩ | ⟨hc, _⟩
        · cases hidchar
        · exact ⟨s, w, [], (List.append_nil _).symm, hlit, (), [], [], rfl, ⟨rfl, hr⟩, rfl, rfl⟩
        · cases hc
    rw [if_neg hquote] at hvalue
    by_cases hsemicolon : c = semicolon
    · subst hsemicolon
      rw [if_pos rfl] at hvalue
      refine readsAt_fail hvalue ?_
      intro v w r hinput h
      rcases hfirst v w r hinput h with ⟨hidchar, _⟩ | ⟨hc, _⟩ | ⟨hc, _⟩
      · cases hidchar
      · cases hc
      · cases hc
    rw [if_neg hsemicolon] at hvalue
    refine .of_eq hvalue ((exact_parseAtomValue _).congr ?_)
    intro v w r hinput
    constructor
    · exact fun h => valueRow_iff.mpr (.inl h)
    · intro h
      rcases hfirst v w r hinput h with ⟨_, h⟩ | ⟨hc, _⟩ | ⟨hc, _⟩
      · exact h
      · exact absurd hc hquote
      · exact absurd hc hlparen

/-! ## Lists -/

theorem stops_of_idchar {c : UInt8} {r : List UInt8} (h : isIdchar c = true) : Stops (c :: r) := by
  rintro d ⟨⟩
  refine ⟨?_, ?_, ?_⟩
  · rw [Bool.eq_false_iff]
    intro hspace
    cases h.symm.trans (isIdchar_of_delimiter (.inl hspace))
  · rintro ⟨rfl, _⟩
    cases h
  · rintro ⟨rfl, _⟩
    cases h

theorem stops_rparen (r : List UInt8) : Stops (rparen :: r) := by
  rintro c ⟨⟩
  exact ⟨by decide, nofun, nofun⟩

theorem stops_of_value {n : ℕ} {v : Sexpr} {w r : List UInt8} (h : ValueRow n v w r) : Stops (w ++ r) := by
  rcases valueRow_iff.mp h with ⟨name, _, htext, _⟩ | ⟨s, _, hlit, _⟩ | ⟨_, _, _, w', _, _, rfl, _, hsemicolon, hat⟩
  · obtain ⟨c, w', rfl, hidchar⟩ := htext.cons
    exact stops_of_idchar hidchar
  · obtain ⟨w', rfl⟩ := hlit.cons
    rintro c ⟨⟩
    exact ⟨by decide, nofun, nofun⟩
  · rintro c ⟨⟩
    exact ⟨by decide, nofun, fun h => h.2.elim hsemicolon hat⟩

/-- A value starts with an `idchar`, a quote or a parenthesis. -/
theorem ValueRow.cons {n : ℕ} {v : Sexpr} {w r : List UInt8} (h : ValueRow n v w r) :
    ∃ c w', w = c :: w' ∧ c ≠ rparen := by
  rcases valueRow_iff.mp h with ⟨name, _, htext, _⟩ | ⟨s, _, hlit, _⟩ | ⟨_, _, _, w', _, _, rfl, _⟩
  · obtain ⟨c, w', rfl, hidchar⟩ := htext.cons
    refine ⟨c, w', rfl, ?_⟩
    rintro rfl
    cases hidchar
  · obtain ⟨w', rfl⟩ := hlit.cons
    exact ⟨_, _, rfl, nofun⟩
  · exact ⟨_, _, rfl, nofun⟩

/-- The closing parenthesis of a list, or one more item. -/
inductive ItemsStep (n : ℕ) (got : Contents) : Contents ⊕ Contents → List UInt8 → List UInt8 → Prop
  | close {annots : List (Annot Sexpr)} {w r : List UInt8}
      (h : TriviaRow n got.1.length got.2 annots w (rparen :: r)) :
      ItemsStep n got (.inr (got.1, annots)) (w ++ [rparen]) r
  | value {annots : List (Annot Sexpr)} {v : Sexpr} {w w' r : List UInt8}
      (h : TriviaRow n got.1.length got.2 annots w (w' ++ r)) (hvalue : ValueRow n v w' r) :
      ItemsStep n got (.inl (got.1 ++ [v], annots)) (w ++ w') r

/-- An item of a list after the trivia before it. -/
def itemsNext (inner : Option (Parser Contents)) (items : List Sexpr) (annots : List (Annot Sexpr)) :
    Parser (Contents ⊕ Contents) := do
  match ← ahead with
  | [] => fail .unterminatedList
  | c :: _ =>
    if c = rparen then do
      advance 1
      pure (.inr (items, annots))
    else do
      let v ← parseValue inner
      pure (.inl (items ++ [v], annots))

theorem exact_itemsStep {n : ℕ} {inner : Option (Parser Contents)} (hinner : Inner n inner) (got : Contents) :
    Exact Cursor.rest none (itemsStep inner got) (ItemsStep n got) := by
  intro c
  have hnext : ∀ annots c, Stops c.rest → ReadsAt (itemsNext inner got.1 annots) (fun x w r =>
      w = [rparen] ∧ x = .inr (got.1, annots) ∨ ∃ v, ValueRow n v w r ∧ x = .inl (got.1 ++ [v], annots)) c := by
    rintro annots ⟨pos, _ | ⟨c, rest⟩⟩ hstops
    · refine readsAt_fail (x := ⟨.unterminatedList, pos⟩) rfl ?_
      rintro x w r hinput (⟨rfl, _⟩ | ⟨v, h, _⟩)
      · cases hinput
      · obtain ⟨_, _, rfl, _⟩ := h.cons
        cases hinput
    by_cases hrparen : c = rparen
    · subst hrparen
      refine readsAt_take (j := pos + 1) [rparen] rest rfl (.inl ⟨rfl, rfl⟩) ?_
      rintro x w r hinput (⟨rfl, rfl⟩ | ⟨v, h, _⟩)
      · exact ⟨rfl, rfl⟩
      · obtain ⟨_, _, rfl, hne⟩ := h.cons
        cases hinput
        exact absurd rfl hne
    · have hrun : itemsNext inner got.1 annots ⟨pos, c :: rest⟩ =
          (parseValue inner >>= fun v => pure (.inl (got.1 ++ [v], annots))) ⟨pos, c :: rest⟩ := by
        simp only [itemsNext, ahead_bind, ite_run, if_neg hrparen]
      refine .of_eq hrun (((readsAt_parseValue hinner hstops).bind fun v c _ => .pure _).congr ?_)
      intro x w r hinput
      constructor
      · rintro ⟨v, w, _, rfl, h, rfl, rfl⟩
        rw [List.append_nil]
        exact .inr ⟨v, h, rfl⟩
      · rintro (⟨rfl, _⟩ | ⟨v, h, rfl⟩)
        · cases hinput
          exact absurd rfl hrparen
        · exact ⟨v, w, [], (List.append_nil _).symm, h, rfl, rfl⟩
  refine ((exact_skipTriviaInto hinner got.1.length got.2 c).bind fun annots c hok => hnext annots c ?_).congr ?_
  · obtain ⟨_, _, h⟩ := (exact_skipTriviaInto hinner got.1.length got.2 _).sound _ _ hok
    obtain ⟨_, _, _, _, hstops⟩ := h
    exact hstops
  · intro x w r _
    constructor
    · rintro ⟨annots, w₁, w₂, rfl, h, ⟨rfl, rfl⟩ | ⟨v, hvalue, rfl⟩⟩
      · exact .close h
      · exact .value h hvalue
    · rintro (h | ⟨h, hvalue⟩)
      · exact ⟨_, _, [rparen], rfl, h, .inl ⟨rfl, rfl⟩⟩
      · exact ⟨_, _, _, rfl, h, .inr ⟨_, hvalue, rfl⟩⟩

/-- What is left of a list, where some of it has been read. -/
inductive ItemsRow (n : ℕ) (got : Contents) : Contents → List UInt8 → List UInt8 → Prop
  | intro {ls : List Lexeme} {items : List Sexpr} {annots : List (Annot Sexpr)} {res : Contents} {w r : List UInt8}
      (hw : w = bytesOf ls ++ [rparen]) (hres : res = (got.1 ++ items, got.2 ++ annots))
      (hreads : Reads false ls (rparen :: r)) (htree : Forest n got.1.length ls items annots) : ItemsRow n got res w r

/-- The first value of a row, the trivia before it and the rest. -/
theorem Forest.split_row {n k : ℕ} {ls : List Lexeme} {v : Sexpr} {items : List Sexpr} {annots : List (Annot Sexpr)}
    {r : List UInt8} (htree : Forest n k ls (v :: items) annots) (hreads : Reads false ls r) :
    ∃ pre as lv rest as', ls = pre ++ (lv ++ rest) ∧ annots = as ++ as' ∧
      (∀ got, TriviaRow n k got (got ++ as) (bytesOf pre) (bytesOf lv ++ (bytesOf rest ++ r))) ∧
      IsValue n lv v ∧ Reads false lv (bytesOf rest ++ r) ∧ Forest n (k + 1) rest items as' ∧ Reads false rest r := by
  obtain ⟨pre, as, lv, rest, as', rfl, rfl, hpre, hvalue, hrest⟩ := htree.split
  obtain ⟨hreadsPre, hafter⟩ := reads_append.mp hreads
  obtain ⟨hreadsValue, hreadsRest⟩ := reads_append.mp hafter
  rw [bytesOf_append, List.append_assoc] at hreadsPre
  exact ⟨pre, as, lv, rest, as', rfl, rfl,
    fun got => .intro rfl rfl hreadsPre hpre (stops_of_value (.intro hreadsValue hvalue)), hvalue, hreadsValue, hrest,
    hreadsRest⟩

theorem itemsRow_unroll {n : ℕ} (got res : Contents) (w r : List UInt8) :
    ItemsRow n got res w r ↔ ItemsStep n got (.inr res) w r ∨
      ∃ got' w₁ w₂, w = w₁ ++ w₂ ∧ ItemsStep n got (.inl got') w₁ (w₂ ++ r) ∧ ItemsRow n got' res w₂ r := by
  constructor
  · rintro @⟨ls, items, annots, _, _, _, rfl, rfl, hreads, htree⟩
    cases items with
    | nil =>
      rw [List.append_nil]
      exact .inl (.close (.intro rfl rfl hreads htree (stops_rparen r)))
    | cons v items =>
      obtain ⟨pre, as, lv, rest, as', rfl, rfl, hpre, hvalue, hreadsValue, hrest, hreadsRest⟩ := htree.split_row hreads
      have hrest' : Forest n (got.1 ++ [v]).length rest items as' := by
        rw [List.length_append]
        exact hrest
      refine .inr ⟨(got.1 ++ [v], got.2 ++ as), bytesOf pre ++ bytesOf lv, bytesOf rest ++ [rparen], ?_, .value ?_ ?_,
        .intro rfl ?_ hreadsRest hrest'⟩
      · simp only [bytesOf_append, List.append_assoc]
      · rw [List.append_assoc]
        exact hpre got.2
      · rw [List.append_assoc]
        exact .intro hreadsValue hvalue
      · simp only [List.append_assoc, List.singleton_append]
  · rintro (hstep | ⟨got', w₁, w₂, rfl, hstep, @⟨ls, items, annots, _, _, _, rfl, rfl, hreads, htree⟩⟩)
    · cases hstep with
      | close h =>
        obtain ⟨rfl, rfl, hreads, htree, _⟩ := h
        exact .intro rfl (by rw [List.append_nil]) hreads htree
    · cases hstep with
      | value h hvalue =>
        obtain @⟨ls', _, as, _, _, rfl, rfl, hreads', htree', _⟩ := h
        cases hvalue with
        | @intro lv v _ hreadsValue hvalue =>
          rw [List.length_append] at htree
          refine .intro ?_ ?_ ?_ (htree'.append ((hvalue.forest _).append htree))
          · simp only [bytesOf_append, List.append_assoc]
          · simp only [List.append_assoc, List.nil_append, List.singleton_append]
          · rw [reads_append, reads_append, bytesOf_append]
            simp only [List.append_assoc, List.singleton_append] at hreads' hreadsValue ⊢
            exact ⟨hreads', hreadsValue, hreads⟩

/-- What stands inside a list is read exactly. -/
theorem exact_items {n : ℕ} {inner : Option (Parser Contents)} (hinner : Inner n inner) :
    Exact Cursor.rest none (loop (itemsStep inner) ([], [])) (Items n) := by
  intro c
  refine (Recognizer.exact_loopM_of_unroll (exact_itemsStep hinner) ?_ itemsRow_unroll ([], []) c).congr ?_
  · rintro got got' w r (_ | ⟨_, hvalue⟩)
    obtain ⟨_, _, rfl, _⟩ := hvalue.cons
    simp
  · intro contents w r _
    constructor
    · rintro ⟨rfl, rfl, hreads, htree⟩
      exact .intro hreads htree
    · rintro ⟨hreads, htree⟩
      exact .intro rfl rfl hreads htree

theorem inner_innerAt (n : ℕ) : Inner n (innerAt n) := by
  induction n with
  | zero => exact .none
  | succ n ih => exact .some (exact_items ih)

/-! ## Sources -/

/-- One more form and the trivia after it, or the end. -/
inductive FormsStep (got : Contents) : Contents ⊕ Contents → List UInt8 → List UInt8 → Prop
  | finish : FormsStep got (.inr got) [] []
  | value {annots : List (Annot Sexpr)} {v : Sexpr} {w w' r : List UInt8} (hvalue : ValueRow maxDepth v w (w' ++ r))
      (h : TriviaRow maxDepth (got.1.length + 1) got.2 annots w' r) :
      FormsStep got (.inl (got.1 ++ [v], annots)) (w ++ w') r

theorem readsAt_formsStep (got : Contents) (c : Cursor) (hstops : Stops c.rest) :
    ReadsAt (formsStep got) (FormsStep got) c := by
  obtain ⟨pos, rest⟩ := c
  by_cases hend : rest = []
  · subst hend
    refine readsAt_stay rfl .finish ?_
    rintro x w r hinput (_ | ⟨hvalue, _⟩)
    · exact ⟨rfl, rfl⟩
    · obtain ⟨_, _, rfl, _⟩ := hvalue.cons
      cases hinput
  · have hrun : formsStep got ⟨pos, rest⟩ = (parseValue (innerAt maxDepth) >>= fun v =>
        skipTriviaInto (some (got.1.length + 1, innerAt maxDepth)) got.2 >>= fun annots =>
          pure (.inl (got.1 ++ [v], annots))) ⟨pos, rest⟩ := by
      simp only [formsStep, ahead_bind, ite_run, if_neg hend]
    refine .of_eq hrun (((readsAt_parseValue (inner_innerAt maxDepth) hstops).bind fun v c _ =>
      (exact_skipTriviaInto (inner_innerAt maxDepth) _ _ c).bind fun annots c _ => .pure _).congr ?_)
    intro x w r hinput
    constructor
    · rintro ⟨v, w, _, rfl, hvalue, annots, w', _, rfl, h, rfl, rfl⟩
      rw [List.append_nil] at hvalue ⊢
      exact .value hvalue h
    · rintro (_ | ⟨hvalue, h⟩)
      · exact absurd hinput hend
      · exact ⟨_, _, _, rfl, hvalue, _, _, [], (List.append_nil _).symm, h, rfl, rfl⟩

/-- What is left of a source, where trivia have stopped. -/
inductive FormsRow (got : Contents) : Contents → List UInt8 → List UInt8 → Prop
  | finish : FormsRow got got [] []
  | value {lv ls : List Lexeme} {v : Sexpr} {items : List Sexpr} {annots : List (Annot Sexpr)} {res : Contents}
      {w : List UInt8} (hw : w = bytesOf lv ++ bytesOf ls) (hres : res = (got.1 ++ v :: items, got.2 ++ annots))
      (hvalue : IsValue maxDepth lv v) (hreadsValue : Reads false lv (bytesOf ls)) (hreads : Reads false ls [])
      (htree : Forest maxDepth (got.1.length + 1) ls items annots) : FormsRow got res w []

theorem formsRow_unroll (got res : Contents) (w r : List UInt8) :
    FormsRow got res w r ↔ FormsStep got (.inr res) w r ∨
      ∃ got' w₁ w₂, w = w₁ ++ w₂ ∧ FormsStep got (.inl got') w₁ (w₂ ++ r) ∧ FormsRow got' res w₂ r := by
  constructor
  · rintro (_ | @⟨lv, ls, v, items, annots, _, _, rfl, rfl, hvalue, hreadsValue, hreads, htree⟩)
    · exact .inl .finish
    · cases items with
      | nil =>
        refine .inr ⟨(got.1 ++ [v], got.2 ++ annots), bytesOf lv ++ bytesOf ls, [], (List.append_nil _).symm, .value ?_
          (.intro rfl rfl hreads htree nofun), .finish⟩
        rw [List.append_nil, List.append_nil]
        exact .intro hreadsValue hvalue
      | cons v' items =>
        obtain ⟨pre, as, lv', rest, as', rfl, rfl, hpre, hvalue', hreadsValue', hrest, hreadsRest⟩ := htree.split_row hreads
        rw [List.append_nil] at hreadsValue'
        have hrest' : Forest maxDepth ((got.1 ++ [v]).length + 1) rest items as' := by
          rw [List.length_append]
          exact hrest
        refine .inr ⟨(got.1 ++ [v], got.2 ++ as), bytesOf lv ++ bytesOf pre, bytesOf lv' ++ bytesOf rest, ?_, .value ?_ ?_,
          .value rfl ?_ hvalue' hreadsValue' hreadsRest hrest'⟩
        · simp only [bytesOf_append, List.append_assoc]
        · rw [List.append_nil, ← bytesOf_append, ← bytesOf_append]
          exact .intro hreadsValue hvalue
        · rw [List.append_assoc]
          exact hpre got.2
        · simp only [List.append_assoc, List.singleton_append]
  · rintro (hstep | ⟨got', w₁, w₂, rfl, hstep, hrow⟩)
    · cases hstep
      exact .finish
    · cases hstep with
      | @value annots v w w' _ hvalue h =>
        obtain @⟨ls, _, as, _, _, rfl, rfl, hreads, htree, _⟩ := h
        cases hvalue with
        | @intro lv _ _ hreadsValue hvalue =>
          cases hrow with
          | finish =>
            simp only [List.append_nil] at hreadsValue hreads ⊢
            exact .value rfl rfl hvalue hreadsValue hreads htree
          | @value lv' ls' v' items annots _ _ hw hres hvalue' hreadsValue' hreads' htree' =>
            subst hw hres
            rw [List.length_append] at htree'
            rw [List.append_nil] at hreadsValue hreads
            refine .value ?_ ?_ hvalue ?_ ?_ (htree.append ((hvalue'.forest _).append htree'))
            · simp only [bytesOf_append, List.append_assoc]
            · simp only [List.append_assoc, List.nil_append, List.singleton_append]
            · rw [bytesOf_append, bytesOf_append]
              exact hreadsValue
            · rw [reads_append, reads_append, bytesOf_append, List.append_nil, List.append_nil]
              exact ⟨hreads, hreadsValue', hreads'⟩

theorem stops_of_formsStep {got got' : Contents} {w r : List UInt8} (h : FormsStep got (.inl got') w r) : Stops r := by
  cases h with
  | value _ h =>
    obtain ⟨_, _, _, _, hstops⟩ := h
    exact hstops

theorem readsAt_forms (got : Contents) (c : Cursor) (hstops : Stops c.rest) :
    ReadsAt (loop formsStep got) (FormsRow got) c := by
  have hread : ∀ got got' w r, FormsStep got (.inl got') w r → w ≠ [] := by
    rintro got got' w r (_ | ⟨hvalue, _⟩)
    obtain ⟨_, _, rfl, _⟩ := hvalue.cons
    exact List.cons_ne_nil _ _
  refine (Recognizer.exactAt_loopM (I := fun c => Stops c.rest) readsAt_formsStep ?_ hread got hstops).congr
    fun _ _ _ _ => Recognizer.iterates_iff_of_unroll hread formsRow_unroll
  intro a a' c c' hc hok
  obtain ⟨_, _, hstep⟩ := (readsAt_formsStep a c hc).sound _ _ hok
  exact stops_of_formsStep hstep

/-- A whole source is read exactly. -/
theorem exact_parseForms : Exact Cursor.rest none parseForms
    (fun contents w r => r = [] ∧ ∃ ls, Source false ls w contents.1 contents.2) := by
  intro c
  refine ((exact_skipTriviaInto (inner_innerAt maxDepth) 0 [] c).bind fun annots c hok => readsAt_forms ([], annots) c ?_)
    |>.congr ?_
  · obtain ⟨_, _, h⟩ := (exact_skipTriviaInto (inner_innerAt maxDepth) 0 [] _).sound _ _ hok
    obtain ⟨_, _, _, _, hstops⟩ := h
    exact hstops
  · intro contents w r _
    constructor
    · rintro ⟨annots, w₁, w₂, rfl, @⟨ls, _, as, _, _, rfl, rfl, hreads, htree, _⟩, hrow⟩
      cases hrow with
      | finish =>
        rw [List.append_nil] at hreads ⊢
        exact ⟨rfl, ls, rfl, hreads, htree⟩
      | @value lv ls' v items annots _ _ hw hres hvalue hreadsValue hreads' htree' =>
        subst hw hres
        rw [List.append_nil] at hreads
        refine ⟨rfl, ls ++ (lv ++ ls'), ?_, ?_, htree.append ((hvalue.forest _).append htree')⟩
        · simp only [bytesOf_append]
        · rw [reads_append, reads_append, bytesOf_append, List.append_nil, List.append_nil]
          exact ⟨hreads, hreadsValue, hreads'⟩
    · rintro ⟨rfl, ls, rfl, hreads, htree⟩
      obtain ⟨items, annots⟩ := contents
      cases items with
      | nil =>
        exact ⟨annots, bytesOf ls, [], (List.append_nil _).symm, .intro rfl rfl hreads htree nofun, .finish⟩
      | cons v items =>
        obtain ⟨pre, as, lv, rest, as', rfl, hannots, hpre, hvalue, hreadsValue, hrest, hreadsRest⟩ :=
          htree.split_row hreads
        rw [List.append_nil] at hreadsValue
        refine ⟨as, bytesOf pre, bytesOf lv ++ bytesOf rest, ?_, ?_, .value rfl ?_ hvalue hreadsValue hreadsRest hrest⟩
        · simp only [bytesOf_append]
        · rw [List.append_assoc]
          exact hpre []
        · exact Prod.ext rfl hannots

/-- The parser accepts the sources of the lexical grammar, leniently, and returns what they spell. -/
theorem parseAllAnnotated_eq_ok_iff {src : List UInt8} {contents : Contents} :
    parseAllAnnotated src = .ok contents ↔ ∃ ls, Source false ls src contents.1 contents.2 := by
  have hexact := exact_parseForms ⟨0, src⟩
  constructor
  · intro h
    cases hok : parseForms ⟨0, src⟩ with
    | error x =>
      rw [parseAllAnnotated, hok] at h
      cases h
    | ok x =>
      rw [parseAllAnnotated, hok] at h
      cases h
      obtain ⟨w, hinput, hend, hsource⟩ := hexact.sound _ _ hok
      have hw : src = w := by rw [← List.append_nil w, ← hend]; exact hinput
      rwa [hw]
  · intro hsource
    obtain ⟨c, hok, _⟩ := hexact.complete contents src [] (List.append_nil _).symm ⟨rfl, hsource⟩
    rw [parseAllAnnotated, hok]
    rfl

/-- No loop of the parser runs on. -/
theorem parseAllAnnotated_ends (src : List UInt8) : parseAllAnnotated src ≠ .error none := by
  intro h
  cases hrun : parseForms ⟨0, src⟩ with
  | error x =>
    rw [parseAllAnnotated, hrun] at h
    cases h
    exact (exact_parseForms ⟨0, src⟩).ends hrun
  | ok x =>
    rw [parseAllAnnotated, hrun] at h
    cases h

end Wasmrt.Sexpr
