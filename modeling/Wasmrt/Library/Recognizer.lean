import Mathlib.Data.BitVec
import Mathlib.Data.FinEnum
import Mathlib.Tactic.Common

/-!
# Exact recognizers

A recognizer reads a part of its input from the front, returns a value or fails, and leaves the rest. It is exact for a
relation `R` when it returns `a` after reading `w`, with `r` left, just in case `R a w r`. The relation sees what is left,
so that it can say how far a recognizer looks ahead. One error, `e`, stands for a loop that was cut off, and an exact
recognizer never raises it.

The state `S` of a recognizer holds its input, a list over `τ`, and whatever else it keeps, such as a position.

## Main definitions

* `ExactAt`, `Exact`: exactness, at a state and at all.
* `loopM`: repeat a step until it is done.
* `Iterates`: the relation of a loop, from that of its step.
* `Follows p q out`: `q` reads along with `p`.
* `Ends e p`: the error `e` is never raised.

## Main results

* `ExactAt.bind`, `exact_loopM`: sequences and loops of exact recognizers are exact.
* `exact_loopM_of_unroll`: a loop is exact for a relation that unrolls as it does.
* `ExactAt.unique`: what an exact recognizer recognizes is unambiguous.
* `Iterates.lookahead`: a loop looks no further ahead than its steps do.
-/

namespace Recognizer

variable {S ε τ α β : Type} {input : S → List τ} {e : ε}

/-- Exactness at a state. -/
structure ExactAt (input : S → List τ) (e : ε) (p : StateT S (Except ε) α) (R : α → List τ → List τ → Prop) (s : S) :
    Prop where
  sound : ∀ a s', p s = .ok (a, s') → ∃ w, input s = w ++ input s' ∧ R a w (input s')
  complete : ∀ a w r, input s = w ++ r → R a w r → ∃ s', p s = .ok (a, s') ∧ input s' = r
  ends : p s ≠ .error e

/-- Exactness at every state. -/
def Exact (input : S → List τ) (e : ε) (p : StateT S (Except ε) α) (R : α → List τ → List τ → Prop) : Prop :=
  ∀ s, ExactAt input e p R s

theorem pure_eq_ok {a b : α} {s s' : S} : (pure a : StateT S (Except ε) α) s = .ok (b, s') ↔ a = b ∧ s = s' := by
  constructor
  · rintro ⟨⟩
    exact ⟨rfl, rfl⟩
  · rintro ⟨rfl, rfl⟩
    rfl

theorem bind_eq_ok {p : StateT S (Except ε) α} {f : α → StateT S (Except ε) β} {s s'' : S} {b : β} :
    (p >>= f) s = .ok (b, s'') ↔ ∃ a s', p s = .ok (a, s') ∧ f a s' = .ok (b, s'') := by
  have hbind : (p >>= f) s = (p s >>= fun x => f x.1 x.2) := rfl
  rw [hbind]
  cases p s with
  | error e => exact iff_of_false nofun fun ⟨_, _, h, _⟩ => nomatch h
  | ok x => exact ⟨fun h => ⟨x.1, x.2, rfl, h⟩, fun ⟨_, _, h, h'⟩ => by cases h; exact h'⟩

theorem bind_eq_error {p : StateT S (Except ε) α} {f : α → StateT S (Except ε) β} {s : S} {e' : ε} :
    (p >>= f) s = .error e' ↔ p s = .error e' ∨ ∃ a s', p s = .ok (a, s') ∧ f a s' = .error e' := by
  have hbind : (p >>= f) s = (p s >>= fun x => f x.1 x.2) := rfl
  rw [hbind]
  cases p s with
  | error e =>
    constructor
    · intro h
      cases h
      exact .inl rfl
    · rintro (h | ⟨_, _, h, _⟩)
      · cases h
        rfl
      · cases h
  | ok x =>
    constructor
    · intro h
      exact .inr ⟨x.1, x.2, rfl, h⟩
    · rintro (h | ⟨_, _, h, h'⟩)
      · cases h
      · cases h
        exact h'

namespace ExactAt

variable {p : StateT S (Except ε) α} {R R' : α → List τ → List τ → Prop} {s : S}

theorem pure (a : α) : ExactAt input e (Pure.pure a : StateT S (Except ε) α) (fun b w _ => b = a ∧ w = []) s where
  sound b s' h := by
    cases h
    exact ⟨[], rfl, rfl, rfl⟩
  complete b w r hinput h := by
    obtain ⟨rfl, rfl⟩ := h
    exact ⟨s, rfl, hinput⟩
  ends := nofun

/-- A recognizer that succeeds, where the relation leaves no other way to read the input. -/
theorem of_ok {a : α} {s' : S} {w : List τ} (h : p s = .ok (a, s')) (hinput : input s = w ++ input s')
    (hread : R a w (input s')) (honly : ∀ b w' r, input s = w' ++ r → R b w' r → b = a ∧ w' = w) :
    ExactAt input e p R s where
  sound b s'' hok := by
    cases h.symm.trans hok
    exact ⟨w, hinput, hread⟩
  complete b w' r hinput' hread' := by
    obtain ⟨rfl, rfl⟩ := honly b w' r hinput' hread'
    exact ⟨s', h, List.append_cancel_left (hinput.symm.trans hinput')⟩
  ends hfail := nomatch h.symm.trans hfail

/-- A recognizer that fails recognizes nothing. -/
theorem fail {e' : ε} (h : p s = .error e') (hne : e' ≠ e) (hR : ∀ a w r, input s = w ++ r → ¬ R a w r) :
    ExactAt input e p R s where
  sound _ _ hok := nomatch h.symm.trans hok
  complete a w r hinput hread := absurd hread (hR a w r hinput)
  ends hfail := hne (Except.error.inj (h.symm.trans hfail))

theorem of_eq {q : StateT S (Except ε) α} (h : p s = q s) (hq : ExactAt input e q R s) : ExactAt input e p R s where
  sound a s' hok := hq.sound a s' (h.symm.trans hok)
  complete a w r hinput hread := by
    rw [h]
    exact hq.complete a w r hinput hread
  ends hfail := hq.ends (h.symm.trans hfail)

/-- The relation matters only for splits of the input. -/
theorem congr (hp : ExactAt input e p R s) (h : ∀ a w r, input s = w ++ r → (R a w r ↔ R' a w r)) :
    ExactAt input e p R' s where
  sound a s' hok := by
    obtain ⟨w, hinput, hread⟩ := hp.sound a s' hok
    exact ⟨w, hinput, (h a w _ hinput).mp hread⟩
  complete a w r hinput hread := hp.complete a w r hinput ((h a w r hinput).mpr hread)
  ends := hp.ends

/-- One recognizer after another reads one part after another. -/
theorem bind {f : α → StateT S (Except ε) β} {T : α → β → List τ → List τ → Prop} (hp : ExactAt input e p R s)
    (hf : ∀ a s', p s = .ok (a, s') → ExactAt input e (f a) (T a) s') :
    ExactAt input e (p >>= f) (fun b w r => ∃ a w₁ w₂, w = w₁ ++ w₂ ∧ R a w₁ (w₂ ++ r) ∧ T a b w₂ r) s where
  sound b s'' hok := by
    obtain ⟨a, s', hone, hrest⟩ := bind_eq_ok.mp hok
    obtain ⟨w₁, hinput, hR⟩ := hp.sound a s' hone
    obtain ⟨w₂, hinput', hT⟩ := (hf a s' hone).sound b s'' hrest
    rw [hinput'] at hinput hR
    exact ⟨w₁ ++ w₂, by rw [hinput, List.append_assoc], a, w₁, w₂, rfl, hR, hT⟩
  complete b w r hinput hread := by
    obtain ⟨a, w₁, w₂, rfl, hR, hT⟩ := hread
    rw [List.append_assoc] at hinput
    obtain ⟨s', hone, hinput'⟩ := hp.complete a w₁ _ hinput hR
    obtain ⟨s'', hrest, hinput''⟩ := (hf a s' hone).complete b w₂ r hinput' hT
    exact ⟨s'', bind_eq_ok.mpr ⟨a, s', hone, hrest⟩, hinput''⟩
  ends hfail := by
    rcases bind_eq_error.mp hfail with hone | ⟨a, s', hone, hrest⟩
    · exact hp.ends hone
    · exact (hf a s' hone).ends hrest

/-- What is recognized is recognized in one way. -/
theorem unique (hp : ExactAt input e p R s) (a a' : α) {w w' r r' : List τ} (hinput : input s = w ++ r)
    (hread : R a w r) (hinput' : input s = w' ++ r') (hread' : R a' w' r') : a = a' ∧ w = w' ∧ r = r' := by
  obtain ⟨s₁, hok, rfl⟩ := hp.complete a w r hinput hread
  obtain ⟨s₂, hok', rfl⟩ := hp.complete a' w' r' hinput' hread'
  cases hok.symm.trans hok'
  exact ⟨rfl, List.append_cancel_right (hinput.symm.trans hinput'), rfl⟩

end ExactAt

/-! ## Loops -/

/-- At most `n` steps, of which each says how to go on or what the loop returns. -/
def loopFor (e : ε) (step : α → StateT S (Except ε) (α ⊕ β)) : ℕ → α → StateT S (Except ε) β
  | 0, _ => fun _ => .error e
  | n + 1, a => do
    match ← step a with
    | .inl a' => loopFor e step n a'
    | .inr b => pure b

/-- Repeat a step until it is done. Every step reads something before the next, so that there are no more steps than
there is input, and the error `e` is never raised. -/
def loopM (input : S → List τ) (e : ε) (step : α → StateT S (Except ε) (α ⊕ β)) (a : α) : StateT S (Except ε) β :=
  fun s => loopFor e step ((input s).length + 1) a s

/-- What a loop reads: what its steps read, up to the one that is done. -/
inductive Iterates (Step : α → α ⊕ β → List τ → List τ → Prop) : α → β → List τ → List τ → Prop
  | stop {a b w r} : Step a (.inr b) w r → Iterates Step a b w r
  | next {a a' b w w' r} : Step a (.inl a') w (w' ++ r) → Iterates Step a' b w' r → Iterates Step a b (w ++ w') r

section Loop

variable {step : α → StateT S (Except ε) (α ⊕ β)} {Step : α → α ⊕ β → List τ → List τ → Prop}

theorem loopFor_succ_eq_ok {n : ℕ} {a : α} {b : β} {s s'' : S} :
    loopFor e step (n + 1) a s = .ok (b, s'') ↔
      step a s = .ok (.inr b, s'') ∨ ∃ a' s', step a s = .ok (.inl a', s') ∧ loopFor e step n a' s' = .ok (b, s'') := by
  rw [loopFor, bind_eq_ok]
  constructor
  · rintro ⟨a' | b', s', hstep, hrest⟩
    · exact .inr ⟨a', s', hstep, hrest⟩
    · cases hrest
      exact .inl hstep
  · rintro (hstep | ⟨a', s', hstep, hrest⟩)
    · exact ⟨.inr b, s'', hstep, rfl⟩
    · exact ⟨.inl a', s', hstep, hrest⟩

section Invariant

/-! The steps may be exact only where an invariant of the state holds. -/

variable {I : S → Prop} (hstep : ∀ a s, I s → ExactAt input e (step a) (Step a) s)
  (hinv : ∀ a a' s s', I s → step a s = .ok (.inl a', s') → I s')
include hstep hinv

theorem iterates_of_loopFor {n : ℕ} {a : α} {b : β} {s s'' : S} (hs : I s)
    (h : loopFor e step n a s = .ok (b, s'')) : ∃ w, input s = w ++ input s'' ∧ Iterates Step a b w (input s'') := by
  induction n generalizing a s with
  | zero => cases h
  | succ n ih =>
    rcases loopFor_succ_eq_ok.mp h with hone | ⟨a', s', hone, hrest⟩
    · obtain ⟨w, hinput, hread⟩ := (hstep a s hs).sound _ _ hone
      exact ⟨w, hinput, .stop hread⟩
    · obtain ⟨w, hinput, hread⟩ := (hstep a s hs).sound _ _ hone
      obtain ⟨w', hinput', hiterates⟩ := ih (hinv a a' s s' hs hone) hrest
      rw [hinput'] at hinput hread
      exact ⟨w ++ w', by rw [hinput, List.append_assoc], .next hread hiterates⟩

theorem exists_loopFor (hread : ∀ a a' w r, Step a (.inl a') w r → w ≠ []) {a : α} {b : β} {w r : List τ}
    (h : Iterates Step a b w r) {n : ℕ} {s : S} (hs : I s) (hn : (input s).length < n) (hinput : input s = w ++ r) :
    ∃ s', loopFor e step n a s = .ok (b, s') ∧ input s' = r := by
  induction h generalizing n s with
  | @stop a b w r hone =>
    obtain ⟨n, rfl⟩ := Nat.exists_eq_succ_of_ne_zero (Nat.ne_zero_of_lt hn)
    obtain ⟨s', hok, hrest⟩ := (hstep a s hs).complete _ w r hinput hone
    exact ⟨s', loopFor_succ_eq_ok.mpr (.inl hok), hrest⟩
  | @next a a' b w w' r hone _ ih =>
    obtain ⟨n, rfl⟩ := Nat.exists_eq_succ_of_ne_zero (Nat.ne_zero_of_lt hn)
    rw [List.append_assoc] at hinput
    obtain ⟨s₁, hok, hinput₁⟩ := (hstep a s hs).complete _ w _ hinput hone
    have hpos := List.length_pos_iff.mpr (hread a a' w _ hone)
    have hlt : (input s₁).length < n := by
      have hlength := congrArg List.length hinput
      rw [List.length_append, ← hinput₁] at hlength
      omega
    obtain ⟨s', hok', hrest⟩ := ih (hinv a a' s s₁ hs hok) hlt hinput₁
    exact ⟨s', loopFor_succ_eq_ok.mpr (.inr ⟨a', s₁, hok, hok'⟩), hrest⟩

theorem loopFor_ne_error (hread : ∀ a a' w r, Step a (.inl a') w r → w ≠ []) {n : ℕ} {a : α} {s : S} (hs : I s)
    (hn : (input s).length < n) : loopFor e step n a s ≠ .error e := by
  induction n generalizing a s with
  | zero => exact absurd hn (Nat.not_lt_zero _)
  | succ n ih =>
    rw [loopFor]
    intro hfail
    rcases bind_eq_error.mp hfail with hone | ⟨a' | b, s', hone, hrest⟩
    · exact (hstep a s hs).ends hone
    · obtain ⟨w, hinput, hw⟩ := (hstep a s hs).sound _ _ hone
      have hpos := List.length_pos_iff.mpr (hread a a' w _ hw)
      have hlength := congrArg List.length hinput
      rw [List.length_append] at hlength
      exact ih (hinv a a' s s' hs hone) (by omega) hrest
    · cases hrest

/-- A loop of exact steps is exact, where the invariant holds. -/
theorem exactAt_loopM (hread : ∀ a a' w r, Step a (.inl a') w r → w ≠ []) (a : α) {s : S} (hs : I s) :
    ExactAt input e (loopM input e step a) (Iterates Step a) s :=
  ⟨fun _ _ h => iterates_of_loopFor hstep hinv hs h,
    fun _ _ _ hinput h => exists_loopFor hstep hinv hread h hs (Nat.lt_succ_self _) hinput,
    loopFor_ne_error hstep hinv hread hs (Nat.lt_succ_self _)⟩

end Invariant

/-- A loop of exact steps is exact. -/
theorem exact_loopM (hstep : ∀ a, Exact input e (step a) (Step a)) (hread : ∀ a a' w r, Step a (.inl a') w r → w ≠ [])
    (a : α) : Exact input e (loopM input e step a) (Iterates Step a) := fun _ =>
  exactAt_loopM (I := fun _ => True) (fun a s _ => hstep a s) (fun _ _ _ _ _ _ => trivial) hread a trivial

/-- A relation that unrolls as a loop does is the relation of the loop. -/
theorem iterates_iff_of_unroll {G : α → β → List τ → List τ → Prop}
    (hread : ∀ a a' w r, Step a (.inl a') w r → w ≠ [])
    (hunroll : ∀ a b w r, G a b w r ↔ Step a (.inr b) w r ∨
      ∃ a' w₁ w₂, w = w₁ ++ w₂ ∧ Step a (.inl a') w₁ (w₂ ++ r) ∧ G a' b w₂ r) {a : α} {b : β} {w r : List τ} :
    Iterates Step a b w r ↔ G a b w r := by
  constructor
  · intro h
    induction h with
    | stop hone => exact (hunroll _ _ _ _).mpr (.inl hone)
    | next hone _ ih => exact (hunroll _ _ _ _).mpr (.inr ⟨_, _, _, rfl, hone, ih⟩)
  · intro h
    induction hn : w.length using Nat.strongRecOn generalizing a w with
    | ind n ih =>
      rcases (hunroll _ _ _ _).mp h with hone | ⟨a', w₁, w₂, rfl, hone, hrest⟩
      · exact .stop hone
      · have hpos := List.length_pos_iff.mpr (hread a a' w₁ _ hone)
        rw [List.length_append] at hn
        exact .next hone (ih w₂.length (by omega) hrest rfl)

/-- A loop is exact for a relation that unrolls as it does. -/
theorem exact_loopM_of_unroll {G : α → β → List τ → List τ → Prop} (hstep : ∀ a, Exact input e (step a) (Step a))
    (hread : ∀ a a' w r, Step a (.inl a') w r → w ≠ [])
    (hunroll : ∀ a b w r, G a b w r ↔ Step a (.inr b) w r ∨
      ∃ a' w₁ w₂, w = w₁ ++ w₂ ∧ Step a (.inl a') w₁ (w₂ ++ r) ∧ G a' b w₂ r) (a : α) :
    Exact input e (loopM input e step a) (G a) := fun s =>
  (exact_loopM hstep hread a s).congr fun _ _ _ _ => iterates_iff_of_unroll hread hunroll

/-- A weaker relation of the steps gives a weaker relation of the loop. -/
theorem Iterates.mono {Step' : α → α ⊕ β → List τ → List τ → Prop} (h : ∀ a x w r, Step a x w r → Step' a x w r) {a : α}
    {b : β} {w r : List τ} (hiterates : Iterates Step a b w r) : Iterates Step' a b w r := by
  induction hiterates with
  | stop hone => exact .stop (h _ _ _ _ hone)
  | next hone _ ih => exact .next (h _ _ _ _ hone) ih

theorem Iterates.exists_stop {a : α} {b : β} {w r : List τ} (h : Iterates Step a b w r) :
    ∃ a' w', Step a' (.inr b) w' r := by
  induction h with
  | stop hone => exact ⟨_, _, hone⟩
  | next _ _ ih => exact ih

theorem head?_append_congr {r r' : List τ} (h : r.head? = r'.head?) (w : List τ) : (w ++ r).head? = (w ++ r').head? := by
  rw [List.head?_append, List.head?_append, h]

/-- Where the steps see only the head of what is left, so does the loop. -/
theorem Iterates.lookahead (h : ∀ a x w r r', r.head? = r'.head? → Step a x w r → Step a x w r') {a : α} {b : β}
    {w r r' : List τ} (hhead : r.head? = r'.head?) (hiterates : Iterates Step a b w r) : Iterates Step a b w r' := by
  induction hiterates with
  | stop hone => exact .stop (h _ _ _ _ _ hhead hone)
  | next hone _ ih => exact .next (h _ _ _ _ _ (head?_append_congr hhead _) hone) (ih hhead)

/-- A loop that is over before the end looks no further where its last step needs not, and no step before the last is
followed by nothing. -/
theorem Iterates.anywhere (hread : ∀ a a' w r, Step a (.inl a') w r → w ≠ [])
    (hlook : ∀ a x w r r', r.head? = r'.head? → Step a x w r → Step a x w r')
    (hstop : ∀ a b w r r', r ≠ [] → Step a (.inr b) w r → Step a (.inr b) w r')
    (hnext : ∀ a a' w r, Step a (.inl a') w r →
      (∀ r', Step a (.inl a') w r') ∨ ∀ b w' r', r' ≠ [] → Step a' (.inr b) w' r' → w' ≠ [])
    {a : α} {b : β} {w r : List τ} (hr : r ≠ []) (h : Iterates Step a b w r) (r' : List τ) : Iterates Step a b w r' := by
  induction h with
  | stop hone => exact .stop (hstop _ _ _ _ _ hr hone)
  | @next a a' b w w' r hone hrest ih =>
    refine .next ?_ (ih hr)
    rcases hnext a a' w _ hone with hfree | hmore
    · exact hfree _
    · have hne : w' ≠ [] := by
        cases hrest with
        | stop hone' => exact hmore _ _ _ hr hone'
        | next hone' _ =>
          have := hread _ _ _ _ hone'
          simp [this]
      obtain ⟨c, w', rfl⟩ := List.exists_cons_of_ne_nil hne
      have hhead : (c :: w' ++ r).head? = (c :: w' ++ r').head? := rfl
      exact hlook _ _ _ _ _ hhead hone

end Loop

/-! ## Reading along -/

/-- Where `p` succeeds, so does `q`, which reads the same and returns what is related. -/
def Follows (p : StateT S (Except ε) α) (q : StateT S (Except ε) β) (out : α → β → Prop) : Prop :=
  ∀ s a s', p s = .ok (a, s') → ∃ b, q s = .ok (b, s') ∧ out a b

namespace Follows

variable {α' β' : Type} {p : StateT S (Except ε) α} {q : StateT S (Except ε) β} {out : α → β → Prop}

theorem refl (p : StateT S (Except ε) α) : Follows p p Eq := fun _ a _ h => ⟨a, h, rfl⟩

theorem pure {a : α} {b : β} (h : out a b) :
    Follows (Pure.pure a : StateT S (Except ε) α) (Pure.pure b : StateT S (Except ε) β) out := by
  rintro s _ _ ⟨⟩
  exact ⟨b, rfl, h⟩

theorem fail {x : ε} {q : StateT S (Except ε) β} : Follows (fun _ => .error x : StateT S (Except ε) α) q out := nofun

theorem bind {out' : α' → β' → Prop} {f : α → StateT S (Except ε) α'} {g : β → StateT S (Except ε) β'}
    (h : Follows p q out) (hf : ∀ a b, out a b → Follows (f a) (g b) out') : Follows (p >>= f) (q >>= g) out' := by
  intro s a' s'' hok
  obtain ⟨a, s', hone, hrest⟩ := bind_eq_ok.mp hok
  obtain ⟨b, hone', hab⟩ := h s a s' hone
  obtain ⟨b', hrest', hab'⟩ := hf a b hab s' a' s'' hrest
  exact ⟨b', bind_eq_ok.mpr ⟨b, s', hone', hrest'⟩, hab'⟩

/-- What comes after may read nothing. -/
theorem bind_still {f : α → StateT S (Except ε) α'} {out' : α' → β → Prop} (h : Follows p q out)
    (hf : ∀ a b s a' s', out a b → f a s = .ok (a', s') → s' = s ∧ out' a' b) : Follows (p >>= f) q out' := by
  intro s a' s'' hok
  obtain ⟨a, s', hone, hrest⟩ := bind_eq_ok.mp hok
  obtain ⟨b, hone', hab⟩ := h s a s' hone
  obtain ⟨rfl, hab'⟩ := hf a b s' a' s'' hab hrest
  exact ⟨b, hone', hab'⟩

theorem bind_pure {f : α → α'} {out' : α' → β → Prop} (h : Follows p q out) (hf : ∀ a b, out a b → out' (f a) b) :
    Follows (p >>= fun a => Pure.pure (f a)) q out' := by
  refine h.bind_still ?_
  rintro a b s a' s' hab ⟨⟩
  exact ⟨rfl, hf a b hab⟩

theorem map {f : α → α'} {out' : α' → β → Prop} (h : Follows p q out) (hf : ∀ a b, out a b → out' (f a) b) :
    Follows (f <$> p) q out' := by
  rw [← bind_pure_comp]
  exact h.bind_pure hf

theorem bind_pure_right {g : β → β'} {out' : α → β' → Prop} (h : Follows p q out) (hg : ∀ a b, out a b → out' a (g b)) :
    Follows p (q >>= fun b => Pure.pure (g b)) out' := by
  intro s a s' hok
  obtain ⟨b, hok', hab⟩ := h s a s' hok
  exact ⟨g b, bind_eq_ok.mpr ⟨b, s', hok', rfl⟩, hg a b hab⟩

/-- A step that reads nothing may be taken on one side alone. -/
theorem of_still {f : α → StateT S (Except ε) α'} {out' : α' → β → Prop} (hp : ∀ s a s', p s = .ok (a, s') → s' = s)
    (h : ∀ a, (∃ s, p s = .ok (a, s)) → Follows (f a) q out') : Follows (p >>= f) q out' := by
  intro s a' s'' hok
  obtain ⟨a, s', hone, hrest⟩ := bind_eq_ok.mp hok
  obtain rfl := hp s a s' hone
  exact h a ⟨s', hone⟩ s' a' s'' hrest

theorem ite {c : Prop} [Decidable c] {p' : StateT S (Except ε) α} {q' : StateT S (Except ε) β} (h : Follows p q out)
    (h' : Follows p' q' out) : Follows (if c then p else p') (if c then q else q') out := by
  by_cases hc : c
  · rwa [if_pos hc, if_pos hc]
  · rwa [if_neg hc, if_neg hc]

end Follows

/-- The error is never raised. -/
def Ends (e : ε) (p : StateT S (Except ε) α) : Prop := ∀ s, p s ≠ .error e

namespace Ends

variable {p : StateT S (Except ε) α}

theorem pure (a : α) : Ends e (Pure.pure a : StateT S (Except ε) α) := nofun

theorem of_exact {R : α → List τ → List τ → Prop} (h : Exact input e p R) : Ends e p := fun s => (h s).ends

theorem bind {f : α → StateT S (Except ε) β} (hp : Ends e p) (hf : ∀ a, Ends e (f a)) : Ends e (p >>= f) := by
  intro s hfail
  rcases bind_eq_error.mp hfail with hone | ⟨a, s', -, hrest⟩
  · exact hp s hone
  · exact hf a s' hrest

theorem map {f : α → β} (hp : Ends e p) : Ends e (f <$> p) := by
  rw [← bind_pure_comp]
  exact hp.bind fun _ => .pure _

theorem ite {c : Prop} [Decidable c] {p' : StateT S (Except ε) α} (h : Ends e p) (h' : Ends e p') :
    Ends e (if c then p else p') := by
  by_cases hc : c
  · rwa [if_pos hc]
  · rwa [if_neg hc]

end Ends

end Recognizer
