import Wasmrt.Library.Recognizer

/-!
# Grammars

A language gives to each value the words that spell it. A recognizer that reads a language exactly looks at no more of its
input than the word, so that languages may be put one after another.

## Main definitions

* `Consumes`: exactness for a language.
* `Then`, `Words`: one word after another, and one word for each entry of a list.
* `Decides`: exactness for what reads nothing.

## Main results

* `Consumes.bind`, `Consumes.map`, `Consumes.ite`: recognizers in sequence read languages in sequence.
* `Consumes.prefix_unique`: a language that is read exactly is a prefix code.
-/

namespace Recognizer

variable {S ε τ α β : Type} {input : S → List τ} {e : ε}

/-- Exactness for a language: a value is returned after reading a word that spells it, whatever is left. -/
def Consumes (input : S → List τ) (e : ε) (p : StateT S (Except ε) α) (L : α → List τ → Prop) : Prop :=
  Exact input e p fun a w _ => L a w

/-- A word of one language, and after it a word of another, which may depend on the value of the first. -/
def Then (L : α → List τ → Prop) (M : α → β → List τ → Prop) (b : β) (w : List τ) : Prop :=
  ∃ a w₁ w₂, w = w₁ ++ w₂ ∧ L a w₁ ∧ M a b w₂

/-- One word for each entry of a list. -/
inductive Words (L : α → List τ → Prop) : List α → List τ → Prop
  | nil : Words L [] []
  | cons {a as w ws} : L a w → Words L as ws → Words L (a :: as) (w ++ ws)

namespace Consumes

variable {p : StateT S (Except ε) α} {L L' : α → List τ → Prop}

theorem congr (hp : Consumes input e p L) (h : ∀ a w, L a w ↔ L' a w) : Consumes input e p L' := fun s =>
  (hp s).congr fun a w _ _ => h a w

theorem pure (a : α) : Consumes input e (Pure.pure a : StateT S (Except ε) α) fun b w => b = a ∧ w = [] := fun _ =>
  .pure a

theorem bind {f : α → StateT S (Except ε) β} {M : α → β → List τ → Prop} (hp : Consumes input e p L)
    (hf : ∀ a, Consumes input e (f a) (M a)) : Consumes input e (p >>= f) (Then L M) := fun s =>
  (hp s).bind fun a s' _ => hf a s'

theorem map {f : α → β} (hp : Consumes input e p L) : Consumes input e (f <$> p) fun b w => ∃ a, b = f a ∧ L a w := by
  rw [← bind_pure_comp]
  refine (hp.bind fun a => .pure (f a)).congr fun b w => ?_
  constructor
  · rintro ⟨a, w₁, w₂, rfl, ha, rfl, rfl⟩
    exact ⟨a, rfl, by rwa [List.append_nil]⟩
  · rintro ⟨a, rfl, ha⟩
    exact ⟨a, w, [], (List.append_nil w).symm, ha, rfl, rfl⟩

theorem bind_pure {f : α → β} (hp : Consumes input e p L) :
    Consumes input e (p >>= fun a => Pure.pure (f a)) fun b w => ∃ a, b = f a ∧ L a w := by
  rw [bind_pure_comp]
  exact hp.map

theorem ite {c : Prop} [Decidable c] {q : StateT S (Except ε) α} (hp : Consumes input e p L)
    (hq : Consumes input e q L') : Consumes input e (if c then p else q) fun a w => if c then L a w else L' a w := by
  by_cases hc : c
  · simpa only [if_pos hc] using hp
  · simpa only [if_neg hc] using hq

/-- A recognizer that always fails reads the empty language. -/
theorem fail {x : ε} (hne : x ≠ e) : Consumes input e (fun _ => .error x : StateT S (Except ε) α) fun _ _ => False :=
  fun _ => .fail rfl hne fun _ _ _ _ => not_false

/-- Where an input starts with a word of a language, the word is the only one, and spells one value. -/
theorem prefix_unique (hp : Consumes input e p L) {s : S} {a a' : α} {w w' r r' : List τ} (h : input s = w ++ r)
    (ha : L a w) (h' : input s = w' ++ r') (ha' : L a' w') : a = a' ∧ w = w' ∧ r = r' :=
  (hp s).unique a a' h ha h' ha'

end Consumes

/-- A value is returned just in case it has the property, and the error `e` is never raised. -/
structure Decides (e : ε) (x : Except ε α) (P : α → Prop) : Prop where
  iff : ∀ a, x = .ok a ↔ P a
  ends : x ≠ .error e

namespace Decides

variable {x : Except ε α} {P : α → Prop}

theorem map {f : α → β} (h : Decides e x P) : Decides e (x.map f) fun b => ∃ a, P a ∧ b = f a := by
  cases x with
  | error x =>
    refine ⟨fun b => iff_of_false nofun ?_, fun hfail => h.ends (congrArg Except.error (Except.error.inj hfail))⟩
    rintro ⟨a, ha, -⟩
    cases (h.iff a).mpr ha
  | ok a =>
    refine ⟨fun b => ⟨fun hok => ⟨a, (h.iff a).mp rfl, (Except.ok.inj hok).symm⟩, ?_⟩, nofun⟩
    rintro ⟨a', ha', rfl⟩
    cases (h.iff a').mpr ha'
    rfl

/-- Inside a recognizer it reads nothing. -/
theorem reads (h : Decides e x P) :
    Consumes input e (fun s => x.map fun a => (a, s) : StateT S (Except ε) α) fun a w => w = [] ∧ P a := by
  intro s
  cases x with
  | error x =>
    refine .fail (show _ = Except.error x from rfl) (fun heq => h.ends (congrArg Except.error heq)) ?_
    rintro a w r - ⟨-, ha⟩
    cases (h.iff a).mpr ha
  | ok a =>
    refine .of_ok (show _ = Except.ok (a, s) from rfl) (List.nil_append _).symm ⟨rfl, (h.iff a).mp rfl⟩ ?_
    rintro a' w r - ⟨rfl, ha'⟩
    exact ⟨(Except.ok.inj ((h.iff a').mpr ha')).symm, rfl⟩

end Decides

namespace Words

variable {L L' : α → List τ → Prop} {as bs : List α} {w w' : List τ}

/-- Every entry of a list has a word. -/
theorem exists_of_mem (h : Words L as w) {a : α} (ha : a ∈ as) : ∃ w', L a w' := by
  induction h with
  | nil => cases ha
  | cons hb _ ih =>
    rcases List.mem_cons.mp ha with rfl | ha
    · exact ⟨_, hb⟩
    · exact ih ha

theorem cons_iff {a : α} : Words L (a :: as) w ↔ ∃ w₁ w₂, w = w₁ ++ w₂ ∧ L a w₁ ∧ Words L as w₂ := by
  constructor
  · rintro (_ | ⟨ha, has⟩)
    exact ⟨_, _, rfl, ha, has⟩
  · rintro ⟨w₁, w₂, rfl, ha, has⟩
    exact .cons ha has

theorem nil_iff : Words L [] w ↔ w = [] := by
  constructor
  · rintro ⟨⟩
    rfl
  · rintro rfl
    exact .nil

/-- A list of which every entry takes up some room is no longer than its words. -/
theorem length_le (h : Words L as w) (hne : ∀ a w, L a w → w ≠ []) : as.length ≤ w.length := by
  induction h with
  | nil => exact Nat.le_refl _
  | cons ha _ ih =>
    have hpos := List.length_pos_iff.mpr (hne _ _ ha)
    rw [List.length_cons, List.length_append]
    omega

end Words

end Recognizer
