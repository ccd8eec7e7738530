import Mathlib.Data.BitVec
import Mathlib.Data.FinEnum
import Mathlib.Data.List.Forall2
import Mathlib.Tactic.Common

/-!
# Checks that succeed or report an error

A checker written as a sequence of tests in `Except ε`, each raising its own error, accepts exactly
when every test passes. The lemmas read a successful run backwards through the combinators.

## Main definitions

* `ensure ok e`: raise `e` unless `ok` holds.
* `orError e x`: the value of an option, or the error `e`.
* `Except.Gives x P`: what `x` accepts has the property `P`.
* `AcceptedBy x y`: `y` accepts what `x` accepts.

## Main results

* `Except.bind_eq_ok`, `ensure_eq_ok`, `orError_eq_ok`, `forM_eq_ok`, `mapM_eq_ok`: what a
  successful run passed.
-/

universe u v

variable {ε : Type u} {α β : Type v}

/-- Raise `e` unless the test holds. -/
def ensure (ok : Bool) (e : ε) : Except ε PUnit.{v + 1} := if ok then .ok ⟨⟩ else .error e

/-- The value of an option, or the error `e`. -/
def orError (e : ε) : Option α → Except ε α
  | some a => .ok a
  | none => .error e

@[simp]
theorem Except.bind_eq_ok {x : Except ε α} {f : α → Except ε β} {b : β} :
    (x >>= f) = .ok b ↔ ∃ a, x = .ok a ∧ f a = .ok b := by
  cases x <;> simp [bind, Except.bind]

@[simp]
theorem Except.pure_eq_ok {a b : α} : (pure a : Except ε α) = .ok b ↔ a = b := by
  simp [pure, Except.pure]

@[simp]
theorem Except.map_eq_ok {x : Except ε α} {f : α → β} {b : β} :
    f <$> x = .ok b ↔ ∃ a, x = .ok a ∧ f a = b := by
  cases x <;> simp [Functor.map, Except.map]

@[simp]
theorem ensure_eq_ok {ok : Bool} {e : ε} {u : PUnit.{v + 1}} :
    ensure ok e = .ok u ↔ ok = true := by
  cases ok <;> simp [ensure]

@[simp]
theorem orError_eq_ok {e : ε} {x : Option α} {a : α} : orError e x = .ok a ↔ x = some a := by
  cases x <;> simp [orError]

/-- A traversal succeeds iff it succeeds at every entry. -/
theorem forM_eq_ok {γ : Type*} {f : γ → Except ε PUnit.{v + 1}} {l : List γ} {u : PUnit.{v + 1}} :
    l.forM f = .ok u ↔ ∀ x ∈ l, f x = .ok ⟨⟩ := by
  induction l with
  | nil => simp [pure, Except.pure]
  | cons x l ih =>
    rw [show (x :: l).forM f = (f x >>= fun _ => l.forM f) from rfl, Except.bind_eq_ok,
      List.forall_mem_cons, ← ih]
    exact ⟨fun ⟨⟨⟩, hx, hl⟩ => ⟨hx, hl⟩, fun ⟨hx, hl⟩ => ⟨⟨⟩, hx, hl⟩⟩

/-- A traversal that collects results succeeds iff it succeeds at every entry. -/
theorem mapM_eq_ok {γ : Type*} {f : γ → Except ε α} {l : List γ} {r : List α} :
    l.mapM f = .ok r ↔ List.Forall₂ (fun a b => f a = .ok b) l r := by
  induction l generalizing r with
  | nil => rw [List.mapM_nil, Except.pure_eq_ok, List.forall₂_nil_left_iff, eq_comm]
  | cons x l ih =>
    simp only [List.mapM_cons, Except.bind_eq_ok, Except.pure_eq_ok, ih, List.forall₂_cons_left_iff]
    exact ⟨fun ⟨b, hb, bs, hbs, h⟩ => ⟨b, bs, hb, hbs, h.symm⟩,
      fun ⟨b, bs, hb, hbs, h⟩ => ⟨b, hb, bs, hbs, h.symm⟩⟩

/-- A traversal that collects options has one for every entry, in its place. -/
theorem mapM_eq_some {γ : Type*} {f : γ → Option α} {l : List γ} {r : List α} :
    l.mapM f = some r ↔ List.Forall₂ (fun a b => f a = some b) l r := by
  induction l generalizing r with
  | nil => rw [List.mapM_nil, Option.pure_def, Option.some_inj, List.forall₂_nil_left_iff, eq_comm]
  | cons x l ih =>
    simp only [List.mapM_cons, Option.bind_eq_bind, Option.bind_eq_some_iff, Option.pure_def, Option.some_inj, ih,
      List.forall₂_cons_left_iff]
    exact ⟨fun ⟨b, hb, bs, hbs, h⟩ => ⟨b, bs, hb, hbs, h.symm⟩, fun ⟨b, bs, hb, hbs, h⟩ => ⟨b, hb, bs, hbs, h.symm⟩⟩

/-- A fold that succeeds does so at every entry. -/
theorem exists_of_foldlM_eq_ok {γ : Type*} {f : β → γ → Except ε β} {l : List γ} {b b' : β}
    (h : l.foldlM f b = .ok b') {c : γ} (hc : c ∈ l) : ∃ a a', f a c = .ok a' := by
  induction l generalizing b with
  | nil => cases hc
  | cons d l ih =>
    rw [List.foldlM_cons, Except.bind_eq_ok] at h
    obtain ⟨b₁, hone, hrest⟩ := h
    rcases List.mem_cons.mp hc with rfl | hc
    · exact ⟨b, b₁, hone⟩
    · exact ih hrest hc

/-- A fold whose steps succeed by the entry alone, whatever came before, succeeds iff each entry does. -/
theorem exists_foldlM_eq_ok_iff {γ : Type*} {f : β → γ → Except ε β} {P : γ → Prop}
    (hf : ∀ b c, (∃ b', f b c = .ok b') ↔ P c) (l : List γ) (b : β) :
    (∃ b', l.foldlM f b = .ok b') ↔ ∀ c ∈ l, P c := by
  induction l generalizing b with
  | nil => exact ⟨fun _ => nofun, fun _ => ⟨b, rfl⟩⟩
  | cons c l ih =>
    simp only [List.foldlM_cons, Except.bind_eq_ok, List.forall_mem_cons]
    constructor
    · rintro ⟨b', b₁, hone, hrest⟩
      exact ⟨(hf b c).mp ⟨b₁, hone⟩, (ih b₁).mp ⟨b', hrest⟩⟩
    · rintro ⟨hc, hl⟩
      obtain ⟨b₁, hone⟩ := (hf b c).mpr hc
      obtain ⟨b', hrest⟩ := (ih b₁).mpr hl
      exact ⟨b', b₁, hone, hrest⟩

/-- A list related entry by entry to another has a related entry at every position. -/
theorem exists_getElem?_of_forall₂ {γ δ : Type*} {R : γ → δ → Prop} {l : List γ} {l' : List δ}
    (h : List.Forall₂ R l l') {k : ℕ} {a : γ} (ha : l[k]? = some a) :
    ∃ b, l'[k]? = some b ∧ R a b := by
  obtain ⟨hk, rfl⟩ := List.getElem?_eq_some_iff.mp ha
  have hk' : k < l'.length := h.length_eq ▸ hk
  exact ⟨l'[k], List.getElem?_eq_getElem hk', h.get hk hk'⟩

/-- What is related entry by entry has a property of both entries everywhere iff the left entries have what it comes to. -/
theorem forall₂_iff_of_forall₂ {γ δ : Type*} {R P : γ → δ → Prop} {Q : γ → Prop} {l : List γ} {l' : List δ}
    (h : List.Forall₂ R l l') (hP : ∀ a b, R a b → (P a b ↔ Q a)) : List.Forall₂ P l l' ↔ ∀ a ∈ l, Q a := by
  induction h with
  | nil => exact iff_of_true .nil nofun
  | cons hab _ ih => rw [List.forall₂_cons, List.forall_mem_cons, ih, hP _ _ hab]

/-! ## What a check gives -/

/-- Whatever `x` accepts it accepts with a result that has the property `P`. -/
def Except.Gives (x : Except ε α) (P : α → Prop) : Prop := ∀ ⦃a⦄, x = .ok a → P a

namespace Except.Gives

variable {P : α → Prop} {Q : β → Prop}

theorem pure {a : α} (h : P a) : (pure a : Except ε α).Gives P := fun _ ha => Except.pure_eq_ok.mp ha ▸ h

theorem error {e : ε} : (Except.error e : Except ε α).Gives P := fun _ h => nomatch h

theorem bind {x : Except ε α} {f : α → Except ε β} (h : ∀ a, x = .ok a → (f a).Gives Q) : (x >>= f).Gives Q := by
  intro b hb
  obtain ⟨a, ha, hb⟩ := Except.bind_eq_ok.mp hb
  exact h a ha hb

theorem map {x : Except ε α} {f : α → β} (h : x.Gives fun a => Q (f a)) : (f <$> x).Gives Q := by
  intro b hb
  obtain ⟨a, ha, rfl⟩ := Except.map_eq_ok.mp hb
  exact h ha

end Except.Gives

/-! ## Checks that accept more -/

/-- Whatever `x` accepts, `y` accepts with the same result. -/
def AcceptedBy (x y : Except ε α) : Prop := ∀ ⦃a⦄, x = .ok a → y = .ok a

namespace AcceptedBy

theorem refl (x : Except ε α) : AcceptedBy x x := fun _ h => h

theorem error (e : ε) (y : Except ε α) : AcceptedBy (.error e) y := fun _ h => nomatch h

theorem bind {x x' : Except ε α} {f f' : α → Except ε β} (hx : AcceptedBy x x')
    (hf : ∀ a, x = .ok a → AcceptedBy (f a) (f' a)) : AcceptedBy (x >>= f) (x' >>= f') := by
  intro b hb
  obtain ⟨a, ha, hb⟩ := Except.bind_eq_ok.mp hb
  exact Except.bind_eq_ok.mpr ⟨a, hx ha, hf a ha hb⟩

theorem ite {P : Prop} [Decidable P] {x x' y y' : Except ε α} (hx : AcceptedBy x x')
    (hy : AcceptedBy y y') : AcceptedBy (if P then x else y) (if P then x' else y') := by
  split
  · exact hx
  · exact hy

theorem forM {γ : Type*} {f f' : γ → Except ε PUnit.{v + 1}} {l : List γ}
    (hf : ∀ c ∈ l, AcceptedBy (f c) (f' c)) : AcceptedBy (l.forM f) (l.forM f') := by
  intro _ h
  exact forM_eq_ok.mpr fun c hc => hf c hc (forM_eq_ok.mp h c hc)

theorem foldlM {γ : Type*} {f f' : β → γ → Except ε β} (hf : ∀ b c, AcceptedBy (f b c) (f' b c))
    (l : List γ) (b : β) : AcceptedBy (l.foldlM f b) (l.foldlM f' b) := by
  induction l generalizing b with
  | nil => exact refl _
  | cons c l ih =>
    rw [List.foldlM_cons, List.foldlM_cons]
    exact bind (hf b c) fun b' _ => ih b'

end AcceptedBy
