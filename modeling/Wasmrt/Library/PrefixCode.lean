import Mathlib.Data.BitVec
import Mathlib.Data.FinEnum
import Mathlib.Tactic.Common

/-!
# Prefix codes

A serialiser whose output can be split off the front of any longer string in one way only. Such
codes compose: pairs, tagged alternatives, options and length-prefixed lists of prefix codes are
prefix codes, and every prefix code is injective.

## Main definitions

* `IsPrefixCode P e`: on the values satisfying `P`, `e a ++ r = e b ++ s` forces `a = b` and
  `r = s`.

## Main results

* `IsPrefixCode.injOn`: a prefix code is injective.
* `IsPrefixCode.flatMap_inj`: so is the concatenation of the codes of a list of known length.
* `IsPrefixCode.flatMap_injOn`: and, when no code is empty, of any list.
-/

variable {α β : Type*}

/-- On the values satisfying `P`, the code of a value can be split off a string in one way. -/
def IsPrefixCode (P : α → Prop) (e : α → List β) : Prop :=
  ∀ ⦃a b⦄, P a → P b → ∀ ⦃r s⦄, e a ++ r = e b ++ s → a = b ∧ r = s

namespace IsPrefixCode

variable {P : α → Prop} {e : α → List β}

/-- A prefix code is injective. -/
theorem injOn (h : IsPrefixCode P e) : Set.InjOn e {a | P a} := by
  intro a ha b hb hab
  exact (h ha hb (r := []) (s := []) (by rw [hab])).1

/-- An injective code whose words all have one length is a prefix code. -/
theorem of_length {n : ℕ} (hlen : ∀ a, (e a).length = n)
    (hinj : ∀ ⦃a b⦄, P a → P b → e a = e b → a = b) : IsPrefixCode P e := by
  intro a b ha hb r s hab
  obtain ⟨hword, hrest⟩ := List.append_inj hab (by rw [hlen, hlen])
  exact ⟨hinj ha hb hword, hrest⟩

/-- An optional value sent as one of two tags, the second followed by the value. -/
theorem option (h : IsPrefixCode P e) {no yes : β} (hne : no ≠ yes) :
    IsPrefixCode (fun x : Option α => ∀ a ∈ x, P a)
      (fun x => x.elim [no] (fun a => yes :: e a)) := by
  rintro (_ | a) (_ | b) ha hb r s heq
  · exact ⟨rfl, by simpa using heq⟩
  · exact absurd (by simpa using congrArg List.head? heq) hne
  · exact absurd (by simpa using congrArg List.head? heq) hne.symm
  · obtain ⟨rfl, hrs⟩ := h (ha a rfl) (hb b rfl) (by simpa using heq)
    exact ⟨rfl, hrs⟩

/-- The codes of two lists of the same length, entry after entry. -/
theorem flatMap_inj (h : IsPrefixCode P e) {xs ys : List α} (hlen : xs.length = ys.length)
    (hxs : ∀ x ∈ xs, P x) (hys : ∀ y ∈ ys, P y) {r s : List β}
    (heq : xs.flatMap e ++ r = ys.flatMap e ++ s) : xs = ys ∧ r = s := by
  induction xs generalizing ys with
  | nil =>
    obtain rfl : ys = [] := List.eq_nil_of_length_eq_zero hlen.symm
    exact ⟨rfl, by simpa using heq⟩
  | cons x xs ih =>
    cases ys with
    | nil => simp at hlen
    | cons y ys =>
      simp only [List.flatMap_cons, List.append_assoc] at heq
      obtain ⟨rfl, hrest⟩ := h (hxs x (by simp)) (hys y (by simp)) heq
      obtain ⟨rfl, hrs⟩ := ih (by simpa using hlen) (fun z hz => hxs z (by simp [hz]))
        (fun z hz => hys z (by simp [hz])) hrest
      exact ⟨rfl, hrs⟩

/-- A list sent as its length and then its entries. -/
theorem lengthPrefixed {Q : ℕ → Prop} {len : ℕ → List β} (hlen : IsPrefixCode Q len)
    (h : IsPrefixCode P e) :
    IsPrefixCode (fun xs : List α => Q xs.length ∧ ∀ x ∈ xs, P x)
      (fun xs => len xs.length ++ xs.flatMap e) := by
  rintro xs ys ⟨hQx, hPx⟩ ⟨hQy, hPy⟩ r s heq
  simp only [List.append_assoc] at heq
  obtain ⟨hl, hrest⟩ := hlen hQx hQy heq
  exact flatMap_inj h hl hPx hPy hrest

/-- When no word is empty, the concatenation of words determines the list, its length included. -/
theorem flatMap_injOn (h : IsPrefixCode P e) (hne : ∀ a, e a ≠ []) {xs ys : List α}
    (hxs : ∀ x ∈ xs, P x) (hys : ∀ y ∈ ys, P y) (heq : xs.flatMap e = ys.flatMap e) :
    xs = ys := by
  induction xs generalizing ys with
  | nil =>
    cases ys with
    | nil => rfl
    | cons y ys => simp [hne] at heq
  | cons x xs ih =>
    cases ys with
    | nil => simp [hne] at heq
    | cons y ys =>
      simp only [List.flatMap_cons] at heq
      obtain ⟨rfl, hrest⟩ := h (hxs x (by simp)) (hys y (by simp)) heq
      rw [ih (fun z hz => hxs z (by simp [hz])) (fun z hz => hys z (by simp [hz])) hrest]

end IsPrefixCode
