import Mathlib.Data.BitVec
import Mathlib.Data.FinEnum
import Mathlib.Data.Nat.Digits.Lemmas
import Mathlib.Tactic.Common
import Mathlib.Tactic.Ring

/-!
# Numerals with digit separators

Runs of digits in which single separators may stand between two digits, and the check of a text on its own that every
separator does stand so. A reader that checks the separators first and then reads the text without them reads just these
runs.

## Main definitions

* `Spells digit sep w ds`: the text `w` is a run of the digits `ds`.
* `value radix ds`: the number with these digits, the most significant one first.
* `placed`: the check of the separators.
* `strip`: the text without them.

## Main results

* `spells_iff`: the runs are the texts that pass the check and read as digits without their separators.
* `exists_spells`: a checked text of digits and separators is a run.
* `Spells.unique`: a text spells one run only.
* `strip_eq_cons`: what does not read as a digit stands in a checked text where it stands without the separators.
-/

namespace Numerals

variable {α : Type*}

/-! ## Runs of digits -/

/-- Digits, with at most one separator between two of them. -/
inductive Spells (digit : α → Option ℕ) (sep : α) : List α → List ℕ → Prop
  | last {c : α} {d : ℕ} (h : digit c = some d) : Spells digit sep [c] [d]
  | next {c : α} {d : ℕ} {w : List α} {ds : List ℕ} (h : digit c = some d) (rest : Spells digit sep w ds) :
      Spells digit sep (c :: w) (d :: ds)
  | skip {c : α} {d : ℕ} {w : List α} {ds : List ℕ} (h : digit c = some d) (rest : Spells digit sep w ds) :
      Spells digit sep (c :: sep :: w) (d :: ds)

/-- The number with these digits. -/
def value (radix : ℕ) (ds : List ℕ) : ℕ := ds.foldl (fun v d => v * radix + d) 0

/-- The text without its separators. -/
def strip [DecidableEq α] (sep : α) (w : List α) : List α := w.filter (· ≠ sep)

/-- Does every separator stand between two digits? `after` tells whether a digit stands before the text. -/
def placed [DecidableEq α] (isDigit : α → Bool) (sep : α) : Bool → List α → Bool
  | _, [] => true
  | after, c :: w =>
    (c ≠ sep || (after && w.head?.any isDigit)) && placed isDigit sep (isDigit c) w

section Value

variable (radix : ℕ)

theorem foldl_value (ds : List ℕ) (v : ℕ) :
    ds.foldl (fun v d => v * radix + d) v = v * radix ^ ds.length + value radix ds := by
  induction ds generalizing v with
  | nil => simp [value]
  | cons d ds ih =>
    rw [value, List.foldl_cons, List.foldl_cons, ih, ih (0 * radix + d), List.length_cons]
    ring

@[simp]
theorem value_nil : value radix [] = 0 := rfl

@[simp]
theorem value_cons (d : ℕ) (ds : List ℕ) :
    value radix (d :: ds) = d * radix ^ ds.length + value radix ds := by
  rw [value, List.foldl_cons, foldl_value, Nat.zero_mul, Nat.zero_add]

/-- Digits of the radix stand for a number below its power. -/
theorem value_lt {radix : ℕ} {ds : List ℕ} (h : ∀ d ∈ ds, d < radix) : value radix ds < radix ^ ds.length := by
  induction ds with
  | nil => simp
  | cons d ds ih =>
    rw [List.forall_mem_cons] at h
    have hle : (d + 1) * radix ^ ds.length ≤ radix * radix ^ ds.length := Nat.mul_le_mul_right _ h.1
    rw [value_cons, List.length_cons, pow_succ', ← Nat.succ_le_iff]
    rw [Nat.succ_mul] at hle
    have hrest := ih h.2
    omega

theorem value_append (ds es : List ℕ) :
    value radix (ds ++ es) = value radix ds * radix ^ es.length + value radix es := by
  rw [value, List.foldl_append, foldl_value, ← value]

end Value

section Spelling

variable {digit : α → Option ℕ} {sep : α} {w w' : List α} {ds ds' : List ℕ}

theorem Spells.ne_nil (h : Spells digit sep w ds) : w ≠ [] := by
  cases h <;> exact List.cons_ne_nil _ _

theorem Spells.digits_ne_nil (h : Spells digit sep w ds) : ds ≠ [] := by
  cases h <;> exact List.cons_ne_nil _ _

/-- A run starts with a digit. -/
theorem Spells.head (h : Spells digit sep w ds) : ∃ c ∈ w.head?, (digit c).isSome := by
  cases h with
  | last h => exact ⟨_, rfl, by rw [h]; rfl⟩
  | next h => exact ⟨_, rfl, by rw [h]; rfl⟩
  | skip h => exact ⟨_, rfl, by rw [h]; rfl⟩

/-- A run has digits and separators only. -/
theorem Spells.mem (h : Spells digit sep w ds) : ∀ c ∈ w, c = sep ∨ (digit c).isSome := by
  induction h with
  | last h => simp [h]
  | next h _ ih => exact List.forall_mem_cons.mpr ⟨.inr (by rw [h]; rfl), ih⟩
  | skip h _ ih => exact List.forall_mem_cons.mpr ⟨.inr (by rw [h]; rfl), List.forall_mem_cons.mpr ⟨.inl rfl, ih⟩⟩

/-- Each digit of a run is one of a character. -/
theorem Spells.exists_char (h : Spells digit sep w ds) : ∀ d ∈ ds, ∃ c ∈ w, digit c = some d := by
  induction h with
  | last h => simpa using h
  | next h _ ih =>
    refine List.forall_mem_cons.mpr ⟨⟨_, List.mem_cons_self, h⟩, fun d hd => ?_⟩
    obtain ⟨c, hc, hdigit⟩ := ih d hd
    exact ⟨c, .tail _ hc, hdigit⟩
  | skip h _ ih =>
    refine List.forall_mem_cons.mpr ⟨⟨_, List.mem_cons_self, h⟩, fun d hd => ?_⟩
    obtain ⟨c, hc, hdigit⟩ := ih d hd
    exact ⟨c, .tail _ (.tail _ hc), hdigit⟩

theorem Spells.length_le (h : Spells digit sep w ds) : ds.length ≤ w.length := by
  induction h with
  | last h => rfl
  | next h _ ih => simpa using ih
  | skip h _ ih =>
    simp only [List.length_cons]
    omega

/-- A run of digits is one of the digits of a larger radix. -/
theorem Spells.mono {digit' : α → Option ℕ} (h : Spells digit sep w ds)
    (hdigit : ∀ c d, digit c = some d → digit' c = some d) : Spells digit' sep w ds := by
  induction h with
  | last h => exact .last (hdigit _ _ h)
  | next h _ ih => exact .next (hdigit _ _ h) ih
  | skip h _ ih => exact .skip (hdigit _ _ h) ih

end Spelling

/-! ## The check of the separators -/

section Placement

variable [DecidableEq α] {isDigit : α → Bool} {sep : α} {w : List α} {c : α} {after : Bool}

@[simp]
theorem strip_nil : strip sep [] = [] := rfl

theorem strip_cons_of_ne (h : c ≠ sep) : strip sep (c :: w) = c :: strip sep w :=
  List.filter_cons_of_pos (by simpa using h)

@[simp]
theorem strip_cons_sep : strip sep (sep :: w) = strip sep w := List.filter_cons_of_neg (by simp)

@[simp]
theorem placed_nil : placed isDigit sep after [] = true := rfl

theorem placed_cons_of_ne (h : c ≠ sep) : placed isDigit sep after (c :: w) = placed isDigit sep (isDigit c) w := by
  simp [placed, h]

theorem placed_cons_sep (hsep : isDigit sep = false) :
    placed isDigit sep after (sep :: w) = (after && w.head?.any isDigit && placed isDigit sep false w) := by
  simp [placed, hsep]

/-- The check sees the text before it only at a separator. -/
theorem placed_of_head (h : w.head? ≠ some sep) (after' : Bool) :
    placed isDigit sep after w = placed isDigit sep after' w := by
  cases w with
  | nil => rfl
  | cons c w =>
    have hc : c ≠ sep := fun hc => h (congrArg some hc)
    rw [placed_cons_of_ne hc, placed_cons_of_ne hc]

omit [DecidableEq α] in
theorem ne_sep_of_isDigit (hsep : isDigit sep = false) (h : isDigit c = true) : c ≠ sep := by
  rintro rfl
  rw [hsep] at h
  cases h

/-- A checked text does not start with a separator. -/
theorem head_of_placed (h : placed isDigit sep false w = true) : w.head? ≠ some sep := by
  cases w with
  | nil => nofun
  | cons c w =>
    rintro ⟨⟩
    simp [placed] at h

/-- The check depends on what counts as a digit in the text only. -/
theorem placed_congr {isDigit' : α → Bool} (h : ∀ c ∈ w, isDigit c = isDigit' c) :
    placed isDigit sep after w = placed isDigit' sep after w := by
  induction w generalizing after with
  | nil => rfl
  | cons c w ih =>
    have hhead : w.head?.any isDigit = w.head?.any isDigit' := by
      cases w with
      | nil => rfl
      | cons d w => exact h d (by simp)
    rw [placed, placed, hhead, h c List.mem_cons_self, ih fun d hd => h d (List.mem_cons_of_mem _ hd)]

/-- The check passes on both sides of what is neither a digit nor a separator. -/
theorem placed_append_cons {w' : List α} (hsep : isDigit sep = false) (hne : c ≠ sep) (hc : isDigit c = false) :
    placed isDigit sep after (w ++ c :: w') = (placed isDigit sep after w && placed isDigit sep false w') := by
  induction w generalizing after with
  | nil => rw [List.nil_append, placed_cons_of_ne hne, hc, placed_nil, Bool.true_and]
  | cons a w ih =>
    rw [List.cons_append]
    by_cases ha : a = sep
    · subst ha
      have hhead : (w ++ c :: w').head?.any isDigit = w.head?.any isDigit := by
        cases w with
        | nil => simp [hc]
        | cons b w => rfl
      simp only [placed_cons_sep hsep, ih, hhead, Bool.and_assoc]
    · rw [placed_cons_of_ne ha, placed_cons_of_ne ha, ih]

/-- What is no digit follows no separator, so that it stands first in a checked text where it stands first without the
separators. -/
theorem strip_eq_cons {t : List α} (hsep : isDigit sep = false) (h : placed isDigit sep after w = true)
    (hc : isDigit c = false) (hw : strip sep w = c :: t) :
    ∃ w', w = c :: w' ∧ strip sep w' = t ∧ placed isDigit sep false w' = true := by
  cases w with
  | nil => cases hw
  | cons a w =>
    by_cases ha : a = sep
    · -- the character after the separator is a digit, and so not `c`
      subst ha
      rw [placed_cons_sep hsep] at h
      simp only [Bool.and_eq_true, Option.any_eq_true] at h
      obtain ⟨⟨_, d, hd, hdigit⟩, _⟩ := h
      obtain ⟨w, rfl⟩ := List.head?_eq_some_iff.mp hd
      rw [strip_cons_sep, strip_cons_of_ne (ne_sep_of_isDigit hsep hdigit)] at hw
      rw [← (List.cons.inj hw).1, hdigit] at hc
      cases hc
    · rw [strip_cons_of_ne ha] at hw
      obtain ⟨rfl, ht⟩ := List.cons.inj hw
      rw [placed_cons_of_ne ha, hc] at h
      exact ⟨w, rfl, ht, h⟩

/-- The first character of a checked text is first without the separators, digit or not. -/
theorem strip_eq_cons_of_first {t : List α} (h : placed isDigit sep false w = true)
    (hw : strip sep w = c :: t) :
    ∃ w', w = c :: w' ∧ strip sep w' = t ∧ placed isDigit sep (isDigit c) w' = true := by
  cases w with
  | nil => cases hw
  | cons a w =>
    have ha : a ≠ sep := fun ha => head_of_placed h (congrArg some ha)
    rw [strip_cons_of_ne ha] at hw
    obtain ⟨rfl, ht⟩ := List.cons.inj hw
    rw [placed_cons_of_ne ha] at h
    exact ⟨w, rfl, ht, h⟩

end Placement

/-! ## Reading without the separators -/

section Reading

variable [DecidableEq α] {digit : α → Option ℕ} {sep : α} {w : List α} {ds ds' : List ℕ}

omit [DecidableEq α] in
theorem ne_sep_of_digit {c : α} {d : ℕ} (hsep : digit sep = none) (h : digit c = some d) : c ≠ sep := by
  rintro rfl
  rw [hsep] at h
  cases h

/-- The separators of a run pass the check, whatever stands before it. -/
theorem Spells.placed (h : Spells digit sep w ds) (hsep : digit sep = none) (after : Bool) :
    placed (fun c => (digit c).isSome) sep after w = true := by
  induction h generalizing after with
  | last hc => rw [placed_cons_of_ne (ne_sep_of_digit hsep hc), placed_nil]
  | next hc _ ih => rw [placed_cons_of_ne (ne_sep_of_digit hsep hc), ih]
  | skip hc rest ih =>
    obtain ⟨c', hhead, hdigit⟩ := rest.head
    rw [placed_cons_of_ne (ne_sep_of_digit hsep hc), placed_cons_sep (by simp [hsep]), ih, hc, Option.mem_def.mp hhead]
    simpa using hdigit

/-- Without its separators a run reads as its digits. -/
theorem Spells.mapM (h : Spells digit sep w ds) (hsep : digit sep = none) : (strip sep w).mapM digit = some ds := by
  induction h with
  | last hc => simp [strip_cons_of_ne (ne_sep_of_digit hsep hc), hc]
  | next hc _ ih => simp [strip_cons_of_ne (ne_sep_of_digit hsep hc), hc, ih]
  | skip hc _ ih => simp [strip_cons_of_ne (ne_sep_of_digit hsep hc), hc, ih]

omit [DecidableEq α] in
/-- A text that reads as digits has nothing else in it. -/
theorem exists_of_mapM {t : List α} (h : t.mapM digit = some ds) {c : α} (hc : c ∈ t) : ∃ d ∈ ds, digit c = some d := by
  induction t generalizing ds with
  | nil => cases hc
  | cons a t ih =>
    simp only [List.mapM_cons, Option.bind_eq_bind, Option.bind_eq_some_iff, Option.pure_def, Option.some.injEq] at h
    obtain ⟨d, hd, es, hes, rfl⟩ := h
    rcases List.mem_cons.mp hc with rfl | hc
    · exact ⟨d, List.mem_cons_self, hd⟩
    · obtain ⟨e, he, heq⟩ := ih hes hc
      exact ⟨e, List.mem_cons_of_mem _ he, heq⟩

/-- A checked text that reads as digits is a run of them. -/
theorem spells_of_placed (hsep : digit sep = none) :
    ∀ (w : List α) (ds : List ℕ), w ≠ [] → placed (fun c => (digit c).isSome) sep false w = true →
      (strip sep w).mapM digit = some ds → Spells digit sep w ds
  | [], _, hne, _, _ => absurd rfl hne
  | c :: w, ds, _, hplaced, hread => by
    have hc : c ≠ sep := fun hc => head_of_placed hplaced (congrArg some hc)
    rw [placed_cons_of_ne hc] at hplaced
    simp only [strip_cons_of_ne hc, List.mapM_cons, Option.bind_eq_bind, Option.bind_eq_some_iff, Option.pure_def,
      Option.some.injEq] at hread
    obtain ⟨d, hd, ds, hds, rfl⟩ := hread
    match w, hplaced, hds with
    | [], _, hds =>
      cases hds
      exact .last hd
    | a :: w, hplaced, hds =>
      by_cases ha : a = sep
      · -- one separator, and then a digit
        rw [ha] at hplaced hds ⊢
        rw [placed_cons_sep (by simp [hsep])] at hplaced
        simp only [Bool.and_eq_true, Option.any_eq_true] at hplaced
        obtain ⟨⟨_, b, hb, _⟩, hrest⟩ := hplaced
        have hw : w ≠ [] := by
          rintro rfl
          cases hb
        exact .skip hd (spells_of_placed hsep w ds hw hrest (by rwa [strip_cons_sep] at hds))
      · refine .next hd (spells_of_placed hsep (a :: w) ds (List.cons_ne_nil _ _) ?_ hds)
        have hhead : (a :: w).head? ≠ some sep := fun h => ha (Option.some.inj h)
        rw [placed_of_head hhead (digit c).isSome]
        exact hplaced

/-- A reader that checks the separators and reads what is left without them reads the runs. -/
theorem spells_iff (hsep : digit sep = none) :
    Spells digit sep w ds ↔ placed (fun c => (digit c).isSome) sep false w = true ∧ w ≠ [] ∧
      (strip sep w).mapM digit = some ds :=
  ⟨fun h => ⟨h.placed hsep false, h.ne_nil, h.mapM hsep⟩, fun h => spells_of_placed hsep w ds h.2.1 h.1 h.2.2⟩

/-- A checked run of digits and separators spells some digits. -/
theorem exists_spells (hsep : digit sep = none) (hne : w ≠ [])
    (hplaced : placed (fun c => (digit c).isSome) sep false w = true) (hmem : ∀ c ∈ w, c = sep ∨ (digit c).isSome) :
    ∃ ds, Spells digit sep w ds := by
  have hread : ∀ t : List α, (∀ c ∈ t, (digit c).isSome) → ∃ ds, t.mapM digit = some ds := by
    intro t ht
    induction t with
    | nil => exact ⟨[], rfl⟩
    | cons c t ih =>
      obtain ⟨d, hd⟩ := Option.isSome_iff_exists.mp (ht c List.mem_cons_self)
      obtain ⟨ds, hds⟩ := ih fun c hc => ht c (List.mem_cons_of_mem _ hc)
      exact ⟨d :: ds, by simp [hd, hds]⟩
  obtain ⟨ds, hds⟩ := hread (strip sep w) fun c hc => by
    obtain ⟨hc, hkept⟩ := List.mem_filter.mp hc
    exact (hmem c hc).resolve_left (by simpa using hkept)
  exact ⟨ds, (spells_iff hsep).mpr ⟨hplaced, hne, hds⟩⟩

theorem Spells.unique (h : Spells digit sep w ds) (h' : Spells digit sep w ds') (hsep : digit sep = none) :
    ds = ds' :=
  Option.some.inj ((h.mapM hsep).symm.trans (h'.mapM hsep))

end Reading

end Numerals
