import Mathlib.Data.BitVec
import Mathlib.Data.FinEnum
import Mathlib.Order.Nat
import Mathlib.Tactic.Common

/-!
# Ledgers

Entries are installed at keys, moved from one key to another and closed. A ledger says which entry each key means, and
tells entries apart by the order in which they were installed, so that it can be said that no entry is at two keys and
that none is lost.

## Main definitions

* `Ledger`: the entry at each key, how many were installed, and which were closed.
* `Ledger.install`, `Ledger.remove`, `Ledger.move`, `Ledger.modifyAt`: what happens to entries.
* `Ledger.Sound`: no entry is at two keys, and every entry is at one until it is closed.

## Main results

* `Ledger.Sound.install`, `Ledger.Sound.remove`, `Ledger.Sound.move`, `Ledger.Sound.modifyAt`: a ledger stays sound.
-/

universe u v

/-- The entry that was last installed at each key, with its place in the order of installation. -/
structure Ledger (κ : Type u) (α : Type v) where
  entry : κ → Option (ℕ × α)
  /-- How many entries were installed. -/
  next : ℕ
  closed : List ℕ

namespace Ledger

variable {κ : Type u} {α : Type v}

/-- No entry yet. -/
def empty : Ledger κ α := ⟨fun _ => none, 0, []⟩

/-- What a key means. -/
def get (l : Ledger κ α) (k : κ) : Option α := (l.entry k).map Prod.snd

/-- The place of the entry at a key in the order of installation. -/
def place (l : Ledger κ α) (k : κ) : Option ℕ := (l.entry k).map Prod.fst

/-- Change the entry at a key. It remains the same entry. -/
def modifyAt (l : Ledger κ α) (p : κ → Prop) [DecidablePred p] (f : α → α) : Ledger κ α :=
  { l with entry k := if p k then (l.entry k).map (Prod.map id f) else l.entry k }

variable [DecidableEq κ]

/-- Install a new entry at a key. -/
def install (l : Ledger κ α) (k : κ) (a : α) : Ledger κ α where
  entry j := if j = k then some (l.next, a) else l.entry j
  next := l.next + 1
  closed := l.closed

/-- Close a key. -/
def remove (l : Ledger κ α) (k : κ) : Ledger κ α where
  entry j := if j = k then none else l.entry j
  next := l.next
  closed := (l.place k).toList ++ l.closed

/-- Move the entry of a key to another key, whose own entry is closed. -/
def move (l : Ledger κ α) (k i : κ) : Ledger κ α :=
  if k = i then l
  else {
    entry := fun j => if j = i then l.entry k else if j = k then none else l.entry j
    next := l.next
    closed := (l.place i).toList ++ l.closed }

/-! ## What keys mean afterwards -/

theorem get_install (l : Ledger κ α) (k : κ) (a : α) (j : κ) :
    (l.install k a).get j = if j = k then some a else l.get j := by
  simp only [get, install]
  split_ifs <;> rfl

theorem get_remove (l : Ledger κ α) (k j : κ) : (l.remove k).get j = if j = k then none else l.get j := by
  simp only [get, remove]
  split_ifs <;> rfl

theorem get_move (l : Ledger κ α) (k i j : κ) :
    (l.move k i).get j = if j = i then l.get k else if j = k then none else l.get j := by
  rw [move]
  split_ifs with hki hji hjk hji hjk
  · rw [hki, hji]
  · exact absurd (hjk.trans hki) hji
  · rfl
  · simp only [get, hji, if_true]
  · simp only [get, hjk, if_neg hki, if_true, Option.map_none]
  · simp only [get, if_neg hji, if_neg hjk]

omit [DecidableEq κ] in
theorem get_modifyAt (l : Ledger κ α) (p : κ → Prop) [DecidablePred p] (f : α → α) (j : κ) :
    (l.modifyAt p f).get j = if p j then (l.get j).map f else l.get j := by
  simp only [get, modifyAt]
  split_ifs
  · cases l.entry j <;> rfl
  · rfl

/-! ## Sound ledgers -/

/-- No entry is at two keys, and every entry is at one until it is closed. -/
structure Sound (l : Ledger κ α) : Prop where
  unique : ∀ {j k n}, l.place j = some n → l.place k = some n → j = k
  kept : ∀ n, n < l.next ↔ n ∈ l.closed ∨ ∃ k, l.place k = some n
  apart : ∀ {n k}, n ∈ l.closed → l.place k ≠ some n

omit [DecidableEq κ] in
theorem sound_empty : (empty : Ledger κ α).Sound where
  unique h := by cases h
  kept n := ⟨fun h => absurd h (Nat.not_lt_zero n), fun h => by
    rcases h with h | ⟨k, h⟩
    · cases h
    · cases h⟩
  apart h := by cases h

theorem place_install (l : Ledger κ α) (k : κ) (a : α) (j : κ) :
    (l.install k a).place j = if j = k then some l.next else l.place j := by
  simp only [place, install]
  split_ifs <;> rfl

theorem place_remove (l : Ledger κ α) (k j : κ) : (l.remove k).place j = if j = k then none else l.place j := by
  simp only [place, remove]
  split_ifs <;> rfl

theorem place_move (l : Ledger κ α) {k i : κ} (hki : k ≠ i) (j : κ) :
    (l.move k i).place j = if j = i then l.place k else if j = k then none else l.place j := by
  rw [move, if_neg hki]
  simp only [place]
  split_ifs <;> rfl

omit [DecidableEq κ] in
theorem place_modifyAt (l : Ledger κ α) (p : κ → Prop) [DecidablePred p] (f : α → α) (j : κ) :
    (l.modifyAt p f).place j = l.place j := by
  simp only [place, modifyAt]
  split_ifs
  · cases l.entry j <;> rfl
  · rfl

namespace Sound

variable {l : Ledger κ α}

omit [DecidableEq κ] in
theorem lt_next (h : l.Sound) {k : κ} {n : ℕ} (hk : l.place k = some n) : n < l.next := (h.kept n).mpr (.inr ⟨k, hk⟩)

/-- A key without an entry takes a new one. -/
theorem install (h : l.Sound) {k : κ} (hk : l.place k = none) (a : α) : (l.install k a).Sound where
  unique {i j n} hi hj := by
    rw [place_install] at hi hj
    split_ifs at hi hj with h₁ h₂ h₂
    · exact h₁.trans h₂.symm
    · cases hi
      exact absurd (h.lt_next hj) (lt_irrefl _)
    · cases hj
      exact absurd (h.lt_next hi) (lt_irrefl _)
    · exact h.unique hi hj
  kept n := by
    have hlast : n < l.next + 1 ↔ n < l.next ∨ n = l.next := by omega
    rw [show (l.install k a).next = l.next + 1 from rfl, hlast, h.kept n, or_assoc]
    refine or_congr_right ⟨?_, ?_⟩
    · rintro (⟨j, hj⟩ | rfl)
      · refine ⟨j, ?_⟩
        rw [place_install, if_neg, hj]
        rintro rfl
        rw [hk] at hj
        cases hj
      · exact ⟨k, by rw [place_install, if_pos rfl]⟩
    · rintro ⟨j, hj⟩
      rw [place_install] at hj
      split_ifs at hj
      · exact .inr (Option.some.inj hj).symm
      · exact .inl ⟨j, hj⟩
  apart {n j} hn hj := by
    rw [place_install] at hj
    split_ifs at hj
    · cases hj
      exact absurd ((h.kept _).mpr (.inl hn)) (lt_irrefl _)
    · exact h.apart hn hj

/-- The entry at a key is closed. -/
theorem remove (h : l.Sound) (k : κ) : (l.remove k).Sound where
  unique {i j n} hi hj := by
    rw [place_remove] at hi hj
    split_ifs at hi hj
    exact h.unique hi hj
  kept n := by
    rw [show (l.remove k).next = l.next from rfl, h.kept n]
    constructor
    · rintro (hn | ⟨j, hj⟩)
      · exact .inl (List.mem_append_right _ hn)
      · by_cases hjk : j = k
        · exact .inl (List.mem_append_left _ (Option.mem_toList.mpr (hjk ▸ hj)))
        · exact .inr ⟨j, by rw [place_remove, if_neg hjk, hj]⟩
    · rintro (hn | ⟨j, hj⟩)
      · rcases List.mem_append.mp hn with hn | hn
        · exact .inr ⟨k, Option.mem_toList.mp hn⟩
        · exact .inl hn
      · rw [place_remove] at hj
        split_ifs at hj
        exact .inr ⟨j, hj⟩
  apart {n j} hn hj := by
    rw [place_remove] at hj
    split_ifs at hj with hjk
    rcases List.mem_append.mp hn with hn | hn
    · exact hjk (h.unique hj (Option.mem_toList.mp hn))
    · exact h.apart hn hj

/-- An entry moves, and the one that was at its new key is closed. -/
theorem move (h : l.Sound) (k i : κ) : (l.move k i).Sound := by
  by_cases hki : k = i
  · rw [Ledger.move, if_pos hki]
    exact h
  have hclosed : (l.move k i).closed = (l.place i).toList ++ l.closed := by rw [Ledger.move, if_neg hki]
  have hnext : (l.move k i).next = l.next := by rw [Ledger.move, if_neg hki]
  refine ⟨fun {a b n} ha hb => ?_, fun n => ?_, fun {n j} hn hj => ?_⟩
  · rw [place_move l hki] at ha hb
    by_cases hai : a = i <;> by_cases hbi : b = i
    · exact hai.trans hbi.symm
    · rw [if_pos hai] at ha
      rw [if_neg hbi] at hb
      split_ifs at hb with hbk
      exact absurd (h.unique hb ha) hbk
    · rw [if_neg hai] at ha
      rw [if_pos hbi] at hb
      split_ifs at ha with hak
      exact absurd (h.unique ha hb) hak
    · rw [if_neg hai] at ha
      rw [if_neg hbi] at hb
      split_ifs at ha hb
      exact h.unique ha hb
  · rw [hnext, hclosed, h.kept n]
    constructor
    · rintro (hn | ⟨j, hj⟩)
      · exact .inl (List.mem_append_right _ hn)
      · by_cases hji : j = i
        · exact .inl (List.mem_append_left _ (Option.mem_toList.mpr (hji ▸ hj)))
        · by_cases hjk : j = k
          · exact .inr ⟨i, by rw [place_move l hki, if_pos rfl, ← hjk, hj]⟩
          · exact .inr ⟨j, by rw [place_move l hki, if_neg hji, if_neg hjk, hj]⟩
    · rintro (hn | ⟨j, hj⟩)
      · rcases List.mem_append.mp hn with hn | hn
        · exact .inr ⟨i, Option.mem_toList.mp hn⟩
        · exact .inl hn
      · rw [place_move l hki] at hj
        split_ifs at hj
        · exact .inr ⟨k, hj⟩
        · exact .inr ⟨j, hj⟩
  · rw [place_move l hki] at hj
    rw [hclosed] at hn
    rcases List.mem_append.mp hn with hn | hn
    · have hi := Option.mem_toList.mp hn
      split_ifs at hj with h₁ h₂
      · exact hki (h.unique hj hi)
      · exact h₁ (h.unique hj hi)
    · split_ifs at hj
      · exact h.apart hn hj
      · exact h.apart hn hj

omit [DecidableEq κ] in
theorem modifyAt (h : l.Sound) (p : κ → Prop) [DecidablePred p] (f : α → α) : (l.modifyAt p f).Sound where
  unique {i j n} hi hj := by
    rw [place_modifyAt] at hi hj
    exact h.unique hi hj
  kept n := by
    simp only [place_modifyAt]
    exact h.kept n
  apart {n j} hn hj := by
    rw [place_modifyAt] at hj
    exact h.apart hn hj

end Sound

end Ledger
