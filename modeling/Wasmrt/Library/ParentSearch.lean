import Mathlib.Data.BitVec
import Mathlib.Data.FinEnum
import Mathlib.Tactic.Common

/-!
# Searching a parent chain

A forest given by a partial parent function, and the loop that walks from a node towards the root
until a test succeeds. The loop carries fuel; when a rank drops along every parent link, any fuel
above the rank of the starting node gives the same answer.

## Main definitions

* `Descending rank parent`: every parent has a smaller rank.
* `Ancestor parent a b`: `b` is reached from `a` by parent links.
* `search parent p fuel c`: does the walk from `c` meet a node satisfying `p`?
* `Below parent key a b`: some ancestor of `a` has the key of `b`.

## Main results

* `search_iff`: with enough fuel the search succeeds iff some ancestor satisfies `p`.
* `search_congr_map`: a map that commutes with the parent functions and with the tests preserves
  the verdict of the search.
* `Below.trans`, `Below.key_eq`: where nodes with one key have parents with one key, being below is a
  partial order of the keys.
-/

namespace ParentSearch

variable {α β : Type*}

/-- Every parent has a smaller rank than its child. -/
def Descending (rank : α → ℕ) (parent : α → Option α) : Prop :=
  ∀ ⦃c s⦄, parent c = some s → rank s < rank c

/-- `b` is `a` or reached from it by parent links. -/
abbrev Ancestor (parent : α → Option α) : α → α → Prop :=
  Relation.ReflTransGen (fun a b => parent a = some b)

/-- Walk from `c` towards the root until `p` holds. -/
def search (parent : α → Option α) (p : α → Bool) : ℕ → α → Bool
  | 0, _ => false
  | fuel + 1, c => p c || (parent c).any (search parent p fuel)

section Rules

variable {rank : α → ℕ} {parent : α → Option α} {p : α → Bool}

/-- A search that succeeds has met an ancestor satisfying the test, whatever the fuel. -/
theorem exists_of_search {n : ℕ} {c : α} (h : search parent p n c = true) :
    ∃ d, Ancestor parent c d ∧ p d = true := by
  induction n generalizing c with
  | zero => simp [search] at h
  | succ n ih =>
    rw [search, Bool.or_eq_true] at h
    rcases h with h | h
    · exact ⟨c, .refl, h⟩
    · cases hs : parent c with
      | none => simp [hs] at h
      | some s =>
        obtain ⟨d, hd, hp⟩ := ih (by simpa [hs] using h)
        exact ⟨d, .head hs hd, hp⟩

/-- With fuel above the rank of the start, an ancestor satisfying the test is met. -/
theorem search_of_ancestor (hdesc : Descending rank parent) {c d : α} (hcd : Ancestor parent c d)
    (hp : p d = true) {n : ℕ} (hn : rank c < n) : search parent p n c = true := by
  induction hcd using Relation.ReflTransGen.head_induction_on generalizing n with
  | refl =>
    obtain ⟨n, rfl⟩ := Nat.exists_eq_succ_of_ne_zero (by omega : n ≠ 0)
    simp [search, hp]
  | @head a b hab hbd ih =>
    obtain ⟨n, rfl⟩ := Nat.exists_eq_succ_of_ne_zero (by omega : n ≠ 0)
    have hlt : rank b < rank a := hdesc hab
    simp [search, hab, ih (n := n) (by omega)]

/-- With enough fuel the search succeeds iff some ancestor satisfies the test. -/
theorem search_iff (hdesc : Descending rank parent) {n : ℕ} {c : α} (hn : rank c < n) :
    search parent p n c = true ↔ ∃ d, Ancestor parent c d ∧ p d = true := by
  refine ⟨exists_of_search, ?_⟩
  rintro ⟨d, hd, hp⟩
  exact search_of_ancestor hdesc hd hp hn

/-- An ancestor has no larger rank. -/
theorem Ancestor.rank_le (hdesc : Descending rank parent) {c d : α} (h : Ancestor parent c d) :
    rank d ≤ rank c := by
  induction h with
  | refl => exact Nat.le_refl _
  | tail _ hstep ih => exact Nat.le_trans (Nat.le_of_lt (hdesc hstep)) ih

/-- A predicate closed under parents holds of every ancestor. -/
theorem Ancestor.closed {P : α → Prop} (hP : ∀ ⦃c s⦄, P c → parent c = some s → P s) {c d : α}
    (h : Ancestor parent c d) (hc : P c) : P d := by
  induction h with
  | refl => exact hc
  | tail _ hstep ih => exact hP ih hstep

end Rules

/-- Two searches agree when a map between the nodes commutes with the parents and the tests. The
map need only be understood on a set of nodes closed under parents. -/
theorem search_congr_map {rank : α → ℕ} {rank' : β → ℕ} {parent : α → Option α}
    {parent' : β → Option β} {p : α → Bool} {p' : β → Bool} {P : α → Prop} (f : α → β)
    (hdesc : Descending rank parent) (hdesc' : Descending rank' parent')
    (hP : ∀ ⦃c s⦄, P c → parent c = some s → P s)
    (hparent : ∀ ⦃c⦄, P c → parent' (f c) = (parent c).map f)
    (htest : ∀ ⦃c⦄, P c → p' (f c) = p c) {n n' : ℕ} {c : α} (hc : P c) (hn : rank c < n)
    (hn' : rank' (f c) < n') : search parent' p' n' (f c) = search parent p n c := by
  induction n generalizing n' c with
  | zero => omega
  | succ n ih =>
    obtain ⟨n', rfl⟩ := Nat.exists_eq_succ_of_ne_zero (by omega : n' ≠ 0)
    rw [search, search, htest hc, hparent hc]
    cases hs : parent c with
    | none => rfl
    | some s =>
      have hlt : rank s < rank c := hdesc hs
      have hs' : parent' (f c) = some (f s) := by rw [hparent hc, hs]; rfl
      have hlt' : rank' (f s) < rank' (f c) := hdesc' hs'
      simp only [Option.map_some, Option.any_some]
      rw [ih (hP hc hs) (by omega) (by omega)]

/-! ## The order of the keys -/

section Keys

variable {κ : Type*} {parent : α → Option α} {key : α → κ}

/-- Some ancestor of `a` has the key of `b`. -/
def Below (parent : α → Option α) (key : α → κ) (a b : α) : Prop :=
  ∃ c, Ancestor parent a c ∧ key c = key b

/-- Nodes with one key have parents with one key. -/
def RespectsKey (parent : α → Option α) (key : α → κ) : Prop :=
  ∀ ⦃a b⦄, key a = key b → (parent a).map key = (parent b).map key

theorem Below.of_key_eq {a b : α} (h : key a = key b) : Below parent key a b := ⟨a, .refl, h⟩

theorem Below.of_ancestor {a b : α} (h : Ancestor parent a b) : Below parent key a b := ⟨b, h, rfl⟩

/-- The ancestors of two nodes with one key have the same keys. -/
theorem Ancestor.below (hkey : RespectsKey parent key) {a b c : α} (h : Ancestor parent a c)
    (hab : key a = key b) : Below parent key b c := by
  induction h using Relation.ReflTransGen.head_induction_on generalizing b with
  | refl => exact .of_key_eq hab.symm
  | @head a s has _ ih =>
    have hparent := hkey hab
    rw [has, Option.map_some, eq_comm, Option.map_eq_some_iff] at hparent
    obtain ⟨s', hbs, hs⟩ := hparent
    obtain ⟨d, hd, hdc⟩ := ih hs.symm
    exact ⟨d, .head hbs hd, hdc⟩

theorem Below.trans (hkey : RespectsKey parent key) {a b c : α} (hab : Below parent key a b)
    (hbc : Below parent key b c) : Below parent key a c := by
  obtain ⟨d, had, hdb⟩ := hab
  obtain ⟨e, hbe, hec⟩ := hbc
  obtain ⟨e', hde, he⟩ := hbe.below hkey hdb.symm
  exact ⟨e', had.trans hde, he.trans hec⟩

/-- Whether a node is below another depends on their keys only. -/
theorem below_congr (hkey : RespectsKey parent key) {a a' b b' : α} (ha : key a = key a')
    (hb : key b = key b') : Below parent key a b ↔ Below parent key a' b' :=
  ⟨fun h => (Below.of_key_eq ha.symm).trans hkey (h.trans hkey (.of_key_eq hb)),
    fun h => (Below.of_key_eq ha).trans hkey (h.trans hkey (.of_key_eq hb.symm))⟩

/-- No parent has the key of a node below it. -/
theorem RespectsKey.not_below_of_parent (hkey : RespectsKey parent key) {rank : α → ℕ}
    (hdesc : Descending rank parent) {a s : α} (has : parent a = some s) : ¬ Below parent key s a := by
  -- a node with the key of `a` above its parent has a parent of its own, of the same key as the first
  induction hrank : rank a using Nat.strongRecOn generalizing a s with
  | ind n ih =>
    subst hrank
    rintro ⟨e, hse, hea⟩
    have hparent := hkey hea
    rw [has, Option.map_some, Option.map_eq_some_iff] at hparent
    obtain ⟨t, het, hts⟩ := hparent
    rcases hse.cases_head with rfl | ⟨s', hss, hse⟩
    · exact ih _ (hdesc has) het rfl (.of_key_eq hts)
    · exact ih _ (hdesc has) hss rfl ⟨t, hse.tail het, hts⟩

/-- Two nodes below each other have one key. -/
theorem Below.key_eq (hkey : RespectsKey parent key) {rank : α → ℕ} (hdesc : Descending rank parent)
    {a b : α} (hab : Below parent key a b) (hba : Below parent key b a) : key a = key b := by
  obtain ⟨c, hac, hcb⟩ := hab
  rcases hac.cases_head with rfl | ⟨s, has, hsc⟩
  · exact hcb
  · exact absurd (Below.trans hkey ⟨c, hsc, hcb⟩ hba) (hkey.not_below_of_parent hdesc has)

end Keys

end ParentSearch
