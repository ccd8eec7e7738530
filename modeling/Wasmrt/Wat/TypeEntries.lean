import Wasmrt.Wat.Emit

/-!
# The entries of the type section

Before it reads the fields of a module, the assembler goes over the types in the text: it numbers them, and records where every
rec group starts and how long it is. When the types are written, it goes over their indices, and writes an entry for a group
where it finds that one starts, and an entry for every other type.

## Main definitions

* `recordTypes`: the types in the text, and the extents of the groups.
* `Recorded`: groups that do not overlap, one behind the other.

## Main results

* `mem_entries_recorded`: the entries are the types in their order, and which groups stay together.
-/

namespace Wasmrt.Wat

/-! ## Recording the groups -/

/-- The word at the front of a list. -/
def keyword : Sexpr → Option (List UInt8)
  | .list (.atom a :: _) _ => some a
  | _ => none

/-- `type` -/
def typeWord : List UInt8 := [0x74, 0x79, 0x70, 0x65]

/-- `rec` -/
def recWord : List UInt8 := [0x72, 0x65, 0x63]

/-- The type forms in a group. -/
def groupForms : Sexpr → List Sexpr
  | .list items _ => items.tail.filter fun t => decide (keyword t = some typeWord)
  | _ => []

/-- Record the types of a field: one, or a group with its extent. -/
def recordField (r : List Sexpr × List (ℕ × ℕ)) (field : Sexpr) : List Sexpr × List (ℕ × ℕ) :=
  if keyword field = some typeWord then (r.1 ++ [field], r.2)
  else if keyword field = some recWord then
    (r.1 ++ groupForms field, r.2 ++ [(r.1.length, (groupForms field).length)])
  else r

/-- The type forms of the fields, and the extents of the groups. -/
def recordTypes (fields : List Sexpr) : List Sexpr × List (ℕ × ℕ) := fields.foldl recordField ([], [])

/-- Groups among so many types, each behind those before it. -/
structure Recorded (n : ℕ) (groups : List (ℕ × ℕ)) : Prop where
  inOrder : groups.Pairwise fun g g' => g.1 + g.2 ≤ g'.1
  inRange : ∀ g ∈ groups, g.1 + g.2 ≤ n

namespace Recorded

variable {n n' : ℕ} {groups : List (ℕ × ℕ)} {g g' : ℕ × ℕ}

theorem mono (h : Recorded n groups) (hle : n ≤ n') : Recorded n' groups where
  inOrder := h.inOrder
  inRange g hg := (h.inRange g hg).trans hle

theorem recordField {r : List Sexpr × List (ℕ × ℕ)} (h : Recorded r.1.length r.2) (field : Sexpr) :
    Recorded (recordField r field).1.length (recordField r field).2 := by
  rw [Wat.recordField]
  split_ifs
  · apply h.mono
    rw [List.length_append]
    exact Nat.le_add_right _ _
  · have hmore : Recorded (r.1 ++ groupForms field).length r.2 := by
      apply h.mono
      rw [List.length_append]
      exact Nat.le_add_right _ _
    refine ⟨List.pairwise_append.mpr ⟨h.inOrder, List.pairwise_singleton _ _, fun g hg g' hg' => ?_⟩, fun g hg => ?_⟩
    · -- the new group starts where the types have ended
      rw [List.mem_singleton.mp hg']
      exact h.inRange g hg
    · rcases List.mem_append.mp hg with hg | hg
      · exact hmore.inRange g hg
      · rw [List.mem_singleton.mp hg, List.length_append]
  · exact h

theorem recordTypes (fields : List Sexpr) : Recorded (recordTypes fields).1.length (recordTypes fields).2 := by
  have hfold (r : List Sexpr × List (ℕ × ℕ)) (h : Recorded r.1.length r.2) :
      Recorded (fields.foldl Wat.recordField r).1.length (fields.foldl Wat.recordField r).2 := by
    induction fields generalizing r with
    | nil => exact h
    | cons field fields ih => exact ih _ (h.recordField field)
  exact hfold _ ⟨.nil, List.forall_mem_nil _⟩

/-- Of two groups, one is behind the other. -/
theorem apart (h : Recorded n groups) (hg : g ∈ groups) (hg' : g' ∈ groups) :
    g = g' ∨ g.1 + g.2 ≤ g'.1 ∨ g'.1 + g'.2 ≤ g.1 := by
  let R (g g' : ℕ × ℕ) : Prop := g = g' ∨ g.1 + g.2 ≤ g'.1 ∨ g'.1 + g'.2 ≤ g.1
  have hforth : groups.Pairwise R := h.inOrder.imp fun hle => .inr (.inl hle)
  have hback : groups.Pairwise (flip R) := h.inOrder.imp fun hle => .inr (.inr hle)
  exact List.Pairwise.forall_of_forall_of_flip (fun _ _ => .inl rfl) hforth hback hg hg'

/-- The group that is found at an index is the one there, unless an empty group starts there too: that one comes first. -/
theorem find?_eq_some (h : Recorded n groups) {s len : ℕ} (hlen : 0 < len) :
    groups.find? (·.1 = s) = some (s, len) ↔ (s, len) ∈ groups ∧ (s, 0) ∉ groups := by
  constructor
  · intro hfind
    refine ⟨List.mem_of_find?_eq_some hfind, fun hempty => ?_⟩
    obtain ⟨-, before, behind, heq, hbefore⟩ := List.find?_eq_some_iff_append.mp hfind
    have horder := h.inOrder
    rw [heq] at hempty horder
    rcases List.mem_append.mp hempty with hmem | hmem
    · have hnot := hbefore _ hmem
      simp at hnot
    · rcases List.mem_cons.mp hmem with hsame | hmem
      · cases hsame
        exact Nat.lt_irrefl 0 hlen
      · -- a group behind a group that is not empty starts later
        have hle := (List.pairwise_cons.mp (List.pairwise_append.mp horder).2.1).1 _ hmem
        simp only at hle
        omega
  · rintro ⟨hmem, hempty⟩
    cases hfind : groups.find? (·.1 = s) with
    | none =>
      have hnone := List.find?_eq_none.mp hfind _ hmem
      simp at hnone
    | some g =>
      obtain ⟨s', len'⟩ := g
      have hmem' := List.mem_of_find?_eq_some hfind
      obtain rfl : s' = s := by simpa using List.find?_some hfind
      have hpos : len' ≠ 0 := by
        rintro rfl
        exact hempty hmem'
      rcases h.apart hmem' hmem with heq | hle | hle
      · rw [heq]
      · simp only at hle
        omega
      · simp only at hle
        omega

end Recorded

/-! ## The walk over the types -/

namespace ModuleBuild

variable {b : ModuleBuild} {steps i s len : ℕ} {e : TypeEntry}

/-- A step of the walk: an entry that starts here, a group if one that is not empty has been found, and the walk behind it. -/
theorem entriesFrom_succ (steps : ℕ) (hi : i < b.types.length) : ∃ e : TypeEntry,
    b.entriesFrom (steps + 1) i = e :: b.entriesFrom steps (i + e.len) ∧ e.start = i ∧ 0 < e.len ∧
      ((e.explicit = true ∧ b.recGroups.find? (·.1 = i) = some (i, e.len)) ∨
        (e.explicit = false ∧ e.len = 1 ∧ ∀ len, b.recGroups.find? (·.1 = i) = some (i, len) → len = 0)) := by
  rw [entriesFrom, if_pos hi]
  split
  · next s len hfind =>
    obtain rfl : s = i := by simpa using List.find?_some hfind
    split_ifs with hlen
    · exact ⟨⟨s, len, true⟩, rfl, rfl, hlen, .inl ⟨rfl, hfind⟩⟩
    · refine ⟨⟨s, 1, false⟩, rfl, rfl, Nat.one_pos, .inr ⟨rfl, rfl, fun len' hfind' => ?_⟩⟩
      cases hfind.symm.trans hfind'
      exact Nat.eq_zero_of_not_pos hlen
  · next hfind =>
    refine ⟨⟨i, 1, false⟩, rfl, rfl, Nat.one_pos, .inr ⟨rfl, rfl, fun len' hfind' => ?_⟩⟩
    cases hfind.symm.trans hfind'

theorem entriesFrom_of_le (hi : b.types.length ≤ i) : b.entriesFrom steps i = [] := by
  cases steps with
  | zero => rfl
  | succ steps => rw [entriesFrom, if_neg (Nat.not_lt.mpr hi)]

/-- The entries are the types from an index on. -/
theorem flatMap_entriesFrom (h : Recorded b.types.length b.recGroups) (hsteps : b.types.length ≤ i + steps) :
    (b.entriesFrom steps i).flatMap (fun e => List.range' e.start e.len) = List.range' i (b.types.length - i) := by
  induction steps generalizing i with
  | zero =>
    rw [Nat.add_zero] at hsteps
    rw [Nat.sub_eq_zero_of_le hsteps]
    rfl
  | succ steps ih =>
    by_cases hi : i < b.types.length
    · obtain ⟨e, hwalk, hstart, hpos, hkind⟩ := entriesFrom_succ steps hi
      have hfits : i + e.len ≤ b.types.length := by
        rcases hkind with ⟨-, hfind⟩ | ⟨-, hone, -⟩
        · exact h.inRange _ (List.mem_of_find?_eq_some hfind)
        · omega
      rw [hwalk, List.flatMap_cons, ih (by omega), hstart, List.range'_append_1]
      congr 1
      omega
    · rw [entriesFrom_of_le (Nat.not_lt.mp hi), Nat.sub_eq_zero_of_le (Nat.not_lt.mp hi)]
      rfl

/-- An entry of a group is one that has been found. -/
theorem find?_of_mem_entriesFrom (he : e ∈ b.entriesFrom steps i) (hexplicit : e.explicit = true) :
    0 < e.len ∧ b.recGroups.find? (·.1 = e.start) = some (e.start, e.len) := by
  induction steps generalizing i with
  | zero => cases he
  | succ steps ih =>
    by_cases hi : i < b.types.length
    · obtain ⟨e', hwalk, hstart, hpos, hkind⟩ := entriesFrom_succ steps hi
      rw [hwalk] at he
      rcases List.mem_cons.mp he with rfl | he
      · rcases hkind with ⟨-, hfind⟩ | ⟨hsingle, -⟩
        · rw [hstart]
          exact ⟨hpos, hfind⟩
        · cases hexplicit.symm.trans hsingle
      · exact ih he
    · rw [entriesFrom_of_le (Nat.not_lt.mp hi)] at he
      cases he

/-- A group that is found where it starts has an entry: the walk comes by, since no entry before it reaches into it. -/
theorem mem_entriesFrom (h : Recorded b.types.length b.recGroups) (hlen : 0 < len)
    (hfind : b.recGroups.find? (·.1 = s) = some (s, len)) (his : i ≤ s) (hsteps : b.types.length ≤ i + steps) :
    (⟨s, len, true⟩ : TypeEntry) ∈ b.entriesFrom steps i := by
  have hmem := List.mem_of_find?_eq_some hfind
  have hrange := h.inRange _ hmem
  simp only at hrange
  induction steps generalizing i with
  | zero => omega
  | succ steps ih =>
    obtain ⟨⟨start, len', explicit⟩, hwalk, hstart, hpos, hkind⟩ := entriesFrom_succ (b := b) (i := i) steps (by omega)
    simp only at hstart hpos hkind
    rw [hwalk, List.mem_cons]
    rcases his.eq_or_lt with rfl | hlt
    · -- the walk has come to the start of the group
      refine .inl ?_
      rcases hkind with ⟨rfl, hfind'⟩ | ⟨-, -, hnone⟩
      · cases hfind.symm.trans hfind'
        rw [hstart]
      · exact absurd (hnone len hfind) hlen.ne'
    · refine .inr (ih ?_ (by simp only; omega))
      simp only
      rcases hkind with ⟨-, hfind'⟩ | ⟨-, rfl, -⟩
      · rcases h.apart (List.mem_of_find?_eq_some hfind') hmem with heq | hle | hle
        · cases heq
          exact absurd hlt (Nat.lt_irrefl _)
        · exact hle
        · simp only at hle
          omega
      · exact hlt

end ModuleBuild

/-- The entries of the type section, for the groups that are recorded from the text, whatever types have been added behind those
in the text: together they are all types in their order; an entry of a group is a group of the text; and a group of the text
that is not empty has an entry just if no empty group stands right before it. -/
theorem mem_entries_recorded {b : ModuleBuild} (fields : List Sexpr) (hgroups : b.recGroups = (recordTypes fields).2)
    (htypes : (recordTypes fields).1.length ≤ b.types.length) :
    b.entries.flatMap (fun e => List.range' e.start e.len) = List.range b.types.length ∧
    (∀ e ∈ b.entries, e.explicit = true → (e.start, e.len) ∈ b.recGroups) ∧
    ∀ s len, (s, len) ∈ b.recGroups → 0 < len →
      ((⟨s, len, true⟩ : ModuleBuild.TypeEntry) ∈ b.entries ↔ (s, 0) ∉ b.recGroups) := by
  have hrecorded : Recorded b.types.length b.recGroups := hgroups ▸ (Recorded.recordTypes fields).mono htypes
  refine ⟨?_, fun e he hexplicit => ?_, fun s len hmem hlen => ⟨fun he => ?_, fun hempty => ?_⟩⟩
  · rw [ModuleBuild.entries, ModuleBuild.flatMap_entriesFrom hrecorded (Nat.le_add_left _ _), List.range_eq_range', Nat.sub_zero]
  · exact List.mem_of_find?_eq_some (ModuleBuild.find?_of_mem_entriesFrom he hexplicit).2
  · exact ((hrecorded.find?_eq_some hlen).mp (ModuleBuild.find?_of_mem_entriesFrom he rfl).2).2
  · exact ModuleBuild.mem_entriesFrom hrecorded hlen ((hrecorded.find?_eq_some hlen).mpr ⟨hmem, hempty⟩) (Nat.zero_le s)
      (Nat.le_add_left _ _)

/-- `(rec) (rec (type …) (type …))`: the second group is taken apart. -/
def emptyGroupFields : List Sexpr :=
  [.list [.atom recWord] [], .list [.atom recWord, .list [.atom typeWord] [], .list [.atom typeWord] []] []]

def emptyGroupBuild : ModuleBuild where
  types := [.func ⟨[], []⟩, .func ⟨[], []⟩]
  recGroups := [(0, 0), (0, 2)]

theorem mem_entries_emptyGroup :
    emptyGroupBuild.entries.flatMap (fun e => List.range' e.start e.len) = List.range 2 ∧
    (∀ e ∈ emptyGroupBuild.entries, e.explicit = true → (e.start, e.len) ∈ emptyGroupBuild.recGroups) ∧
    ∀ s len, (s, len) ∈ emptyGroupBuild.recGroups → 0 < len →
      ((⟨s, len, true⟩ : ModuleBuild.TypeEntry) ∈ emptyGroupBuild.entries ↔ (s, 0) ∉ emptyGroupBuild.recGroups) :=
  mem_entries_recorded emptyGroupFields (by decide) (by decide)

end Wasmrt.Wat
