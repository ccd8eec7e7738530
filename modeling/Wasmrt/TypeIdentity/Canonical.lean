import Wasmrt.TypeIdentity.IsoEq

/-!
# Canonical type identity

`canonicalize` gives every type of a module the lowest type index of an equal type. Its table of
groups is keyed by rec-group keys, so the canonical indices decide iso-recursive equality within the
module, and the module-level subtype walk is a walk over equality classes.

## Main results

* `TypeSection.WellFormed.keyedBy_typeCanon`: `type_canon` is keyed by a table of disjoint blocks.
* `TypeSection.WellFormed.canonId_eq_iff`: canonical indices are equal iff the types are.
* `TypeSection.WellFormed.isSubtype_iff`: `is_subtype` is the declared supertype chain, up to type
  equality.
-/

namespace Wasmrt

/-- The base a table of serialised groups records for a structured key. -/
def baseIn (seen : List (List UInt8 × ℕ)) (k : GroupKey) : Option ℕ := seen.lookup k.bytes

/-- Recording a key changes the base of that key alone. -/
theorem baseIn_cons {seen : List (List UInt8 × ℕ)} {k k' : GroupKey} (hk : k.Fits) (hk' : k'.Fits)
    (n : ℕ) : baseIn ((k.bytes, n) :: seen) k' = if k' = k then some n else baseIn seen k' := by
  unfold baseIn
  rw [List.lookup_cons]
  by_cases h : k' = k
  · simp [h]
  · have hne : k'.bytes ≠ k.bytes := fun heq => h (GroupKey.bytes_injOn hk' hk heq)
    rw [if_neg h, beq_false_of_ne hne]

/-- What `canonicalize` has established after the groups `gs`. -/
private structure CanonInv (ts : TypeSection) (gs : List RecGroup)
    (st : List (List UInt8 × ℕ) × List ℕ) : Prop where
  groups : GroupsFrom 0 gs st.2.length
  table : BlockTable GroupKey.Fits List.length (baseIn st.1) st.2.length
  keyed : KeyedBy (baseIn st.1) ts gs st.2
  le : ∀ t c : ℕ, st.2[t]? = some c → c ≤ t

variable {ts : TypeSection}

private theorem CanonInv.lt {gs : List RecGroup} {st : List (List UInt8 × ℕ) × List ℕ}
    (h : CanonInv ts gs st) {c : ℕ} (hc : c ∈ st.2) : c < st.2.length := by
  obtain ⟨t, ht, rfl⟩ := List.mem_iff_getElem.mp hc
  have := h.le t _ (List.getElem?_eq_getElem ht)
  omega

private theorem CanonInv.fits {gs : List RecGroup} {st : List (List UInt8 × ℕ) × List ℕ}
    (hts : ts.WellFormed) (h : CanonInv ts gs st) (hcount : st.2.length ≤ ts.compTypes.length)
    {g : RecGroup} (hg : g ∈ ts.recGroups) (hlen : g.start ≤ st.2.length) :
    (ts.groupKey st.2 g).Fits := by
  refine hts.groupKey_fits hg hlen fun c hc => ?_
  have := h.lt hc
  have := hts.count_le
  omega

/-- Identities appended for a group whose base is at most its first index. -/
theorem le_append {ids : List ℕ} {b n : ℕ} (hle : ∀ t c : ℕ, ids[t]? = some c → c ≤ t)
    (hb : b ≤ ids.length) :
    ∀ t c : ℕ, (ids ++ (List.range n).map (b + ·))[t]? = some c → c ≤ t := by
  intro t c hc
  by_cases ht : t < ids.length
  · rw [List.getElem?_append_left ht] at hc
    exact hle t c hc
  · rw [List.getElem?_append_right (by omega)] at hc
    simp only [List.getElem?_map, Option.map_eq_some_iff] at hc
    obtain ⟨i, hi, rfl⟩ := hc
    obtain ⟨hlt, heq⟩ := List.getElem?_eq_some_iff.mp hi
    rw [List.getElem_range] at heq
    omega

/-- One round of `canonicalize`. -/
private theorem CanonInv.step (hts : ts.WellFormed) {gs : List RecGroup}
    {st : List (List UInt8 × ℕ) × List ℕ} (h : CanonInv ts gs st) {g : RecGroup}
    (hmem : ∀ g' ∈ gs ++ [g], g' ∈ ts.recGroups) (hg : g.start = st.2.length) :
    CanonInv ts (gs ++ [g]) (canonicalizeStep ts st g) := by
  have hgmem := hmem g (by simp)
  have hgb := hts.groupsFrom.bounds hgmem
  have hfits := h.fits hts (by omega) hgmem hg.le
  have hgroups : GroupsFrom 0 (gs ++ [g]) (st.2.length + g.len) :=
    h.groups.append ⟨hg, rfl⟩
  unfold canonicalizeStep
  rw [recGroupKey_eq_bytes]
  cases hb : baseIn st.1 (ts.groupKey st.2 g) with
  | some first =>
    rw [baseIn] at hb
    simp only [hb]
    have hfirst := h.table.below hfits hb
    rw [TypeSection.length_groupKey] at hfirst
    refine ⟨by simpa using hgroups, ?_, ?_, le_append h.le (by omega)⟩
    · exact ⟨fun k b hk hkb => by
        have := h.table.below hk hkb; simp; omega, h.table.disjoint⟩
    · exact h.keyed.snoc hts hmem h.groups hg (fun _ _ _ hb' => hb') hb
  | none =>
    have hb' := hb
    rw [baseIn] at hb'
    simp only [hb']
    refine ⟨by simpa using hgroups, ?_, ?_, le_append h.le hg.le⟩
    · refine h.table.insert (k := ts.groupKey st.2 g) ?_ (by simp)
      intro k' hk'
      rw [baseIn_cons hfits hk', hg]
    · refine h.keyed.snoc hts hmem h.groups hg ?_ ?_
      · intro g' hg' b hb'
        have hg'b := h.groups.bounds hg'
        have hg'fits := h.fits hts (by omega) (hmem g' (by simp [hg'])) (by omega)
        rw [baseIn_cons hfits hg'fits, if_neg, hb']
        rintro heq
        rw [heq, hb] at hb'
        cases hb'
      · rw [baseIn_cons hfits hfits, if_pos rfl]

/-- All of `canonicalize`. -/
private theorem CanonInv.foldl (hts : ts.WellFormed) {rest gs : List RecGroup}
    {st : List (List UInt8 × ℕ) × List ℕ} (h : CanonInv ts gs st)
    (hsplit : gs ++ rest = ts.recGroups) :
    CanonInv ts ts.recGroups (rest.foldl (canonicalizeStep ts) st) := by
  induction rest generalizing gs st with
  | nil =>
    rw [List.append_nil] at hsplit
    exact hsplit ▸ h
  | cons g rest ih =>
    rw [List.foldl_cons]
    refine ih (h.step hts ?_ ?_) (by simpa using hsplit)
    · intro g' hg'
      rw [← hsplit]
      simp only [List.mem_append, List.mem_cons, List.not_mem_nil, or_false] at hg' ⊢
      tauto
    · have := hts.groupsFrom
      rw [← hsplit] at this
      exact this.start_eq h.groups

private theorem canonInv_canonicalize (hts : ts.WellFormed) :
    CanonInv ts ts.recGroups (ts.recGroups.foldl (canonicalizeStep ts) ([], [])) := by
  refine CanonInv.foldl hts (show CanonInv ts [] ([], []) from ⟨rfl, .empty fun _ => rfl, ?_, ?_⟩) rfl
  · simp [KeyedBy]
  · simp

namespace TypeSection.WellFormed

/-- The canonical indices of a section are one per type, lie at or below their types, and are keyed
by a table of disjoint blocks. -/
theorem exists_table (hts : ts.WellFormed) :
    ts.typeCanon.length = ts.compTypes.length ∧ (∀ t c : ℕ, ts.typeCanon[t]? = some c → c ≤ t) ∧
      ∃ base next, BlockTable GroupKey.Fits List.length base next ∧
        KeyedBy base ts ts.recGroups ts.typeCanon ∧
        ∀ g ∈ ts.recGroups, (ts.groupKey ts.typeCanon g).Fits := by
  have h := canonInv_canonicalize hts
  have heq := hts.typeCanon_eq
  rw [canonicalize] at heq
  have hlen : ts.typeCanon.length = ts.compTypes.length := by
    rw [heq]
    exact h.groups.unique_end hts.groupsFrom
  refine ⟨hlen, heq ▸ h.le, _, _, h.table, heq ▸ h.keyed, fun g hg => ?_⟩
  have hb := hts.groupsFrom.bounds hg
  rw [heq] at hlen ⊢
  exact h.fits hts hlen.le hg (by omega)

/-- A canonical index is at most the index itself. -/
theorem canonId_le (hts : ts.WellFormed) (t : ℕ) : ts.canonId t ≤ t := by
  unfold canonId
  cases h : ts.typeCanon[t]? with
  | none => exact Nat.le_refl _
  | some c => exact hts.exists_table.2.1 t c h

/-- The canonical index of a type of the section is the recorded one. -/
theorem getElem?_typeCanon (hts : ts.WellFormed) {t : ℕ} (ht : t < ts.compTypes.length) :
    ts.typeCanon[t]? = some (ts.canonId t) := by
  have hlen := hts.exists_table.1
  unfold canonId
  rw [List.getElem?_eq_getElem (by omega), Option.getD_some]

/-- Canonical indices are equal iff the types are iso-recursively equal. -/
theorem canonId_eq_iff (hts : ts.WellFormed) {t u : ℕ} (ht : t < ts.compTypes.length)
    (hu : u < ts.compTypes.length) : ts.canonId t = ts.canonId u ↔ IsoEq ts ts t u := by
  obtain ⟨-, -, base, next, T, hkeyed, hfits⟩ := hts.exists_table
  rw [← eq_iff_isoEq T hts hts hkeyed hkeyed hfits hfits ht hu, hts.getElem?_typeCanon ht,
    hts.getElem?_typeCanon hu, Option.some_inj]

/-- Types with one canonical index have equal definitions, references read canonically. -/
theorem member_eq_of_canonId_eq (hts : ts.WellFormed) {t u : ℕ} (ht : t < ts.compTypes.length)
    (hu : u < ts.compTypes.length) (h : ts.canonId t = ts.canonId u) :
    (ts.member t).map (ts.typeCanon[·]?) = (ts.member u).map (ts.typeCanon[·]?) := by
  obtain ⟨-, -, base, next, T, hkeyed, hfits⟩ := hts.exists_table
  refine member_eq_of_id_eq T hts hts hkeyed hkeyed hfits hfits ht hu ?_
  rw [hts.getElem?_typeCanon ht, hts.getElem?_typeCanon hu, h]

theorem descending (hts : ts.WellFormed) : ParentSearch.Descending id ts.supertype :=
  fun _ _ h => hts.super_lt h

/-- `is_subtype` holds iff some declared ancestor is the same type as the target. -/
theorem isSubtype_iff (hts : ts.WellFormed) {a b : ℕ} :
    ts.isSubtype a b = true ↔
      ∃ c, ParentSearch.Ancestor ts.supertype a c ∧ ts.canonId c = ts.canonId b := by
  rw [isSubtype, ParentSearch.search_iff hts.descending (Nat.lt_succ_self a)]
  simp

end TypeSection.WellFormed

end Wasmrt
