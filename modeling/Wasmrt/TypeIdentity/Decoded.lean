import Wasmrt.Decode.TypeSection

/-!
# Canonical identity of any decoded section

The decoder computes canonical identities before anything has checked the section, so a reference may
point forward out of its group. Such a reference is compared by its raw index. With that the identities
decide the equality of types in every section that decodes, and in one that passes the validator's checks
it is iso-recursive equality.

## Main definitions

* `RecEq`: two types stand at the same position of structurally equal rec groups.

## Main results

* `recEq_iff_isoEq`: in a well-formed section this is iso-recursive equality.
* `canonId_exact`: a type's canonical index is the lowest index of an equal type.
-/

namespace Wasmrt

/-- References `r` and `s`, seen from groups `g` and `h`, have the same target: both point into their
group, at the same position, or both before it, at types related by `R`, or both beyond it, at the same
index. -/
def SameTarget (g h : RecGroup) (R : ℕ → ℕ → Prop) (r s : ℕ) : Prop :=
  (g.contains r = true ∧ h.contains s = true ∧ r - g.start = s - h.start) ∨
    (r < g.start ∧ s < h.start ∧ R r s) ∨ (g.start + g.len ≤ r ∧ h.start + h.len ≤ s ∧ r = s)

/-- Types `t` and `u` stand at the same position of rec groups whose members agree in everything but their
references, and whose references have the same targets. -/
def RecEq (ts : TypeSection) (t u : ℕ) : Prop :=
  ∃ g ∈ ts.recGroups, ∃ h ∈ ts.recGroups,
    g.contains t = true ∧ h.contains u = true ∧ t - g.start = u - h.start ∧
      List.Forall₂ (MemberShape.Rel (SameTarget g h fun r s => ∃ _ : r < t, RecEq ts r s))
        (ts.groupMembers g) (ts.groupMembers h)
termination_by t

/-! ## Keys over the identities before a group -/

/-- The key of a group as `canonicalize` sees it, when only the groups before it have identities. -/
def TypeSection.keyBefore (ts : TypeSection) (ids : List ℕ) (g : RecGroup) : GroupKey :=
  ts.groupKey (ids.take g.start) g

variable {ts : TypeSection} {ids : List ℕ} {gs : List RecGroup} {g : RecGroup}

theorem TypeSection.length_keyBefore : (ts.keyBefore ids g).length = g.len := ts.length_groupKey _ _

/-- Identities of later types do not change it. -/
theorem TypeSection.keyBefore_append (hlen : g.start ≤ ids.length) (ext : List ℕ) :
    ts.keyBefore (ids ++ ext) g = ts.keyBefore ids g := by
  rw [keyBefore, List.take_append_of_le_length hlen, keyBefore]

/-- A reference of a group as its key records it: into the group, before it or beyond it. -/
theorem refKey_take (hlen : g.start ≤ ids.length) (r : ℕ) :
    refKey (ids.take g.start) g r =
      if g.contains r then .inside (r - g.start)
      else if r < g.start then .outside (ids.getD r 0) else .forward r := by
  unfold refKey
  split_ifs with hin hlt
  · rfl
  · rw [List.getElem?_take_of_lt hlt, List.getD_eq_getElem?_getD, List.getElem?_eq_getElem (by omega),
      Option.getD_some]
  · rw [List.getElem?_eq_none (by rw [List.length_take]; omega)]

theorem TypeSection.Decoded.keyBefore_fits (hts : ts.Decoded) (hg : g ∈ ts.recGroups)
    (hids : ∀ c ∈ ids, c < 2 ^ 32) : (ts.keyBefore ids g).Fits := by
  refine TypeSection.groupKey_fits_of hts.lengths fun t ht r hr => ?_
  have hbounds := hts.groupsFrom.bounds hg
  have hcount := hts.count_le
  unfold refKey
  split
  · next hin =>
    rw [RecGroup.contains_iff] at hin
    show r - g.start < 2 ^ 32
    omega
  · cases hc : (ids.take g.start)[r]? with
    | some c => exact hids c (List.mem_of_mem_take (List.mem_of_getElem? hc))
    | none => exact hts.refs_lt g hg t ht r hr

/-! ## What `canonicalize` establishes -/

/-- What `canonicalize` has established after the groups `gs`. -/
structure Canonical (ts : TypeSection) (gs : List RecGroup) (st : List (List UInt8 × ℕ) × List ℕ) :
    Prop where
  groups : GroupsFrom 0 gs st.2.length
  table : BlockTable GroupKey.Fits List.length (baseIn st.1) st.2.length
  keyed : ∀ g ∈ gs, ∃ b, baseIn st.1 (ts.keyBefore st.2 g) = some b ∧
    ∀ i < g.len, st.2[g.start + i]? = some (b + i)
  /-- The block of a key starts at the first group with that key. -/
  first : ∀ ⦃k b⦄, k.Fits → baseIn st.1 k = some b → ∃ g ∈ gs, g.start = b ∧ ts.keyBefore st.2 g = k
  le : ∀ t c : ℕ, st.2[t]? = some c → c ≤ t

variable {st : List (List UInt8 × ℕ) × List ℕ}

theorem Canonical.lt (h : Canonical ts gs st) {c : ℕ} (hc : c ∈ st.2) : c < st.2.length := by
  obtain ⟨t, ht, rfl⟩ := List.mem_iff_getElem.mp hc
  have := h.le t _ (List.getElem?_eq_getElem ht)
  omega

theorem Canonical.fits (h : Canonical ts gs st) (hts : ts.Decoded) (hcount : st.2.length ≤ ts.compTypes.length)
    (hg : g ∈ ts.recGroups) : (ts.keyBefore st.2 g).Fits := by
  refine hts.keyBefore_fits hg fun c hc => ?_
  have := h.lt hc
  have := hts.count_le
  omega

/-- One round of `canonicalize`. -/
theorem Canonical.step (h : Canonical ts gs st) (hts : ts.Decoded)
    (hmem : ∀ g' ∈ gs ++ [g], g' ∈ ts.recGroups) (hg : g.start = st.2.length) :
    Canonical ts (gs ++ [g]) (canonicalizeStep ts st g) := by
  have hgmem := hmem g (by simp)
  have hgb := hts.groupsFrom.bounds hgmem
  have hfits := h.fits hts (by omega) hgmem
  have hgroups : GroupsFrom 0 (gs ++ [g]) (st.2.length + g.len) := h.groups.append ⟨hg, rfl⟩
  have hkey : recGroupKey ts st.2 g = (ts.keyBefore st.2 g).bytes := by
    rw [recGroupKey_eq_bytes, TypeSection.keyBefore, hg, List.take_length]
  have hbefore : ∀ g' ∈ gs ++ [g], ∀ ext, ts.keyBefore (st.2 ++ ext) g' = ts.keyBefore st.2 g' := by
    intro g' hg' ext
    apply TypeSection.keyBefore_append
    rcases List.mem_append.mp hg' with hg' | hg'
    · have := h.groups.bounds hg'
      omega
    · rw [List.mem_singleton.mp hg', hg]
  -- the groups so far keep their identities, the new one has the block that starts at `b`
  have hkeyed : ∀ {base' : GroupKey → Option ℕ} {b : ℕ}, base' (ts.keyBefore st.2 g) = some b →
      (∀ g' ∈ gs, ∀ b', baseIn st.1 (ts.keyBefore st.2 g') = some b' → base' (ts.keyBefore st.2 g') = some b') →
        ∀ g' ∈ gs ++ [g], ∃ b', base' (ts.keyBefore (st.2 ++ (List.range g.len).map (b + ·)) g') = some b' ∧
          ∀ i < g'.len, (st.2 ++ (List.range g.len).map (b + ·))[g'.start + i]? = some (b' + i) := by
    intro base' b hb hext g' hg'
    rw [hbefore g' hg']
    rcases List.mem_append.mp hg' with hg' | hg'
    · obtain ⟨b', hb', hids⟩ := h.keyed g' hg'
      refine ⟨b', hext g' hg' b' hb', fun i hi => ?_⟩
      have := h.groups.bounds hg'
      rw [List.getElem?_append_left (by omega)]
      exact hids i hi
    · obtain rfl := List.mem_singleton.mp hg'
      refine ⟨b, hb, fun i hi => ?_⟩
      rw [List.getElem?_append_right (by omega)]
      simp [hg, hi]
  have hle : ∀ {b : ℕ}, b ≤ st.2.length → ∀ t c : ℕ,
      (st.2 ++ (List.range g.len).map (b + ·))[t]? = some c → c ≤ t := le_append h.le
  unfold canonicalizeStep
  rw [hkey]
  cases hb : baseIn st.1 (ts.keyBefore st.2 g) with
  | some first =>
    have hlookup : st.1.lookup (ts.keyBefore st.2 g).bytes = some first := hb
    have hfirst := h.table.below hfits hb
    rw [TypeSection.length_keyBefore] at hfirst
    simp only [hlookup]
    refine ⟨by simpa using hgroups, ⟨?_, h.table.disjoint⟩, hkeyed hb fun _ _ _ hb' => hb', ?_, hle (by omega)⟩
    · intro k b hk hkb
      have := h.table.below hk hkb
      rw [List.length_append]
      omega
    · intro k b hk hkb
      obtain ⟨g', hg', hstart, hkey'⟩ := h.first hk hkb
      exact ⟨g', List.mem_append_left _ hg', hstart, (hbefore g' (List.mem_append_left _ hg') _).trans hkey'⟩
  | none =>
    have hlookup : st.1.lookup (ts.keyBefore st.2 g).bytes = none := hb
    simp only [hlookup]
    have hbase : ∀ k, k.Fits → baseIn (((ts.keyBefore st.2 g).bytes, g.start) :: st.1) k =
        if k = ts.keyBefore st.2 g then some g.start else baseIn st.1 k := fun k hk => baseIn_cons hfits hk _
    refine ⟨by simpa using hgroups, ?_, hkeyed ?_ ?_, ?_, hle hg.le⟩
    · refine h.table.insert (k := ts.keyBefore st.2 g) (fun k hk => ?_) ?_
      · rw [hbase k hk, hg]
      · rw [TypeSection.length_keyBefore]
        simp
    · rw [hbase _ hfits, if_pos rfl]
    · intro g' hg' b hb'
      have hne : ts.keyBefore st.2 g' ≠ ts.keyBefore st.2 g := by
        intro heq
        rw [heq, hb] at hb'
        cases hb'
      rw [hbase _ (h.fits hts (by omega) (hmem g' (List.mem_append_left _ hg'))), if_neg hne, hb']
    · intro k b hk hkb
      rw [hbase k hk] at hkb
      split_ifs at hkb with heq
      · obtain rfl := Option.some.inj hkb
        have hg' : g ∈ gs ++ [g] := by simp
        exact ⟨g, hg', rfl, (hbefore g hg' _).trans heq.symm⟩
      · obtain ⟨g', hg', hstart, hkey'⟩ := h.first hk hkb
        exact ⟨g', List.mem_append_left _ hg', hstart, (hbefore g' (List.mem_append_left _ hg') _).trans hkey'⟩

/-- All of `canonicalize`. -/
theorem Canonical.foldl {rest : List RecGroup} (h : Canonical ts gs st) (hts : ts.Decoded)
    (hsplit : gs ++ rest = ts.recGroups) :
    Canonical ts ts.recGroups (rest.foldl (canonicalizeStep ts) st) := by
  induction rest generalizing gs st with
  | nil =>
    rw [List.append_nil] at hsplit
    exact hsplit ▸ h
  | cons g rest ih =>
    rw [List.foldl_cons]
    refine ih (h.step hts ?_ ?_) (by simpa using hsplit)
    · intro g' hg'
      rw [← hsplit]
      simp only [List.mem_append, List.mem_cons, List.not_mem_nil, or_false] at hg' ⊢
      tauto
    · have := hts.groupsFrom
      rw [← hsplit] at this
      exact this.start_eq h.groups

theorem TypeSection.Decoded.canonical (hts : ts.Decoded) :
    ∃ seen, Canonical ts ts.recGroups (seen, ts.typeCanon) ∧ ts.typeCanon.length = ts.compTypes.length := by
  have hstart : Canonical ts [] ([], []) := {
    groups := rfl
    table := .empty fun _ => rfl
    keyed := nofun
    first := nofun
    le := nofun }
  have h := hstart.foldl hts (List.nil_append _)
  have hlen := h.groups.unique_end hts.groupsFrom
  have heq : (ts.recGroups.foldl (canonicalizeStep ts) ([], [])).2 = ts.typeCanon := hts.typeCanon_eq.symm
  rw [heq] at hlen
  refine ⟨(ts.recGroups.foldl (canonicalizeStep ts) ([], [])).1, ?_, hlen⟩
  rw [← heq]
  exact h

/-! ## Identities decide equality -/

/-- Two references have one key exactly when they have one target, provided identities decide equality
for the types before the groups. -/
theorem refKey_take_eq_iff {h : RecGroup} {R : ℕ → ℕ → Prop} (hg : g.start ≤ ids.length)
    (hh : h.start ≤ ids.length)
    (hR : ∀ r < g.start, ∀ s < h.start, ids.getD r 0 = ids.getD s 0 ↔ R r s) (r s : ℕ) :
    refKey (ids.take g.start) g r = refKey (ids.take h.start) h s ↔ SameTarget g h R r s := by
  have hcr := RecGroup.contains_iff (g := g) (t := r)
  have hcs := RecGroup.contains_iff (g := h) (t := s)
  rw [refKey_take hg, refKey_take hh, SameTarget]
  split_ifs with hr hrlt hs hslt hs hslt
  all_goals simp_all
  all_goals omega

/-- The canonical index of a member of a group, from the block of the group's key. -/
theorem Canonical.exists_base {seen : List (List UInt8 × ℕ)} (h : Canonical ts ts.recGroups (seen, ts.typeCanon))
    (hg : g ∈ ts.recGroups) : ∃ b, baseIn seen (ts.keyBefore ts.typeCanon g) = some b ∧
      ∀ t, g.contains t = true → ts.canonId t = b + (t - g.start) := by
  obtain ⟨b, hb, hids⟩ := h.keyed g hg
  refine ⟨b, hb, fun t ht => ?_⟩
  rw [RecGroup.contains_iff] at ht
  have := hids (t - g.start) (by omega)
  rw [Nat.add_sub_cancel' ht.1] at this
  rw [TypeSection.canonId, this, Option.getD_some]

/-- Canonical indices are equal exactly when the types are. -/
theorem TypeSection.Decoded.canonId_eq_iff (hts : ts.Decoded) {t u : ℕ} (ht : t < ts.compTypes.length)
    (hu : u < ts.compTypes.length) : ts.canonId t = ts.canonId u ↔ RecEq ts t u := by
  obtain ⟨seen, hcanon, hlen⟩ := hts.canonical
  induction t using Nat.strong_induction_on generalizing u with
  | _ t ih =>
  obtain ⟨g, hg, hgt⟩ := hts.groupsFrom.exists_contains (Nat.zero_le _) ht
  obtain ⟨h, hh, hhu⟩ := hts.groupsFrom.exists_contains (Nat.zero_le _) hu
  obtain ⟨bg, hbg, hidg⟩ := hcanon.exists_base hg
  obtain ⟨bh, hbh, hidh⟩ := hcanon.exists_base hh
  have hgt' := RecGroup.contains_iff.mp hgt
  have hhu' := RecGroup.contains_iff.mp hhu
  have hgb := hts.groupsFrom.bounds hg
  have hhb := hts.groupsFrom.bounds hh
  have hkey : ts.canonId t = ts.canonId u ↔
      ts.keyBefore ts.typeCanon g = ts.keyBefore ts.typeCanon h ∧ t - g.start = u - h.start := by
    rw [hidg t hgt, hidh u hhu]
    constructor
    · intro heq
      exact hcanon.table.eq_of_add_eq (hcanon.fits hts hlen.le hg) (hcanon.fits hts hlen.le hh) hbg hbh
        (by rw [TypeSection.length_keyBefore]; omega) (by rw [TypeSection.length_keyBefore]; omega) heq
    · rintro ⟨hk, hpos⟩
      rw [hk, hbh, Option.some_inj] at hbg
      omega
  have hrel : ts.keyBefore ts.typeCanon g = ts.keyBefore ts.typeCanon h ↔
      List.Forall₂ (MemberShape.Rel (SameTarget g h fun r s => ∃ _ : r < t, RecEq ts r s))
        (ts.groupMembers g) (ts.groupMembers h) := by
    refine map_eq_map_iff_forall₂ fun x _ y _ => MemberShape.map_eq_map_iff_rel fun r _ s _ => ?_
    refine refKey_take_eq_iff (by omega) (by omega) (fun r hr s hs => ?_) r s
    -- a type before the group has its canonical index already
    have hget : ∀ {r : ℕ}, r < ts.typeCanon.length → ts.typeCanon.getD r 0 = ts.canonId r := fun hlt => by
      rw [List.getD_eq_getElem?_getD, TypeSection.canonId, List.getElem?_eq_getElem hlt]
      rfl
    rw [hget (by omega), hget (by omega), ih r (by omega) (by omega) (by omega)]
    exact ⟨fun heq => ⟨by omega, heq⟩, fun ⟨_, heq⟩ => heq⟩
  rw [hkey, hrel, RecEq]
  constructor
  · rintro ⟨hmem, hpos⟩
    exact ⟨g, hg, h, hh, hgt, hhu, hpos, hmem⟩
  · rintro ⟨g', hg', h', hh', hgt₂, hhu₂, hpos, hmem⟩
    obtain rfl := hts.groupsFrom.unique hg' hg hgt₂ hgt
    obtain rfl := hts.groupsFrom.unique hh' hh hhu₂ hhu
    exact ⟨hmem, hpos⟩

theorem TypeSection.Decoded.canonId_le (hts : ts.Decoded) (t : ℕ) : ts.canonId t ≤ t := by
  obtain ⟨seen, hcanon, -⟩ := hts.canonical
  unfold canonId
  cases h : ts.typeCanon[t]? with
  | none => exact le_rfl
  | some c => exact hcanon.le t c h

/-- A canonical index is its own: it lies in the first group with the key. -/
theorem TypeSection.Decoded.canonId_canonId (hts : ts.Decoded) {t : ℕ} (ht : t < ts.compTypes.length) :
    ts.canonId (ts.canonId t) = ts.canonId t := by
  obtain ⟨seen, hcanon, hlen⟩ := hts.canonical
  obtain ⟨g, hg, hgt⟩ := hts.groupsFrom.exists_contains (Nat.zero_le _) ht
  obtain ⟨b, hb, hid⟩ := hcanon.exists_base hg
  obtain ⟨g₀, hg₀, hstart, hkey⟩ := hcanon.first (hcanon.fits hts hlen.le hg) hb
  obtain ⟨b₀, hb₀, hid₀⟩ := hcanon.exists_base hg₀
  rw [hkey, hb, Option.some_inj] at hb₀
  subst hb₀
  have hlen₀ : g₀.len = g.len := by
    have hlength := congrArg List.length hkey
    rwa [TypeSection.length_keyBefore, TypeSection.length_keyBefore] at hlength
  have hgt' := RecGroup.contains_iff.mp hgt
  rw [hid t hgt, hid₀ _ (RecGroup.contains_iff.mpr (by omega)), hstart]
  omega

/-- In a well-formed section the equality of types is iso-recursive equality. -/
theorem recEq_iff_isoEq (hts : ts.WellFormed) {t u : ℕ} (ht : t < ts.compTypes.length)
    (hu : u < ts.compTypes.length) : RecEq ts t u ↔ IsoEq ts ts t u := by
  have hdec : ts.Decoded := {
    count_le := hts.count_le
    groupsFrom := hts.groupsFrom
    refs_lt := by
      intro g hg t ht r hr
      have hlt := hts.scope g hg t ht r hr
      have hb := hts.groupsFrom.bounds hg
      have hcount := hts.count_le
      omega
    lengths := hts.lengths
    typeCanon_eq := hts.typeCanon_eq }
  rw [← hdec.canonId_eq_iff ht hu, hts.canonId_eq_iff ht hu]

/-- In every section that decodes, the canonical index of a type is the lowest index of an equal type, and
equal types are those with one canonical index. -/
theorem canonId_exact {rts : List (List SubType)} (hcount : rts.flatten.length < 2 ^ 32)
    (hfit : ∀ g ∈ rts, ∀ st ∈ g, st.comp.LengthsFit) (hlinks : ∀ g ∈ rts, ∀ st ∈ g, st.LinksFit)
    (h : decodeTypeSection rts = .ok ts) : ts.typeCanon.length = ts.compTypes.length ∧
      ∀ a < ts.compTypes.length, ts.canonId a ≤ a ∧ ts.canonId (ts.canonId a) = ts.canonId a ∧
        RecEq ts a (ts.canonId a) ∧ ∀ b < ts.compTypes.length,
          (ts.canonId a = ts.canonId b ↔ RecEq ts a b) ∧ (RecEq ts a b → ts.canonId a ≤ b) := by
  have hts := decoded_of_decode rts hcount hfit hlinks h
  obtain ⟨seen, -, hlen⟩ := hts.canonical
  refine ⟨hlen, fun a ha => ?_⟩
  have hle := hts.canonId_le a
  refine ⟨hle, hts.canonId_canonId ha, ?_, fun b hb => ⟨hts.canonId_eq_iff ha hb, fun heq => ?_⟩⟩
  · exact (hts.canonId_eq_iff ha (by omega)).mp (hts.canonId_canonId ha).symm
  · rw [(hts.canonId_eq_iff ha hb).mpr heq]
    exact hts.canonId_le b

/-- Two types that refer to a third one, which is written after them. -/
def refersForward : List (List SubType) :=
  let refersTo2 : SubType := { comp := .struct [⟨.val (.ref true (.concrete 2)), false⟩] }
  [[refersTo2], [refersTo2], [{ comp := .struct [] }]]

/-- They are one type, and a type of its own is the one they refer to. -/
theorem canonId_refersForward :
    (decoded refersForward).typeCanon = [0, 0, 2] ∧ RecEq (decoded refersForward) 1 0 ∧
      ¬ RecEq (decoded refersForward) 0 2 := by
  have hdecode : decodeTypeSection refersForward = .ok (decoded refersForward) := rfl
  obtain ⟨-, h⟩ := canonId_exact (by decide) (by decide) (by decide) hdecode
  refine ⟨by decide, ?_, ?_⟩
  · exact ((h 1 (by decide)).2.2.2 0 (by decide)).1.mp (by decide)
  · exact fun heq => absurd (((h 0 (by decide)).2.2.2 2 (by decide)).1.mpr heq) (by decide)

end Wasmrt
