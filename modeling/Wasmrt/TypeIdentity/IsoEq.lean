import Wasmrt.Library.BlockTable
import Wasmrt.TypeIdentity.GroupKey

/-!
# Iso-recursive type equality

The specification of type identity: two types are equal when they stand at the same position of rec
groups that are structurally equal, where references into the group are compared by position and
references out of it by the same equality.

Both type tables of the engine, `type_canon` and the store's registry, assign identities group by
group under rec-group keys. Whatever table does so assigns equal identities to exactly the equal
types.

## Main definitions

* `TypeSection.WellFormed`: what decoding and validation establish of a type section.
* `IsoEq A B t u`: type `t` of `A` is type `u` of `B`.
* `KeyedBy base ts ids`: the identities `ids` are those a table of rec-group keys assigns.

## Main results

* `eq_iff_isoEq`: identities keyed by one table are equal iff the types are iso-recursively equal.
-/

namespace Wasmrt

/-! ## Partition into groups -/

/-- The groups cover `[n, m)` one after another. -/
def GroupsFrom : ℕ → List RecGroup → ℕ → Prop
  | n, [], m => n = m
  | n, g :: gs, m => g.start = n ∧ GroupsFrom (n + g.len) gs m

theorem RecGroup.contains_iff {g : RecGroup} {t : ℕ} :
    g.contains t = true ↔ g.start ≤ t ∧ t < g.start + g.len := by
  simp [RecGroup.contains]

namespace GroupsFrom

theorem le {n m : ℕ} {gs : List RecGroup} (h : GroupsFrom n gs m) : n ≤ m := by
  induction gs generalizing n with
  | nil => exact Nat.le_of_eq h
  | cons g gs ih => exact (Nat.le_add_right n g.len).trans (ih h.2)

/-- A group of the partition lies within it. -/
theorem bounds {n m : ℕ} {gs : List RecGroup} (h : GroupsFrom n gs m) {g : RecGroup} (hg : g ∈ gs) :
    n ≤ g.start ∧ g.start + g.len ≤ m := by
  induction gs generalizing n with
  | nil => simp at hg
  | cons g' gs ih =>
    obtain ⟨hstart, hrest⟩ := h
    rcases List.mem_cons.mp hg with rfl | hg
    · have := hrest.le
      omega
    · have := ih hrest hg
      omega

/-- Every index of the partition is in some group. -/
theorem exists_contains {n m t : ℕ} {gs : List RecGroup} (h : GroupsFrom n gs m) (hn : n ≤ t)
    (hm : t < m) : ∃ g ∈ gs, g.contains t = true := by
  induction gs generalizing n with
  | nil => rw [GroupsFrom] at h; omega
  | cons g gs ih =>
    obtain ⟨hstart, hrest⟩ := h
    by_cases ht : t < n + g.len
    · exact ⟨g, by simp, RecGroup.contains_iff.mpr (by omega)⟩
    · obtain ⟨g', hg', hc⟩ := ih hrest (by omega)
      exact ⟨g', by simp [hg'], hc⟩

/-- And in no other. -/
theorem unique {n m t : ℕ} {gs : List RecGroup} (h : GroupsFrom n gs m) {g g' : RecGroup}
    (hg : g ∈ gs) (hg' : g' ∈ gs) (hc : g.contains t = true) (hc' : g'.contains t = true) :
    g = g' := by
  rw [RecGroup.contains_iff] at hc hc'
  induction gs generalizing n with
  | nil => simp at hg
  | cons g₀ gs ih =>
    obtain ⟨hstart, hrest⟩ := h
    rcases List.mem_cons.mp hg with heq | hmem <;> rcases List.mem_cons.mp hg' with heq' | hmem'
    · exact heq.trans heq'.symm
    · subst heq
      have := hrest.bounds hmem'
      omega
    · subst heq'
      have := hrest.bounds hmem
      omega
    · exact ih hrest hmem hmem'

/-- Splitting the partition at a list append. -/
theorem append {n m k : ℕ} {gs hs : List RecGroup} (h : GroupsFrom n gs m)
    (h' : GroupsFrom m hs k) : GroupsFrom n (gs ++ hs) k := by
  induction gs generalizing n with
  | nil => rw [GroupsFrom] at h; subst h; exact h'
  | cons g gs ih => exact ⟨h.1, ih h.2⟩

/-- A group starts where the groups before it end. -/
theorem start_eq {n m k : ℕ} {gs rest : List RecGroup} {g : RecGroup}
    (h : GroupsFrom n (gs ++ g :: rest) k) (hgs : GroupsFrom n gs m) : g.start = m := by
  induction gs generalizing n with
  | nil => exact h.1.trans hgs
  | cons g' gs ih => exact ih h.2 hgs.2

/-- A partition ends in one place. -/
theorem unique_end {n m k : ℕ} {gs : List RecGroup} (h : GroupsFrom n gs m)
    (h' : GroupsFrom n gs k) : m = k := by
  induction gs generalizing n with
  | nil => exact Eq.trans (Eq.symm h) h'
  | cons g gs ih => exact ih h.2 h'.2

end GroupsFrom

/-! ## Well-formed type sections -/

/-- The vectors of a composite type have lengths a `u32` holds. -/
def CompType.LengthsFit : CompType → Prop
  | func ft => ft.params.length < 2 ^ 32 ∧ ft.results.length < 2 ^ 32
  | struct fs => fs.length < 2 ^ 32
  | array _ => True

/-- What the decoder and the validator's declaration checks establish of a type section: the rec
groups partition the index space, a supertype is an earlier type, a reference names a type of its
own group or an earlier one, a descriptor link stays in its group, a concrete reference states the
family of its target, and the canonical identities are those `canonicalize` computes. -/
structure TypeSection.WellFormed (ts : TypeSection) : Prop where
  count_le : ts.compTypes.length ≤ 2 ^ 32
  groupsFrom : GroupsFrom 0 ts.recGroups ts.compTypes.length
  super_lt : ∀ ⦃t s⦄, ts.supertype t = some s → s < t
  scope : ∀ g ∈ ts.recGroups, ∀ t, g.contains t = true → ∀ r ∈ (ts.member t).refs,
    r < g.start + g.len
  links_mem : ∀ g ∈ ts.recGroups, ∀ t, g.contains t = true →
    (∀ d ∈ (ts.links t).descriptor, g.contains d = true) ∧
      ∀ x ∈ (ts.links t).describes, g.contains x = true
  lengths : ∀ ct ∈ ts.compTypes, ct.LengthsFit
  kind_eq : ∀ ct ∈ ts.compTypes, ∀ n e k i, ValType.concrete n e k i ∈ ct.valTypes →
    (ts.compTypes[(i : ℕ)]?).map CompType.kind = some k
  typeCanon_eq : ts.typeCanon = canonicalize ts

namespace TypeSection

variable {ts : TypeSection}

/-- A well-formed section always records its groups. -/
theorem WellFormed.groups_eq (h : ts.WellFormed) : ts.groups = ts.recGroups := by
  unfold groups
  split
  · next hempty =>
    have hnil : ts.recGroups = [] := by simpa using hempty
    have := h.groupsFrom
    rw [hnil, GroupsFrom] at this
    simp [hnil, ← this]
  · rfl

/-- Every type belongs to a group. -/
theorem WellFormed.exists_group (h : ts.WellFormed) {t : ℕ} (ht : t < ts.compTypes.length) :
    ∃ g ∈ ts.recGroups, g.contains t = true :=
  h.groupsFrom.exists_contains (Nat.zero_le _) ht

/-- A reference out of a group is to an earlier type. -/
theorem WellFormed.ref_lt (h : ts.WellFormed) {g : RecGroup} (hg : g ∈ ts.recGroups) {t r : ℕ}
    (ht : g.contains t = true) (hr : r ∈ (ts.member t).refs) (hout : g.contains r = false) :
    r < g.start := by
  have hlt := h.scope g hg t ht r hr
  rw [← Bool.not_eq_true, RecGroup.contains_iff] at hout
  omega

end TypeSection

/-! ## The specification -/

/-- References `r` and `s`, seen from groups `g` and `h`, agree: both point into their group, at the
same position, or both point out of it, at types related by `R`. -/
def SameRef (g h : RecGroup) (R : ℕ → ℕ → Prop) (r s : ℕ) : Prop :=
  (g.contains r = true ∧ h.contains s = true ∧ r - g.start = s - h.start) ∨
    (g.contains r = false ∧ h.contains s = false ∧ R r s)

/-- Iso-recursive equality of type `t` of `A` and type `u` of `B`: they stand at the same position of
rec groups whose members agree in everything but their references, and whose references agree. A
reference out of a group is to an earlier type, so the recursion is on `t`. -/
def IsoEq (A B : TypeSection) (t u : ℕ) : Prop :=
  ∃ g ∈ A.groups, ∃ h ∈ B.groups,
    g.contains t = true ∧ h.contains u = true ∧ t - g.start = u - h.start ∧
      List.Forall₂ (MemberShape.Rel (SameRef g h fun r s => ∃ _ : r < t, IsoEq A B r s))
        (A.groupMembers g) (B.groupMembers h)
termination_by t

/-! ## Tables of identities -/

/-- The identities `ids` of the groups `gs` are those a table of rec-group keys assigns: the members
of a group have the consecutive identities that start at the group's base. -/
def KeyedBy (base : GroupKey → Option ℕ) (ts : TypeSection) (gs : List RecGroup) (ids : List ℕ) :
    Prop :=
  ∀ g ∈ gs, ∃ b, base (ts.groupKey ids g) = some b ∧
    ∀ i < g.len, ids[g.start + i]? = some (b + i)

/-- The identity of a member of a group. -/
theorem KeyedBy.getElem? {base : GroupKey → Option ℕ} {ts : TypeSection} {gs : List RecGroup}
    {ids : List ℕ} (h : KeyedBy base ts gs ids) {g : RecGroup} (hg : g ∈ gs) {b t : ℕ}
    (hb : base (ts.groupKey ids g) = some b) (ht : g.contains t = true) :
    ids[t]? = some (b + (t - g.start)) := by
  obtain ⟨b', hb', hids⟩ := h g hg
  obtain rfl : b = b' := Option.some.inj (hb.symm.trans hb')
  rw [RecGroup.contains_iff] at ht
  have := hids (t - g.start) (by omega)
  rwa [Nat.add_sub_cancel' ht.1] at this

/-- Every type of a keyed section has an identity. -/
theorem KeyedBy.exists_id {base : GroupKey → Option ℕ} {ts : TypeSection} {ids : List ℕ}
    (hts : ts.WellFormed) (h : KeyedBy base ts ts.recGroups ids) {t : ℕ}
    (ht : t < ts.compTypes.length) : ∃ c, ids[t]? = some c := by
  obtain ⟨g, hg, hgt⟩ := hts.exists_group ht
  obtain ⟨b, hb, -⟩ := h g hg
  exact ⟨_, h.getElem? hg hb hgt⟩

/-- Membership in the member list of a group. -/
theorem TypeSection.mem_groupMembers {ts : TypeSection} {g : RecGroup} {x : MemberShape ℕ} :
    x ∈ ts.groupMembers g ↔ ∃ t, g.contains t = true ∧ x = ts.member t := by
  simp only [groupMembers, List.mem_map, List.mem_range, RecGroup.contains_iff]
  constructor
  · rintro ⟨i, hi, rfl⟩
    exact ⟨g.start + i, by omega, rfl⟩
  · rintro ⟨t, ⟨h₁, h₂⟩, rfl⟩
    exact ⟨t - g.start, by omega, by rw [Nat.add_sub_cancel' h₁]⟩

theorem TypeSection.getElem?_groupMembers {ts : TypeSection} {g : RecGroup} {t : ℕ}
    (ht : g.contains t = true) : (ts.groupMembers g)[t - g.start]? = some (ts.member t) := by
  rw [RecGroup.contains_iff] at ht
  simp only [groupMembers, List.getElem?_map]
  rw [List.getElem?_range (by omega), Option.map_some, Nat.add_sub_cancel' ht.1]

/-- The identity a normalised reference stands for in a group whose base is `b`. -/
def RefKey.resolve (b : ℕ) : RefKey → Option ℕ
  | inside p => some (b + p)
  | outside c => some c
  | forward _ => none

/-- Resolving a normalised reference gives the identity of its target. -/
theorem KeyedBy.resolve_refKey {base : GroupKey → Option ℕ} {ts : TypeSection} {ids : List ℕ}
    {gs : List RecGroup} (h : KeyedBy base ts gs ids) {g : RecGroup}
    (hg : g ∈ gs) {b : ℕ} (hb : base (ts.groupKey ids g) = some b) (r : ℕ) :
    (refKey ids g r).resolve b = ids[r]? := by
  unfold refKey
  split
  · next hin => rw [h.getElem? hg hb hin, RefKey.resolve]
  · cases hr : ids[r]? <;> simp [RefKey.resolve]

/-- The member a key records at a position, resolved, is the type with its references read as
identities. -/
theorem KeyedBy.resolve_member {base : GroupKey → Option ℕ} {ts : TypeSection} {ids : List ℕ}
    {gs : List RecGroup} (h : KeyedBy base ts gs ids) {g : RecGroup}
    (hg : g ∈ gs) {b : ℕ} (hb : base (ts.groupKey ids g) = some b) {t : ℕ}
    (ht : g.contains t = true) :
    ((ts.groupKey ids g)[t - g.start]?).map (·.map (RefKey.resolve b)) =
      some ((ts.member t).map (ids[·]?)) := by
  rw [TypeSection.groupKey, List.getElem?_map, TypeSection.getElem?_groupMembers ht,
    Option.map_some, Option.map_some, MemberShape.map_map]
  exact congrArg some (MemberShape.map_congr fun r _ => h.resolve_refKey hg hb r)

/-- A key only looks at identities assigned before its group. -/
theorem TypeSection.WellFormed.groupKey_append {ts : TypeSection} (hts : ts.WellFormed)
    {g : RecGroup} (hg : g ∈ ts.recGroups) {ids : List ℕ} (hlen : g.start ≤ ids.length)
    (ext : List ℕ) : ts.groupKey (ids ++ ext) g = ts.groupKey ids g := by
  refine List.map_congr_left fun x hx => MemberShape.map_congr fun r hr => ?_
  obtain ⟨t, ht, rfl⟩ := mem_groupMembers.mp hx
  unfold refKey
  split
  · rfl
  · next hout =>
    have hlt := hts.ref_lt hg ht hr (by simpa using hout)
    rw [List.getElem?_append_left (by omega)]

/-- Adding a group to a keyed list of groups. The table may have grown by the new key. -/
theorem KeyedBy.snoc {base base' : GroupKey → Option ℕ} {ts : TypeSection} (hts : ts.WellFormed)
    {gs : List RecGroup} {g : RecGroup} {ids : List ℕ} (h : KeyedBy base ts gs ids)
    (hmem : ∀ g' ∈ gs ++ [g], g' ∈ ts.recGroups) (hgs : GroupsFrom 0 gs ids.length)
    (hg : g.start = ids.length)
    (hext : ∀ g' ∈ gs, ∀ b, base (ts.groupKey ids g') = some b →
      base' (ts.groupKey ids g') = some b) {b : ℕ} (hb : base' (ts.groupKey ids g) = some b) :
    KeyedBy base' ts (gs ++ [g]) (ids ++ (List.range g.len).map (b + ·)) := by
  intro g' hg'
  have hkey : ts.groupKey (ids ++ (List.range g.len).map (b + ·)) g' = ts.groupKey ids g' := by
    refine hts.groupKey_append (hmem g' hg') ?_ _
    rcases List.mem_append.mp hg' with hg' | hg'
    · have := hgs.bounds hg'
      omega
    · rw [List.mem_singleton.mp hg', hg]
  rw [hkey]
  rcases List.mem_append.mp hg' with hg' | hg'
  · obtain ⟨b', hb', hids⟩ := h g' hg'
    refine ⟨b', hext g' hg' b' hb', fun i hi => ?_⟩
    have := hgs.bounds hg'
    rw [List.getElem?_append_left (by omega)]
    exact hids i hi
  · obtain rfl := List.mem_singleton.mp hg'
    refine ⟨b, hb, fun i hi => ?_⟩
    rw [List.getElem?_append_right (by omega)]
    simp [hg, hi]

/-! ## Keys fit their serialisation -/

private theorem ValType.shape_map_fits {f : ℕ → RefKey} {v : ValType}
    (h : ∀ r ∈ v.shape.refs, (f r).Fits) : (v.shape.map f).Fits := by
  cases v <;> simp_all [ValType.shape, ValShape.refs, ValShape.map, ValShape.Fits,
    ValType.isConcrete]

private theorem FieldType.shape_map_fits {f : ℕ → RefKey} {fd : FieldType}
    (h : ∀ r ∈ fd.shape.refs, (f r).Fits) : (fd.shape.map f).Fits := by
  obtain ⟨_ | _ | v, m⟩ := fd
  · exact ValType.shape_map_fits h
  · trivial
  · trivial

private theorem CompType.shape_map_fits {f : ℕ → RefKey} {ct : CompType}
    (hlen : ct.LengthsFit) (h : ∀ r ∈ ct.shape.refs, (f r).Fits) :
    (ct.shape.map f).Fits := by
  cases ct with
  | func ft =>
    simp only [CompType.shape, CompShape.refs, List.mem_append, List.mem_flatMap] at h
    refine ⟨⟨by simpa using hlen.1, ?_⟩, by simpa using hlen.2, ?_⟩
    · simp only [List.mem_map, forall_exists_index, and_imp, forall_apply_eq_imp_iff₂]
      exact fun v hv => ValType.shape_map_fits fun r hr =>
        h r (.inl ⟨_, List.mem_map_of_mem hv, hr⟩)
    · simp only [List.mem_map, forall_exists_index, and_imp, forall_apply_eq_imp_iff₂]
      exact fun v hv => ValType.shape_map_fits fun r hr =>
        h r (.inr ⟨_, List.mem_map_of_mem hv, hr⟩)
  | struct fs =>
    simp only [CompType.shape, CompShape.refs, List.mem_flatMap] at h
    refine ⟨by rw [List.length_map, List.length_map]; exact hlen, ?_⟩
    simp only [List.mem_map, forall_exists_index, and_imp, forall_apply_eq_imp_iff₂]
    exact fun fd hfd => FieldType.shape_map_fits fun r hr =>
      h r ⟨_, List.mem_map_of_mem hfd, hr⟩
  | array fd => exact FieldType.shape_map_fits h

/-- A key fits its serialisation if its references do. -/
theorem TypeSection.groupKey_fits_of {ts : TypeSection} {g : RecGroup} {ids : List ℕ}
    (hlen : ∀ ct ∈ ts.compTypes, ct.LengthsFit)
    (hrefs : ∀ t, g.contains t = true → ∀ r ∈ (ts.member t).refs, (refKey ids g r).Fits) :
    (ts.groupKey ids g).Fits := by
  intro y hy
  obtain ⟨x, hx, rfl⟩ := List.mem_map.mp hy
  obtain ⟨t, ht, rfl⟩ := mem_groupMembers.mp hx
  have hfits := hrefs t ht
  simp only [MemberShape.refs, List.mem_append, Option.mem_toList] at hfits
  refine ⟨?_, ?_, ?_, ?_⟩
  · rintro _ hr
    obtain ⟨r, hmem, rfl⟩ := Option.map_eq_some_iff.mp hr
    exact hfits r (.inl (.inl (.inl hmem)))
  · rintro _ hr
    obtain ⟨r, hmem, rfl⟩ := Option.map_eq_some_iff.mp hr
    exact hfits r (.inl (.inl (.inr hmem)))
  · rintro _ hr
    obtain ⟨r, hmem, rfl⟩ := Option.map_eq_some_iff.mp hr
    exact hfits r (.inl (.inr hmem))
  · cases hct : ts.compTypes[t]? with
    | none => simp [member, MemberShape.map, CompShape.map, CompShape.Fits, hct]
    | some ct =>
      have hcomp : (ts.member t).comp = ct.shape := by simp [member, hct]
      rw [MemberShape.map, hcomp]
      refine CompType.shape_map_fits (hlen ct (List.mem_of_getElem? hct)) fun r hr => ?_
      exact hfits r (.inr (hcomp ▸ hr))

/-- A key built from 32-bit identities fits its serialisation. -/
theorem TypeSection.WellFormed.groupKey_fits {ts : TypeSection} (hts : ts.WellFormed) {g : RecGroup}
    (hg : g ∈ ts.recGroups) {ids : List ℕ} (hlen : g.start ≤ ids.length)
    (hids : ∀ c ∈ ids, c < 2 ^ 32) : (ts.groupKey ids g).Fits := by
  refine TypeSection.groupKey_fits_of hts.lengths fun t ht r hr => ?_
  have hbounds := hts.groupsFrom.bounds hg
  have hcount := hts.count_le
  unfold refKey
  split
  · next hin =>
    rw [RecGroup.contains_iff] at hin
    show r - g.start < 2 ^ 32
    omega
  · next hout =>
    have hlt := hts.ref_lt hg ht hr (by simpa using hout)
    rw [List.getElem?_eq_getElem (by omega)]
    exact hids _ (List.getElem_mem _)

/-! ## Tables decide equality -/

/-- Identities keyed by a table with disjoint blocks are equal iff the types are iso-recursively
equal. -/
theorem eq_iff_isoEq {P : GroupKey → Prop} {base : GroupKey → Option ℕ} {next : ℕ}
    (T : BlockTable P List.length base next) {A B : TypeSection} (hA : A.WellFormed)
    (hB : B.WellFormed) {idsA idsB : List ℕ} (hidsA : KeyedBy base A A.recGroups idsA)
    (hidsB : KeyedBy base B B.recGroups idsB)
    (hPA : ∀ g ∈ A.recGroups, P (A.groupKey idsA g))
    (hPB : ∀ g ∈ B.recGroups, P (B.groupKey idsB g)) {t u : ℕ} (ht : t < A.compTypes.length)
    (hu : u < B.compTypes.length) : idsA[t]? = idsB[u]? ↔ IsoEq A B t u := by
  induction t using Nat.strong_induction_on generalizing u with
  | _ t ih =>
  obtain ⟨g, hg, hgt⟩ := hA.exists_group ht
  obtain ⟨h, hh, hhu⟩ := hB.exists_group hu
  obtain ⟨bg, hbg, -⟩ := hidsA g hg
  obtain ⟨bh, hbh, -⟩ := hidsB h hh
  have hgt' := RecGroup.contains_iff.mp hgt
  have hhu' := RecGroup.contains_iff.mp hhu
  have hgb := hA.groupsFrom.bounds hg
  have hhb := hB.groupsFrom.bounds hh
  -- the two identities are equal iff the keys and the positions are
  have hkey : idsA[t]? = idsB[u]? ↔
      A.groupKey idsA g = B.groupKey idsB h ∧ t - g.start = u - h.start := by
    rw [hidsA.getElem? hg hbg hgt, hidsB.getElem? hh hbh hhu, Option.some_inj]
    constructor
    · intro heq
      exact T.eq_of_add_eq (hPA g hg) (hPB h hh) hbg hbh (by simp; omega) (by simp; omega) heq
    · rintro ⟨hk, hpos⟩
      rw [hk, hbh, Option.some_inj] at hbg
      omega
  -- the keys are equal iff the members are, up to their references
  have hrel : A.groupKey idsA g = B.groupKey idsB h ↔
      List.Forall₂ (MemberShape.Rel (SameRef g h fun r s => ∃ _ : r < t, IsoEq A B r s))
        (A.groupMembers g) (B.groupMembers h) := by
    refine map_eq_map_iff_forall₂ fun x hx y hy => MemberShape.map_eq_map_iff_rel ?_
    intro r hr s hs
    obtain ⟨tx, htx, rfl⟩ := TypeSection.mem_groupMembers.mp hx
    obtain ⟨uy, huy, rfl⟩ := TypeSection.mem_groupMembers.mp hy
    unfold refKey SameRef
    cases hcr : g.contains r with
    | true =>
      cases hcs : h.contains s with
      | true => simp
      | false => cases idsB[s]? <;> simp
    | false =>
      have hrt : r < g.start := hA.ref_lt hg htx hr hcr
      obtain ⟨c, hc⟩ := hidsA.exists_id hA (t := r) (by omega)
      cases hcs : h.contains s with
      | true => simp [hc]
      | false =>
        have hsu : s < h.start := hB.ref_lt hh huy hs hcs
        obtain ⟨d, hd⟩ := hidsB.exists_id hB (t := s) (by omega)
        have hiff := ih r (by omega) (by omega) (u := s) (by omega)
        rw [hc, hd, Option.some_inj] at hiff
        have hlt : r < t := by omega
        simp [hc, hd, hiff, hlt]
  rw [hkey, hrel, IsoEq, hA.groups_eq, hB.groups_eq]
  constructor
  · rintro ⟨hmem, hpos⟩
    exact ⟨g, hg, h, hh, hgt, hhu, hpos, hmem⟩
  · rintro ⟨g', hg', h', hh', hgt₂, hhu₂, hpos, hmem⟩
    obtain rfl := hA.groupsFrom.unique hg' hg hgt₂ hgt
    obtain rfl := hB.groupsFrom.unique hh' hh hhu₂ hhu
    exact ⟨hmem, hpos⟩

/-- Types with equal identities have equal definitions, references read as identities. -/
theorem member_eq_of_id_eq {P : GroupKey → Prop} {base : GroupKey → Option ℕ} {next : ℕ}
    (T : BlockTable P List.length base next) {A B : TypeSection} (hA : A.WellFormed)
    (hB : B.WellFormed) {idsA idsB : List ℕ} (hidsA : KeyedBy base A A.recGroups idsA)
    (hidsB : KeyedBy base B B.recGroups idsB)
    (hPA : ∀ g ∈ A.recGroups, P (A.groupKey idsA g))
    (hPB : ∀ g ∈ B.recGroups, P (B.groupKey idsB g)) {t u : ℕ} (ht : t < A.compTypes.length)
    (hu : u < B.compTypes.length) (h : idsA[t]? = idsB[u]?) :
    (A.member t).map (idsA[·]?) = (B.member u).map (idsB[·]?) := by
  obtain ⟨g, hg, hgt⟩ := hA.exists_group ht
  obtain ⟨h', hh, hhu⟩ := hB.exists_group hu
  obtain ⟨bg, hbg, -⟩ := hidsA g hg
  obtain ⟨bh, hbh, -⟩ := hidsB h' hh
  rw [hidsA.getElem? hg hbg hgt, hidsB.getElem? hh hbh hhu, Option.some_inj] at h
  have hgt' := RecGroup.contains_iff.mp hgt
  have hhu' := RecGroup.contains_iff.mp hhu
  obtain ⟨hkey, hpos⟩ := T.eq_of_add_eq (hPA g hg) (hPB h' hh) hbg hbh (by simp; omega)
    (by simp; omega) h
  have hbase : bg = bh := by omega
  have hmA := hidsA.resolve_member hg hbg hgt
  have hmB := hidsB.resolve_member hh hbh hhu
  rw [hkey, hpos, hbase, hmB, Option.some_inj] at hmA
  exact hmA.symm

end Wasmrt
