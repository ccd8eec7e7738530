import Wasmrt.TypeIdentity.Canonical

/-!
# The store's type registry

`TypeRegistry` makes types comparable across modules. As a module joins the store its rec groups are
interned in order, each under a key that names earlier groups by their store-wide ids, and the
declared supertype of every id is recorded.

Ids are `u32`, handed out by a saturating counter. As long as the counter stays below its ceiling the
registry identifies exactly the iso-recursively equal types, and its subtype walk answers what the
module's own walk answers.

## Main definitions

* `TypeRegistry`, `intern`, `assign`, `idsReadonly`, `isSubtype`: the registry of the source.
* `assignAll`: a sequence of modules joining the store.
* `TypeRegistry.Inv`: the invariant of an unsaturated registry.
* `Registered reg ts ids`: the registry has given the types of `ts` the ids `ids`.

## Main results

* `assign_inv`: joining keeps the invariant, the ids given out before, and gives a module its ids.
* `Registered.id_eq_iff`: ids are equal iff the types are iso-recursively equal.
* `Registered.isSubtype_eq`: subtyping on ids is subtyping in the module.
* `Registered.idsReadonly_eq`: the read-only computation returns the assigned ids.
-/

namespace Wasmrt

/-- Largest `u32`. -/
def u32Max : ℕ := 2 ^ 32 - 1

/-- `u32` addition wraps. -/
def wrap32 (n : ℕ) : ℕ := n % 2 ^ 32

/-- Store-wide type identity. `groups` maps the key of each distinct rec group to the id of its
first member, `supers` the id of a type to that of its declared supertype, and `next` is the next
unused id. -/
structure TypeRegistry where
  groups : List (List UInt8 × ℕ) := []
  supers : List (Option ℕ) := []
  next : ℕ := 0
  deriving DecidableEq, Repr

namespace TypeRegistry

/-- The id of a type the store has never seen. -/
def unknownType : ℕ := u32Max

/-- Grow the supertype table to hold `len` entries from `base` on and write them. -/
def recordSupers (supers : List (Option ℕ)) (base len : ℕ) (memberSupers : List (Option ℕ)) :
    List (Option ℕ) :=
  let resized :=
    if supers.length < base + len then supers ++ List.replicate (base + len - supers.length) none
    else supers
  memberSupers.zipIdx.foldl (fun acc p => acc.set (base + p.2) p.1) resized

/-- Give a new group the next `len` ids. The counter saturates. -/
def insertGroup (reg : TypeRegistry) (key : List UInt8) (len : ℕ)
    (memberSupers : List (Option ℕ)) : TypeRegistry where
  groups := (key, reg.next) :: reg.groups
  supers := recordSupers reg.supers reg.next len memberSupers
  next := min (reg.next + max len 1) u32Max

/-- The id of the first member of the group with this key, interning it if new. -/
def intern (reg : TypeRegistry) (key : List UInt8) (len : ℕ) (memberSupers : List (Option ℕ)) :
    ℕ × TypeRegistry :=
  match reg.groups.lookup key with
  | some base => (base, reg)
  | none => (reg.next, reg.insertGroup key len memberSupers)

/-- The declared supertype recorded for an id. -/
def super (reg : TypeRegistry) (c : ℕ) : Option ℕ := (reg.supers[c]?).join

/-- Is id `sub` a declared subtype of id `sup`? A supertype has a lower id. -/
def isSubtype (reg : TypeRegistry) (sub sup : ℕ) : Bool :=
  ParentSearch.search reg.super (· == sup) (sub + 1) sub

/-- Each member's declared supertype as a store-wide id: an earlier member of the group resolves
against the block at `base`, anything else has its id already. -/
def memberSupers (ts : TypeSection) (ids : List ℕ) (g : RecGroup) (base : ℕ) : List (Option ℕ) :=
  (List.range g.len).map fun i =>
    (ts.supertype (g.start + i)).bind fun s =>
      if g.contains s then some (wrap32 (base + (s - g.start))) else ids[s]?

/-- One round of `assign`: intern a group and append the ids of its members. -/
def assignStep (ts : TypeSection) (st : TypeRegistry × List ℕ) (g : RecGroup) :
    TypeRegistry × List ℕ :=
  let key := recGroupKey ts st.2 g
  let baseGuess := (st.1.groups.lookup key).getD st.1.next
  let r := st.1.intern key g.len (memberSupers ts st.2 g baseGuess)
  (r.2, st.2 ++ (List.range g.len).map fun i => wrap32 (r.1 + i))

/-- Assign store-wide ids to every type of a module, in group order. -/
def assign (reg : TypeRegistry) (ts : TypeSection) : TypeRegistry × List ℕ :=
  ts.groups.foldl (assignStep ts) (reg, [])

/-- One round of `idsReadonly`. -/
def idsReadonlyStep (reg : TypeRegistry) (ts : TypeSection) (ids : List ℕ) (g : RecGroup) :
    List ℕ :=
  match reg.groups.lookup (recGroupKey ts ids g) with
  | some base => ids ++ List.range' base (wrap32 (base + g.len) - base)
  | none => ids ++ List.replicate g.len unknownType

/-- The ids of a module's types without interning anything. -/
def idsReadonly (reg : TypeRegistry) (ts : TypeSection) : List ℕ :=
  ts.groups.foldl (reg.idsReadonlyStep ts) []

/-- A sequence of modules joining the store: the registry afterwards, and the ids each was given. -/
def assignAll (reg : TypeRegistry) : List TypeSection → TypeRegistry × List (List ℕ)
  | [] => (reg, [])
  | ts :: rest =>
    let r := reg.assign ts
    let rs := r.1.assignAll rest
    (rs.1, r.2 :: rs.2)

/-! ## The invariant -/

/-- The invariant of a registry whose counter has not reached its ceiling: groups have disjoint
blocks of ids, and the recorded supertype of a member is the one its group's key names. -/
structure Inv (reg : TypeRegistry) : Prop where
  next_lt : reg.next < u32Max
  table : BlockTable GroupKey.Fits List.length (baseIn reg.groups) reg.next
  supers_length : reg.supers.length ≤ reg.next
  super_eq : ∀ ⦃k b⦄, GroupKey.Fits k → baseIn reg.groups k = some b → ∀ i < k.length,
    reg.super (b + i) = ((k[i]?).bind (·.super)).bind (RefKey.resolve b)
  super_lt : ∀ ⦃c s⦄, reg.super c = some s → s < c

theorem inv_empty : Inv {} where
  next_lt := by decide
  table := .empty fun _ => rfl
  supers_length := Nat.le_refl _
  super_eq := by simp [baseIn]
  super_lt := by simp [super]

/-- `ids` are the ids the registry has given the types of `ts`. -/
structure Registered (reg : TypeRegistry) (ts : TypeSection) (ids : List ℕ) : Prop where
  length_eq : ids.length = ts.compTypes.length
  keyed : KeyedBy (baseIn reg.groups) ts ts.recGroups ids
  lt_next : ∀ c ∈ ids, c < reg.next

/-! ## Recording supertypes -/

private theorem getElem?_foldl_set (xs : List (Option ℕ)) (base : ℕ) (l : List (Option ℕ)) (n : ℕ)
    (hlen : base + n + xs.length ≤ l.length) (c : ℕ) :
    ((xs.zipIdx n).foldl (fun acc p => acc.set (base + p.2) p.1) l)[c]? =
      if base + n ≤ c ∧ c < base + n + xs.length then xs[c - (base + n)]? else l[c]? := by
  induction xs generalizing n l with
  | nil =>
    rw [if_neg (by simp)]
    rfl
  | cons x xs ih =>
    rw [List.length_cons] at hlen
    rw [List.zipIdx_cons, List.foldl_cons, ih _ _ (by rw [List.length_set]; omega)]
    simp only [List.length_cons]
    by_cases hc : c = base + n
    · subst hc
      rw [if_neg (by omega), if_pos (by omega), List.getElem?_set_self (by omega)]
      simp
    · rw [List.getElem?_set_ne (by omega)]
      by_cases hin : base + (n + 1) ≤ c ∧ c < base + (n + 1) + xs.length
      · rw [if_pos hin, if_pos (by omega),
          show c - (base + n) = (c - (base + (n + 1))) + 1 by omega, List.getElem?_cons_succ]
      · rw [if_neg hin, if_neg (by omega)]

/-- The block from `base` on holds the new supertypes, every other entry is unchanged. -/
private theorem join_recordSupers {supers ms : List (Option ℕ)} {base len : ℕ}
    (hlen : ms.length = len) (c : ℕ) :
    ((recordSupers supers base len ms)[c]?).join =
      if base ≤ c ∧ c < base + len then (ms[c - base]?).join else (supers[c]?).join := by
  unfold recordSupers
  subst hlen
  split
  · next hlt =>
    rw [getElem?_foldl_set _ _ _ _ (by simp; omega)]
    by_cases hc : base ≤ c ∧ c < base + ms.length
    · rw [if_pos (by omega), if_pos hc, Nat.add_zero]
    · rw [if_neg (by omega), if_neg hc]
      by_cases hcl : c < supers.length
      · rw [List.getElem?_append_left hcl]
      · rw [List.getElem?_append_right (by omega), List.getElem?_replicate,
          List.getElem?_eq_none (l := supers) (by omega)]
        split <;> rfl
  · rw [getElem?_foldl_set _ _ _ _ (by omega)]
    simp only [Nat.add_zero]
    split <;> rfl

private theorem length_recordSupers {supers ms : List (Option ℕ)} {base len : ℕ} :
    (recordSupers supers base len ms).length = max supers.length (base + len) := by
  have hfold : ∀ (xs : List (Option ℕ × ℕ)) (l : List (Option ℕ)),
      (xs.foldl (fun acc p => acc.set (base + p.2) p.1) l).length = l.length := by
    intro xs
    induction xs with
    | nil => exact fun _ => rfl
    | cons x xs ih => exact fun l => by rw [List.foldl_cons, ih, List.length_set]
  unfold recordSupers
  rw [hfold]
  split
  · simp; omega
  · omega

/-! ## Interning -/

theorem next_le_intern {reg : TypeRegistry} (h : reg.next ≤ u32Max) (key : List UInt8) (len : ℕ)
    (ms : List (Option ℕ)) :
    reg.next ≤ (reg.intern key len ms).2.next ∧ (reg.intern key len ms).2.next ≤ u32Max := by
  unfold intern
  split
  · exact ⟨Nat.le_refl _, h⟩
  · simp only [insertGroup]
    omega

theorem super_insertGroup {reg : TypeRegistry} {key : List UInt8} {len : ℕ} {ms : List (Option ℕ)}
    (hlen : ms.length = len) (c : ℕ) :
    (reg.insertGroup key len ms).super c =
      if reg.next ≤ c ∧ c < reg.next + len then (ms[c - reg.next]?).join else reg.super c :=
  join_recordSupers hlen c

/-- A new group, interned below the ceiling, keeps the invariant. The recorded supertypes are those
the key names. -/
theorem Inv.insertGroup {reg : TypeRegistry} (h : reg.Inv) {k : GroupKey} (hk : k.Fits)
    (ms : List (Option ℕ)) (hlen : ms.length = k.length)
    (hms : ∀ i < k.length,
      (ms[i]?).join = ((k[i]?).bind (·.super)).bind (RefKey.resolve reg.next))
    (hlt : ∀ i < k.length, ∀ s, (ms[i]?).join = some s → s < reg.next + i)
    (hsat : (reg.insertGroup k.bytes k.length ms).next < u32Max) :
    (reg.insertGroup k.bytes k.length ms).Inv := by
  have hnext : reg.next + k.length ≤ (reg.insertGroup k.bytes k.length ms).next := by
    simp only [TypeRegistry.insertGroup] at hsat ⊢
    omega
  refine ⟨hsat, h.table.insert (k := k) (fun k' hk' => baseIn_cons hk hk' _) hnext, ?_, ?_, ?_⟩
  · have := h.supers_length
    rw [show (reg.insertGroup k.bytes k.length ms).supers.length = _ from length_recordSupers]
    omega
  · intro k' b hk' hbk' i hi
    rw [show (reg.insertGroup k.bytes k.length ms).groups = (k.bytes, reg.next) :: reg.groups
      from rfl, baseIn_cons hk hk'] at hbk'
    rw [super_insertGroup hlen]
    split at hbk'
    · next heq =>
      subst heq
      obtain rfl := Option.some.inj hbk'
      rw [if_pos (by omega), Nat.add_sub_cancel_left]
      exact hms i hi
    · have := h.table.below hk' hbk'
      rw [if_neg (by omega)]
      exact h.super_eq hk' hbk' i hi
  · intro c s hs
    rw [super_insertGroup hlen] at hs
    split at hs
    · have := hlt (c - reg.next) (by omega) s hs
      omega
    · exact h.super_lt hs

/-! ## Joining the store -/

variable {ts : TypeSection}

/-- What `assign` has established after the groups `gs`, starting from the registry `reg₀`. -/
private structure AssignInv (reg₀ : TypeRegistry) (ts : TypeSection) (gs : List RecGroup)
    (st : TypeRegistry × List ℕ) : Prop where
  inv : st.1.Inv
  groups : GroupsFrom 0 gs st.2.length
  keyed : KeyedBy (baseIn st.1.groups) ts gs st.2
  lt_next : ∀ c ∈ st.2, c < st.1.next
  next_le : reg₀.next ≤ st.1.next
  mono : ∀ k b, k.Fits → baseIn reg₀.groups k = some b → baseIn st.1.groups k = some b

private theorem AssignInv.fits {reg₀ : TypeRegistry} {gs : List RecGroup}
    {st : TypeRegistry × List ℕ} (hts : ts.WellFormed) (h : AssignInv reg₀ ts gs st)
    {g : RecGroup} (hg : g ∈ ts.recGroups) (hlen : g.start ≤ st.2.length) :
    (ts.groupKey st.2 g).Fits := by
  refine hts.groupKey_fits hg hlen fun c hc => ?_
  have hc := h.lt_next c hc
  have hsat := h.inv.next_lt
  unfold u32Max at hsat
  omega

/-- Ids of a block that ends below the ceiling do not wrap. -/
private theorem map_wrap32 {b len : ℕ} (h : b + len ≤ 2 ^ 32) :
    ((List.range len).map fun i => wrap32 (b + i)) = (List.range len).map (b + ·) := by
  refine List.map_congr_left fun i hi => ?_
  rw [List.mem_range] at hi
  exact Nat.mod_eq_of_lt (by omega)

@[simp]
private theorem length_memberSupers (ids : List ℕ) (g : RecGroup) (base : ℕ) :
    (memberSupers ts ids g base).length = g.len := by
  simp [memberSupers]

/-- The supertypes passed to `intern` are those the key names, when the block does not wrap. -/
private theorem getElem?_memberSupers (ids : List ℕ) {g : RecGroup} {b i : ℕ}
    (hb : b + g.len ≤ 2 ^ 32) (hi : i < g.len) :
    ((memberSupers ts ids g b)[i]?).join =
      (((ts.groupKey ids g)[i]?).bind (·.super)).bind (RefKey.resolve b) := by
  have hmem : g.contains (g.start + i) = true := RecGroup.contains_iff.mpr (by omega)
  have hget : (ts.groupMembers g)[g.start + i - g.start]? = _ :=
    TypeSection.getElem?_groupMembers hmem
  rw [Nat.add_sub_cancel_left] at hget
  rw [memberSupers, List.getElem?_map, List.getElem?_range hi, Option.map_some, Option.join_some,
    TypeSection.groupKey, List.getElem?_map, hget, Option.map_some, Option.bind_some]
  simp only [MemberShape.map, TypeSection.member]
  cases hs : ts.supertype (g.start + i) with
  | none => rfl
  | some s =>
    simp only [Option.bind_some, Option.map_some, refKey]
    split
    · next hin =>
      rw [RecGroup.contains_iff] at hin
      rw [RefKey.resolve, wrap32, Nat.mod_eq_of_lt (by omega)]
    · cases ids[s]? <;> rfl

/-- A member's supertype has a lower id: an earlier position of the block, or an id below it. -/
private theorem lt_of_memberSupers (hts : ts.WellFormed) {ids : List ℕ} {g : RecGroup} {b i s : ℕ}
    (hb : b + g.len ≤ 2 ^ 32) (hids : ∀ c ∈ ids, c < b) (hi : i < g.len)
    (hs : ((memberSupers ts ids g b)[i]?).join = some s) : s < b + i := by
  rw [memberSupers, List.getElem?_map, List.getElem?_range hi, Option.map_some,
    Option.join_some] at hs
  obtain ⟨t, ht, hs⟩ := Option.bind_eq_some_iff.mp hs
  have hlt := hts.super_lt ht
  split at hs
  · next hin =>
    rw [RecGroup.contains_iff] at hin
    rw [wrap32, Nat.mod_eq_of_lt (by omega), Option.some_inj] at hs
    omega
  · have := hids s (List.mem_of_getElem? hs)
    omega

private theorem assignStep_of_some {st : TypeRegistry × List ℕ} {g : RecGroup} {b : ℕ}
    (hb : baseIn st.1.groups (ts.groupKey st.2 g) = some b) :
    assignStep ts st g = (st.1, st.2 ++ (List.range g.len).map fun i => wrap32 (b + i)) := by
  rw [baseIn] at hb
  simp [assignStep, intern, recGroupKey_eq_bytes, hb]

private theorem assignStep_of_none {st : TypeRegistry × List ℕ} {g : RecGroup}
    (hb : baseIn st.1.groups (ts.groupKey st.2 g) = none) :
    assignStep ts st g =
      (st.1.insertGroup (ts.groupKey st.2 g).bytes g.len (memberSupers ts st.2 g st.1.next),
        st.2 ++ (List.range g.len).map fun i => wrap32 (st.1.next + i)) := by
  rw [baseIn] at hb
  simp [assignStep, intern, recGroupKey_eq_bytes, hb]

/-- One round of `assign`, when the counter stays below its ceiling. -/
private theorem AssignInv.step {reg₀ : TypeRegistry} (hts : ts.WellFormed) {gs : List RecGroup}
    {st : TypeRegistry × List ℕ} (h : AssignInv reg₀ ts gs st) {g : RecGroup}
    (hmem : ∀ g' ∈ gs ++ [g], g' ∈ ts.recGroups) (hg : g.start = st.2.length)
    (hsat : (assignStep ts st g).1.next < u32Max) :
    AssignInv reg₀ ts (gs ++ [g]) (assignStep ts st g) := by
  have hgmem := hmem g (by simp)
  have hfits := h.fits hts hgmem hg.le
  have hgroups : GroupsFrom 0 (gs ++ [g]) (st.2.length + g.len) := h.groups.append ⟨hg, rfl⟩
  have hklen : (ts.groupKey st.2 g).length = g.len := ts.length_groupKey _ _
  cases hb : baseIn st.1.groups (ts.groupKey st.2 g) with
  | some b =>
    have hbelow := h.inv.table.below hfits hb
    have hnext := h.inv.next_lt
    unfold u32Max at hnext
    rw [hklen] at hbelow
    rw [assignStep_of_some hb, map_wrap32 (by omega)]
    refine ⟨h.inv, by simpa using hgroups, ?_, ?_, h.next_le, h.mono⟩
    · exact h.keyed.snoc hts hmem h.groups hg (fun _ _ _ hb' => hb') hb
    · intro c hc
      rcases List.mem_append.mp hc with hc | hc
      · exact h.lt_next c hc
      · obtain ⟨i, hi, rfl⟩ := List.mem_map.mp hc
        rw [List.mem_range] at hi
        simp only
        omega
  | none =>
    rw [assignStep_of_none hb] at hsat ⊢
    have hnext : st.1.next + g.len ≤ (st.1.insertGroup (ts.groupKey st.2 g).bytes g.len
        (memberSupers ts st.2 g st.1.next)).next := by
      simp only [insertGroup] at hsat ⊢
      omega
    have hroom : st.1.next + g.len ≤ 2 ^ 32 := by
      unfold u32Max at hsat
      simp only at hsat
      omega
    rw [map_wrap32 hroom]
    have hbase : ∀ k : GroupKey, k.Fits → baseIn (st.1.insertGroup (ts.groupKey st.2 g).bytes g.len
        (memberSupers ts st.2 g st.1.next)).groups k =
          if k = ts.groupKey st.2 g then some st.1.next else baseIn st.1.groups k :=
      fun k hk => baseIn_cons hfits hk _
    have hold : ∀ k : GroupKey, ∀ b, k.Fits → baseIn st.1.groups k = some b →
        baseIn (st.1.insertGroup (ts.groupKey st.2 g).bytes g.len
          (memberSupers ts st.2 g st.1.next)).groups k = some b := by
      intro k b hk hkb
      rw [hbase k hk, if_neg, hkb]
      rintro rfl
      rw [hb] at hkb
      cases hkb
    have hinv := h.inv.insertGroup hfits (memberSupers ts st.2 g st.1.next)
      (by simp) (fun i hi => getElem?_memberSupers _ hroom (hklen ▸ hi))
      (fun i hi s hs => lt_of_memberSupers hts hroom h.lt_next (hklen ▸ hi) hs)
      (by rw [hklen]; exact hsat)
    rw [hklen] at hinv
    refine ⟨hinv, by simpa using hgroups, ?_, ?_, ?_, ?_⟩
    · refine h.keyed.snoc hts hmem h.groups hg ?_ ?_
      · intro g' hg' b hb'
        have hg'b := h.groups.bounds hg'
        exact hold _ b (h.fits hts (hmem g' (by simp [hg'])) (by omega)) hb'
      · rw [hbase _ hfits, if_pos rfl]
    · intro c hc
      simp only
      rcases List.mem_append.mp hc with hc | hc
      · have := h.lt_next c hc
        omega
      · obtain ⟨i, hi, rfl⟩ := List.mem_map.mp hc
        rw [List.mem_range] at hi
        omega
    · have := h.next_le
      simp only
      omega
    · exact fun k b hk hkb => hold k b hk (h.mono k b hk hkb)

private theorem next_le_assignStep (ts : TypeSection) {st : TypeRegistry × List ℕ} (h : st.1.next ≤ u32Max)
    (g : RecGroup) :
    st.1.next ≤ (assignStep ts st g).1.next ∧ (assignStep ts st g).1.next ≤ u32Max :=
  next_le_intern h _ _ _

private theorem next_le_foldl (ts : TypeSection) {st : TypeRegistry × List ℕ} (h : st.1.next ≤ u32Max)
    (gs : List RecGroup) : st.1.next ≤ (gs.foldl (assignStep ts) st).1.next ∧
      (gs.foldl (assignStep ts) st).1.next ≤ u32Max := by
  induction gs generalizing st with
  | nil => exact ⟨Nat.le_refl _, h⟩
  | cons g gs ih =>
    obtain ⟨hle, hmax⟩ := next_le_assignStep ts h g
    obtain ⟨hle', hmax'⟩ := ih hmax
    exact ⟨hle.trans hle', hmax'⟩

/-- The counter never falls, and never passes its ceiling. -/
theorem next_le_assign {reg : TypeRegistry} (h : reg.next ≤ u32Max) (ts : TypeSection) :
    reg.next ≤ (reg.assign ts).1.next ∧ (reg.assign ts).1.next ≤ u32Max :=
  next_le_foldl ts (show (reg, ([] : List ℕ)).1.next ≤ u32Max from h) _

/-- All of `assign`. A counter below the ceiling at the end was below it throughout. -/
private theorem AssignInv.foldl {reg₀ : TypeRegistry} (hts : ts.WellFormed)
    {rest gs : List RecGroup} {st : TypeRegistry × List ℕ} (h : AssignInv reg₀ ts gs st)
    (hsplit : gs ++ rest = ts.recGroups)
    (hsat : (rest.foldl (assignStep ts) st).1.next < u32Max) :
    AssignInv reg₀ ts ts.recGroups (rest.foldl (assignStep ts) st) := by
  induction rest generalizing gs st with
  | nil =>
    rw [List.append_nil] at hsplit
    exact hsplit ▸ h
  | cons g rest ih =>
    rw [List.foldl_cons] at hsat ⊢
    have hstep := next_le_assignStep ts h.inv.next_lt.le g
    have hrest := next_le_foldl ts hstep.2 rest
    refine ih (h.step hts ?_ ?_ (by omega)) (by simpa using hsplit) hsat
    · intro g' hg'
      rw [← hsplit]
      simp only [List.mem_append, List.mem_cons, List.not_mem_nil, or_false] at hg' ⊢
      tauto
    · have := hts.groupsFrom
      rw [← hsplit] at this
      exact this.start_eq h.groups

/-- Every group of a registered section has a key that fits. -/
theorem Registered.fits {reg : TypeRegistry} (hreg : reg.Inv) (hts : ts.WellFormed) {ids : List ℕ}
    (h : Registered reg ts ids) {g : RecGroup} (hg : g ∈ ts.recGroups) :
    (ts.groupKey ids g).Fits := by
  have hb := hts.groupsFrom.bounds hg
  have hlen := h.length_eq
  refine hts.groupKey_fits hg (by omega) fun c hc => ?_
  have hc := h.lt_next c hc
  have hsat := hreg.next_lt
  unfold u32Max at hsat
  omega

/-- Joining the store below the ceiling keeps the invariant, gives the module its ids, and leaves
the ids of the modules already there. -/
theorem assign_inv {reg : TypeRegistry} (h : reg.Inv) (hts : ts.WellFormed)
    (hsat : (reg.assign ts).1.next < u32Max) :
    (reg.assign ts).1.Inv ∧ Registered (reg.assign ts).1 ts (reg.assign ts).2 ∧
      ∀ ts' ids', ts'.WellFormed → Registered reg ts' ids' →
        Registered (reg.assign ts).1 ts' ids' := by
  have hinit : AssignInv reg ts [] (reg, []) :=
    ⟨h, rfl, by simp [KeyedBy], by simp, Nat.le_refl _, fun _ _ _ hb => hb⟩
  have hassign : reg.assign ts = ts.recGroups.foldl (assignStep ts) (reg, []) := by
    rw [assign, hts.groups_eq]
  rw [hassign] at hsat ⊢
  have hinv := hinit.foldl hts rfl hsat
  refine ⟨hinv.inv, ⟨hinv.groups.unique_end hts.groupsFrom, hinv.keyed, hinv.lt_next⟩, ?_⟩
  intro ts' ids' hts' hreg'
  refine ⟨hreg'.length_eq, fun g hg => ?_, fun c hc => ?_⟩
  · obtain ⟨b, hb, hids⟩ := hreg'.keyed g hg
    exact ⟨b, hinv.mono _ b (hreg'.fits h hts' hg) hb, hids⟩
  · exact Nat.lt_of_lt_of_le (hreg'.lt_next c hc) hinv.next_le

/-! ## What joining leaves alone -/

private theorem super_assignStep {st : TypeRegistry × List ℕ} {c : ℕ} (hc : c < st.1.next)
    (g : RecGroup) : (assignStep ts st g).1.super c = st.1.super c := by
  simp only [assignStep, intern]
  split
  · rfl
  · rw [super_insertGroup (length_memberSupers _ _ _), if_neg (by omega)]

/-- The supertype of an id that is given out never changes. -/
theorem super_assign {reg : TypeRegistry} (h : reg.next ≤ u32Max) (ts : TypeSection) {c : ℕ}
    (hc : c < reg.next) : (reg.assign ts).1.super c = reg.super c := by
  have hfold : ∀ (gs : List RecGroup) (st : TypeRegistry × List ℕ), st.1.next ≤ u32Max →
      c < st.1.next → (gs.foldl (assignStep ts) st).1.super c = st.1.super c := by
    intro gs
    induction gs with
    | nil => exact fun _ _ _ => rfl
    | cons g gs ih =>
      intro st hst hlt
      have hle := next_le_assignStep ts hst g
      rw [List.foldl_cons, ih _ hle.2 (by omega), super_assignStep hlt]
  exact hfold _ _ h hc

/-- Neither does what lies below another id. -/
theorem isSubtype_assign {reg : TypeRegistry} (h : reg.Inv) (ts : TypeSection)
    (hdesc : ParentSearch.Descending id (reg.assign ts).1.super) {a b : ℕ} (ha : a < reg.next) :
    (reg.assign ts).1.isSubtype a b = reg.isSubtype a b := by
  refine ParentSearch.search_congr_map (P := (· < reg.next)) id
    (show ParentSearch.Descending id reg.super from fun _ _ hs => h.super_lt hs) hdesc ?_ ?_ ?_ ha (Nat.lt_succ_self a) (Nat.lt_succ_self a)
  · intro c s hc hs
    exact (h.super_lt hs).trans hc
  · intro c hc
    rw [id, super_assign h.next_lt.le ts hc, Option.map_id_fun, id]
  · exact fun _ _ => rfl

/-! ## What a registered module sees -/

section Registered

variable {reg : TypeRegistry} {A B : TypeSection} {idsA idsB ids : List ℕ}

/-- A type of a registered module has an id. -/
theorem Registered.exists_id (h : Registered reg ts ids) {t : ℕ}
    (ht : t < ts.compTypes.length) : ∃ c, ids[t]? = some c :=
  ⟨_, List.getElem?_eq_getElem (by rw [h.length_eq]; exact ht)⟩

/-- Ids of two registered modules are equal iff the types are iso-recursively equal. -/
theorem Registered.id_eq_iff (hreg : reg.Inv) (hA : A.WellFormed) (hB : B.WellFormed)
    (hidsA : Registered reg A idsA) (hidsB : Registered reg B idsB) {t u : ℕ}
    (ht : t < A.compTypes.length) (hu : u < B.compTypes.length) :
    idsA[t]? = idsB[u]? ↔ IsoEq A B t u :=
  eq_iff_isoEq hreg.table hA hB hidsA.keyed hidsB.keyed (fun _ hg => hidsA.fits hreg hA hg)
    (fun _ hg => hidsB.fits hreg hB hg) ht hu

/-- Within one module, ids are equal iff the canonical indices are. -/
theorem Registered.id_eq_iff_canonId_eq (hreg : reg.Inv) (hts : ts.WellFormed)
    (h : Registered reg ts ids) {t u : ℕ} (ht : t < ts.compTypes.length)
    (hu : u < ts.compTypes.length) : ids[t]? = ids[u]? ↔ ts.canonId t = ts.canonId u := by
  rw [h.id_eq_iff hreg hts hts h ht hu, hts.canonId_eq_iff ht hu]

/-- The supertype recorded for an id is the id of the declared supertype. -/
theorem Registered.super_eq (hreg : reg.Inv) (hts : ts.WellFormed) (h : Registered reg ts ids)
    {t c : ℕ} (hc : ids[t]? = some c) : reg.super c = (ts.supertype t).bind (ids[·]?) := by
  have ht : t < ts.compTypes.length := by
    rw [← h.length_eq]
    exact (List.getElem?_eq_some_iff.mp hc).choose
  obtain ⟨g, hg, hgt⟩ := hts.exists_group ht
  obtain ⟨b, hb, -⟩ := h.keyed g hg
  have hgt' := RecGroup.contains_iff.mp hgt
  rw [h.keyed.getElem? hg hb hgt, Option.some_inj] at hc
  rw [← hc, hreg.super_eq (h.fits hreg hts hg) hb _ (by simp; omega)]
  have hm := h.keyed.resolve_member hg hb hgt
  cases hk : (ts.groupKey ids g)[t - g.start]? with
  | none => simp [hk] at hm
  | some x =>
    rw [hk, Option.map_some, Option.some_inj] at hm
    have hsuper := congrArg MemberShape.super hm
    simp only [MemberShape.map, TypeSection.member] at hsuper
    rw [Option.bind_some]
    cases hx : x.super <;> cases hs : ts.supertype t <;> simp_all

theorem descending_super (hreg : reg.Inv) : ParentSearch.Descending id reg.super :=
  fun _ _ h => hreg.super_lt h

/-- Subtyping on ids is subtyping in the module. -/
theorem Registered.isSubtype_eq (hreg : reg.Inv) (hts : ts.WellFormed) (h : Registered reg ts ids)
    {a b ia ib : ℕ} (ha : ids[a]? = some ia) (hb : ids[b]? = some ib) :
    reg.isSubtype ia ib = ts.isSubtype a b := by
  have hlt : ∀ {t c : ℕ}, ids[t]? = some c → t < ts.compTypes.length := by
    intro t c hc
    rw [← h.length_eq]
    exact (List.getElem?_eq_some_iff.mp hc).choose
  have hid : ∀ t < ts.compTypes.length, ids[t]? = some (ids.getD t 0) := by
    intro t ht
    obtain ⟨c, hc⟩ := h.exists_id ht
    rw [List.getD_eq_getElem?_getD, hc, Option.getD_some]
  have hia : ids.getD a 0 = ia := by rw [List.getD_eq_getElem?_getD, ha, Option.getD_some]
  rw [isSubtype, TypeSection.isSubtype, ← hia]
  -- the map from type indices to ids commutes with supertypes and with the tests
  refine ParentSearch.search_congr_map (P := (· < ts.compTypes.length)) (fun t => ids.getD t 0)
    hts.descending (descending_super hreg) ?_ ?_ ?_ (hlt ha) (Nat.lt_succ_self a)
    (Nat.lt_succ_self _)
  · intro c s hc hs
    exact (hts.super_lt hs).trans hc
  · intro c hc
    rw [h.super_eq hreg hts (hid c hc)]
    cases hs : ts.supertype c with
    | none => rfl
    | some s => exact hid s ((hts.super_lt hs).trans hc)
  · intro c hc
    have hiff := h.id_eq_iff_canonId_eq hreg hts hc (hlt hb)
    rw [hid c hc, hb, Option.some_inj] at hiff
    rw [Bool.eq_iff_iff, beq_iff_eq, beq_iff_eq]
    exact hiff

end Registered

/-! ## Sequences of modules -/

/-- The counter over a sequence of modules. -/
theorem next_le_assignAll {reg : TypeRegistry} (h : reg.next ≤ u32Max) (mods : List TypeSection) :
    reg.next ≤ (reg.assignAll mods).1.next ∧ (reg.assignAll mods).1.next ≤ u32Max := by
  induction mods generalizing reg with
  | nil => exact ⟨Nat.le_refl _, h⟩
  | cons ts rest ih =>
    obtain ⟨hle, hmax⟩ := next_le_assign h ts
    obtain ⟨hle', hmax'⟩ := ih hmax
    exact ⟨hle.trans hle', hmax'⟩

/-- After any sequence of modules that leaves the counter below its ceiling, every module of the
sequence has its ids, and so has every module registered before. -/
theorem assignAll_inv {reg : TypeRegistry} (h : reg.Inv) {mods : List TypeSection}
    (hmods : ∀ ts ∈ mods, ts.WellFormed) (hsat : (reg.assignAll mods).1.next < u32Max) :
    (reg.assignAll mods).1.Inv ∧
      List.Forall₂ (Registered (reg.assignAll mods).1) mods (reg.assignAll mods).2 ∧
      ∀ ts' ids', ts'.WellFormed → Registered reg ts' ids' →
        Registered (reg.assignAll mods).1 ts' ids' := by
  induction mods generalizing reg with
  | nil => exact ⟨h, .nil, fun _ _ _ hr => hr⟩
  | cons ts rest ih =>
    have hts := hmods ts (by simp)
    have hrest := next_le_assignAll (next_le_assign h.next_lt.le ts).2 rest
    have hsat' : ((reg.assign ts).1.assignAll rest).1.next < u32Max := hsat
    obtain ⟨hinv, hreg, hold⟩ := assign_inv h hts (by omega)
    obtain ⟨hinv', hall, hold'⟩ := ih hinv (fun ts' hts' => hmods ts' (by simp [hts'])) hsat'
    exact ⟨hinv', .cons (hold' _ _ hts hreg) hall,
      fun ts' ids' hts' hr => hold' _ _ hts' (hold _ _ hts' hr)⟩

end TypeRegistry

end Wasmrt
