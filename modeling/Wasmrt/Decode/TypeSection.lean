import Wasmrt.Decode.Reader
import Wasmrt.TypeIdentity.Canonical
import Wasmrt.Validate.Declarations

/-!
# Decoding the type section

`decode_type_section` after the bytes of each entry have been read: value types are resolved against
the kinds of all types of the section, supertypes are checked to be earlier types, rec groups are
recorded, and canonical identities computed.

## Main definitions

* `RawValType`, `RawCompType`, `SubType`: the entries as the binary spells them.
* `decodeTypeSection`: the type section of a list of rec groups.

## Main results

* `wellFormed_of_decode`: a section that decodes and passes the scope and link checks is well formed.
-/

namespace Wasmrt

/-- A value type as the binary spells it: concrete indices are not resolved. -/
inductive RawValType
  | i32 | i64 | f32 | f64 | v128
  | ref (nullable : Bool) (ht : HeapType)
  deriving DecidableEq, Repr

/-- A storage type as the binary spells it. -/
inductive RawStorageType
  | i8
  | i16
  | val (v : RawValType)
  deriving DecidableEq, Repr

/-- A field as the binary spells it. -/
structure RawFieldType where
  storage : RawStorageType
  mutable : Bool
  deriving DecidableEq, Repr

/-- A composite type as the binary spells it. -/
inductive RawCompType
  | func (params results : List RawValType)
  | struct (fields : List RawFieldType)
  | array (elem : RawFieldType)
  deriving DecidableEq, Repr

/-- The family of a composite type, which the pre-scan records. -/
def RawCompType.kind : RawCompType → CompKind
  | func _ _ => .func
  | struct _ => .struct
  | array _ => .array

/-- The vectors of an entry are read with a `u32` length. -/
def RawCompType.LengthsFit : RawCompType → Prop
  | func ps rs => ps.length < 2 ^ 32 ∧ rs.length < 2 ^ 32
  | struct fs => fs.length < 2 ^ 32
  | array _ => True

instance : DecidablePred RawCompType.LengthsFit := fun ct => by
  cases ct <;> unfold RawCompType.LengthsFit <;> infer_instance

/-- A sub type: its prefix and its composite type. -/
structure SubType where
  isFinal : Bool := true
  super : Option ℕ := none
  links : TypeLinks := {}
  comp : RawCompType
  deriving DecidableEq, Repr

/-- The abstract head of a heap type that names no type. -/
def HeapType.abstractHead : HeapType → RefHeap
  | func => .func
  | external => .external
  | noFunc => .noFunc
  | noExternal => .noExternal
  | noExn => .noExn
  | any => .any
  | eq => .eq
  | i31 => .i31
  | struct => .struct
  | array => .array
  | none => .none
  | exn => .exn
  | concrete _ | exact _ => .any

/-- Resolve a concrete index to its family, refusing one that does not fit its field. -/
def concreteKind (kinds : List CompKind) (ti : ℕ) : Except DecodeError CompKind := do
  ensure (decide (ti ≤ ValType.maxConcreteIndex)) .indexOutOfRange
  orError .indexOutOfRange kinds[ti]?

/-- Read a value type. -/
def readValType (kinds : List CompKind) : RawValType → Except DecodeError ValType
  | .i32 => pure .i32
  | .i64 => pure .i64
  | .f32 => pure .f32
  | .f64 => pure .f64
  | .v128 => pure .v128
  | .ref n (.concrete ti) => do
      let k ← concreteKind kinds ti
      pure (ValType.concreteRef n k ti)
  | .ref n (.exact ti) => do
      let k ← concreteKind kinds ti
      pure (ValType.exactRef n k ti)
  | .ref n ht => pure (ht.abstractHead.valType n)

/-- Read a field. -/
def readFieldType (kinds : List CompKind) (f : RawFieldType) : Except DecodeError FieldType :=
  match f.storage with
  | .i8 => pure ⟨.i8, f.mutable⟩
  | .i16 => pure ⟨.i16, f.mutable⟩
  | .val v => do
      let v ← readValType kinds v
      pure ⟨.val v, f.mutable⟩

/-- Read a composite type. -/
def decodeCompType (kinds : List CompKind) : RawCompType → Except DecodeError CompType
  | .func ps rs => do
      let params ← ps.mapM (readValType kinds)
      let results ← rs.mapM (readValType kinds)
      pure (.func ⟨params, results⟩)
  | .struct fs => do
      let fields ← fs.mapM (readFieldType kinds)
      pure (.struct fields)
  | .array f => do
      let f ← readFieldType kinds f
      pure (.array f)

/-- Read a sub type. A supertype must be a prior type. -/
def decodeSubType (kinds : List CompKind) (ts : TypeSection) (st : SubType) :
    Except DecodeError TypeSection := do
  ensure (st.super.all fun s => decide (s < ts.compTypes.length)) .badType
  let comp ← decodeCompType kinds st.comp
  pure { ts with
    compTypes := ts.compTypes ++ [comp]
    supertypes := ts.supertypes ++ [st.super]
    typeFinals := ts.typeFinals ++ [st.isFinal]
    typeLinks := ts.typeLinks ++ [st.links] }

/-- Read a rec group. -/
def decodeRecGroup (kinds : List CompKind) (ts : TypeSection) (g : List SubType) :
    Except DecodeError TypeSection := do
  let start := ts.compTypes.length
  let ts ← g.foldlM (decodeSubType kinds) ts
  pure { ts with recGroups := ts.recGroups ++ [⟨start, ts.compTypes.length - start⟩] }

/-- Decode the type section: a list of rec groups, a type written alone being a group of one. -/
def decodeTypeSection (rts : List (List SubType)) : Except DecodeError TypeSection := do
  let kinds := rts.flatten.map (·.comp.kind)
  let ts ← rts.foldlM (decodeRecGroup kinds) {}
  pure { ts with typeCanon := canonicalize ts }

/-! ## Decoding establishes the shape of the section -/

/-- A concrete type states the family its index has among `kinds`. -/
def ValType.KindIn (kinds : List CompKind) : ValType → Prop
  | concrete _ _ k i => kinds[(i : ℕ)]? = some k
  | _ => True

variable {kinds : List CompKind}

private theorem concreteKind_eq_ok {ti : ℕ} {k : CompKind} (h : concreteKind kinds ti = .ok k) :
    ti ≤ ValType.maxConcreteIndex ∧ kinds[ti]? = some k := by
  simpa [concreteKind] using h

private theorem readValType_kindIn {v : RawValType} {w : ValType} (h : readValType kinds v = .ok w) :
    w.KindIn kinds := by
  have hidx : ∀ {ti : ℕ}, ti ≤ ValType.maxConcreteIndex →
      ((Fin.ofNat (2 ^ 27) ti : Fin (2 ^ 27)) : ℕ) = ti := by
    intro ti hti
    unfold ValType.maxConcreteIndex at hti
    exact Nat.mod_eq_of_lt (by omega)
  cases v with
  | ref n ht =>
    cases ht with
    | concrete ti =>
      obtain ⟨k, hk, h⟩ := Except.bind_eq_ok.mp h
      obtain rfl := Except.pure_eq_ok.mp h
      obtain ⟨hti, hk⟩ := concreteKind_eq_ok hk
      rw [ValType.concreteRef, ValType.KindIn, hidx hti, hk]
    | exact ti =>
      obtain ⟨k, hk, h⟩ := Except.bind_eq_ok.mp h
      obtain rfl := Except.pure_eq_ok.mp h
      obtain ⟨hti, hk⟩ := concreteKind_eq_ok hk
      rw [ValType.exactRef, ValType.KindIn, hidx hti, hk]
    | _ =>
      obtain rfl := Except.pure_eq_ok.mp h
      trivial
  | _ =>
    obtain rfl := Except.pure_eq_ok.mp h
    trivial

private theorem readFieldType_kindIn {f : RawFieldType} {g : FieldType}
    (h : readFieldType kinds f = .ok g) : g.storage.unpacked.KindIn kinds := by
  obtain ⟨_ | _ | v, m⟩ := f
  · obtain rfl := Except.pure_eq_ok.mp h
    trivial
  · obtain rfl := Except.pure_eq_ok.mp h
    trivial
  · obtain ⟨w, hw, h⟩ := Except.bind_eq_ok.mp h
    obtain rfl := Except.pure_eq_ok.mp h
    exact readValType_kindIn hw

private theorem forall_of_forall₂ {α β : Type} {R : α → β → Prop} {P : β → Prop} {xs : List α}
    {ys : List β} (h : List.Forall₂ R xs ys) (hP : ∀ x y, R x y → P y) : ∀ y ∈ ys, P y := by
  induction h with
  | nil => simp
  | cons hxy _ ih => simpa using ⟨hP _ _ hxy, ih⟩

/-- A decoded composite type keeps its family and its lengths, and its references state the families
of their targets. -/
private theorem decodeCompType_spec {raw : RawCompType} {ct : CompType}
    (h : decodeCompType kinds raw = .ok ct) :
    ct.kind = raw.kind ∧ (raw.LengthsFit → ct.LengthsFit) ∧ ∀ v ∈ ct.valTypes, v.KindIn kinds := by
  cases raw with
  | func ps rs =>
    obtain ⟨params, hps, h⟩ := Except.bind_eq_ok.mp h
    obtain ⟨results, hrs, h⟩ := Except.bind_eq_ok.mp h
    obtain rfl := Except.pure_eq_ok.mp h
    rw [mapM_eq_ok] at hps hrs
    refine ⟨rfl, ?_, ?_⟩
    · rintro ⟨hp, hr⟩
      exact ⟨hps.length_eq ▸ hp, hrs.length_eq ▸ hr⟩
    · intro v hv
      rcases List.mem_append.mp hv with hv | hv
      · exact forall_of_forall₂ hps (fun _ _ => readValType_kindIn) v hv
      · exact forall_of_forall₂ hrs (fun _ _ => readValType_kindIn) v hv
  | struct fs =>
    obtain ⟨fields, hfs, h⟩ := Except.bind_eq_ok.mp h
    obtain rfl := Except.pure_eq_ok.mp h
    rw [mapM_eq_ok] at hfs
    refine ⟨rfl, fun hf => ?_, ?_⟩
    · exact (hfs.length_eq ▸ hf : fields.length < 2 ^ 32)
    · intro v hv
      obtain ⟨f, hf, rfl⟩ := List.mem_map.mp hv
      exact forall_of_forall₂ hfs (fun _ _ => readFieldType_kindIn) f hf
  | array f =>
    obtain ⟨g, hg, h⟩ := Except.bind_eq_ok.mp h
    obtain rfl := Except.pure_eq_ok.mp h
    refine ⟨rfl, fun _ => trivial, ?_⟩
    intro v hv
    obtain rfl := List.mem_singleton.mp hv
    exact readFieldType_kindIn hg

/-- What decoding has established after the sub types `done`, the last group being open from index
`n` on. -/
private structure DecInv (kinds : List CompKind) (done : List SubType) (n : ℕ) (ts : TypeSection) :
    Prop where
  groups : GroupsFrom 0 ts.recGroups n
  kind_eq : ts.compTypes.map CompType.kind = done.map (·.comp.kind)
  supers_length : ts.supertypes.length = ts.compTypes.length
  links_length : ts.typeLinks.length = ts.compTypes.length
  super_lt : ∀ t s, ts.supertype t = some s → s < t
  lengths : ∀ ct ∈ ts.compTypes, ct.LengthsFit
  kindIn : ∀ ct ∈ ts.compTypes, ∀ v ∈ ct.valTypes, v.KindIn kinds

private theorem DecInv.subType {done : List SubType} {n : ℕ} {ts ts' : TypeSection} {st : SubType}
    (h : DecInv kinds done n ts) (hfit : st.comp.LengthsFit)
    (hok : decodeSubType kinds ts st = .ok ts') :
    DecInv kinds (done ++ [st]) n ts' ∧ ts'.recGroups = ts.recGroups := by
  obtain ⟨⟨⟩, hsuper, hok⟩ := Except.bind_eq_ok.mp hok
  obtain ⟨comp, hcomp, hok⟩ := Except.bind_eq_ok.mp hok
  obtain rfl := Except.pure_eq_ok.mp hok
  obtain ⟨hkind, hlen, hin⟩ := decodeCompType_spec hcomp
  rw [ensure_eq_ok] at hsuper
  refine ⟨⟨h.groups, ?_, ?_, ?_, ?_, ?_, ?_⟩, rfl⟩
  · simp [h.kind_eq, hkind]
  · simp [h.supers_length]
  · simp [h.links_length]
  · intro t s hs
    simp only [TypeSection.supertype] at hs
    by_cases ht : t < ts.supertypes.length
    · rw [List.getElem?_append_left ht] at hs
      exact h.super_lt t s hs
    · rw [List.getElem?_append_right (by omega)] at hs
      cases hd : t - ts.supertypes.length with
      | zero =>
        rw [hd] at hs
        have hst : st.super = some s := by simpa using hs
        rw [hst] at hsuper
        have hslt : s < ts.compTypes.length := by simpa using hsuper
        have := h.supers_length
        omega
      | succ d => simp [hd] at hs
  · simpa [forall_and, or_imp] using ⟨h.lengths, hlen hfit⟩
  · intro ct hct
    rcases List.mem_append.mp hct with hct | hct
    · exact h.kindIn ct hct
    · exact List.mem_singleton.mp hct ▸ hin

private theorem DecInv.subTypes {g done : List SubType} {n : ℕ} {ts ts' : TypeSection}
    (h : DecInv kinds done n ts) (hfit : ∀ st ∈ g, st.comp.LengthsFit)
    (hok : g.foldlM (decodeSubType kinds) ts = .ok ts') :
    DecInv kinds (done ++ g) n ts' ∧ ts'.recGroups = ts.recGroups := by
  induction g generalizing done ts with
  | nil =>
    obtain rfl := Except.pure_eq_ok.mp hok
    exact ⟨by simpa using h, rfl⟩
  | cons st g ih =>
    rw [List.foldlM_cons] at hok
    obtain ⟨ts₁, hst, hok⟩ := Except.bind_eq_ok.mp hok
    obtain ⟨h₁, hgroups₁⟩ := h.subType (hfit st (by simp)) hst
    obtain ⟨h₂, hgroups₂⟩ := ih h₁ (fun st' hst' => hfit st' (by simp [hst'])) hok
    exact ⟨by simpa using h₂, hgroups₂.trans hgroups₁⟩

private theorem DecInv.recGroup {g done : List SubType} {ts ts' : TypeSection}
    (h : DecInv kinds done ts.compTypes.length ts) (hfit : ∀ st ∈ g, st.comp.LengthsFit)
    (hok : decodeRecGroup kinds ts g = .ok ts') :
    DecInv kinds (done ++ g) ts'.compTypes.length ts' := by
  obtain ⟨ts₁, hg, hok⟩ := Except.bind_eq_ok.mp hok
  obtain rfl := Except.pure_eq_ok.mp hok
  obtain ⟨h₁, hgroups⟩ := h.subTypes hfit hg
  have hle : ts.compTypes.length ≤ ts₁.compTypes.length := by
    have hlen := congrArg List.length h₁.kind_eq
    have hlen' := congrArg List.length h.kind_eq
    simp only [List.length_map, List.length_append] at hlen hlen'
    omega
  refine ⟨?_, h₁.kind_eq, h₁.supers_length, h₁.links_length, h₁.super_lt, h₁.lengths, h₁.kindIn⟩
  simp only [hgroups]
  exact h.groups.append ⟨rfl, Nat.add_sub_cancel' hle⟩

private theorem DecInv.recGroups {rest : List (List SubType)} {done : List SubType}
    {ts ts' : TypeSection} (h : DecInv kinds done ts.compTypes.length ts)
    (hfit : ∀ g ∈ rest, ∀ st ∈ g, st.comp.LengthsFit)
    (hok : rest.foldlM (decodeRecGroup kinds) ts = .ok ts') :
    DecInv kinds (done ++ rest.flatten) ts'.compTypes.length ts' := by
  induction rest generalizing done ts with
  | nil =>
    obtain rfl := Except.pure_eq_ok.mp hok
    simpa using h
  | cons g rest ih =>
    rw [List.foldlM_cons] at hok
    obtain ⟨ts₁, hg, hok⟩ := Except.bind_eq_ok.mp hok
    have h₁ := h.recGroup (hfit g (by simp)) hg
    simpa using ih h₁ (fun g' hg' => hfit g' (by simp [hg'])) hok

private theorem decInv_decodeTypeSection {rts : List (List SubType)} {ts : TypeSection}
    (hfit : ∀ g ∈ rts, ∀ st ∈ g, st.comp.LengthsFit) (hok : decodeTypeSection rts = .ok ts) :
    DecInv (rts.flatten.map (·.comp.kind)) rts.flatten ts.compTypes.length ts ∧
      ts.typeCanon = canonicalize ts := by
  obtain ⟨ts₁, hrec, hok⟩ := Except.bind_eq_ok.mp hok
  obtain rfl := Except.pure_eq_ok.mp hok
  have hinit : DecInv (rts.flatten.map (·.comp.kind)) [] 0 {} :=
    ⟨rfl, rfl, rfl, rfl, by simp [TypeSection.supertype], by simp, by simp⟩
  have h := hinit.recGroups hfit hrec
  exact ⟨⟨h.groups, h.kind_eq, h.supers_length, h.links_length, h.super_lt, h.lengths, h.kindIn⟩,
    rfl⟩

/-- The links of a section are those of its entries, in order. -/
private theorem typeLinks_decodeSubTypes {g : List SubType} {ts ts' : TypeSection}
    (hok : g.foldlM (decodeSubType kinds) ts = .ok ts') :
    ts'.typeLinks = ts.typeLinks ++ g.map SubType.links := by
  induction g generalizing ts with
  | nil =>
    obtain rfl := Except.pure_eq_ok.mp hok
    simp
  | cons st g ih =>
    rw [List.foldlM_cons] at hok
    obtain ⟨ts₁, hst, hok⟩ := Except.bind_eq_ok.mp hok
    obtain ⟨_, -, hst⟩ := Except.bind_eq_ok.mp hst
    obtain ⟨comp, -, hst⟩ := Except.bind_eq_ok.mp hst
    obtain rfl := Except.pure_eq_ok.mp hst
    rw [ih hok, List.map_cons, List.append_assoc, List.singleton_append]

private theorem typeLinks_decodeRecGroups {rest : List (List SubType)} {ts ts' : TypeSection}
    (hok : rest.foldlM (decodeRecGroup kinds) ts = .ok ts') :
    ts'.typeLinks = ts.typeLinks ++ rest.flatten.map SubType.links := by
  induction rest generalizing ts with
  | nil =>
    obtain rfl := Except.pure_eq_ok.mp hok
    simp
  | cons g rest ih =>
    rw [List.foldlM_cons] at hok
    obtain ⟨ts₁, hg, hok⟩ := Except.bind_eq_ok.mp hok
    obtain ⟨ts₂, hsub, hg⟩ := Except.bind_eq_ok.mp hg
    obtain rfl := Except.pure_eq_ok.mp hg
    rw [ih hok, typeLinks_decodeSubTypes hsub, List.flatten_cons, List.map_append, List.append_assoc]

/-- The descriptor links of an entry are read as `u32`. -/
def SubType.LinksFit (st : SubType) : Prop :=
  (∀ x ∈ st.links.describes, x < 2 ^ 32) ∧ ∀ x ∈ st.links.descriptor, x < 2 ^ 32

instance : DecidablePred SubType.LinksFit := fun st => by
  unfold SubType.LinksFit
  infer_instance

/-- What decoding alone establishes of a type section: the rec groups partition the index space, every
reference is a `u32`, and the canonical identities are those `canonicalize` computes. -/
structure TypeSection.Decoded (ts : TypeSection) : Prop where
  count_le : ts.compTypes.length ≤ 2 ^ 32
  groupsFrom : GroupsFrom 0 ts.recGroups ts.compTypes.length
  refs_lt : ∀ g ∈ ts.recGroups, ∀ t, g.contains t = true → ∀ r ∈ (ts.member t).refs, r < 2 ^ 32
  lengths : ∀ ct ∈ ts.compTypes, ct.LengthsFit
  typeCanon_eq : ts.typeCanon = canonicalize ts

/-- The index of a concrete type is below `2 ^ 27`. -/
private theorem lt_of_mem_shape {ct : CompType} {r : ℕ} (hr : r ∈ ct.shape.refs) : r < 2 ^ 32 := by
  have hval : ∀ v : ValType, r ∈ v.shape.refs → r < 2 ^ 32 := by
    intro v hr
    cases v with
    | concrete _ _ _ i =>
      obtain rfl := List.mem_singleton.mp hr
      have := i.isLt
      omega
    | _ => simp [ValType.shape, ValShape.refs] at hr
  have hfield : ∀ f : FieldType, r ∈ f.shape.refs → r < 2 ^ 32 := by
    rintro ⟨v | _ | _, m⟩ hr
    · exact hval v hr
    · exact absurd hr List.not_mem_nil
    · exact absurd hr List.not_mem_nil
  cases ct with
  | func ft =>
    simp only [CompType.shape, CompShape.refs, List.mem_append, List.mem_flatMap, List.mem_map,
      exists_exists_and_eq_and] at hr
    rcases hr with ⟨v, -, hr⟩ | ⟨v, -, hr⟩
    · exact hval v hr
    · exact hval v hr
  | struct fs =>
    simp only [CompType.shape, CompShape.refs, List.mem_flatMap, List.mem_map,
      exists_exists_and_eq_and] at hr
    obtain ⟨f, -, hr⟩ := hr
    exact hfield f hr
  | array f => exact hfield f hr

/-- The type section of a list of rec groups. Its type count, its vectors and its links are read as
`u32`. -/
theorem decoded_of_decode (rts : List (List SubType)) {ts : TypeSection}
    (hcount : rts.flatten.length < 2 ^ 32) (hfit : ∀ g ∈ rts, ∀ st ∈ g, st.comp.LengthsFit)
    (hlinks : ∀ g ∈ rts, ∀ st ∈ g, st.LinksFit) (hok : decodeTypeSection rts = .ok ts) : ts.Decoded := by
  obtain ⟨h, hcanon⟩ := decInv_decodeTypeSection hfit hok
  have hlen : ts.compTypes.length = rts.flatten.length := by
    have := congrArg List.length h.kind_eq
    rwa [List.length_map, List.length_map] at this
  have hts : ts.typeLinks = rts.flatten.map SubType.links := by
    obtain ⟨ts₁, hrec, hok⟩ := Except.bind_eq_ok.mp hok
    obtain rfl := Except.pure_eq_ok.mp hok
    exact typeLinks_decodeRecGroups hrec
  have hlink : ∀ t, (∀ x ∈ (ts.links t).describes, x < 2 ^ 32) ∧ ∀ x ∈ (ts.links t).descriptor, x < 2 ^ 32 := by
    intro t
    rw [TypeSection.links]
    cases hl : ts.typeLinks[t]? with
    | none => exact ⟨nofun, nofun⟩
    | some l =>
      rw [hts, List.getElem?_map] at hl
      obtain ⟨st, hst, rfl⟩ := Option.map_eq_some_iff.mp hl
      obtain ⟨g, hg, hst⟩ := List.mem_flatten.mp (List.mem_of_getElem? hst)
      exact hlinks g hg st hst
  refine ⟨by omega, h.groups, ?_, h.lengths, hcanon⟩
  intro g hg t ht r hr
  simp only [MemberShape.refs, TypeSection.member, List.mem_append, Option.mem_toList] at hr
  rcases hr with ((hr | hr) | hr) | hr
  · have hlt := h.super_lt t r hr
    have hb := h.groups.bounds hg
    have htc := RecGroup.contains_iff.mp ht
    omega
  · exact (hlink t).1 r hr
  · exact (hlink t).2 r hr
  · cases hct : ts.compTypes[t]? with
    | none =>
      rw [hct] at hr
      cases hr
    | some ct =>
      rw [hct] at hr
      exact lt_of_mem_shape hr

/-! ## The validator's checks -/

/-- The scope limit of a type is the end of its group. -/
private theorem getElem?_scopeLimits {ts : TypeSection}
    (hgroups : GroupsFrom 0 ts.recGroups ts.compTypes.length) {g : RecGroup}
    (hg : g ∈ ts.recGroups) {t : ℕ} (ht : g.contains t = true) :
    (scopeLimits ts)[t]? = some (g.start + g.len) := by
  -- the groups after `g` leave its members alone, those before are overwritten
  have hfold : ∀ (gs : List RecGroup) (n m : ℕ) (limit : List ℕ), GroupsFrom n gs m →
      t < limit.length → (gs.foldl (fun limit g => limit.mapIdx fun i e =>
        if g.contains i then g.start + g.len else e) limit)[t]? =
          some (((gs.find? (·.contains t)).map fun g => g.start + g.len).getD (limit.getD t 0)) := by
    intro gs
    induction gs with
    | nil =>
      intro n m limit _ hlt
      simp [List.getD_eq_getElem?_getD, hlt]
    | cons g' gs ih =>
      intro n m limit h hlt
      rw [List.foldl_cons, ih _ _ _ h.2 (by simpa using hlt), List.find?_cons]
      cases hc : g'.contains t with
      | true =>
        have hnone : gs.find? (·.contains t) = none := by
          rw [List.find?_eq_none]
          intro g'' hg'' hc''
          have hb := h.2.bounds hg''
          have hstart := h.1
          rw [RecGroup.contains_iff] at hc hc''
          omega
        simp [hnone, hc, List.getD_eq_getElem?_getD, hlt]
      | false => simp [hc, List.getD_eq_getElem?_getD, hlt]
  have hb := hgroups.bounds hg
  have htc := RecGroup.contains_iff.mp ht
  have hfind : ts.recGroups.find? (·.contains t) = some g := by
    cases hf : ts.recGroups.find? (·.contains t) with
    | none => exact absurd ht (by simpa using List.find?_eq_none.mp hf g hg)
    | some g' =>
      rw [hgroups.unique (List.mem_of_find?_eq_some hf) hg
        (by simpa using List.find?_some hf) ht]
  rw [scopeLimits, hfold _ _ _ _ hgroups (by simp; omega), hfind]
  rfl

/-- The references of a composite type are the indices of its concrete value types. -/
private theorem lt_of_mem_shape_refs {ct : CompType} {r n : ℕ} (hr : r ∈ ct.shape.refs)
    (h : ct.valTypes.all (fun v => !v.isConcrete || decide (v.concreteIndex < n)) = true) :
    r < n := by
  rw [List.all_eq_true] at h
  have hval : ∀ v ∈ ct.valTypes, r ∈ v.shape.refs → r < n := by
    intro v hv hr
    cases v with
    | concrete _ _ _ i =>
      obtain rfl := List.mem_singleton.mp hr
      simpa [ValType.isConcrete, ValType.concreteIndex, decide_eq_true_eq] using
        decide_eq_true_eq.mp (h _ hv)
    | _ => simp [ValType.shape, ValShape.refs] at hr
  have hfield : ∀ f : FieldType, r ∈ f.shape.refs → r ∈ f.storage.unpacked.shape.refs := by
    rintro ⟨_ | _ | v, m⟩ hr
    · exact hr
    · exact absurd hr (List.not_mem_nil)
    · exact absurd hr (List.not_mem_nil)
  cases ct with
  | func ft =>
    simp only [CompType.shape, CompShape.refs, List.mem_append, List.mem_flatMap, List.mem_map,
      exists_exists_and_eq_and] at hr
    rcases hr with ⟨v, hv, hr⟩ | ⟨v, hv, hr⟩
    · exact hval v (List.mem_append_left _ hv) hr
    · exact hval v (List.mem_append_right _ hv) hr
  | struct fs =>
    simp only [CompType.shape, CompShape.refs, List.mem_flatMap, List.mem_map,
      exists_exists_and_eq_and] at hr
    obtain ⟨f, hf, hr⟩ := hr
    exact hval _ (List.mem_map_of_mem hf) (hfield f hr)
  | array f => exact hval _ (List.mem_singleton.mpr rfl) (hfield f hr)

/-- A section that decodes and passes the validator's scope and link checks is well formed. Its type
count and its vectors are read as `u32`. -/
theorem wellFormed_of_decode (rts : List (List SubType)) {ts : TypeSection}
    (hcount : rts.flatten.length < 2 ^ 32) (hfit : ∀ g ∈ rts, ∀ st ∈ g, st.comp.LengthsFit)
    (hok : decodeTypeSection rts = .ok ts) (hscope : checkTypeIndexScope ts = .ok ())
    (hlinks : checkDescriptorLinks ts = .ok ()) : ts.WellFormed := by
  obtain ⟨h, hcanon⟩ := decInv_decodeTypeSection hfit hok
  have hlen : ts.compTypes.length = rts.flatten.length := by
    have := congrArg List.length h.kind_eq
    rwa [List.length_map, List.length_map] at this
  -- a link stays in the group of its type
  have hmem : ∀ g ∈ ts.recGroups, ∀ t, g.contains t = true → ∀ x, groupOf ts x = groupOf ts t →
      g.contains x = true := by
    intro g hg t ht x hx
    have hgt : groupOf ts t = g := by
      unfold groupOf
      cases hf : ts.recGroups.find? (·.contains t) with
      | none => exact absurd ht (by simpa using List.find?_eq_none.mp hf g hg)
      | some g' =>
        exact h.groups.unique (List.mem_of_find?_eq_some hf) hg (by simpa using List.find?_some hf)
          ht
    rw [hgt, groupOf] at hx
    cases hf : ts.recGroups.find? (·.contains x) with
    | none =>
      rw [hf, Option.getD_none] at hx
      exact hx ▸ RecGroup.contains_iff.mpr (by simp)
    | some g' =>
      rw [hf, Option.getD_some] at hx
      exact hx ▸ by simpa using List.find?_some hf
  have hlinksMem : ∀ g ∈ ts.recGroups, ∀ t, g.contains t = true →
      (∀ d ∈ (ts.links t).descriptor, g.contains d = true) ∧
        ∀ x ∈ (ts.links t).describes, g.contains x = true := by
    intro g hg t ht
    have hb := h.groups.bounds hg
    have htc := RecGroup.contains_iff.mp ht
    have hget : ts.typeLinks[t]? = some (ts.links t) := by
      unfold TypeSection.links
      rw [List.getElem?_eq_getElem (by have := h.links_length; omega), Option.getD_some]
    have hcheck := forM_eq_ok.mp hlinks (ts.links t, t)
      (List.mem_zipIdx_iff_getElem?.mpr hget)
    simp only [checkTypeLinks, Except.bind_eq_ok, ensure_eq_ok, Option.all_eq_true,
      Bool.and_eq_true, beq_iff_eq] at hcheck
    obtain ⟨-, hd, hx⟩ := hcheck
    exact ⟨fun d hd' => hmem g hg t ht d (hd d hd').1.1.1,
      fun x hx' => hmem g hg t ht x (hx x hx').1.1.1.1⟩
  refine ⟨by omega, h.groups, h.super_lt, ?_, hlinksMem, h.lengths, ?_, hcanon⟩
  · intro g hg t ht r hr
    have htc := RecGroup.contains_iff.mp ht
    have hb := h.groups.bounds hg
    simp only [MemberShape.refs, TypeSection.member, List.mem_append, Option.mem_toList] at hr
    rcases hr with ((hr | hr) | hr) | hr
    · have := h.super_lt t r hr
      omega
    · exact (RecGroup.contains_iff.mp ((hlinksMem g hg t ht).2 r hr)).2
    · exact (RecGroup.contains_iff.mp ((hlinksMem g hg t ht).1 r hr)).2
    · obtain ⟨ct, hct⟩ : ∃ ct, ts.compTypes[t]? = some ct :=
        ⟨_, List.getElem?_eq_getElem (by omega)⟩
      rw [hct] at hr
      have hzip : (ts.compTypes.zip (scopeLimits ts))[t]? = some (ct, g.start + g.len) := by
        rw [List.getElem?_zip_eq_some]
        exact ⟨hct, getElem?_scopeLimits h.groups hg ht⟩
      have hcheck := forM_eq_ok.mp hscope _ (List.mem_of_getElem? hzip)
      rw [ensure_eq_ok] at hcheck
      exact lt_of_mem_shape_refs hr hcheck
  · intro ct hct n e k i hv
    have := h.kindIn ct hct _ hv
    rw [ValType.KindIn, ← h.kind_eq, List.getElem?_map] at this
    exact this

/-- The type section a list of groups decodes to. -/
def decoded (rts : List (List SubType)) : TypeSection :=
  match decodeTypeSection rts with
  | .ok ts => ts
  | .error _ => {}

end Wasmrt
