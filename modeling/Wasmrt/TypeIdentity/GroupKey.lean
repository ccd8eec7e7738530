import Wasmrt.Library.PrefixCode
import Wasmrt.TypeIdentity.Shape

/-!
# Rec-group keys

`rec_group_key` serialises a rec group with its references normalised: a reference into the group by
its position, one out of it by an identity assigned earlier. Canonicalisation and the store's type
registry intern groups under these bytes.

The bytes are the serialisation of a structured key, and the serialisation is a prefix code at every
level. Two groups have the same bytes exactly when they have the same structured key.

## Main definitions

* `RefKey`, `GroupKey`: a normalised reference, and the members of a group over such references.
* `pushTypeRef`, `pushValType`, `pushFieldType`, `recGroupKey`: the serialisers of the source.
* `canonicalize`: module-local type identity.
* `TypeSection.groupKey`: the structured key of a group.

## Main results

* `recGroupKey_eq_bytes`: the source's bytes are those of the structured key.
* `GroupKey.bytes_injOn`: the bytes determine the key.
-/

namespace Wasmrt

/-! ## The source's serialiser -/

/-- Four little-endian bytes. -/
def pushU32 (v : ℕ) : List UInt8 :=
  [UInt8.ofNat v, UInt8.ofNat (v / 2 ^ 8), UInt8.ofNat (v / 2 ^ 16), UInt8.ofNat (v / 2 ^ 24)]

/-- A type reference: in-group position, identity from `ids`, or, for a reference forward out of the
group, the raw index. -/
def pushTypeRef (ids : List ℕ) (g : RecGroup) (t : ℕ) : List UInt8 :=
  if g.contains t then 0x01 :: pushU32 (t - g.start)
  else match ids[t]? with
    | some c => 0x02 :: pushU32 c
    | none => 0x03 :: pushU32 t

/-- The first byte of a concrete reference: nullability in bit 0, exactness in bit 1. -/
def concreteTag (isNonNull exact : Bool) : UInt8 :=
  (0xc0 : UInt8) ||| isNonNull.toUInt8 ||| (exact.toUInt8 <<< 1)

/-- A value type; a concrete reference by nullability, exactness and normalised target. -/
def pushValType (ids : List ℕ) (g : RecGroup) (v : ValType) : List UInt8 :=
  if v.isConcrete then
    concreteTag v.isNonNullRef v.isExact :: pushTypeRef ids g v.concreteIndex
  else 0x00 :: pushU32 v.bits.toNat

/-- A field: mutability, then the storage type. -/
def pushFieldType (ids : List ℕ) (g : RecGroup) (f : FieldType) : List UInt8 :=
  f.mutable.toUInt8 ::
    match f.storage with
    | .i8 => [0x78]
    | .i16 => [0x77]
    | .val v => pushValType ids g v

/-- An optional type reference behind a presence byte. -/
def pushOptTypeRef (ids : List ℕ) (g : RecGroup) (t : Option ℕ) : List UInt8 :=
  match t with
  | some t => 1 :: pushTypeRef ids g t
  | none => [0]

/-- A composite type. -/
def pushCompType (ids : List ℕ) (g : RecGroup) : Option CompType → List UInt8
  | some (.func ft) =>
      0x60 :: (pushU32 ft.params.length ++ ft.params.flatMap (pushValType ids g) ++
        (pushU32 ft.results.length ++ ft.results.flatMap (pushValType ids g)))
  | some (.struct fs) => 0x5f :: (pushU32 fs.length ++ fs.flatMap (pushFieldType ids g))
  | some (.array f) => 0x5e :: pushFieldType ids g f
  | none => [0xff]

/-- The structural key of one rec group: every member in order, with finality, supertype, links and
composite type. -/
def recGroupKey (ts : TypeSection) (ids : List ℕ) (g : RecGroup) : List UInt8 :=
  (List.range g.len).flatMap fun i =>
    let t := g.start + i
    (ts.isFinal t).toUInt8 ::
      (pushOptTypeRef ids g (ts.supertype t) ++ pushOptTypeRef ids g (ts.links t).describes ++
        pushOptTypeRef ids g (ts.links t).descriptor ++ pushCompType ids g ts.compTypes[t]?)

/-- One round of `canonicalize`: a group whose key was seen before takes the identities of the first
group with that key, another its own indices. -/
def canonicalizeStep (ts : TypeSection) (st : List (List UInt8 × ℕ) × List ℕ) (g : RecGroup) :
    List (List UInt8 × ℕ) × List ℕ :=
  let key := recGroupKey ts st.2 g
  match st.1.lookup key with
  | some first => (st.1, st.2 ++ (List.range g.len).map (first + ·))
  | none => ((key, g.start) :: st.1, st.2 ++ (List.range g.len).map (g.start + ·))

/-- The canonical identity of every type: the lowest type index structurally equal to it. -/
def canonicalize (ts : TypeSection) : List ℕ :=
  (ts.recGroups.foldl (canonicalizeStep ts) ([], [])).2

/-! ## Structured keys -/

/-- A normalised type reference. -/
inductive RefKey
  | inside (pos : ℕ)
  | outside (id : ℕ)
  | forward (raw : ℕ)
  deriving DecidableEq, Repr

/-- How a reference is normalised, seen from group `g` when `ids` holds the identities assigned so
far. -/
def refKey (ids : List ℕ) (g : RecGroup) (t : ℕ) : RefKey :=
  if g.contains t then .inside (t - g.start)
  else match ids[t]? with
    | some c => .outside c
    | none => .forward t

/-- The structured key of a rec group. -/
abbrev GroupKey := List (MemberShape RefKey)

/-- The structured key of group `g` of a type section. -/
def TypeSection.groupKey (ts : TypeSection) (ids : List ℕ) (g : RecGroup) : GroupKey :=
  (ts.groupMembers g).map (·.map (refKey ids g))

@[simp]
theorem TypeSection.length_groupKey (ts : TypeSection) (ids : List ℕ) (g : RecGroup) :
    (ts.groupKey ids g).length = g.len := by
  simp [groupKey, groupMembers]

/-- Serialise a reference. -/
def RefKey.bytes : RefKey → List UInt8
  | inside p => 0x01 :: pushU32 p
  | outside c => 0x02 :: pushU32 c
  | forward t => 0x03 :: pushU32 t

/-- Serialise a value type. -/
def ValShape.bytes : ValShape RefKey → List UInt8
  | plain v => 0x00 :: pushU32 v.bits.toNat
  | concrete n e r => concreteTag n e :: r.bytes

/-- Serialise a storage type. -/
def StorageShape.bytes : StorageShape RefKey → List UInt8
  | i8 => [0x78]
  | i16 => [0x77]
  | val v => v.bytes

/-- Serialise a field. -/
def FieldShape.bytes (f : FieldShape RefKey) : List UInt8 := f.mutable.toUInt8 :: f.storage.bytes

/-- Serialise an optional reference. -/
def optBytes (r : Option RefKey) : List UInt8 := r.elim [0] (fun k => 1 :: k.bytes)

/-- Serialise a composite type. -/
def CompShape.bytes : CompShape RefKey → List UInt8
  | func ps rs => 0x60 :: (pushU32 ps.length ++ ps.flatMap ValShape.bytes ++
      (pushU32 rs.length ++ rs.flatMap ValShape.bytes))
  | struct fs => 0x5f :: (pushU32 fs.length ++ fs.flatMap FieldShape.bytes)
  | array f => 0x5e :: f.bytes
  | missing => [0xff]

/-- Serialise a member. -/
def MemberShape.bytes (x : MemberShape RefKey) : List UInt8 :=
  x.isFinal.toUInt8 ::
    (optBytes x.super ++ optBytes x.describes ++ optBytes x.descriptor ++ x.comp.bytes)

/-- Serialise a group. -/
def GroupKey.bytes (k : GroupKey) : List UInt8 := k.flatMap MemberShape.bytes

/-! ## The source's bytes are those of the structured key -/

theorem pushTypeRef_eq_bytes (ids : List ℕ) (g : RecGroup) (t : ℕ) :
    pushTypeRef ids g t = (refKey ids g t).bytes := by
  unfold pushTypeRef refKey
  split
  · rfl
  · cases ids[t]? <;> rfl

theorem pushValType_eq_bytes (ids : List ℕ) (g : RecGroup) (v : ValType) :
    pushValType ids g v = (v.shape.map (refKey ids g)).bytes := by
  cases v with
  | concrete n e k i =>
    simp [pushValType, ValType.isConcrete, ValType.isNonNullRef, ValType.isExact,
      ValType.concreteIndex, ValType.shape, ValShape.map, ValShape.bytes, pushTypeRef_eq_bytes]
  | _ => rfl

theorem pushFieldType_eq_bytes (ids : List ℕ) (g : RecGroup) (f : FieldType) :
    pushFieldType ids g f = (f.shape.map (refKey ids g)).bytes := by
  obtain ⟨storage, mutable⟩ := f
  cases storage with
  | val v => simp [pushFieldType, FieldType.shape, FieldShape.map, FieldShape.bytes,
      StorageType.shape, StorageShape.map, StorageShape.bytes, pushValType_eq_bytes]
  | _ => rfl

theorem pushOptTypeRef_eq_bytes (ids : List ℕ) (g : RecGroup) (t : Option ℕ) :
    pushOptTypeRef ids g t = optBytes (t.map (refKey ids g)) := by
  cases t <;> simp [pushOptTypeRef, optBytes, pushTypeRef_eq_bytes]

theorem pushCompType_eq_bytes (ids : List ℕ) (g : RecGroup) (ct : Option CompType) :
    pushCompType ids g ct = ((ct.elim .missing CompType.shape).map (refKey ids g)).bytes := by
  have hval : pushValType ids g = fun v => (v.shape.map (refKey ids g)).bytes :=
    funext (pushValType_eq_bytes ids g)
  have hfield : pushFieldType ids g = fun f => (f.shape.map (refKey ids g)).bytes :=
    funext (pushFieldType_eq_bytes ids g)
  rcases ct with _ | (ft | fs | f) <;>
    simp [pushCompType, CompType.shape, CompShape.map, CompShape.bytes, List.flatMap_map, hval,
      hfield]

/-- The bytes the source interns a group under are those of its structured key. -/
theorem recGroupKey_eq_bytes (ts : TypeSection) (ids : List ℕ) (g : RecGroup) :
    recGroupKey ts ids g = (ts.groupKey ids g).bytes := by
  unfold recGroupKey TypeSection.groupKey TypeSection.groupMembers GroupKey.bytes
  rw [List.map_map, List.flatMap_map]
  congr 1
  funext i
  simp [TypeSection.member, MemberShape.map, MemberShape.bytes, pushOptTypeRef_eq_bytes,
    pushCompType_eq_bytes]

/-! ## The bytes determine the key -/

/-- The numbers of a reference fit the four bytes they are written in. -/
def RefKey.Fits : RefKey → Prop
  | inside n | outside n | forward n => n < 2 ^ 32

/-- A value type whose parts fit. A plain one is not a concrete reference. -/
def ValShape.Fits : ValShape RefKey → Prop
  | plain v => v.isConcrete = false
  | concrete _ _ r => r.Fits

/-- A storage type whose parts fit. -/
def StorageShape.Fits : StorageShape RefKey → Prop
  | val v => v.Fits
  | _ => True

/-- A field whose parts fit. -/
def FieldShape.Fits (f : FieldShape RefKey) : Prop := f.storage.Fits

/-- A composite type whose parts and lengths fit. -/
def CompShape.Fits : CompShape RefKey → Prop
  | func ps rs => (ps.length < 2 ^ 32 ∧ ∀ v ∈ ps, v.Fits) ∧ rs.length < 2 ^ 32 ∧ ∀ v ∈ rs, v.Fits
  | struct fs => fs.length < 2 ^ 32 ∧ ∀ f ∈ fs, f.Fits
  | array f => f.Fits
  | missing => True

/-- A member whose parts fit. -/
structure MemberShape.Fits (x : MemberShape RefKey) : Prop where
  super : ∀ r ∈ x.super, r.Fits
  describes : ∀ r ∈ x.describes, r.Fits
  descriptor : ∀ r ∈ x.descriptor, r.Fits
  comp : x.comp.Fits

/-- A key all of whose numbers fit in 32 bits. -/
def GroupKey.Fits (k : GroupKey) : Prop := ∀ x ∈ k, x.Fits

private theorem ofNat_eq_ofNat {a b : ℕ} (h : UInt8.ofNat a = UInt8.ofNat b) :
    a % 256 = b % 256 := by
  simpa using congrArg UInt8.toNat h

theorem isPrefixCode_pushU32 : IsPrefixCode (fun n => n < 2 ^ 32) pushU32 := by
  refine .of_length (n := 4) (fun _ => rfl) ?_
  intro a b ha hb h
  simp only [pushU32, List.cons.injEq] at h
  have h₀ := ofNat_eq_ofNat h.1
  have h₁ := ofNat_eq_ofNat h.2.1
  have h₂ := ofNat_eq_ofNat h.2.2.1
  have h₃ := ofNat_eq_ofNat h.2.2.2.1
  omega

private theorem toUInt8_inj {a b : Bool} (h : a.toUInt8 = b.toUInt8) : a = b := by
  revert a b
  decide

theorem isPrefixCode_refKey : IsPrefixCode RefKey.Fits RefKey.bytes := by
  rintro (a | a | a) (b | b | b) ha hb r s h
  all_goals simp only [RefKey.bytes, List.cons_append, List.cons.injEq] at h
  all_goals first
    | exact absurd h.1 (by decide)
    | obtain ⟨rfl, hrs⟩ := isPrefixCode_pushU32 ha hb h.2
      exact ⟨rfl, hrs⟩

/-- The first byte determines nullability and exactness. -/
private theorem concreteTag_inj : ∀ {n e n' e' : Bool}, concreteTag n e = concreteTag n' e' →
    n = n' ∧ e = e' := by
  decide

/-- No concrete reference starts with the byte of a plain type or of a packed field. -/
private theorem concreteTag_ne : ∀ n e : Bool, ∀ b ∈ [(0x00 : UInt8), 0x78, 0x77],
    concreteTag n e ≠ b := by
  intro n e b hb
  simp only [List.mem_cons, List.not_mem_nil, or_false] at hb
  rcases hb with rfl | rfl | rfl <;> cases n <;> cases e <;> decide

theorem isPrefixCode_valShape : IsPrefixCode ValShape.Fits ValShape.bytes := by
  rintro (v | ⟨n, e, x⟩) (w | ⟨n', e', y⟩) ha hb r s h
  all_goals simp only [ValShape.bytes, List.cons_append, List.cons.injEq] at h
  · obtain ⟨hbits, hrs⟩ := isPrefixCode_pushU32 (v.bits.isLt) (w.bits.isLt) h.2
    exact ⟨by rw [ValType.eq_of_bits_eq ha hb (BitVec.eq_of_toNat_eq hbits)], hrs⟩
  · exact absurd h.1.symm (concreteTag_ne n' e' 0x00 (by simp))
  · exact absurd h.1 (concreteTag_ne n e 0x00 (by simp))
  · obtain ⟨rfl, rfl⟩ := concreteTag_inj h.1
    obtain ⟨rfl, hrs⟩ := isPrefixCode_refKey ha hb h.2
    exact ⟨rfl, hrs⟩

/-- A value type never starts with a packed field's byte. -/
private theorem valShape_head_ne (v : ValShape RefKey) {b : UInt8} (hb : b ∈ [(0x78 : UInt8), 0x77])
    (r s : List UInt8) : v.bytes ++ r ≠ b :: s := by
  intro h
  cases v with
  | plain v =>
    simp only [ValShape.bytes, List.cons_append, List.cons.injEq] at h
    rw [← h.1] at hb
    exact absurd hb (by decide)
  | concrete n e x =>
    simp only [ValShape.bytes, List.cons_append, List.cons.injEq] at h
    exact concreteTag_ne n e b (List.mem_cons_of_mem _ hb) h.1

theorem isPrefixCode_storageShape : IsPrefixCode StorageShape.Fits StorageShape.bytes := by
  rintro (_ | _ | v) (_ | _ | w) ha hb r s h
  all_goals simp only [StorageShape.bytes, List.cons_append, List.nil_append, List.cons.injEq] at h
  case val.val =>
    obtain ⟨rfl, hrs⟩ := isPrefixCode_valShape ha hb h
    exact ⟨rfl, hrs⟩
  case i8.i8 => exact ⟨rfl, h.2⟩
  case i16.i16 => exact ⟨rfl, h.2⟩
  case i8.val => exact absurd h.symm (valShape_head_ne w (by simp) _ _)
  case i16.val => exact absurd h.symm (valShape_head_ne w (by simp) _ _)
  case val.i8 => exact absurd h (valShape_head_ne v (by simp) _ _)
  case val.i16 => exact absurd h (valShape_head_ne v (by simp) _ _)
  all_goals exact absurd h.1 (by decide)

theorem isPrefixCode_fieldShape : IsPrefixCode FieldShape.Fits FieldShape.bytes := by
  rintro ⟨m, x⟩ ⟨m', y⟩ ha hb r s h
  simp only [FieldShape.bytes, List.cons_append, List.cons.injEq] at h
  obtain rfl := toUInt8_inj h.1
  obtain ⟨rfl, hrs⟩ := isPrefixCode_storageShape ha hb h.2
  exact ⟨rfl, hrs⟩

theorem isPrefixCode_optBytes :
    IsPrefixCode (fun x : Option RefKey => ∀ r ∈ x, r.Fits) optBytes :=
  isPrefixCode_refKey.option (by decide)

/-- A length-prefixed list of value types. -/
private theorem isPrefixCode_valShapes :
    IsPrefixCode (fun xs : List (ValShape RefKey) => xs.length < 2 ^ 32 ∧ ∀ x ∈ xs, x.Fits)
      (fun xs => pushU32 xs.length ++ xs.flatMap ValShape.bytes) :=
  isPrefixCode_pushU32.lengthPrefixed isPrefixCode_valShape

/-- A length-prefixed list of fields. -/
private theorem isPrefixCode_fieldShapes :
    IsPrefixCode (fun xs : List (FieldShape RefKey) => xs.length < 2 ^ 32 ∧ ∀ x ∈ xs, x.Fits)
      (fun xs => pushU32 xs.length ++ xs.flatMap FieldShape.bytes) :=
  isPrefixCode_pushU32.lengthPrefixed isPrefixCode_fieldShape

theorem isPrefixCode_compShape : IsPrefixCode CompShape.Fits CompShape.bytes := by
  rintro (⟨ps, rs⟩ | fs | f | _) (⟨ps', rs'⟩ | fs' | f' | _) ha hb r s h
  all_goals simp only [CompShape.bytes, List.cons_append, List.nil_append, List.cons.injEq] at h
  case func.func =>
    obtain ⟨-, h⟩ := h
    rw [List.append_assoc, List.append_assoc (pushU32 ps'.length ++ _)] at h
    obtain ⟨rfl, hresults⟩ := isPrefixCode_valShapes ha.1 hb.1 h
    obtain ⟨rfl, hrs⟩ := isPrefixCode_valShapes ha.2 hb.2 hresults
    exact ⟨rfl, hrs⟩
  case struct.struct =>
    obtain ⟨rfl, hrs⟩ := isPrefixCode_fieldShapes ha hb h.2
    exact ⟨rfl, hrs⟩
  case array.array =>
    obtain ⟨rfl, hrs⟩ := isPrefixCode_fieldShape ha hb h.2
    exact ⟨rfl, hrs⟩
  case missing.missing => exact ⟨rfl, h.2⟩
  all_goals exact absurd h.1 (by decide)

theorem isPrefixCode_memberShape : IsPrefixCode MemberShape.Fits MemberShape.bytes := by
  rintro ⟨fin, sup, des, dtr, comp⟩ ⟨fin', sup', des', dtr', comp'⟩ ha hb r s h
  simp only [MemberShape.bytes, List.cons_append, List.cons.injEq, List.append_assoc] at h
  obtain rfl := toUInt8_inj h.1
  obtain ⟨rfl, hsup⟩ := isPrefixCode_optBytes ha.super hb.super h.2
  obtain ⟨rfl, hdes⟩ := isPrefixCode_optBytes ha.describes hb.describes hsup
  obtain ⟨rfl, hdtr⟩ := isPrefixCode_optBytes ha.descriptor hb.descriptor hdes
  obtain ⟨rfl, hrs⟩ := isPrefixCode_compShape ha.comp hb.comp hdtr
  exact ⟨rfl, hrs⟩

/-- Two groups with the same bytes have the same structured key. -/
theorem GroupKey.bytes_injOn {k k' : GroupKey} (hk : k.Fits) (hk' : k'.Fits)
    (h : k.bytes = k'.bytes) : k = k' :=
  isPrefixCode_memberShape.flatMap_injOn (fun _ => List.cons_ne_nil _ _) hk hk' h

end Wasmrt
