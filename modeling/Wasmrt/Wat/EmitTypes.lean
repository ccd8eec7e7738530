import Wasmrt.Decode.SectionBytes
import Wasmrt.Wat.Emit

/-!
# Types as they are written

What the writers of types write are the bytes of types. The assembler does not know the families of concrete references, and
does not write them; the decoder finds them again.

## Main definitions

* `resolve`: a value type of the assembler with the family that the type section gives to it.
* `ModuleBuild.groups`: the rec groups of the type section.

## Main results

* `writes_valType`: a value type is read back as it is resolved.
* `writes_typeSection`: the type section is read back as its groups.
-/

namespace Wasmrt.Wat

open Leb128 Recognizer

/-- The longest module: the length of a section takes up a `u32`. -/
def maxLength : ℕ := 2 ^ 32

/-- A writer writes some bytes, if the module does not get too long. -/
abbrev Emits (x : Emission) (P : List UInt8 → Prop) : Prop := Writes maxLength x P

/-! ## Numbers and vectors -/

theorem emits_byte (b : UInt8) : Emits (emitByte b) fun w => w = [b] := .of_ok fun _ => rfl

theorem emits_bytes (w : List UInt8) : Emits (.ok w) fun w' => w' = w := .of_ok fun _ => rfl

theorem emits_nothing : Emits (.ok []) fun w => w = [] := emits_bytes []

theorem indexBytes_uleb {v : BitVec 64} (h : v.toNat < 2 ^ 32) : IndexBytes v.toNat (uleb v) := encodes_uleb h

theorem emits_u32 (v : BitVec 32) : Emits (emitU32 v) (IndexBytes v.toNat) := by
  refine .of_ok fun _ => ?_
  have hvalue : (v.setWidth 64).toNat = v.toNat := BitVec.toNat_setWidth_of_le (by decide)
  rw [← hvalue]
  exact indexBytes_uleb (hvalue ▸ v.isLt)

theorem emits_u64 (v : BitVec 64) : Emits (emitU64 v) (OffsetBytes v.toNat) := .of_ok fun _ => encodes_uleb v.isLt

theorem indexBytes_len {n : ℕ} (h : n < 2 ^ 32) : IndexBytes n (uleb (BitVec.ofNat 64 n)) := by
  have hvalue : (BitVec.ofNat 64 n).toNat = n := by
    rw [BitVec.toNat_ofNat]
    exact Nat.mod_eq_of_lt (by omega)
  have hbytes := indexBytes_uleb (hvalue.symm ▸ h)
  rwa [hvalue] at hbytes

theorem emits_len {n : ℕ} (h : n < 2 ^ 32) : Emits (emitLen n) (IndexBytes n) := .of_ok fun _ => indexBytes_len h

/-- Some bytes with their number in front. -/
theorem emits_blob (bs : List UInt8) : Emits (inTurn [emitLen bs.length, .ok bs]) (Binary.BlobBytes bs) := by
  refine ⟨uleb (BitVec.ofNat 64 bs.length) ++ (bs ++ []), rfl, fun hroom => ?_⟩
  rw [List.append_nil] at hroom ⊢
  refine ⟨_, rfl, ?_⟩
  rw [List.length_append] at hroom
  exact indexBytes_len (by unfold maxLength at hroom; omega)

/-- The entries of a vector take up some room each, so that their number fits where they do. -/
theorem emits_vec {α β : Type} {write : β → Emission} {L : α → List UInt8 → Prop} {bs : List β} {as : List α}
    (h : List.Forall₂ (fun b a => Emits (write b) (L a)) bs as) (hne : ∀ a w, L a w → w ≠ []) :
    Emits (emitVec write bs) (VecBytes L as) := by
  obtain ⟨w, hw, hwords⟩ := Writes.words h
  refine ⟨uleb (BitVec.ofNat 64 bs.length) ++ (w ++ []), by rw [emitVec, inTurn, inTurn, hw]; rfl, fun hroom => ?_⟩
  rw [List.append_nil] at hroom ⊢
  rw [List.length_append] at hroom
  replace hwords := hwords (by omega)
  have hlength := hwords.length_le hne
  refine ⟨_, _, rfl, ?_, hwords⟩
  rw [h.length_eq]
  exact indexBytes_len (by unfold maxLength at hroom; omega)

/-! ## Value types -/

/-- The heap type of an abstract head. -/
def headType : RefHeap → HeapType
  | .func => .func
  | .external => .external
  | .any => .any
  | .eq => .eq
  | .i31 => .i31
  | .struct => .struct
  | .array => .array
  | .none => .none
  | .exn => .exn
  | .noFunc => .noFunc
  | .noExternal => .noExternal
  | .noExn => .noExn

/-- A value type as it is written: without the family of a concrete reference. -/
def rawValType : ValType → RawValType
  | .i32 => .i32
  | .i64 => .i64
  | .f32 => .f32
  | .f64 => .f64
  | .v128 => .v128
  | .ref h n => .ref n (headType h)
  | .concrete n false _ i => .ref n (.concrete i)
  | .concrete n true _ i => .ref n (.exact i)

/-- The value type with the family that its type has. -/
def resolve (kinds : List CompKind) : ValType → Option ValType
  | .concrete n e _ i => (kinds[(i : ℕ)]?).map fun k => .concrete n e k i
  | v => some v

theorem readValType_of_resolve {kinds : List CompKind} {v v' : ValType} (h : resolve kinds v = some v') :
    readValType kinds (rawValType v) = .ok v' := by
  cases v with
  | concrete n e k i =>
    obtain ⟨k', hk', rfl⟩ := Option.map_eq_some_iff.mp h
    have hkind : concreteKind kinds i = .ok k' := by
      have hle : (i : ℕ) ≤ ValType.maxConcreteIndex := by
        unfold ValType.maxConcreteIndex
        omega
      rw [concreteKind, decide_eq_true hle, hk']
      rfl
    cases e <;> rw [rawValType, readValType, hkind] <;>
      simp [ValType.concreteRef, ValType.exactRef, bind, Except.bind, pure, Except.pure]
  | ref head n =>
    obtain rfl := Option.some.inj h
    cases head <;> rfl
  | _ =>
    cases Option.some.inj h
    rfl

/-- One byte that encodes a negative number. -/
theorem encodes_byte {b : UInt8} (hb : b.toNat < 128) : Encodes true 33 [b] (payload true b) := by
  refine .last hb ?_
  rw [inRange_signed, payload]
  split_ifs <;> omega

/-- The byte of a nullable reference stands for its heap type. -/
theorem heapTypeBytes_head (h : RefHeap) : HeapTypeBytes (headType h) [UInt8.ofNat (ValType.refBits h true).toNat] := by
  cases h <;> exact .abstract (encodes_byte (by decide)) rfl

theorem index_le (i : Fin (2 ^ 27)) : (i : ℕ) ≤ ValType.maxConcreteIndex := Nat.le_sub_one_of_lt i.isLt

theorem encodes_concrete (i : Fin (2 ^ 27)) : Encodes true 33 (sleb (BitVec.ofNat 64 i)) (i : ℕ) := by
  have hvalue : (BitVec.ofNat 64 i).toInt = (i : ℕ) := by
    rw [BitVec.toInt_eq_toNat_of_lt]
    all_goals
      rw [BitVec.toNat_ofNat]
      omega
  rw [← hvalue]
  refine encodes_sleb ?_
  rw [hvalue, inRange_signed]
  omega

theorem emits_valType (v : ValType) : Emits (emitValType v) (RawValTypeBytes (rawValType v)) := by
  cases v with
  | ref h n =>
    cases n with
    | true =>
      -- the byte of a nullable reference is a type of its own
      cases h <;> exact ⟨_, rfl, fun _ => .short rfl⟩
    | false => cases h <;> exact ⟨_, rfl, fun _ => .nonNull (heapTypeBytes_head _)⟩
  | concrete n e k i =>
    have hindex : IndexBytes (i : ℕ) (uleb ((BitVec.ofNat 32 i).setWidth 64)) := by
      have hvalue : ((BitVec.ofNat 32 i).setWidth 64).toNat = (i : ℕ) := by
        rw [BitVec.toNat_setWidth, BitVec.toNat_ofNat]
        omega
      have hbytes := indexBytes_uleb (show ((BitVec.ofNat 32 i).setWidth 64).toNat < 2 ^ 32 by omega)
      rwa [hvalue] at hbytes
    have hexact : HeapTypeBytes (.exact i) ([0x62] ++ uleb ((BitVec.ofNat 32 i).setWidth 64)) :=
      .exact (encodes_byte (by decide)) hindex (index_le i)
    have hconcrete : HeapTypeBytes (.concrete i) (sleb (BitVec.ofNat 64 i)) := .concrete (encodes_concrete i) (index_le i)
    cases e <;> cases n
    · refine ⟨_, rfl, fun _ => ?_⟩
      simp only [List.append_nil]
      exact .nonNull hconcrete
    · refine ⟨_, rfl, fun _ => ?_⟩
      simp only [List.append_nil]
      exact .null hconcrete
    · refine ⟨_, rfl, fun _ => ?_⟩
      simp only [List.append_nil]
      exact .nonNull hexact
    · refine ⟨_, rfl, fun _ => ?_⟩
      simp only [List.append_nil]
      exact .null hexact
  | _ => exact ⟨_, rfl, fun _ => .short rfl⟩

/-- A value type is read back as it is resolved. -/
theorem writes_valType {kinds : List CompKind} {v v' : ValType} (h : resolve kinds v = some v') :
    Emits (emitValType v) (ValTypeBytes kinds v') :=
  (emits_valType v).mono fun _ _ hw => ⟨_, hw, readValType_of_resolve h⟩

/-! ## Type definitions -/

def rawStorage : Storage → RawStorageType
  | .val v => .val (rawValType v)
  | .i8 => .i8
  | .i16 => .i16

def rawField (f : GcField) : RawFieldType := ⟨rawStorage f.storage, f.mutable⟩

/-- A type definition as it is written. -/
def rawTypeDef : TypeDef → RawCompType
  | .func s => .func (s.params.map rawValType) (s.results.map rawValType)
  | .struct fields => .struct (fields.map rawField)
  | .array f => .array (rawField f)

/-- A vector is what its entries are, one by one. -/
theorem emits_vec_map {α β : Type} {write : β → Emission} {L : α → List UInt8 → Prop} {f : β → α} (bs : List β)
    (h : ∀ b, Emits (write b) (L (f b))) (hne : ∀ a w, L a w → w ≠ []) : Emits (emitVec write bs) (VecBytes L (bs.map f)) :=
  emits_vec (List.forall₂_map_right_iff.mpr (List.forall₂_same.mpr fun b _ => h b)) hne

theorem emits_gcField (f : GcField) : Emits (emitGcField f) (FieldBytes (rawField f)) := by
  obtain ⟨storage, mutable⟩ := f
  have hstorage : Emits (match storage with
      | .val v => emitValType v
      | .i8 => emitByte 0x78
      | .i16 => emitByte 0x77) (StorageBytes (rawStorage storage)) := by
    cases storage with
    | val v => exact (emits_valType v).mono fun _ _ => .val
    | i8 => exact .of_ok fun _ => .i8
    | i16 => exact .of_ok fun _ => .i16
  refine (hstorage.cons (emits_byte _).singleton).mono ?_
  rintro _ - ⟨w, _, rfl, hw, rfl⟩
  exact .mk hw

theorem emits_valTypeVec (vts : List ValType) : Emits (valTypeVec vts) (VecBytes RawValTypeBytes (vts.map rawValType)) :=
  emits_vec_map vts emits_valType fun _ _ => RawValTypeBytes.ne_nil

theorem emits_typeDef (t : TypeDef) : Emits (emitTypeDef t) (CompTypeBytes (rawTypeDef t)) := by
  cases t with
  | func s =>
    refine ((emits_byte _).cons ((emits_valTypeVec s.params).cons (emits_valTypeVec s.results).singleton)).mono ?_
    rintro _ - ⟨_, _, rfl, rfl, w, w', rfl, hw, hw'⟩
    change CompTypeBytes (.func _ _) (0x60 :: (w ++ w'))
    exact .func hw hw'
  | struct fields =>
    refine ((emits_byte _).cons (emits_vec_map fields emits_gcField fun _ _ => FieldBytes.ne_nil).singleton).mono ?_
    rintro _ - ⟨_, w, rfl, rfl, hw⟩
    exact .struct hw
  | array f =>
    refine ((emits_byte _).cons (emits_gcField f).singleton).mono ?_
    rintro _ - ⟨_, w, rfl, rfl, hw⟩
    exact .array hw

theorem emits_link (tag : UInt8) (link : Option (BitVec 32)) :
    Emits (emitLink tag link) (LinkBytes tag (link.map (·.toNat))) := by
  cases link with
  | none => exact .of_ok fun _ => .none
  | some x =>
    refine ((emits_byte _).cons (emits_u32 x).singleton).mono ?_
    rintro _ - ⟨_, w, rfl, rfl, hw⟩
    exact .some hw

namespace ModuleBuild

variable {b : ModuleBuild}

/-- A type of the type section. -/
def subType (b : ModuleBuild) (i : ℕ) : Option SubType :=
  (b.types[i]?).map fun t =>
    ⟨b.isFinal i, (b.superOf i).map (·.toNat), ⟨(b.linksOf i).1.map (·.toNat), (b.linksOf i).2.map (·.toNat)⟩, rawTypeDef t⟩

/-- The wrapper of a type is left out just where a type without it is the same. -/
theorem emits_wrapper (isFinal : Bool) (super : Option (BitVec 32)) :
    Emits (if !isFinal || super.isSome then
      inTurn [emitByte (if isFinal then 0x4f else 0x50), match super with
        | some s => inTurn [emitLen 1, emitU32 s]
        | none => emitLen 0]
    else .ok []) (WrapperBytes isFinal (super.map (·.toNat))) := by
  have hsuper : Emits (match super with
      | some s => inTurn [emitLen 1, emitU32 s]
      | none => emitLen 0) (SuperBytes (super.map (·.toNat))) := by
    cases super with
    | none => exact (emits_len (by decide)).mono fun _ _ => .none
    | some s =>
      refine ((emits_len (by decide)).cons (emits_u32 s).singleton).mono ?_
      rintro _ - ⟨w, w', rfl, hw, hw'⟩
      exact .some hw hw'
  by_cases hwrapped : (!isFinal || super.isSome) = true
  · rw [if_pos hwrapped]
    refine ((emits_byte _).cons hsuper.singleton).mono ?_
    rintro _ - ⟨_, w, rfl, rfl, hw⟩
    cases isFinal
    · exact .opened hw
    · exact .final hw
  · rw [if_neg hwrapped]
    obtain ⟨rfl, hnone⟩ : isFinal = true ∧ super = none := by
      cases isFinal <;> cases super <;> first | exact ⟨rfl, rfl⟩ | exact absurd rfl hwrapped
    rw [hnone]
    exact .of_ok fun _ => .bare

theorem emits_subType {i : ℕ} {st : SubType} (h : b.subType i = some st) : Emits (b.emitSubType i) (SubTypeBytes st) := by
  obtain ⟨t, ht, rfl⟩ := Option.map_eq_some_iff.mp h
  rw [emitSubType, ht]
  refine ((emits_wrapper (b.isFinal i) (b.superOf i)).cons ((emits_link _ _).cons
    ((emits_link _ _).cons (emits_typeDef t).singleton))).mono ?_
  rintro _ - ⟨w, _, rfl, hw, w₁, _, rfl, hw₁, w₂, w₃, rfl, hw₂, hw₃⟩
  exact .mk hw hw₁ hw₂ hw₃

/-! ## The type section -/

/-- The types of an entry. -/
def groupOf (b : ModuleBuild) (e : TypeEntry) : Option (List SubType) := (List.range' e.start e.len).mapM b.subType

/-- The rec groups of the type section. -/
def groups (b : ModuleBuild) : Option (List (List SubType)) := b.entries.mapM b.groupOf

/-- A single type is written without the bytes of a group around it. -/
theorem emits_entry {e : TypeEntry} {g : List SubType} (h : b.groupOf e = some g) (hsingle : e.explicit = false → e.len = 1) :
    Emits (b.emitEntry e) (RecGroupBytes g) := by
  have hlength : e.len = g.length := by
    have := (mapM_eq_some.mp h).length_eq
    rwa [List.length_range'] at this
  have hwords : Emits (inTurn ((List.range' e.start e.len).map b.emitSubType)) (Words SubTypeBytes g) :=
    Writes.words ((mapM_eq_some.mp h).imp fun _ _ => emits_subType)
  by_cases hexplicit : e.explicit = true
  · obtain ⟨w, hw, hwords⟩ := hwords
    refine ⟨0x4e :: (uleb (BitVec.ofNat 64 e.len) ++ w), ?_, fun hroom => ?_⟩
    · rw [emitEntry, if_pos hexplicit]
      simp only [inTurn, hw, emitByte, emitLen]
      simp [pure, Except.pure, bind, Except.bind]
    · rw [List.length_cons, List.length_append] at hroom
      replace hwords := hwords (by omega)
      have hle := hwords.length_le fun _ _ hw => (SubTypeBytes.alone hw).choose_spec.2.2
      refine .group ?_ hwords
      rw [← hlength]
      exact indexBytes_len (by unfold maxLength at hroom; omega)
  · rw [emitEntry, if_neg hexplicit]
    have hone := hsingle (Bool.not_eq_true _ ▸ hexplicit)
    refine (emits_nothing.cons hwords.singleton).mono ?_
    rintro _ - ⟨_, w, rfl, rfl, hw⟩
    obtain ⟨st, rfl⟩ := List.length_eq_one_iff.mp (hlength ▸ hone)
    obtain ⟨w₁, w₂, rfl, hst, hnil⟩ := Words.cons_iff.mp hw
    rw [Words.nil_iff.mp hnil, List.append_nil]
    exact .alone hst

theorem entriesFrom_single {steps i : ℕ} {e : TypeEntry} (h : e ∈ b.entriesFrom steps i) (hsingle : e.explicit = false) :
    e.len = 1 := by
  induction steps generalizing i with
  | zero => cases h
  | succ steps ih =>
    rw [entriesFrom] at h
    split_ifs at h with hlt
    · split at h
      · split_ifs at h with hlen
        · rcases List.mem_cons.mp h with rfl | h
          · cases hsingle
          · exact ih h
        · rcases List.mem_cons.mp h with rfl | h
          · rfl
          · exact ih h
      · rcases List.mem_cons.mp h with rfl | h
        · rfl
        · exact ih h
    · cases h

/-- The type section is read back as its groups. -/
theorem writes_typeSection {gs : List (List SubType)} (h : b.groups = some gs) :
    Emits (emitVec b.emitEntry b.entries) (TypeSectionBytes gs) := by
  have hentries : List.Forall₂ (fun e g => Emits (b.emitEntry e) (RecGroupBytes g)) b.entries gs := by
    have hgroups := mapM_eq_some.mp h
    refine (List.forall₂_iff_get.mpr ⟨hgroups.length_eq, fun i hi hi' => ?_⟩)
    exact emits_entry ((List.forall₂_iff_get.mp hgroups).2 i hi hi') (entriesFrom_single (List.get_mem _ _))
  refine (emits_vec hentries fun g w hw => ?_).mono ?_
  · rcases hw with hst | _
    · exact (SubTypeBytes.alone hst).choose_spec.2.2
    · exact List.cons_ne_nil _ _
  · rintro _ - ⟨w₁, w₂, rfl, hlength, hw⟩
    exact ⟨w₁, w₂, rfl, hlength, hw⟩

end ModuleBuild

end Wasmrt.Wat
