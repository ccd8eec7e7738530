import Wasmrt.Decode.SectionBytes

/-!
# Decoding a module

`decode` of `module.rs`: the header, the sections in their order, and the checks that no section can make alone. A module
decodes just in case its bytes are those of a module.

## Main definitions

* `Binary.SectionId`: the sections, their numbers and their order.
* `Binary.Parts`: what has been read.
* `Binary.decode`: a whole module.
* `Binary.PayloadBytes`, `Binary.SectionBytes`, `Binary.ModuleBytes`: the bytes of a module.

## Main results

* `Binary.decode_eq_ok`: what decodes is what the bytes of a module say.
-/

namespace Wasmrt

open Leb128 Recognizer

variable {bytes : List UInt8} {α : Type}

namespace Binary

/-! ## The sections -/

/-- The sections of a module. -/
inductive SectionId
  | custom | type | imports | function | table | memory | global | exports | start | element | code | data | dataCount
  | tag
  deriving DecidableEq, Repr

namespace SectionId

/-- The highest number of a section. -/
def max : UInt8 := 13

/-- The section of a number. -/
def fromU8 (b : UInt8) : Option SectionId :=
  match b.toNat with
  | 0 => some custom
  | 1 => some type
  | 2 => some imports
  | 3 => some function
  | 4 => some table
  | 5 => some memory
  | 6 => some global
  | 7 => some exports
  | 8 => some start
  | 9 => some element
  | 10 => some code
  | 11 => some data
  | 12 => some dataCount
  | 13 => some tag
  | _ => none

/-- The place of a section, which is not its number. A custom section may stand anywhere. -/
def order : SectionId → Option ℕ
  | custom => none
  | type => some 0
  | imports => some 1
  | function => some 2
  | table => some 3
  | memory => some 4
  | tag => some 5
  | global => some 6
  | exports => some 7
  | start => some 8
  | element => some 9
  | dataCount => some 10
  | code => some 11
  | data => some 12

/-- The number of a section. -/
def toU8 : SectionId → UInt8
  | custom => 0
  | type => 1
  | imports => 2
  | function => 3
  | table => 4
  | memory => 5
  | global => 6
  | exports => 7
  | start => 8
  | element => 9
  | code => 10
  | data => 11
  | dataCount => 12
  | tag => 13

theorem fromU8_eq_some {b : UInt8} {id : SectionId} : fromU8 b = some id ↔ b = id.toU8 := by
  constructor
  · intro h
    rw [fromU8] at h
    split at h <;> cases h <;> exact UInt8.toNat_inj.mp ‹_›
  · rintro rfl
    cases id <;> rfl

theorem toU8_le_max (id : SectionId) : id.toU8 ≤ max := by cases id <;> decide

end SectionId

/-! ## The decoder -/

/-- What has been read of a module. -/
structure Parts extends Decoder where
  functions : List ℕ := []
  tags : List ℕ := []
  imports : List Import := []
  exports : List Export := []
  code : List Code := []
  data : List DataSegment := []
  elements : List Element := []
  start : Option ℕ := none
  dataCount : Option ℕ := none
  lastOrder : Option ℕ := none

/-- An error of the source. -/
def raised (x : Except DecodeError α) : Except (Option DecodeError) α := x.mapError some

/-- Read a section, which must take up the whole of its bytes. -/
def whole {payload : List UInt8} (p : Decoding payload α) : Except (Option DecodeError) α :=
  match p (Reader.new payload) with
  | .ok (a, r) => if r.atEnd then .ok a else .error (some .sectionSizeMismatch)
  | .error e => .error e

/-- Read the kinds of the types, and then the types. -/
def decodeTypes : Decoding bytes (List CompKind × TypeSection) := do
  let kinds ← readAhead prescanTypeKinds
  let types ← decodeTypeSection
  pure (kinds, types)

/-- Read the name of a custom section. Whatever comes after it is left alone. -/
def decodeCustom (payload : List UInt8) : Except (Option DecodeError) String :=
  match readName (Reader.new payload) with
  | .ok (name, _) => .ok name
  | .error e => .error e

namespace Parts

variable (p : Parts)

/-- A section comes after every section that has been read. -/
def inOrder (id : SectionId) : Except DecodeError Parts :=
  match id.order with
  | none => .ok p
  | some ord =>
    if p.lastOrder.any fun prev => decide (ord ≤ prev) then .error .sectionOrder else .ok { p with lastOrder := some ord }

/-- Read the bytes of a section. -/
def decodeSection (id : SectionId) (payload : List UInt8) : Except (Option DecodeError) Parts :=
  match id with
  | .custom => (decodeCustom payload).map fun _ => p
  | .type => (whole (@decodeTypes payload)).map fun ts => { p with typeKinds := ts.1, types := ts.2 }
  | .imports => (whole (readVec (@decodeImport payload p.toDecoder))).map fun is =>
    { p with toDecoder := is.foldl Decoder.addImport p.toDecoder, imports := is }
  | .function => (whole (readVec (@readFuncIndex payload p.toDecoder))).map fun fs =>
    { p with funcSpace := p.funcSpace ++ fs.map (·.2), functions := fs.map (·.1) }
  | .tag => (whole (readVec (@readTagIndex payload p.toDecoder))).map fun ts =>
    { p with tagSpace := p.tagSpace ++ ts.map (·.2), tags := ts.map (·.1) }
  | .table => (whole (readCounted (@decodeTable payload p.typeKinds))).map fun ts =>
    { p with tableSpace := p.tableSpace ++ ts }
  | .memory => (whole (readCounted (@readMemoryType payload))).map fun ms => { p with memSpace := p.memSpace ++ ms }
  | .global => (whole (readCounted (@decodeGlobal payload p.typeKinds))).map fun gs =>
    { p with globalSpace := p.globalSpace ++ gs.map (·.1), globalInitSpace := p.globalInitSpace ++ gs.map (·.2) }
  | .exports => (whole (readVec (@decodeExport payload p.toDecoder))).map fun es => { p with exports := es }
  | .element => (whole (readVec (@decodeElement payload p.typeKinds))).map fun es => { p with elements := es }
  | .code => (whole (readVec (@decodeCode payload p.typeKinds))).map fun cs => { p with code := cs }
  | .data => (whole (readVec (@decodeDataSegment payload))).map fun ds => { p with data := ds }
  | .dataCount => (whole (@readU32 payload)).map fun n => { p with dataCount := some n }
  | .start => (whole (@readU32 payload)).map fun f => { p with start := some f }

/-- The constant expressions of a module. A segment that is not active has no offset. -/
def moduleConstExprs : List ConstBytes :=
  p.globalInitSpace ++ p.tableSpace.filterMap (·.init) ++
    p.elements.flatMap (fun e => (if e.mode = .active then [e.offsetExpr] else []) ++ e.exprs) ++
    (p.data.filter (·.active)).map (·.offsetExpr)

/-- Does an instruction name a data segment? -/
def namesData : Instr → Bool
  | .memoryInit _ _ | .dataDrop _ | .arrayNewData _ _ | .arrayInitData _ _ => true
  | _ => false

/-- The number of data segments, if it is given, is right; and it is given, if the code names a segment. -/
def checkDataCount : Except DecodeError PUnit.{1} :=
  match p.dataCount with
  | some n => ensure (decide (n = p.data.length)) .dataCountMismatch
  | none => ensure (!p.code.any fun c => c.ir.any namesData) .dataCountRequired

/-- The module of what has been read. -/
def toModule : Module :=
  { p.types with
    functions := p.functions
    tags := p.tags
    imports := p.imports
    exports := p.exports
    code := p.code
    globals := p.globalSpace
    globalInits := p.globalInitSpace
    memories := p.memSpace
    tables := p.tableSpace
    data := p.data
    elements := p.elements
    start := p.start }

/-- The checks that no section can make alone. -/
def finish : Except (Option DecodeError) Module := do
  p.moduleConstExprs.forM fun e => do
    let _ ← decodeBody e
    pure ⟨⟩
  raised (ensure (decide (p.functions.length = p.code.length)) .funcCodeCountMismatch)
  raised p.checkDataCount
  pure p.toModule

end Parts

/-- Read a section, or stop at the end. -/
def sectionStep (p : Parts) : Decoding bytes (Parts ⊕ Parts) := do
  let r ← cursor
  if r.atEnd then pure (.inr p)
  else do
    let rawId ← readByte
    checked (ensure (decide (rawId ≤ SectionId.max)) .invalidSectionId)
    let id ← checked (orError .invalidSectionId (SectionId.fromU8 rawId))
    let p ← checked (p.inOrder id)
    let payload ← readByteVec
    let p ← lifted (p.decodeSection id payload)
    pure (.inl p)

/-- The first bytes of a module. -/
def magic : List UInt8 := [0x00, 0x61, 0x73, 0x6d]

/-- Read the header and the sections. -/
def decodeParts : Decoding bytes Parts := do
  let header ← readBytes 4
  checked (ensure (decide (header = magic)) .badMagic)
  let version ← readU32Le
  checked (ensure (decide (version = 1)) .unsupportedVersion)
  loopM Reader.rest none sectionStep {}

/-- Decode a module. -/
def decode (bytes : List UInt8) : Except (Option DecodeError) Module :=
  match decodeParts (Reader.new bytes) with
  | .ok (p, _) => p.finish
  | .error e => .error e

/-! ## The bytes of sections -/

theorem decides_whole {payload : List UInt8} {p : Decoding payload α} {L : α → List UInt8 → Prop} (hp : ReadsAs p L) :
    Decides none (whole p) fun a => L a payload := by
  rw [whole]
  refine ⟨fun a => ?_, fun h => ?_⟩
  · rw [← reads_whole hp]
    constructor
    · intro h
      split at h
      · next r hread =>
        split_ifs at h with hend
        cases h
        exact ⟨r, hread, hend⟩
      · cases h
    · rintro ⟨r, hread, hend⟩
      rw [hread]
      exact if_pos hend
  · split at h
    · split_ifs at h
      cases h
    · next e hread =>
      cases h
      exact (hp _).ends hread

theorem reads_decodeTypes : ReadsAs (@decodeTypes bytes) fun ts w =>
    ts.1 = ts.2.compTypes.map CompType.kind ∧ ∃ rts, TypeSectionBytes rts w ∧ Wasmrt.decodeTypeSection rts = .ok ts.2 := by
  intro s
  refine ⟨?_, ?_, ?_⟩
  · rintro ts s' hok
    obtain ⟨kinds, s₁, hahead, hok⟩ := bind_eq_ok.mp hok
    obtain ⟨types, s₂, htypes, hpure⟩ := bind_eq_ok.mp hok
    obtain ⟨rfl, rfl⟩ := pure_eq_ok.mp hpure
    obtain ⟨rfl, s₃, hscan⟩ := readAhead_eq_ok.mp hahead
    obtain ⟨w, hinput, hw⟩ := (reads_decodeTypeSection s₁).sound _ _ htypes
    obtain ⟨ks, hscan', hks⟩ := follows_prescanTypeKinds s₁ _ _ htypes
    obtain ⟨rfl, -⟩ := Prod.mk.inj (Except.ok.inj (hscan.symm.trans hscan'))
    exact ⟨w, hinput, hks, hw⟩
  · rintro ⟨kinds, types⟩ w r hinput ⟨hkinds, hw⟩
    obtain ⟨s', htypes, hrest⟩ := (reads_decodeTypeSection s).complete types w r hinput hw
    obtain ⟨ks, hscan, hks⟩ := follows_prescanTypeKinds s _ _ htypes
    obtain rfl : kinds = ks := hkinds.trans hks.symm
    exact ⟨s', bind_eq_ok.mpr ⟨kinds, s, readAhead_eq_ok.mpr ⟨rfl, s', hscan⟩, bind_eq_ok.mpr ⟨types, s', htypes, rfl⟩⟩,
      hrest⟩
  · exact ends_readAhead.bind (fun kinds => (Ends.of_exact reads_decodeTypeSection).bind fun types => .pure _) s

/-- The bytes of a section, and what has been read after it. -/
def PayloadBytes (p : Parts) : SectionId → List UInt8 → Parts → Prop
  | .custom, w, p' => (∃ name w₁ junk, w = w₁ ++ junk ∧ NameBytes name w₁) ∧ p' = p
  | .type, w, p' => ∃ ts, (∃ rts, TypeSectionBytes rts w ∧ Wasmrt.decodeTypeSection rts = .ok ts) ∧
      p' = { p with typeKinds := ts.compTypes.map CompType.kind, types := ts }
  | .imports, w, p' => ∃ is, VecBytes (ImportBytes p.toDecoder) is w ∧
      p' = { p with toDecoder := is.foldl Decoder.addImport p.toDecoder, imports := is }
  | .function, w, p' => ∃ fs, VecBytes (FuncIndexBytes p.toDecoder) fs w ∧
      p' = { p with funcSpace := p.funcSpace ++ fs.map (·.2), functions := fs.map (·.1) }
  | .tag, w, p' => ∃ ts, VecBytes (TagIndexBytes p.toDecoder) ts w ∧
      p' = { p with tagSpace := p.tagSpace ++ ts.map (·.2), tags := ts.map (·.1) }
  | .table, w, p' => ∃ ts, VecBytes (TableBytes p.typeKinds) ts w ∧ p' = { p with tableSpace := p.tableSpace ++ ts }
  | .memory, w, p' => ∃ ms, VecBytes MemoryTypeBytes ms w ∧ p' = { p with memSpace := p.memSpace ++ ms }
  | .global, w, p' => ∃ gs, VecBytes (GlobalBytes p.typeKinds) gs w ∧ p' =
      { p with globalSpace := p.globalSpace ++ gs.map (·.1), globalInitSpace := p.globalInitSpace ++ gs.map (·.2) }
  | .exports, w, p' => ∃ es, VecBytes (ExportBytes p.toDecoder) es w ∧ p' = { p with exports := es }
  | .element, w, p' => ∃ es, VecBytes (ElementBytes p.typeKinds) es w ∧ p' = { p with elements := es }
  | .code, w, p' => ∃ cs, VecBytes (CodeBytes p.typeKinds) cs w ∧ p' = { p with code := cs }
  | .data, w, p' => ∃ ds, VecBytes DataBytes ds w ∧ p' = { p with data := ds }
  | .dataCount, w, p' => ∃ n, IndexBytes n w ∧ p' = { p with dataCount := some n }
  | .start, w, p' => ∃ f, IndexBytes f w ∧ p' = { p with start := some f }

theorem decides_decodeCustom (payload : List UInt8) :
    Decides none (decodeCustom payload) fun name => ∃ w junk, payload = w ++ junk ∧ NameBytes name w := by
  rw [decodeCustom]
  refine ⟨fun name => ⟨fun h => ?_, ?_⟩, fun h => ?_⟩
  · split at h
    · next r hread =>
      cases h
      obtain ⟨w, hinput, hw⟩ := (reads_readName _).sound _ _ hread
      exact ⟨w, r.rest, hinput, hw⟩
    · cases h
  · rintro ⟨w, junk, hinput, hw⟩
    obtain ⟨r, hread, -⟩ := (reads_readName (Reader.new payload)).complete name w junk hinput hw
    rw [hread]
  · split at h
    · cases h
    · next e hread =>
      cases h
      exact (reads_readName _).ends hread

/-- The readers of the sections read the bytes of the sections. -/
theorem Parts.decides_decodeSection (p : Parts) (id : SectionId) (payload : List UInt8) :
    Decides none (p.decodeSection id payload) (PayloadBytes p id payload) := by
  cases id with
  | custom =>
    have h := (decides_decodeCustom payload).map (f := fun _ => p)
    refine ⟨fun p' => (h.iff p').trans ⟨?_, ?_⟩, h.ends⟩
    · rintro ⟨name, hname, heq⟩
      exact ⟨⟨name, hname⟩, heq⟩
    · rintro ⟨⟨name, hname⟩, heq⟩
      exact ⟨name, hname, heq⟩
  | type =>
    have h := (decides_whole (@reads_decodeTypes payload)).map
      (f := fun ts => { p with typeKinds := ts.1, types := ts.2 })
    refine ⟨fun p' => (h.iff p').trans ⟨?_, ?_⟩, h.ends⟩
    · rintro ⟨⟨kinds, ts⟩, ⟨hkinds, hts⟩, rfl⟩
      rw [show kinds = ts.compTypes.map CompType.kind from hkinds]
      exact ⟨ts, hts, rfl⟩
    · rintro ⟨ts, hts, rfl⟩
      exact ⟨(_, ts), ⟨rfl, hts⟩, rfl⟩
  | imports => exact (decides_whole (reads_readVec (reads_decodeImport _) fun _ _ => ImportBytes.ne_nil _)).map
  | function => exact (decides_whole (reads_readVec (reads_readFuncIndex _) fun _ _ => FuncIndexBytes.ne_nil _)).map
  | table => exact (decides_whole (reads_readCounted (reads_decodeTable _))).map
  | memory => exact (decides_whole (reads_readCounted reads_readMemoryType)).map
  | global => exact (decides_whole (reads_readCounted (reads_decodeGlobal _))).map
  | exports => exact (decides_whole (reads_readVec (reads_decodeExport _) fun _ _ => ExportBytes.ne_nil _)).map
  | start => exact (decides_whole reads_readU32).map
  | element => exact (decides_whole (reads_readVec (reads_decodeElement _) fun _ _ => ElementBytes.ne_nil _)).map
  | code => exact (decides_whole (reads_readVec (reads_decodeCode _) fun _ _ => CodeBytes.ne_nil _)).map
  | data => exact (decides_whole (reads_readVec reads_decodeDataSegment fun _ _ => DataBytes.ne_nil)).map
  | dataCount => exact (decides_whole reads_readU32).map
  | tag => exact (decides_whole (reads_readVec (reads_readTagIndex _) fun _ _ => TagIndexBytes.ne_nil _)).map

/-! ## The bytes of a module -/

namespace Parts

variable (p : Parts)

/-- Every section that has been read has a place before this one. -/
def Before (ord : ℕ) : Prop := ∀ prev, p.lastOrder = some prev → prev < ord

/-- A custom section may come anywhere, and any other after the sections with places before its own. -/
inductive Follows : SectionId → Parts → Prop
  | custom : Follows .custom p
  | ordered {id ord} : id.order = some ord → p.Before ord → Follows id { p with lastOrder := some ord }

/-- The number of data segments is right, or it is missing and no instruction names a segment. -/
def DataCounted : Prop :=
  p.dataCount = some p.data.length ∨ (p.dataCount = none ∧ ∀ c ∈ p.code, ∀ i ∈ c.ir, namesData i = false)

variable {p}

theorem inOrder_eq_ok {p' : Parts} {id : SectionId} : p.inOrder id = .ok p' ↔ p.Follows id p' := by
  rw [inOrder]
  split
  · next hnone =>
    obtain rfl : id = .custom := by cases id <;> first | rfl | cases hnone
    constructor
    · rintro ⟨⟩
      exact .custom
    · rintro (_ | ⟨⟨⟩, -⟩)
      rfl
  · next ord hord =>
    have hbefore : (p.lastOrder.any fun prev => decide (ord ≤ prev)) = true ↔ ¬ p.Before ord := by
      rw [Before]
      cases p.lastOrder <;> simp
    split_ifs with hlate
    · rw [hbefore] at hlate
      refine iff_of_false nofun ?_
      rintro (_ | ⟨hord', hb⟩)
      · cases hord
      · obtain rfl := Option.some.inj (hord.symm.trans hord')
        exact hlate hb
    · rw [hbefore, not_not] at hlate
      constructor
      · rintro ⟨⟩
        exact .ordered hord hlate
      · rintro (_ | ⟨hord', -⟩)
        · cases hord
        · obtain rfl := Option.some.inj (hord.symm.trans hord')
          rfl

theorem checkDataCount_eq_ok {u : PUnit} : p.checkDataCount = .ok u ↔ p.DataCounted := by
  rw [checkDataCount, DataCounted]
  cases p.dataCount with
  | some n => simp
  | none => simp

end Parts

/-- The bytes of a section, and what has been read after it. -/
inductive SectionBytes (p : Parts) : Parts → List UInt8 → Prop
  | mk {id p₁ p₂ payload w} : p.Follows id p₁ → BlobBytes payload w → PayloadBytes p₁ id payload p₂ →
      SectionBytes p p₂ (id.toU8 :: w)

/-- The bytes of some sections, and what has been read after them. -/
inductive SectionsBytes : Parts → Parts → List UInt8 → Prop
  | nil {p} : SectionsBytes p p []
  | cons {p p₁ p₂ w w'} : SectionBytes p p₁ w → SectionsBytes p₁ p₂ w' → SectionsBytes p p₂ (w ++ w')

/-- The bytes of a version number. -/
def version : List UInt8 := [0x01, 0x00, 0x00, 0x00]

/-- The bytes of a module: the header, the sections in their order, as many functions as bodies, and the number of data
segments where it is needed. -/
inductive ModuleBytes : Module → List UInt8 → Prop
  | mk {p : Parts} {w} : SectionsBytes {} p w → p.functions.length = p.code.length → p.DataCounted →
      ModuleBytes p.toModule (magic ++ (version ++ w))

theorem SectionBytes.ne_nil {p p' : Parts} {w : List UInt8} (h : SectionBytes p p' w) : w ≠ [] := by
  obtain ⟨-⟩ := h
  exact List.cons_ne_nil _ _

/-- What a round reads: nothing at the end, and a section before. -/
def RoundBytes (p : Parts) (x : Parts ⊕ Parts) (w r : List UInt8) : Prop :=
  (x = .inr p ∧ w = [] ∧ r = []) ∨ ∃ p', x = .inl p' ∧ SectionBytes p p' w

theorem exact_sectionStep (p : Parts) : ReadsExactly (@sectionStep bytes p) (RoundBytes p) := by
  intro s
  rw [sectionStep]
  refine exactAt_cursor ?_
  by_cases hend : s.atEnd = true
  · rw [if_pos hend]
    rw [Reader.atEnd_iff] at hend
    refine (ExactAt.pure (Sum.inr p)).congr fun x w r hinput => ?_
    rw [hend] at hinput
    obtain ⟨rfl, rfl⟩ := List.nil_eq_append_iff.mp hinput
    constructor
    · rintro ⟨rfl, -⟩
      exact .inl ⟨rfl, rfl, rfl⟩
    · rintro (⟨rfl, -⟩ | ⟨p', rfl, h⟩)
      · exact ⟨rfl, rfl⟩
      · exact absurd rfl h.ne_nil
  · rw [if_neg hend]
    have hrest (rawId : UInt8) := @reads_ensure bytes _ (decide (rawId ≤ SectionId.max))
      .invalidSectionId _ _ fun _ => (reads_checked (orError .invalidSectionId (SectionId.fromU8 rawId))).bind fun id =>
        (reads_checked (p.inOrder id)).bind fun p₁ => reads_readByteVec.bind fun payload =>
          (p₁.decides_decodeSection id payload).reads.bind_pure (f := Sum.inl (β := Parts))
    refine ((reads_readByte.bind hrest) s).congr fun x w r hinput => ?_
    constructor
    · rintro ⟨b, _, _, rfl, rfl, -, id, _, _, rfl, ⟨rfl, hid⟩, p₁, _, _, rfl, ⟨rfl, horder⟩, payload, w, _, rfl, hw, p₂,
        rfl, rfl, hp₂⟩
      obtain rfl := SectionId.fromU8_eq_some.mp (orError_eq_ok.mp hid)
      rw [List.append_nil]
      exact .inr ⟨p₂, rfl, .mk (Parts.inOrder_eq_ok.mp horder) hw hp₂⟩
    · rintro (⟨-, rfl, rfl⟩ | ⟨p₂, rfl, h⟩)
      · exact absurd (Reader.atEnd_iff.mpr hinput) hend
      · rcases h with @⟨id, p₁, _, payload, w, horder, hw, hp₂⟩
        have hid := orError_eq_ok (e := DecodeError.invalidSectionId).mpr (@SectionId.fromU8_eq_some _ id |>.mpr rfl)
        exact ⟨id.toU8, [_], w, rfl, rfl, decide_eq_true id.toU8_le_max, id, [], w, rfl, ⟨rfl, hid⟩, p₁, [], w, rfl,
          ⟨rfl, Parts.inOrder_eq_ok.mpr horder⟩, payload, w, [], (List.append_nil w).symm, hw, p₂, rfl, rfl, hp₂⟩

/-- The sections up to the end are none, or one and the sections after it. -/
theorem sectionsBytes_unroll (p p' : Parts) (w r : List UInt8) :
    (SectionsBytes p p' w ∧ r = []) ↔ RoundBytes p (.inr p') w r ∨
      ∃ p₁ w₁ w₂, w = w₁ ++ w₂ ∧ RoundBytes p (.inl p₁) w₁ (w₂ ++ r) ∧ SectionsBytes p₁ p' w₂ ∧ r = [] := by
  constructor
  · rintro ⟨_ | ⟨hone, hrest⟩, rfl⟩
    · exact .inl (.inl ⟨rfl, rfl, rfl⟩)
    · exact .inr ⟨_, _, _, rfl, .inr ⟨_, rfl, hone⟩, hrest, rfl⟩
  · rintro ((⟨heq, rfl, rfl⟩ | ⟨_, ⟨⟩, -⟩) | ⟨p₁, w₁, w₂, rfl, ⟨⟨⟩, -⟩ | ⟨_, heq, hone⟩, hrest, rfl⟩)
    · obtain rfl := Sum.inr.inj heq
      exact ⟨.nil, rfl⟩
    · obtain rfl := Sum.inl.inj heq
      exact ⟨.cons hone hrest, rfl⟩

theorem exact_decodeParts : ReadsExactly (@decodeParts bytes) fun p w r =>
    (∃ w', w = magic ++ (version ++ w') ∧ SectionsBytes {} p w') ∧ r = [] := by
  have hversion : ReadsAs (@readU32Le bytes) fun n w => n = ofBytesLe 32 w ∧ w.length = 4 := by
    refine (Consumes.map (exact_readBytes 4)).congr fun n w => ?_
    constructor
    · rintro ⟨_, rfl, rfl, hlength⟩
      exact ⟨rfl, hlength⟩
    · rintro ⟨rfl, hlength⟩
      exact ⟨w, rfl, rfl, hlength⟩
  have hloop : ReadsExactly (@loopM _ _ _ Parts Parts Reader.rest none (@sectionStep bytes) {}) fun p w r =>
      SectionsBytes {} p w ∧ r = [] := exact_loopM_of_unroll exact_sectionStep (by
    rintro p p' w r (⟨⟨⟩, -⟩ | ⟨_, -, h⟩)
    exact h.ne_nil) sectionsBytes_unroll {}
  intro s
  refine ((exact_readBytes 4 s).bind fun header s₁ _ => exactAt_ensure fun _ => (hversion s₁).bind fun n s₂ _ =>
    exactAt_ensure fun _ => hloop s₂).congr fun p w r _ => ?_
  constructor
  · rintro ⟨header, _, _, rfl, ⟨rfl, -⟩, hmagic, n, w₁, w₂, rfl, ⟨rfl, hlength⟩, hn, h, rfl⟩
    obtain rfl := of_decide_eq_true hmagic
    obtain rfl : w₁ = version :=
      ofBytesLe_injective (by omega) hlength ((of_decide_eq_true hn).trans (by decide))
    exact ⟨⟨w₂, rfl, h⟩, rfl⟩
  · rintro ⟨⟨w', rfl, h⟩, rfl⟩
    exact ⟨magic, magic, _, rfl, ⟨rfl, rfl⟩, rfl, _, version, w', rfl, ⟨rfl, rfl⟩, by decide, h, rfl⟩

/-! ## The constant expressions of a module -/

/-- Are these the bytes of an expression? -/
def IsExpr (e : ConstBytes) : Prop := ∃ ir, ExprBytes ir e

theorem ConstExprBytes.isExpr {e w : List UInt8} (h : ConstExprBytes e w) : IsExpr e := h.2

/-- Every constant expression that has been read is one. -/
structure Parts.ConstExprs (p : Parts) : Prop where
  inits : ∀ e ∈ p.globalInitSpace, IsExpr e
  tables : ∀ tt ∈ p.tableSpace, ∀ e, tt.init = some e → IsExpr e
  elements : ∀ el ∈ p.elements, (el.mode = .active → IsExpr el.offsetExpr) ∧ ∀ e ∈ el.exprs, IsExpr e
  data : ∀ seg ∈ p.data, seg.active = true → IsExpr seg.offsetExpr

namespace Extern

/-- The signature of a function. -/
def func? : Extern → Option FuncType
  | func ft => some ft
  | _ => none

/-- The type of a table. -/
def table? : Extern → Option TableType
  | table tt => some tt
  | _ => none

/-- The type of a memory. -/
def memory? : Extern → Option MemoryType
  | memory mt => some mt
  | _ => none

/-- The type of a global. -/
def global? : Extern → Option GlobalType
  | global gt => some gt
  | _ => none

/-- The signature of a tag. -/
def tag? : Extern → Option FuncType
  | tag ft => some ft
  | _ => none

end Extern

/-- The imports come at the end of the index spaces that they are added to. -/
theorem foldl_addImport (is : List Import) (d : Decoder) : is.foldl Decoder.addImport d =
    { d with
      funcSpace := d.funcSpace ++ is.filterMap (·.ty.func?)
      tableSpace := d.tableSpace ++ is.filterMap (·.ty.table?)
      memSpace := d.memSpace ++ is.filterMap (·.ty.memory?)
      globalSpace := d.globalSpace ++ is.filterMap (·.ty.global?)
      tagSpace := d.tagSpace ++ is.filterMap (·.ty.tag?) } := by
  induction is generalizing d with
  | nil => simp only [List.foldl_nil, List.filterMap_nil, List.append_nil]
  | cons i is ih =>
    rw [List.foldl_cons, ih, Decoder.addImport]
    obtain ⟨_, _, ty, _, _⟩ := i
    cases ty <;> simp [Extern.func?, Extern.table?, Extern.memory?, Extern.global?, Extern.tag?]

/-- An imported table has no initialiser. -/
theorem ImportBytes.init_eq_none {d : Decoder} {i : Import} {w : List UInt8} (h : ImportBytes d i w) {tt : TableType}
    (htt : i.ty.table? = some tt) : tt.init = none := by
  have htype {kind : ExternKind} {ty : Extern × Option ℕ} {w : List UInt8} (h : ImportTypeBytes d kind ty w)
      (htt : ty.1.table? = some tt) : tt.init = none := by
    rcases h with _ | htable | _ | _ | _ <;> cases htt
    exact htable.head.1
  rcases h with ⟨-, -, hty⟩ | ⟨-, -, hty⟩
  · exact htype hty htt
  · exact htype hty htt

theorem ElementBytes.constExprs {kinds : List CompKind} {el : Element} {w : List UInt8} (h : ElementBytes kinds el w) :
    (el.mode = .active → IsExpr el.offsetExpr) ∧ ∀ e ∈ el.exprs, IsExpr e := by
  have hvec {exprs : List ConstBytes} {w : List UInt8} (h : VecBytes ConstExprBytes exprs w) : ∀ e ∈ exprs, IsExpr e :=
    fun e he => (h.exists_of_mem he).elim fun _ he => he.isExpr
  rcases h with ⟨-, hoffset, -⟩ | ⟨-, -⟩ | ⟨-, -, hoffset, -⟩ | ⟨-, -⟩ | ⟨-, hoffset, hexprs⟩ | ⟨-, -, hexprs⟩ |
    ⟨-, -, hoffset, -, hexprs⟩ | ⟨-, -, hexprs⟩
  · exact ⟨fun _ => hoffset.isExpr, nofun⟩
  · exact ⟨nofun, nofun⟩
  · exact ⟨fun _ => hoffset.isExpr, nofun⟩
  · exact ⟨nofun, nofun⟩
  · exact ⟨fun _ => hoffset.isExpr, hvec hexprs⟩
  · exact ⟨nofun, hvec hexprs⟩
  · exact ⟨fun _ => hoffset.isExpr, hvec hexprs⟩
  · exact ⟨nofun, hvec hexprs⟩

theorem DataBytes.constExprs {seg : DataSegment} {w : List UInt8} (h : DataBytes seg w) (hactive : seg.active = true) :
    IsExpr seg.offsetExpr := by
  rcases h with ⟨-, hoffset, -⟩ | ⟨-, -⟩ | ⟨-, -, hoffset, -⟩
  · exact hoffset.isExpr
  · cases hactive
  · exact hoffset.isExpr

theorem TableBytes.constExprs {kinds : List CompKind} {tt : TableType} {w e : List UInt8} (h : TableBytes kinds tt w)
    (he : tt.init = some e) : IsExpr e := by
  rcases h with ⟨htt, -⟩ | ⟨-, hexpr⟩
  · rw [htt.head.1] at he
    cases he
  · cases he
    exact hexpr.isExpr

theorem PayloadBytes.constExprs {p p' : Parts} {id : SectionId} {w : List UInt8} (h : PayloadBytes p id w p')
    (hp : p.ConstExprs) : p'.ConstExprs := by
  obtain ⟨hinits, htables, helements, hdata⟩ := hp
  cases id with
  | custom =>
    obtain ⟨-, rfl⟩ := h
    exact ⟨hinits, htables, helements, hdata⟩
  | imports =>
    obtain ⟨is, his, rfl⟩ := h
    rw [foldl_addImport]
    refine ⟨hinits, fun tt htt => ?_, helements, hdata⟩
    rcases List.mem_append.mp htt with htt | htt
    · exact htables tt htt
    · -- an imported table has no initialiser
      obtain ⟨i, hi, htable⟩ := List.mem_filterMap.mp htt
      obtain ⟨w', hw'⟩ := his.exists_of_mem hi
      rw [hw'.init_eq_none htable]
      exact nofun
  | table =>
    obtain ⟨ts, hts, rfl⟩ := h
    refine ⟨hinits, fun tt htt => ?_, helements, hdata⟩
    rcases List.mem_append.mp htt with htt | htt
    · exact htables tt htt
    · obtain ⟨w', hw'⟩ := hts.exists_of_mem htt
      exact fun e => hw'.constExprs
  | global =>
    obtain ⟨gs, hgs, rfl⟩ := h
    refine ⟨fun e he => ?_, htables, helements, hdata⟩
    rcases List.mem_append.mp he with he | he
    · exact hinits e he
    · obtain ⟨g, hg, rfl⟩ := List.mem_map.mp he
      obtain ⟨w', hw'⟩ := hgs.exists_of_mem hg
      obtain ⟨-, hexpr⟩ := hw'
      exact hexpr.isExpr
  | element =>
    obtain ⟨es, hes, rfl⟩ := h
    exact ⟨hinits, htables, fun el hel => (hes.exists_of_mem hel).elim fun _ h => h.constExprs, hdata⟩
  | data =>
    obtain ⟨ds, hds, rfl⟩ := h
    exact ⟨hinits, htables, helements, fun seg hseg => (hds.exists_of_mem hseg).elim fun _ h => h.constExprs⟩
  | type | function | memory | exports | start | code | dataCount | tag =>
    obtain ⟨_, -, rfl⟩ := h
    exact ⟨hinits, htables, helements, hdata⟩

/-- What every section keeps, the sections keep. -/
theorem SectionsBytes.keeps {P : Parts → Prop} {p p' : Parts} {w : List UInt8} (h : SectionsBytes p p' w)
    (hstep : ∀ p p' w, SectionBytes p p' w → P p → P p') (hp : P p) : P p' := by
  induction h with
  | nil => exact hp
  | cons hone _ ih => exact ih (hstep _ _ _ hone hp)

theorem SectionBytes.constExprs {p p' : Parts} {w : List UInt8} (h : SectionBytes p p' w) (hp : p.ConstExprs) :
    p'.ConstExprs := by
  obtain ⟨horder, -, hpayload⟩ := h
  refine hpayload.constExprs ?_
  rcases horder with _ | _
  · exact hp
  · exact ⟨hp.inits, hp.tables, hp.elements, hp.data⟩

/-- The check of the constant expressions at the end never fails. -/
theorem Parts.ConstExprs.decode {p : Parts} (hp : p.ConstExprs) :
    ∀ e ∈ p.moduleConstExprs, ∃ ir, decodeBody e = .ok ir := by
  have hexpr {e : ConstBytes} (h : IsExpr e) : ∃ ir, decodeBody e = .ok ir := h.imp fun _ => decodeBody_eq_ok.mpr
  intro e he
  simp only [Parts.moduleConstExprs, List.mem_append, List.mem_filterMap, List.mem_flatMap, List.mem_map,
    List.mem_filter] at he
  rcases he with ((hinit | ⟨tt, htt, hinit⟩) | ⟨el, hel, hoffset | hexprs⟩) | ⟨seg, ⟨hseg, hactive⟩, rfl⟩
  · exact hexpr (hp.inits e hinit)
  · exact hexpr (hp.tables tt htt e hinit)
  · split_ifs at hoffset with hactive
    · obtain rfl := List.mem_singleton.mp hoffset
      exact hexpr ((hp.elements el hel).1 hactive)
    · cases hoffset
  · exact hexpr ((hp.elements el hel).2 e hexprs)
  · exact hexpr (hp.data seg hseg hactive)

theorem Parts.ConstExprs.decides_finish {p : Parts} (hp : p.ConstExprs) : Decides none p.finish fun m =>
    p.functions.length = p.code.length ∧ p.DataCounted ∧ m = p.toModule := by
  have hexprs : (p.moduleConstExprs.forM fun e => do
      let _ ← decodeBody e
      pure ⟨⟩ : Except (Option DecodeError) PUnit) = .ok ⟨⟩ := by
    refine forM_eq_ok.mpr fun e he => ?_
    obtain ⟨ir, hir⟩ := hp.decode e he
    rw [hir]
    rfl
  rw [Parts.finish, hexprs]
  by_cases hcount : p.functions.length = p.code.length
  · rw [decide_eq_true hcount]
    cases hdata : p.checkDataCount with
    | ok u =>
      refine ⟨fun m => ⟨?_, ?_⟩, nofun⟩
      · rintro ⟨⟩
        exact ⟨hcount, Parts.checkDataCount_eq_ok.mp hdata, rfl⟩
      · rintro ⟨-, -, rfl⟩
        rfl
    | error e =>
      refine ⟨fun m => iff_of_false nofun ?_, nofun⟩
      rintro ⟨-, hcounted, -⟩
      cases hdata.symm.trans (Parts.checkDataCount_eq_ok (u := ⟨⟩) |>.mpr hcounted)
  · rw [decide_eq_false hcount]
    exact ⟨fun m => iff_of_false nofun fun h => hcount h.1, nofun⟩

/-- What decodes is what the bytes of a module say; and where the bytes are not those of a module, the decoder fails with an
error of the source. -/
theorem decides_decode (bytes : List UInt8) : Decides none (decode bytes) fun m => ModuleBytes m bytes := by
  have hparts := exact_decodeParts (Reader.new bytes)
  have hempty : ({} : Parts).ConstExprs := ⟨nofun, nofun, nofun, nofun⟩
  rw [decode]
  refine ⟨fun m => ⟨fun h => ?_, ?_⟩, fun h => ?_⟩
  · split at h
    · next p r hok =>
      obtain ⟨w, hinput, ⟨w', rfl, hw'⟩, hrest⟩ := hparts.sound p r hok
      rw [Reader.rest_new, hrest, List.append_nil] at hinput
      have hexprs := hw'.keeps (fun _ _ _ => SectionBytes.constExprs) hempty
      obtain ⟨hcount, hdata, rfl⟩ := (hexprs.decides_finish.iff m).mp h
      rw [hinput]
      exact .mk hw' hcount hdata
    · cases h
  · rintro ⟨hw, hcount, hdata⟩
    obtain ⟨r, hok, -⟩ := hparts.complete _ _ [] (by rw [Reader.rest_new, List.append_nil]) ⟨⟨_, rfl, hw⟩, rfl⟩
    have hexprs := hw.keeps (fun _ _ _ => SectionBytes.constExprs) hempty
    rw [hok]
    exact (hexprs.decides_finish.iff _).mpr ⟨hcount, hdata, rfl⟩
  · split at h
    · next p r hok =>
      obtain ⟨w, -, ⟨w', -, hw'⟩, -⟩ := hparts.sound p r hok
      exact (hw'.keeps (fun _ _ _ => SectionBytes.constExprs) hempty).decides_finish.ends h
    · next e hfail =>
      cases h
      exact hparts.ends hfail

/-- The decoder of modules: it accepts just the bytes of modules, and returns what they say; no bytes are those of two
modules; and what it raises for other bytes is an error of the source. The sections are in their order, each at most once
and as long as it says it is, and the constant expressions in them are expressions: the pass over them at the end, which
decodes each once more, never fails. -/
theorem decode_exact (bytes : List UInt8) :
    (∀ m, decode bytes = .ok m ↔ ModuleBytes m bytes) ∧ decode bytes ≠ .error none ∧
    (∀ m m', ModuleBytes m bytes → ModuleBytes m' bytes → m = m') ∧
    ∀ p r, decodeParts (Reader.new bytes) = .ok (p, r) → ∀ e ∈ p.moduleConstExprs, ∃ ir, decodeBody e = .ok ir := by
  have hdecides := decides_decode bytes
  refine ⟨hdecides.iff, hdecides.ends, fun m m' hm hm' => ?_, fun p r hok => ?_⟩
  · have hok := (hdecides.iff m).mpr hm
    rw [(hdecides.iff m').mpr hm'] at hok
    exact (Except.ok.inj hok).symm
  · obtain ⟨w, -, ⟨w', -, hw'⟩, -⟩ := (exact_decodeParts (Reader.new bytes)).sound p r hok
    exact (hw'.keeps (fun _ _ _ => SectionBytes.constExprs) ⟨nofun, nofun, nofun, nofun⟩).decode

end Binary

end Wasmrt
