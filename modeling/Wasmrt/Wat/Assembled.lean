import Wasmrt.Wat.EmitModule

/-!
# The assembler and the decoder

The sections that the assembler writes, in a row: each leads from what has been read before it to what has been read behind it.
The decoder reads a module back as it has been collected.

## Main definitions

* `Leads`: sections that lead from what has been read to what has been read behind them.

## Main results

* `decode_assembleParts`: what has been collected is written, and the decoder reads it back.
-/

namespace Wasmrt.Wat

open Leb128 Recognizer Binary

/-! ## Sections in a row -/

/-- Sections that lead from what has been read to what has been read behind them: from places below `lo` to places below `hi`. -/
def Leads (lo hi : ℕ) (p q : Binary.Parts) (w : List UInt8) : Prop :=
  ∀ last, (∀ prev, last = some prev → prev < lo) →
    ∃ last', SectionsBytes { p with lastOrder := last } { q with lastOrder := last' } w ∧
      ∀ prev, last' = some prev → prev < hi

theorem sectionsBytes_append {p q r : Binary.Parts} {w w' : List UInt8} (h : SectionsBytes p q w) (h' : SectionsBytes q r w') :
    SectionsBytes p r (w ++ w') := by
  induction h with
  | nil => exact h'
  | cons hone _ ih =>
    rw [List.append_assoc]
    exact .cons hone (ih h')

namespace Leads

variable {lo mid hi : ℕ} {p q r : Binary.Parts} {w w' : List UInt8}

theorem append (h : Leads lo mid p q w) (h' : Leads mid hi q r w') : Leads lo hi p r (w ++ w') := by
  intro last hlast
  obtain ⟨last₁, hsections, hlast₁⟩ := h last hlast
  obtain ⟨last₂, hsections', hlast₂⟩ := h' last₁ hlast₁
  exact ⟨last₂, sectionsBytes_append hsections hsections', hlast₂⟩

/-- A section that is left out leads nowhere. -/
theorem skip (hle : lo ≤ hi) : Leads lo hi p p [] := fun last hlast =>
  ⟨last, .nil, fun prev hprev => (hlast prev hprev).trans_le hle⟩

theorem one {id : SectionId} {ord : ℕ} {payload : List UInt8} (hid : id.order = some ord) (hw : BlobBytes payload w)
    (h : PayloadBytes { p with lastOrder := some ord } id payload { q with lastOrder := some ord }) :
    Leads ord (ord + 1) p q (id.toU8 :: w) := by
  intro last hlast
  refine ⟨some ord, ?_, fun prev hprev => by cases hprev; exact Nat.lt_succ_self ord⟩
  rw [← List.append_nil (id.toU8 :: w)]
  exact .cons (.mk (.ordered hid hlast) hw h) .nil

end Leads

/-- A section around a payload, which has some property. -/
theorem emits_around (id : SectionId) {ord : ℕ} {p q : Binary.Parts} {x : Emission} {P : List UInt8 → Prop}
    (hid : id.order = some ord) (h : Emits x P)
    (hP : ∀ w, P w → w ≠ [] ∧ PayloadBytes { p with lastOrder := some ord } id w { q with lastOrder := some ord }) :
    Emits (emitSection id.toU8 x) fun w => (∃ payload, P payload) ∧ Leads ord (ord + 1) p q w := by
  obtain ⟨w, hw, hpayload⟩ := h
  refine ⟨pushSection id.toU8 w, by rw [emitSection, hw]; rfl, fun hroom => ?_⟩
  have hshort : w.length < maxLength := by
    rw [pushSection] at hroom
    split_ifs at hroom with hempty
    · rwa [List.isEmpty_iff.mp hempty]
    · rw [List.length_cons, List.length_append] at hroom
      omega
  replace hpayload := hpayload hshort
  refine ⟨⟨w, hpayload⟩, ?_⟩
  obtain ⟨hne, hpayload⟩ := hP w hpayload
  rw [pushSection, if_neg (by simpa using hne)]
  exact .one hid ⟨_, rfl, indexBytes_len hshort⟩ hpayload

theorem emits_section (id : SectionId) {ord : ℕ} {p q : Binary.Parts} {x : Emission} (hid : id.order = some ord)
    (h : Emits x fun w => w ≠ [] ∧ PayloadBytes { p with lastOrder := some ord } id w { q with lastOrder := some ord }) :
    Emits (emitSection id.toU8 x) (Leads ord (ord + 1) p q) :=
  (emits_around id hid h fun _ hw => hw).mono fun _ _ hw => hw.2

section Counted

variable {α β : Type} {write : β → Emission} {L : α → List UInt8 → Prop} {bs : List β} {as : List α} {ord : ℕ}
  {p q : Binary.Parts}

/-- A section of entries, whose number has room. One without entries is left out, and so must change nothing. -/
theorem emits_numbered (id : SectionId) (hid : id.order = some ord)
    (h : List.Forall₂ (fun b a => Emits (write b) (L a)) bs as) (hne : ∀ a w, L a w → w ≠ [])
    (hpayload : ∀ w, VecBytes L as w →
      PayloadBytes { p with lastOrder := some ord } id w { q with lastOrder := some ord })
    (hnone : as = [] → q = p) :
    Emits (emitCounted id.toU8 bs.length (bs.map write)) fun w => bs.length < 2 ^ 32 ∧ Leads ord (ord + 1) p q w := by
  rw [emitCounted]
  split_ifs with hzero
  · obtain rfl := List.eq_nil_of_length_eq_zero hzero
    rw [hnone (List.forall₂_nil_left_iff.mp h)]
    refine emits_nothing.mono ?_
    rintro _ - rfl
    exact ⟨Nat.two_pow_pos 32, .skip (Nat.le_succ ord)⟩
  · refine (emits_around id hid (emits_vec h hne) fun w hw => ⟨hw.ne_nil, hpayload w hw⟩).mono ?_
    rintro w - ⟨⟨_, _, _, -, hlength, -⟩, hleads⟩
    exact ⟨h.length_eq ▸ indexBytes_lt hlength, hleads⟩

theorem emits_counted (id : SectionId) (hid : id.order = some ord)
    (h : List.Forall₂ (fun b a => Emits (write b) (L a)) bs as) (hne : ∀ a w, L a w → w ≠ [])
    (hpayload : ∀ w, VecBytes L as w →
      PayloadBytes { p with lastOrder := some ord } id w { q with lastOrder := some ord })
    (hnone : as = [] → q = p) : Emits (emitCounted id.toU8 bs.length (bs.map write)) (Leads ord (ord + 1) p q) :=
  (emits_numbered id hid h hne hpayload hnone).mono fun _ _ hw => hw.2

end Counted

/-- Entries that are written each with a piece of its own. -/
theorem map_zip_map {α β γ : Type} (f : α → β) (g : α × β → γ) (l : List α) :
    (l.zip (l.map f)).map g = l.map fun a => g (a, f a) := by
  rw [List.map_zip_eq_zipWith, List.zipWith_map_right, List.zipWith_self]
  rfl

/-- Sections lead on from where the one before them has led. -/
theorem emits_leads {lo mid hi : ℕ} {p q r : Binary.Parts} {x : Emission} {xs : List Emission} (h : Emits x (Leads lo mid p q))
    (h' : Emits (inTurn xs) (Leads mid hi q r)) : Emits (inTurn (x :: xs)) (Leads lo hi p r) := by
  refine (h.cons h').mono ?_
  rintro _ - ⟨w, w', rfl, hw, hw'⟩
  exact hw.append hw'

/-! ## The sections -/

/-- What has been read when the imports have. -/
def Described.imported (x : Described) : Binary.Parts where
  types := x.types
  typeKinds := x.kinds
  funcSpace := x.imports.filterMap (·.ty.func?)
  tableSpace := x.imports.filterMap (·.ty.table?)
  memSpace := x.imports.filterMap (·.ty.memory?)
  globalSpace := x.imports.filterMap (·.ty.global?)
  tagSpace := x.imports.filterMap (·.ty.tag?)
  imports := x.imports

/-- What has been read when all sections have. -/
def Described.read (x : Described) (dataCount : Option ℕ) : Binary.Parts where
  toDecoder := x.decoder
  functions := x.functions.map (·.1)
  tags := x.tags.map (·.1)
  imports := x.imports
  exports := x.exports
  code := x.code
  data := x.data
  elements := x.elements
  start := x.start
  dataCount := dataCount

/-- The number of data segments, where it is written. -/
def ModuleBuild.dataCount (b : ModuleBuild) : Option ℕ :=
  if !b.datas.isEmpty && b.needsDataCount then some b.datas.length else none

namespace ModuleBuild.Describes

variable {b : ModuleBuild} {x : Described} {p : Binary.Parts}

theorem emits_types (h : b.Describes x) : Emits (emitTypes b) (Leads 0 1 {} { types := x.types, typeKinds := x.kinds }) := by
  obtain ⟨gs, hgs, htypes⟩ := h.types
  rw [emitTypes]
  split_ifs with hnone
  · have hentries : b.entries = [] := by rw [entries, List.isEmpty_iff.mp hnone]; rfl
    rw [groups, hentries] at hgs
    cases hgs
    have hempty : x.types = {} := (Except.ok.inj htypes).symm
    rw [Described.kinds, hempty]
    refine emits_nothing.mono ?_
    rintro _ - rfl
    exact .skip (Nat.le_succ 0)
  · refine emits_section .type rfl ((writes_typeSection hgs).mono fun w _ hw => ⟨?_, x.types, ⟨gs, hw, htypes⟩, rfl⟩)
    obtain ⟨w₁, w₂, rfl, hlength, -⟩ := hw
    exact List.append_ne_nil_of_left_ne_nil (encodes_ne_nil hlength) _

/-- There are as many imports of some kind as kinds in their order. -/
theorem length_inOrder {ls : ImportLists} {order : List ImportKind} {items : List ImportItem}
    (h : ls.inOrder order = .ok items) : items.length = order.length := by
  induction order generalizing ls items with
  | nil =>
    cases h
    rfl
  | cons kind order ih =>
    cases kind <;> rw [ImportLists.inOrder] at h <;> split at h
    all_goals first
      | cases h
      | obtain ⟨rest, hrest, rfl⟩ := Except.map_eq_ok.mp h
        rw [List.length_cons, List.length_cons, ih hrest]

theorem emits_imports (h : b.Describes x) :
    Emits (emitImports b) (Leads 1 2 { types := x.types, typeKinds := x.kinds } x.imported) := by
  obtain ⟨items, hitems, himports⟩ := h.imports
  rw [emitImports, hitems, ← length_inOrder hitems]
  refine emits_counted .imports rfl ((mapM_eq_some.mp himports).imp fun _ _ =>
    writes_import (d := { types := x.types, typeKinds := x.kinds })) (fun _ _ => ImportBytes.ne_nil _)
    (fun w hw => ⟨x.imports, hw, ?_⟩) fun hnone => ?_
  · rw [foldl_addImport]
    rfl
  · rw [Described.imported, hnone]
    rfl

theorem emits_functions (h : b.Describes x) (htypes : p.types = x.types) (hnone : p.functions = []) :
    Emits (emitCounted 3 (b.funcs.map (·.typeIndex)).length ((b.funcs.map (·.typeIndex)).map emitU32))
      (Leads 2 3 p { p with funcSpace := p.funcSpace ++ x.functions.map (·.2), functions := x.functions.map (·.1) }) := by
  refine emits_counted .function rfl (List.forall₂_map_left_iff.mpr ((mapM_eq_some.mp h.functions).imp fun f q hq => ?_))
    (fun _ _ => FuncIndexBytes.ne_nil _) (fun w hw => ⟨x.functions, hw, rfl⟩) fun hempty => ?_
  · exact writes_sig (by rw [← htypes] at hq; exact hq)
  · obtain ⟨_, _, _, _, _, _, _, _, _, _, _⟩ := p
    cases hnone
    rw [hempty, List.map_nil, List.append_nil]
    rfl

theorem emits_tables (h : b.Describes x) (hkinds : p.typeKinds = x.kinds) :
    Emits (emitCounted 4 b.tables.length (b.tables.zipIdx.map fun (t, i) =>
      emitTable t ((b.tables.map fun t => t.init.map emitConstExpr)[i]?).join))
      (Leads 3 4 p { p with tableSpace := p.tableSpace ++ x.tables }) := by
  -- every table comes with its own initialiser
  have hinits : (b.tables.zipIdx.map fun (t, i) => emitTable t ((b.tables.map fun t => t.init.map emitConstExpr)[i]?).join) =
      b.tables.map fun t => emitTable t (t.init.map emitConstExpr) := by
    apply List.ext_getElem
    · rw [List.length_map, List.length_map, List.length_zipIdx]
    · intro i hi hi'
      rw [List.length_map] at hi'
      simp [hi']
  rw [hinits]
  refine emits_counted .table rfl ((mapM_eq_some.mp h.tables).imp fun _ _ => writes_table) (fun _ _ => TableBytes.ne_nil _)
    (fun w hw => ⟨x.tables, by rw [← hkinds] at hw; exact hw, rfl⟩) fun hempty => ?_
  rw [hempty, List.append_nil]

theorem emits_memories (h : b.Describes x) :
    Emits (emitCounted 5 b.memories.length (b.memories.map emitMemoryType))
      (Leads 4 5 p { p with memSpace := p.memSpace ++ x.memories }) := by
  refine emits_counted .memory rfl ((mapM_eq_some.mp h.memories).imp fun _ _ => writes_memoryType)
    (fun _ _ => LimitsBytes.ne_nil) (fun w hw => ⟨x.memories, hw, rfl⟩) fun hempty => ?_
  rw [hempty, List.append_nil]

theorem emits_tags (h : b.Describes x) (htypes : p.types = x.types) (hnone : p.tags = []) :
    Emits (emitCounted 13 b.tags.length (b.tags.map emitTag))
      (Leads 5 6 p { p with tagSpace := p.tagSpace ++ x.tags.map (·.2), tags := x.tags.map (·.1) }) := by
  refine emits_counted .tag rfl ((mapM_eq_some.mp h.tags).imp fun ti q hq => ?_)
    (fun _ _ => TagIndexBytes.ne_nil _) (fun w hw => ⟨x.tags, hw, rfl⟩) fun hempty => ?_
  · exact writes_tag (by rw [← htypes] at hq; exact hq)
  · rw [hempty, List.map_nil, List.map_nil, List.append_nil, ← hnone]

theorem emits_globals (h : b.Describes x) (hkinds : p.typeKinds = x.kinds) :
    Emits (emitCounted 6 b.globals.length ((b.globals.zip (b.globals.map fun g => emitConstExpr g.init)).map
      fun (g, init) => emitGlobal g init))
      (Leads 6 7 p { p with
        globalSpace := p.globalSpace ++ x.globals.map (·.1)
        globalInitSpace := p.globalInitSpace ++ x.globals.map (·.2) }) := by
  -- every global comes with its own initialiser
  rw [map_zip_map]
  refine emits_counted .global rfl ((mapM_eq_some.mp h.globals).imp fun _ _ => writes_global) (fun _ _ => GlobalBytes.ne_nil _)
    (fun w hw => ⟨x.globals, by rw [← hkinds] at hw; exact hw, rfl⟩) fun hempty => ?_
  rw [hempty, List.map_nil, List.map_nil, List.append_nil, List.append_nil]

theorem emits_exports (h : b.Describes x) (hspaces : p.toDecoder = x.decoder) (hnone : p.exports = []) :
    Emits (emitCounted 7 b.exports.length (b.exports.map emitExport)) (Leads 7 8 p { p with exports := x.exports }) := by
  refine emits_counted .exports rfl ((mapM_eq_some.mp h.exports).imp fun _ _ => writes_export)
    (fun _ _ => ExportBytes.ne_nil _) (fun w hw => ⟨x.exports, by rw [← hspaces] at hw; exact hw, rfl⟩) fun hempty => ?_
  rw [hempty, ← hnone]

theorem emits_start (h : b.Describes x) (hnone : p.start = none) :
    Emits (emitStart b) (Leads 8 9 p { p with start := x.start }) := by
  rcases describeOption_eq_some h.start with ⟨hempty, hstart⟩ | ⟨s, f, hsome, hstart, hs⟩
  · rw [emitStart, hempty, hstart, ← hnone]
    refine emits_nothing.mono ?_
    rintro _ - rfl
    exact .skip (Nat.le_succ 8)
  · obtain ⟨i, hi, rfl⟩ := Option.map_eq_some_iff.mp hs
    rw [emitStart, hsome, hstart]
    exact emits_section .start rfl ((writes_named hi).mono fun w _ hw => ⟨encodes_ne_nil hw, i.toNat, hw, rfl⟩)

theorem emits_elements (h : b.Describes x) : ∃ elems, b.elems.mapM (·.emit b.funcNames) = .ok elems ∧
    ∀ p : Binary.Parts, p.typeKinds = x.kinds → p.elements = [] →
      Emits (emitCounted 9 elems.length (elems.map .ok)) (Leads 9 10 p { p with elements := x.elements }) := by
  obtain ⟨elems, helems, hall⟩ := Writes.mapM ((mapM_eq_some.mp h.elements).imp fun _ _ => writes_elem)
  refine ⟨elems, helems, fun p hkinds hnone => emits_counted .element rfl hall (fun _ _ => ElementBytes.ne_nil _)
    (fun w hw => ⟨x.elements, by rw [← hkinds] at hw; exact hw, rfl⟩) fun hempty => ?_⟩
  rw [hempty, ← hnone]

/-- The number of data segments stands in front of them, and is right if they have room. -/
theorem emits_dataCount (hnone : p.dataCount = none) :
    Emits (if !b.datas.isEmpty && b.needsDataCount then emitSection 12 (emitLen b.datas.length) else .ok [])
      fun w => b.datas.length < 2 ^ 32 → Leads 10 11 p { p with dataCount := b.dataCount } w := by
  rw [ModuleBuild.dataCount]
  split_ifs with hcount
  · by_cases hroom : b.datas.length < 2 ^ 32
    · exact (emits_section .dataCount rfl ((emits_len hroom).mono fun w _ hw => ⟨encodes_ne_nil hw, _, hw, rfl⟩)).mono
        fun w _ hw _ => hw
    · exact ⟨_, rfl, fun _ h => absurd h hroom⟩
  · rw [← hnone]
    refine emits_nothing.mono ?_
    rintro _ - rfl -
    exact .skip (Nat.le_succ 10)

theorem emits_code (h : b.Describes x) : ∃ bodies, b.funcs.mapM encodeBody = .ok bodies ∧
    ∀ p : Binary.Parts, p.typeKinds = x.kinds → p.code = [] →
      Emits (emitCounted 10 bodies.length (bodies.map emitCode)) (Leads 11 12 p { p with code := x.code }) := by
  obtain ⟨bodies, hbodies, hall⟩ := Writes.mapM ((mapM_eq_some.mp h.code).imp fun _ _ => writes_body)
  refine ⟨bodies, hbodies, fun p hkinds hnone => emits_counted .code rfl (hall.imp fun body c hc => ?_)
    (fun _ _ => CodeBytes.ne_nil x.kinds) (fun w hw => ⟨x.code, by rw [← hkinds] at hw; exact hw, rfl⟩) fun hempty => ?_⟩
  · obtain ⟨_, heq, hentry⟩ := hc
    obtain rfl := Except.ok.inj heq
    refine (emits_blob body).mono fun w hroom hw => ⟨body, hw, hentry ?_⟩
    -- the body is a part of what is written
    obtain ⟨w₁, rfl, -⟩ := hw
    rw [List.length_append] at hroom
    omega
  · rw [hempty, ← hnone]

theorem emits_data (h : b.Describes x) (hnone : p.data = []) :
    Emits (emitCounted 11 b.datas.length ((b.datas.zip (b.datas.map fun d => d.offset.map emitConstExpr)).map
      fun (d, off) => emitData d off)) fun w => b.datas.length < 2 ^ 32 ∧ Leads 12 13 p { p with data := x.data } w := by
  -- every segment comes with its own offset
  rw [map_zip_map]
  refine emits_numbered .data rfl ((mapM_eq_some.mp h.data).imp fun _ _ => writes_data) (fun _ _ => DataBytes.ne_nil)
    (fun w hw => ⟨x.data, hw, rfl⟩) fun hempty => ?_
  rw [hempty, ← hnone]

/-- The sections from the number of data segments on. -/
theorem emits_tail (h : b.Describes x) {bodies : List (List UInt8)} {q : Binary.Parts} (hdataCount : p.dataCount = none)
    (hcode : Emits (emitCounted 10 bodies.length (bodies.map emitCode)) (Leads 11 12 { p with dataCount := b.dataCount } q))
    (hdata : q.data = []) :
    Emits (inTurn [if !b.datas.isEmpty && b.needsDataCount then emitSection 12 (emitLen b.datas.length) else .ok [],
        emitCounted 10 bodies.length (bodies.map emitCode),
        emitCounted 11 b.datas.length ((b.datas.zip (b.datas.map fun d => d.offset.map emitConstExpr)).map
          fun (d, off) => emitData d off)])
      (Leads 10 13 p { q with data := x.data }) := by
  refine ((emits_dataCount hdataCount).cons (hcode.cons (h.emits_data hdata).singleton)).mono ?_
  rintro _ - ⟨w₁, _, rfl, hw₁, w₂, w₃, rfl, hw₂, hroom, hw₃⟩
  exact (hw₁ hroom).append (hw₂.append hw₃)

/-- The sections, in their order. -/
theorem emits_sections (h : b.Describes x) : ∃ e, assembleParts b = emitModule b e ∧
    Emits (inTurn [emitTypes b, emitImports b, emitRest b e]) (Leads 0 13 {} (x.read b.dataCount)) := by
  obtain ⟨elems, helems, helements⟩ := h.emits_elements
  obtain ⟨bodies, hbodies, hcode⟩ := h.emits_code
  refine ⟨_, by rw [assembleParts, hbodies, helems]; rfl, ?_⟩
  apply emits_leads h.emits_types
  apply emits_leads h.emits_imports
  apply Writes.singleton
  apply emits_leads (h.emits_functions rfl rfl)
  apply emits_leads (h.emits_tables rfl)
  apply emits_leads h.emits_memories
  apply emits_leads (h.emits_tags rfl rfl)
  apply emits_leads (h.emits_globals rfl)
  apply emits_leads (h.emits_exports rfl rfl)
  apply emits_leads (h.emits_start rfl)
  apply emits_leads (helements _ rfl rfl)
  exact h.emits_tail rfl (hcode _ rfl rfl) rfl

/-- Where all has been read, there are as many functions as bodies, and the number of data segments is there if it must be. -/
theorem counted (h : b.Describes x) :
    (x.read b.dataCount).functions.length = (x.read b.dataCount).code.length ∧ (x.read b.dataCount).DataCounted := by
  refine ⟨?_, ?_⟩
  · change (x.functions.map (·.1)).length = x.code.length
    rw [List.length_map, ← (mapM_eq_some.mp h.functions).length_eq, ← (mapM_eq_some.mp h.code).length_eq]
  · change b.dataCount = some x.data.length ∨ (b.dataCount = none ∧ _)
    rw [ModuleBuild.dataCount, ← (mapM_eq_some.mp h.data).length_eq]
    split_ifs with hcount
    · exact .inl rfl
    · refine .inr ⟨rfl, h.dataCount.resolve_left fun ⟨hneeds, hdatas⟩ => hcount ?_⟩
      rw [hneeds, List.isEmpty_eq_false_iff.mpr hdatas]
      rfl

end ModuleBuild.Describes

/-- What has been collected is written. If the module is not too long, the decoder reads it back: the module has the types,
imports, functions, tables, memories, tags, globals, exports, segments and code that have been collected, in their order, with
the families of the value types that the assembler has left open, and the start function. -/
theorem decode_assembleParts {b : ModuleBuild} {x : Described} (h : b.Describes x) :
    ∃ out, assembleParts b = .ok out ∧ (out.length < 2 ^ 32 → Binary.decode out = .ok x.toModule) := by
  obtain ⟨e, hassemble, hsections⟩ := h.emits_sections
  obtain ⟨hfunctions, hdata⟩ := h.counted
  obtain ⟨out, hout, hbytes⟩ := (emits_bytes header).cons hsections
  refine ⟨out, hassemble.trans hout, fun hroom => ?_⟩
  obtain ⟨_, w, rfl, rfl, hw⟩ := hbytes hroom
  -- the first section has nothing before it
  obtain ⟨last, hsections, -⟩ := hw none nofun
  exact ((decides_decode _).iff _).mpr (.mk hsections hfunctions hdata)

/-- A build with a recursive struct type: where it names that type, the assembler has written another family than its own. -/
def pairBuild : ModuleBuild where
  types := [.struct [⟨.i8, true⟩, ⟨.val (.concreteRef true .func 0), false⟩],
    .func ⟨[.concreteRef false .func 0, .i32], [.i32]⟩]
  recGroups := [(0, 1)]
  typeFinals := [false]
  importOrder := [.mem]
  memImports := [⟨⟨[0x6d], [0x6d]⟩, ⟨1, none, false, false, none⟩⟩]
  funcs := [⟨1, [.i64, .concreteRef true .func 0], [0x20, 0x01]⟩]
  funcNames := [some [0x24, 0x66]]
  globals := [⟨.i32, true, [0x41, 0x07]⟩]
  exports := [⟨[0x66], 0x00, 0⟩]
  elems := [⟨0, none, .ref .func true, .funcs [.atom [0x24, 0x66]], true⟩]
  datas := [⟨0, some [0x41, 0x08], [0xaa, 0xbb]⟩]

/-- What has been collected in `pairBuild`. -/
def pairDescribed : Described where
  types :=
    { compTypes := [.struct [⟨.i8, true⟩, ⟨.val (.concreteRef true .struct 0), false⟩],
        .func ⟨[.concreteRef false .struct 0, .i32], [.i32]⟩]
      supertypes := [none, none]
      recGroups := [⟨0, 1⟩, ⟨1, 1⟩]
      typeCanon := [0, 1]
      typeFinals := [false, true]
      typeLinks := [{}, {}] }
  imports := [⟨"m", "m", .memory ⟨⟨1, none, false, false⟩, none⟩, none, false⟩]
  functions := [(1, ⟨[.concreteRef false .struct 0, .i32], [.i32]⟩)]
  tables := []
  memories := []
  tags := []
  globals := [(⟨.i32, true⟩, [0x41, 0x07, 0x0b])]
  exports := [⟨"f", 0, .func ⟨[.concreteRef false .struct 0, .i32], [.i32]⟩⟩]
  start := none
  elements := [⟨.declarative, 0, [], [0], [], .ref .func false⟩]
  code := [⟨[⟨1, .i64⟩, ⟨1, .concreteRef true .struct 0⟩], [.localGet 1, .end_]⟩]
  data := [⟨true, 0, [0x41, 0x08, 0x0b], [0xaa, 0xbb]⟩]

theorem decode_assembleParts_pair :
    ∃ out, assembleParts pairBuild = .ok out ∧ (out.length < 2 ^ 32 → Binary.decode out = .ok pairDescribed.toModule) :=
  decode_assembleParts
    { types := ⟨_, rfl, by decide +kernel⟩
      imports := ⟨_, rfl, by decide +kernel⟩
      functions := by decide +kernel
      tables := rfl
      memories := rfl
      tags := rfl
      globals := by decide +kernel
      exports := by decide +kernel
      start := rfl
      elements := by decide +kernel
      code := by decide +kernel
      data := by decide +kernel
      dataCount := .inr (by decide) }

end Wasmrt.Wat
