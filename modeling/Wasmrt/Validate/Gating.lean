import Wasmrt.Validate.Module

/-!
# Which constructs are gated

A module may name a proposal in many places: its types, limits and segments, the value types of its
globals and locals, its constant expressions, and the instructions of its bodies with the types they
state. Validation gates each of them, except three: the reference types that casts name, rec groups,
and open types.

A rec group of one type is not told from a type written alone once a module is decoded, and neither is
a final declaration without a supertype from a bare one.

## Main definitions

* `Module.Uses`: a proposal some construct of a module belongs to.
* `Module.UsesUngated`: the same for the constructs that no gate looks at.

## Main results

* `uses_accepted_iff`: an accepted module stays within the accepted proposals iff its ungated
  constructs do.
-/

namespace Wasmrt

open MonadExcept (ofExcept)

/-! ## The proposals of a construct -/

/-- The proposals of an instruction, the types it states apart. -/
def Instr.proposals : Instr → List Feature
  | .arrayNewData .. | .arrayNewElem .. | .arrayFill _ | .arrayCopy .. | .arrayInitData ..
  | .arrayInitElem .. => [.gc]
  | .simd s => [.simd, simdSubFeature s.sub]
  | i => (opFeature i).toList

/-- The proposal of a reference type as an instruction states it. -/
def RefType.proposal (rt : RefType) : Option Feature :=
  match rt.heap with
  | .exact _ => some .customDescriptors
  | .concrete _ => some .functionReferences
  | ht => valTypeFeature (ht.abstractHead.valType rt.nullable)

/-- The proposal of a block type. -/
def BlockType.proposal (ts : TypeSection) : BlockType → Option Feature
  | .empty => none
  | .value v => valTypeFeature v
  | .concreteRef n ti => RefType.proposal ⟨n, .concrete ti⟩
  | .exactRef n ti => RefType.proposal ⟨n, .exact ti⟩
  | .typeIndex ti =>
    if (ts.funcSig ti).any (fun ft => !ft.params.isEmpty || 1 < ft.results.length) then
      some .multiValue
    else none

/-- The block types an instruction states, the results of a typed `select` among them. -/
def Instr.blockTypes : Instr → List BlockType
  | .block bt | .loop bt | .if_ bt | .tryLegacy bt | .tryTable bt _ => [bt]
  | .selectT bts => bts
  | _ => []

/-- The proposals of a composite type, the types it mentions apart. -/
def CompType.proposal : CompType → Option Feature
  | .func ft => if 1 < ft.results.length then some .multiValue else none
  | .struct _ | .array _ => some .gc

/-- The proposals of an instruction of a constant expression, the types it states apart. -/
def Instr.constProposals : Instr → List Feature
  | .iBin _ .add | .iBin _ .sub | .iBin _ .mul => [.extendedConst]
  | i => i.proposals

/-- The constant expressions of a module. -/
def Module.constExprs (m : Module) : List ConstExpr :=
  m.globalInits ++ m.elements.flatMap (·.exprs) ++
    (m.elements.filter (·.mode = .active)).map (·.offsetExpr) ++
    (m.data.filter (·.active)).map (·.offsetExpr) ++ m.tables.filterMap (·.init)

/-- Some construct of the module that no gate looks at belongs to the proposal. -/
inductive Module.UsesUngated (m : Module) : Feature → Prop
  | recGroup {g : RecGroup} (hg : g ∈ m.recGroups) (hlen : g.len ≠ 1) : UsesUngated m .gc
  | openType {t : ℕ} (hopen : m.isFinal t = false) : UsesUngated m .gc
  | castType {code : Code} (hcode : code ∈ m.code) {i : Instr} (hi : i ∈ code.ir) {rt : RefType}
      (hrt : rt ∈ i.castTypes) {f : Feature} (hf : rt.proposal = some f) : UsesUngated m f

/-- Some declaration of the module belongs to the proposal. -/
inductive Module.Declares (m : Module) : Feature → Prop
  -- types
  | supertype {ct : CompType} {t : ℕ} (hct : m.compTypes[t]? = some ct)
      (h : (m.supertype t).isSome = true) : Declares m .gc
  | compType {ct : CompType} (hct : ct ∈ m.compTypes) {f : Feature} (hf : ct.proposal = some f) :
      Declares m f
  | mentioned {ct : CompType} (hct : ct ∈ m.compTypes) {v : ValType} (hv : v ∈ ct.valTypes)
      {f : Feature} (hf : valTypeFeature v = some f) : Declares m f
  | link {l : TypeLinks} (hl : l ∈ m.typeLinks) (h : l.isLinked = true) :
      Declares m .customDescriptors
  -- imports, memories, tables, globals and tags
  | exactImport {imp : Import} (himp : imp ∈ m.imports) (h : imp.exact = true) :
      Declares m .customDescriptors
  | manyMemories (h : 1 < m.memories.length) : Declares m .multiMemory
  | memory64 {mt : MemoryType} (hmt : mt ∈ m.memories) (h : mt.limits.is64 = true) :
      Declares m .memory64
  | sharedMemory {mt : MemoryType} (hmt : mt ∈ m.memories) (h : mt.limits.shared = true) :
      Declares m .threads
  | pageSize {mt : MemoryType} (hmt : mt ∈ m.memories) (h : mt.statedPageSizeLog2.isSome = true) :
      Declares m .customPageSizes
  | manyTables (h : 1 < m.tables.length) : Declares m .referenceTypes
  | tableElement {tt : TableType} (htt : tt ∈ m.tables) {f : Feature}
      (hf : tableElementFeature tt.element = some f) : Declares m f
  | table64 {tt : TableType} (htt : tt ∈ m.tables) (h : tt.limits.is64 = true) : Declares m .memory64
  | tableInit {tt : TableType} (htt : tt ∈ m.tables) (h : tt.init.isSome = true) :
      Declares m .functionReferences
  | global {g : GlobalType} (hg : g ∈ m.globals) {f : Feature}
      (hf : valTypeFeature g.content = some f) : Declares m f
  | tag (h : m.tags ≠ []) : Declares m .exceptions
  | importedTag {imp : Import} (himp : imp ∈ m.imports) (h : imp.isTag = true) :
      Declares m .exceptions
  -- segments
  | passiveData {seg : DataSegment} (hseg : seg ∈ m.data) (h : seg.active = false) :
      Declares m .bulkMemory
  | passiveElement {elem : Element} (helem : elem ∈ m.elements) (h : elem.mode ≠ .active) :
      Declares m .bulkMemory
  | elementExprs {elem : Element} (helem : elem ∈ m.elements) (h : elem.exprs ≠ []) :
      Declares m .referenceTypes
  | elementType {elem : Element} (helem : elem ∈ m.elements) {f : Feature}
      (hf : tableElementFeature elem.elemType = some f) : Declares m f

/-- Some construct of the module belongs to the proposal. -/
inductive Module.Uses (m : Module) : Feature → Prop
  | ungated {f : Feature} (h : m.UsesUngated f) : Uses m f
  | declared {f : Feature} (h : m.Declares f) : Uses m f
  -- constant expressions
  | const {expr : ConstExpr} (hexpr : expr ∈ m.constExprs) {i : Instr} (hi : i ∈ expr) {f : Feature}
      (hf : f ∈ i.constProposals) : Uses m f
  | constNull {expr : ConstExpr} (hexpr : expr ∈ m.constExprs) {ht : HeapType}
      (hi : Instr.refNull ht ∈ expr) {f : Feature} (hf : RefType.proposal ⟨true, ht⟩ = some f) :
      Uses m f
  -- bodies
  | local_ {code : Code} (hcode : code ∈ m.code) {l : Local} (hl : l ∈ code.locals) {f : Feature}
      (hf : valTypeFeature l.ty = some f) : Uses m f
  | instr {code : Code} (hcode : code ∈ m.code) {i : Instr} (hi : i ∈ code.ir) {f : Feature}
      (hf : f ∈ i.proposals) : Uses m f
  | blockType {code : Code} (hcode : code ∈ m.code) {i : Instr} (hi : i ∈ code.ir) {bt : BlockType}
      (hbt : bt ∈ i.blockTypes) {f : Feature} (hf : bt.proposal m.toTypeSection = some f) : Uses m f
  | null {code : Code} (hcode : code ∈ m.code) {ht : HeapType} (hi : Instr.refNull ht ∈ code.ir)
      {f : Feature} (hf : RefType.proposal ⟨true, ht⟩ = some f) : Uses m f

/-! ## Declarations -/

variable {m : Module} {F : Features}

/-- A gate that a condition guards, before further checks. -/
theorem gate_guarded_eq_ok {P : Prop} {inst : Decidable P} {f : Option Feature} {α : Type} {a : α}
    {x : ValidateResult α} : (if P then gate f F >>= fun _ => x else x) = .ok a ↔
      (P → ∀ y, f = some y → F.has y = true) ∧ x = .ok a := by
  by_cases h : P <;> simp [h]

/-- A gate that a condition guards, the last of the checks. -/
theorem gate_last_eq_ok {P : Prop} {inst : Decidable P} {f : Option Feature} {u : Unit} :
    (if P then gate f F else pure ()) = .ok u ↔ P → ∀ y, f = some y → F.has y = true := by
  by_cases h : P <;> simp [h]

theorem gateCompType_eq_ok {ct : CompType} : gateCompType ct F = .ok () ↔
    (∀ f, ct.proposal = some f → F.has f = true) ∧
      ∀ v ∈ ct.valTypes, ∀ f, valTypeFeature v = some f → F.has f = true := by
  have htypes : (ct.valTypes.forM fun t => gateValType t F) = .ok () ↔
      ∀ v ∈ ct.valTypes, ∀ f, valTypeFeature v = some f → F.has f = true := by
    simp only [forM_eq_ok, gateValType, gate_eq_ok]
  cases ct with
  | func ft =>
    refine gate_guarded_eq_ok.trans (and_congr ?_ htypes)
    by_cases h : 1 < ft.results.length <;> simp [CompType.proposal, h]
  | struct _ | array _ =>
    refine Except.bind_eq_ok.trans ?_
    simp only [gate_eq_ok, htypes, CompType.proposal, exists_const]

/-- The declarations of a module are gated, each of them. -/
theorem checkModuleFeatures_eq_ok :
    checkModuleFeatures m F = .ok () ↔ ∀ f, m.Declares f → F.has f = true := by
  unfold checkModuleFeatures
  by_cases hall : F = .all
  · simp [hall]
  rw [if_neg hall]
  simp only [Except.bind_eq_ok, gate_guarded_eq_ok, gate_last_eq_ok, forM_eq_ok, gate_eq_ok,
    gateCompType_eq_ok, gateMemoryType, gateTableType, gateElement, gateValType, exists_const,
    Option.some.injEq, forall_eq', List.any_eq_true, Bool.not_eq_true', bne_iff_ne]
  constructor
  · rintro ⟨htypes, hmanyMems, hmems, hlinks, hexact, hmanyTables, htables, hglobals, htag, himps,
      hdata, helems⟩ f h
    have htype : ∀ {ct}, ct ∈ m.compTypes → ∃ t, (ct, t) ∈ m.compTypes.zipIdx := fun hct => by
      obtain ⟨t, ht, rfl⟩ := List.mem_iff_getElem.mp hct
      exact ⟨t, List.mem_zipIdx_iff_getElem?.mpr (List.getElem?_eq_getElem ht)⟩
    cases h with
    | supertype hct hsuper => exact (htypes (_, _) (List.mem_zipIdx_iff_getElem?.mpr hct)).1 hsuper
    | compType hct hf =>
      obtain ⟨t, ht⟩ := htype hct
      exact (htypes _ ht).2.1 f hf
    | mentioned hct hv hf =>
      obtain ⟨t, ht⟩ := htype hct
      exact (htypes _ ht).2.2 _ hv f hf
    | link hl hlinked => exact hlinks ⟨_, hl, hlinked⟩
    | exactImport himp h => exact hexact ⟨_, himp, h⟩
    | manyMemories h => exact hmanyMems h
    | memory64 hmt h => exact (hmems _ hmt).1 h
    | sharedMemory hmt h => exact (hmems _ hmt).2.1 h
    | pageSize hmt h => exact (hmems _ hmt).2.2 h
    | manyTables h => exact hmanyTables h
    | tableElement htt hf => exact (htables _ htt).1 f hf
    | table64 htt h => exact (htables _ htt).2.1 h
    | tableInit htt h => exact (htables _ htt).2.2 h
    | global hg hf => exact hglobals _ hg f hf
    | tag h => exact htag (by simpa using h)
    | importedTag himp h => exact himps _ himp h
    | passiveData hseg h => exact hdata _ hseg h
    | passiveElement helem h => exact (helems _ helem).1 h
    | elementExprs helem h => exact (helems _ helem).2.1 (by simpa using h)
    | elementType helem hf => exact (helems _ helem).2.2 f hf
  · intro h
    refine ⟨?types, ?_, ?mems, ?_, ?_, ?_, ?tables, ?_, ?_, ?_, ?_, ?elems⟩
    case types =>
      intro p hp
      rw [List.mem_zipIdx_iff_getElem?] at hp
      exact ⟨fun hs => h _ (.supertype hp hs), fun f hf => h f (.compType (List.mem_of_getElem? hp) hf),
        fun v hv f hf => h f (.mentioned (List.mem_of_getElem? hp) hv hf)⟩
    case mems =>
      exact fun mt hmt => ⟨fun h64 => h _ (.memory64 hmt h64), fun hs => h _ (.sharedMemory hmt hs),
        fun hp => h _ (.pageSize hmt hp)⟩
    case tables =>
      exact fun tt htt => ⟨fun f hf => h f (.tableElement htt hf), fun h64 => h _ (.table64 htt h64),
        fun hi => h _ (.tableInit htt hi)⟩
    case elems =>
      exact fun elem helem => ⟨fun hm => h _ (.passiveElement helem hm),
        fun he => h _ (.elementExprs helem (by simpa using he)), fun f hf => h f (.elementType helem hf)⟩
    · exact fun hm => h _ (.manyMemories hm)
    · rintro ⟨l, hl, hlinked⟩
      exact h _ (.link hl hlinked)
    · rintro ⟨imp, himp, he⟩
      exact h _ (.exactImport himp he)
    · exact fun ht => h _ (.manyTables ht)
    · exact fun g hg f hf => h f (.global hg hf)
    · exact fun ht => h _ (.tag (by simpa using ht))
    · exact fun imp himp ht => h _ (.importedTag himp ht)
    · exact fun seg hseg hs => h _ (.passiveData hseg hs)

/-- A struct or array type puts the module under `gc`. -/
theorem Module.has_gc_of_compType (h : checkModuleFeatures m F = .ok ()) {t : ℕ} {ct : CompType}
    (hct : m.compTypes[t]? = some ct) (hkind : ct.kind ≠ .func) : F.has .gc = true := by
  refine checkModuleFeatures_eq_ok.mp h _ (.compType (List.mem_of_getElem? hct) ?_)
  cases ct with
  | func ft => exact absurd rfl hkind
  | struct _ | array _ => rfl

theorem Module.has_gc_of_arrayField (h : checkModuleFeatures m F = .ok ()) {t : ℕ} {f : FieldType}
    (hf : m.arrayField t = some f) : F.has .gc = true := by
  unfold TypeSection.arrayField at hf
  split at hf
  · next hct => exact m.has_gc_of_compType h hct nofun
  · cases hf

/-! ## Types stated by instructions -/

/-- A stated reference type belongs to the proposal of the value type it resolves to. -/
theorem valTypeFeature_of_refTypeValType {ts : TypeSection} {rt : RefType} {v : ValType}
    (h : refTypeValType ts rt = .ok v) : valTypeFeature v = rt.proposal := by
  obtain ⟨n, heap⟩ := rt
  cases heap with
  | concrete t | exact t =>
    simp only [refTypeValType, Except.bind_eq_ok, Except.pure_eq_ok] at h
    obtain ⟨ct, -, rfl⟩ := h
    rfl
  | _ =>
    simp only [refTypeValType, TypeSection.refHead, orError, Except.bind_eq_ok,
      Except.pure_eq_ok] at h
    obtain ⟨_, hhead, rfl⟩ := h
    cases hhead
    rfl

/-! ## Constant expressions -/

section ConstExprs

variable {cc : ConstContext} {s s' : ConstState} {u : Unit}

/-- A gate before further checks. -/
theorem has_of_constGate {f : Feature} {x : ConstCheck Unit}
    (h : (ofExcept (gate (some f) cc.features) >>= fun _ => x) s = .ok u s') :
    cc.features.has f = true := by
  obtain ⟨_, _, hgate, -⟩ := estate_bind_eq_ok.mp h
  exact gate_eq_ok.mp (ofExcept_eq_ok.mp hgate).1 f rfl

/-- A descriptor is gated with the links of the type section. -/
theorem has_of_constStructNewDesc (hdecl : checkModuleFeatures cc.module cc.features = .ok ()) {ti : ℕ}
    {fromOperands : Bool} (h : constStructNewDesc cc ti fromOperands s = .ok u s') :
    cc.features.has .customDescriptors = true := by
  obtain ⟨_, _, -, h⟩ := estate_bind_eq_ok.mp h
  obtain ⟨d, _, hd, -⟩ := estate_bind_eq_ok.mp h
  have hd := (ofExcept_eq_ok.mp hd).1
  simp only [descriptorOf, Except.bind_eq_ok, orError_eq_ok] at hd
  obtain ⟨-, -, hlink⟩ := hd
  refine checkModuleFeatures_eq_ok.mp hdecl _ (.link (l := cc.module.links ti) ?_ ?_)
  · unfold TypeSection.links at hlink ⊢
    cases hl : cc.module.typeLinks[ti]? with
    | none =>
      rw [hl] at hlink
      cases hlink
    | some l => exact List.mem_of_getElem? hl
  · rw [TypeLinks.isLinked, hlink]
    exact Bool.or_true _

/-- An instruction of an accepted constant expression belongs to accepted proposals. -/
theorem has_of_constStep (hdecl : checkModuleFeatures cc.module cc.features = .ok ()) {i : Instr}
    (h : constStep cc i s = .ok u s') {f : Feature} (hf : f ∈ i.constProposals) :
    cc.features.has f = true := by
  cases i with
  | refNull _ | refFunc _ | structNew _ | structNewDefault _ | arrayNew _ | arrayNewDefault _
  | arrayNewFixed _ _ | anyConvertExtern | externConvertAny | refI31 =>
    obtain rfl := List.mem_singleton.mp hf
    exact has_of_constGate h
  | structNewDesc ti | structNewDefaultDesc ti =>
    obtain rfl := List.mem_singleton.mp hf
    exact has_of_constStructNewDesc hdecl h
  | iBin w op =>
    cases op with
    | add | sub | mul =>
      obtain rfl := List.mem_singleton.mp hf
      exact has_of_constGate h
    | _ => cases hf
  | simd v =>
    have hsimd := has_of_constGate h
    obtain ⟨_, _, -, h⟩ := estate_bind_eq_ok.mp h
    obtain ⟨_, _, hsub, -⟩ := estate_bind_eq_ok.mp h
    have hsub := (ofExcept_eq_ok.mp hsub).1
    rw [ensure_eq_ok, beq_iff_eq] at hsub
    -- the one constant of the family is not of the relaxed subset
    change f ∈ [.simd, simdSubFeature v.sub] at hf
    rw [hsub, List.mem_pair] at hf
    rcases hf with rfl | rfl <;> exact hsimd
  | i32Const _ | i64Const _ | f32Const _ | f64Const _ | globalGet _ => cases hf
  | _ =>
    -- no other instruction is constant
    first
      | exact absurd h estate_throw_ne_ok
      | obtain ⟨_, _, -, h⟩ := estate_bind_eq_ok.mp h
        exact absurd h estate_throw_ne_ok

/-- The type of a null in an accepted constant expression belongs to an accepted proposal. -/
theorem has_of_constNull {ht : HeapType} (h : constStep cc (.refNull ht) s = .ok u s') {f : Feature}
    (hf : RefType.proposal ⟨true, ht⟩ = some f) : cc.features.has f = true := by
  obtain ⟨_, _, -, h⟩ := estate_bind_eq_ok.mp h
  obtain ⟨t, _, ht, h⟩ := estate_bind_eq_ok.mp h
  obtain ⟨_, _, hgate, -⟩ := estate_bind_eq_ok.mp h
  refine gate_eq_ok.mp (ofExcept_eq_ok.mp hgate).1 f ?_
  rw [valTypeFeature_of_refTypeValType (ofExcept_eq_ok.mp ht).1, hf]

end ConstExprs

/-- Every instruction of an accepted constant expression was checked. -/
theorem exists_constStep_of_validateConstExpr {expr : ConstExpr} {byteLen selfIndex : ℕ}
    {expected : ValType} {refs r : Option (List Bool)}
    (h : validateConstExpr m expr byteLen expected selfIndex refs F = .ok r) {i : Instr} (hi : i ∈ expr) :
    ∃ s s', constStep ⟨m, F, selfIndex, byteLen⟩ i s = .ok ⟨⟩ s' := by
  unfold validateConstExpr at h
  split at h
  · next hrun => exact estate_forM_mem hrun hi
  · cases h

/-! ## Bodies -/

section Bodies

variable {cx : FuncContext} {s s' : FuncValidator} {u : Unit}

theorem gateInstr_eq_ok {i : Instr} (h : cx.features = .all ∨ gateInstr i cx.features = .ok ()) :
    (∀ f ∈ (opFeature i).toList, cx.features.has f = true) ∧
      ∀ v, i = .simd v → cx.features.has (simdSubFeature v.sub) = true := by
  rcases h with hall | h
  · rw [hall]
    exact ⟨fun f _ => Features.has_all f, fun v _ => Features.has_all _⟩
  · unfold gateInstr at h
    obtain ⟨_, hop, hsub⟩ := Except.bind_eq_ok.mp h
    rw [gate_eq_ok] at hop
    refine ⟨fun f hf => hop f (Option.mem_toList.mp hf), ?_⟩
    rintro v rfl
    exact gate_eq_ok.mp hsub _ rfl

/-- An instruction of an accepted body belongs to accepted proposals. -/
theorem has_of_step (hdecl : checkModuleFeatures cx.module cx.features = .ok ()) {i : Instr}
    (h : step cx i s = .ok u s') {f : Feature} (hf : f ∈ i.proposals) : cx.features.has f = true := by
  obtain ⟨-, hgate, h⟩ := step_eq_ok h
  obtain ⟨hop, hsimd⟩ := gateInstr_eq_ok hgate
  -- the array instructions that no table lists need an array type
  have harray : ∀ {ti : ℕ} {ft : FieldType} {t t'}, f ∈ [.gc] → arrayFieldAt cx ti t = .ok ft t' →
      cx.features.has f = true := fun hf h => by
    obtain rfl := List.mem_singleton.mp hf
    exact cx.module.has_gc_of_arrayField hdecl (orError_eq_ok.mp (ofExcept_eq_ok.mp h).1)
  cases i with
  | arrayNewData _ _ | arrayNewElem _ _ | arrayCopy _ _ =>
    obtain ⟨_, _, h, -⟩ := estate_bind_eq_ok.mp h
    exact harray hf h
  | arrayFill _ | arrayInitData _ _ | arrayInitElem _ _ =>
    obtain ⟨_, _, h, -⟩ := estate_bind_eq_ok.mp h
    obtain ⟨_, _, h, -⟩ := estate_bind_eq_ok.mp h
    exact harray hf h
  | simd v =>
    rcases List.mem_pair.mp hf with rfl | rfl
    · exact hop _ (List.mem_singleton.mpr rfl)
    · exact hsimd v rfl
  | _ => exact hop f hf

/-- A type that a block or a typed `select` states belongs to an accepted proposal. -/
theorem has_of_resolveValueType {bt : BlockType} {v : ValType} (h : resolveValueType cx bt = .ok v)
    {f : Feature} (hf : bt.proposal cx.module.toTypeSection = some f) : cx.features.has f = true := by
  cases bt with
  | empty | typeIndex _ => cases h
  | value t =>
    obtain ⟨_, ⟨⟩, h⟩ := Except.bind_eq_ok.mp h
    obtain ⟨_, hgate, -⟩ := Except.bind_eq_ok.mp h
    exact gate_eq_ok.mp hgate f hf
  | concreteRef n ti | exactRef n ti =>
    obtain ⟨t, ht, h⟩ := Except.bind_eq_ok.mp h
    obtain ⟨_, hgate, -⟩ := Except.bind_eq_ok.mp h
    exact gate_eq_ok.mp hgate f ((valTypeFeature_of_refTypeValType ht).trans hf)

theorem has_of_blockSig {bt : BlockType} {sig : Sig} (h : blockSig cx bt = .ok sig) {f : Feature}
    (hf : bt.proposal cx.module.toTypeSection = some f) : cx.features.has f = true := by
  cases bt with
  | empty => cases hf
  | typeIndex ti =>
    obtain ⟨ft, hft, h⟩ := Except.bind_eq_ok.mp h
    have hgate := (gate_guarded_eq_ok.mp h).1
    rw [BlockType.proposal, orError_eq_ok.mp hft, Option.any_some] at hf
    split at hf
    · next hmulti =>
      rw [← Option.some_inj.mp hf]
      exact hgate hmulti _ rfl
    · cases hf
  | _ =>
    obtain ⟨_, h, -⟩ := Except.bind_eq_ok.mp h
    exact has_of_resolveValueType h hf

/-- A block type of an accepted body belongs to an accepted proposal. -/
theorem has_of_blockType {i : Instr} (h : stepInstr cx i s = .ok u s') {bt : BlockType}
    (hbt : bt ∈ i.blockTypes) {f : Feature} (hf : bt.proposal cx.module.toTypeSection = some f) :
    cx.features.has f = true := by
  have hopen : ∀ {kind bt' t t' u}, openBlock cx kind bt' t = .ok u t' → bt ∈ [bt'] →
      cx.features.has f = true := fun h hbt => by
    obtain rfl := List.mem_singleton.mp hbt
    obtain ⟨_, _, hsig, -⟩ := estate_bind_eq_ok.mp h
    exact has_of_blockSig (ofExcept_eq_ok.mp hsig).1 hf
  cases i with
  | block _ | loop _ | tryLegacy _ => exact hopen h hbt
  | if_ _ =>
    obtain ⟨_, _, -, h⟩ := estate_bind_eq_ok.mp h
    exact hopen h hbt
  | tryTable bt' _ =>
    obtain rfl := List.mem_singleton.mp hbt
    obtain ⟨_, _, hsig, -⟩ := estate_bind_eq_ok.mp h
    exact has_of_blockSig (ofExcept_eq_ok.mp hsig).1 hf
  | selectT bts =>
    match bts with
    | [bt'] =>
      obtain rfl := List.mem_singleton.mp hbt
      obtain ⟨_, _, ht, -⟩ := estate_bind_eq_ok.mp h
      exact has_of_resolveValueType (ofExcept_eq_ok.mp ht).1 hf
    | [] => cases hbt
    | _ :: _ :: _ => exact absurd h estate_throw_ne_ok
  | _ => cases hbt

/-- The type of a null in an accepted body belongs to an accepted proposal. -/
theorem has_of_null {ht : HeapType} (h : stepInstr cx (.refNull ht) s = .ok u s') {f : Feature}
    (hf : RefType.proposal ⟨true, ht⟩ = some f) : cx.features.has f = true := by
  obtain ⟨t, _, ht, h⟩ := estate_bind_eq_ok.mp h
  obtain ⟨_, _, hgate, -⟩ := estate_bind_eq_ok.mp h
  refine gate_eq_ok.mp (ofExcept_eq_ok.mp hgate).1 f ?_
  rw [valTypeFeature_of_refTypeValType (ofExcept_eq_ok.mp ht).1, hf]

end Bodies

/-- The parts of an accepted body: its locals were gated and its instructions checked. -/
theorem of_validateFunction {ft : FuncType} {code : Code} {refs : Option (List Bool)}
    (h : validateFunction m ft code refs F = .ok ()) :
    (∀ l ∈ code.locals, gateValType l.ty F = .ok ()) ∧
      ∀ i ∈ code.ir, ∃ s s', step (bodyContext m ft code refs F) i s = .ok ⟨⟩ s' := by
  rw [validateFunction_eq] at h
  obtain ⟨_, -, h⟩ := Except.bind_eq_ok.mp h
  obtain ⟨_, hlocals, h⟩ := Except.bind_eq_ok.mp h
  refine ⟨forM_eq_ok.mp hlocals, fun i hi => ?_⟩
  split at h
  · next hrun =>
    obtain ⟨_, _, -, hrun⟩ := estate_bind_eq_ok.mp hrun
    obtain ⟨_, _, hrun, -⟩ := estate_bind_eq_ok.mp hrun
    exact estate_forM_mem hrun hi
  · cases h

/-! ## Modules -/

section Modules

variable {exprLen : ConstExpr → ℕ}

/-- Every body of an accepted module was checked. -/
theorem exists_validateFunction (h : validateWithFeatures m exprLen F = .ok ()) {code : Code}
    (hcode : code ∈ m.code) : ∃ ft refs, validateFunction m ft code (some refs) F = .ok () := by
  obtain ⟨_, hlen, h⟩ := Except.bind_eq_ok.mp h
  iterate 4 obtain ⟨_, -, h⟩ := Except.bind_eq_ok.mp h
  obtain ⟨refs, -, h⟩ := Except.bind_eq_ok.mp h
  rw [ensure_eq_ok, beq_iff_eq] at hlen
  obtain ⟨k, hk, rfl⟩ := List.mem_iff_getElem.mp hcode
  have hmem : (m.functions[k], m.code[k]) ∈ m.functions.zip m.code := by
    rw [← List.getElem_zip (h := by simpa using ⟨hlen ▸ hk, hk⟩)]
    exact List.getElem_mem _
  obtain ⟨ft, -, hone⟩ := Except.bind_eq_ok.mp (forM_eq_ok.mp h _ hmem)
  exact ⟨ft, refs, hone⟩

/-- Was the constant expression checked, against some type and declaring into some set? -/
def ConstChecked (m : Module) (exprLen : ConstExpr → ℕ) (F : Features) (expr : ConstExpr) : Prop :=
  ∃ expected selfIndex refs r,
    validateConstExpr m expr (exprLen expr) expected selfIndex refs F = .ok r

theorem constChecked_of_validateDeclaring {expected : ValType} {selfIndex : ℕ} {refs r : List Bool}
    {expr : ConstExpr} (h : validateDeclaring m exprLen F expected selfIndex refs expr = .ok r) :
    ConstChecked m exprLen F expr := by
  obtain ⟨r', h, -⟩ := Except.bind_eq_ok.mp h
  exact ⟨_, _, _, r', h⟩

theorem constChecked_of_validateOffset {is64 : Bool} {expr : ConstExpr} {u : Unit}
    (h : validateOffset m exprLen F is64 expr = .ok u) : ConstChecked m exprLen F expr := by
  obtain ⟨r', h, -⟩ := Except.bind_eq_ok.mp h
  exact ⟨_, _, _, r', h⟩

theorem constChecked_of_validateElement {refs r : List Bool} {elem : Element}
    (h : validateElement m exprLen F refs elem = .ok r) :
    (∀ expr ∈ elem.exprs, ConstChecked m exprLen F expr) ∧
      (elem.mode = .active → ConstChecked m exprLen F elem.offsetExpr) := by
  obtain ⟨_, -, h⟩ := Except.bind_eq_ok.mp h
  obtain ⟨refs', hexprs, h⟩ := Except.bind_eq_ok.mp h
  refine ⟨fun expr hexpr => ?_, fun hactive => ?_⟩
  · obtain ⟨_, _, hone⟩ := exists_of_foldlM_eq_ok hexprs hexpr
    exact constChecked_of_validateDeclaring hone
  · rw [if_pos hactive] at h
    obtain ⟨tt, -, h⟩ := Except.bind_eq_ok.mp h
    obtain ⟨_, -, h⟩ := Except.bind_eq_ok.mp h
    obtain ⟨_, hoffset, -⟩ := Except.bind_eq_ok.mp h
    exact constChecked_of_validateOffset hoffset

theorem constChecked_of_validateData {seg : DataSegment} {u : Unit}
    (h : validateData m exprLen F seg = .ok u) (hactive : seg.active = true) :
    ConstChecked m exprLen F seg.offsetExpr := by
  rw [validateData, if_pos hactive] at h
  obtain ⟨mt, -, h⟩ := Except.bind_eq_ok.mp h
  exact constChecked_of_validateOffset h

theorem constChecked_of_validateTable {refs r : List Bool} {tt : TableType} {expr : ConstExpr}
    (h : validateTable m exprLen F refs tt = .ok r) (hinit : tt.init = some expr) :
    ConstChecked m exprLen F expr := by
  iterate 3 obtain ⟨_, -, h⟩ := Except.bind_eq_ok.mp h
  rw [hinit] at h
  exact constChecked_of_validateDeclaring h

/-- Every constant expression of an accepted module was checked. -/
theorem constChecked_of_validateWithFeatures (h : validateWithFeatures m exprLen F = .ok ())
    {expr : ConstExpr} (hexpr : expr ∈ m.constExprs) : ConstChecked m exprLen F expr := by
  iterate 5 obtain ⟨_, -, h⟩ := Except.bind_eq_ok.mp h
  obtain ⟨refs, h, -⟩ := Except.bind_eq_ok.mp h
  obtain ⟨_, hglobals, h⟩ := Except.bind_eq_ok.mp h
  obtain ⟨_, helems, h⟩ := Except.bind_eq_ok.mp h
  obtain ⟨_, hdata, h⟩ := Except.bind_eq_ok.mp h
  obtain ⟨_, -, h⟩ := Except.bind_eq_ok.mp h
  obtain ⟨_, htables, -⟩ := Except.bind_eq_ok.mp h
  simp only [Module.constExprs, List.mem_append, List.mem_flatMap, List.mem_map, List.mem_filter,
    List.mem_filterMap, decide_eq_true_eq] at hexpr
  rcases hexpr with (((hglobal | ⟨elem, helem, hmem⟩) | ⟨elem, ⟨helem, hactive⟩, rfl⟩) |
    ⟨seg, ⟨hseg, hactive⟩, rfl⟩) | ⟨tt, htt, hinit⟩
  · obtain ⟨k, hk, rfl⟩ := List.mem_iff_getElem.mp hglobal
    have hmem : (m.globalInits[k], k) ∈ m.globalInits.zipIdx :=
      List.mem_zipIdx_iff_getElem?.mpr (List.getElem?_eq_getElem hk)
    obtain ⟨_, _, hone⟩ := exists_of_foldlM_eq_ok hglobals hmem
    obtain ⟨g, -, hone⟩ := Except.bind_eq_ok.mp hone
    exact constChecked_of_validateDeclaring hone
  · obtain ⟨_, _, hone⟩ := exists_of_foldlM_eq_ok helems helem
    exact (constChecked_of_validateElement hone).1 expr hmem
  · obtain ⟨_, _, hone⟩ := exists_of_foldlM_eq_ok helems helem
    exact (constChecked_of_validateElement hone).2 hactive
  · exact constChecked_of_validateData (forM_eq_ok.mp hdata seg hseg) hactive
  · obtain ⟨_, _, hone⟩ := exists_of_foldlM_eq_ok htables htt
    exact constChecked_of_validateTable hone hinit

/-- An accepted module stays within the accepted proposals iff its ungated constructs do: the
reference types its casts name, its rec groups, and its open types. -/
theorem uses_accepted_iff (h : validateWithFeatures m exprLen F = .ok ()) :
    (∀ f, m.Uses f → F.has f = true) ↔ ∀ f, m.UsesUngated f → F.has f = true := by
  refine ⟨fun huses f hf => huses f (.ungated hf), fun hungated f hf => ?_⟩
  have hdecl : checkModuleFeatures m F = .ok () := by
    obtain ⟨_, -, h⟩ := Except.bind_eq_ok.mp h
    exact (Except.bind_eq_ok.mp h).choose_spec.1
  have hstep : ∀ {code i}, code ∈ m.code → i ∈ code.ir → ∃ cx : FuncContext, cx.module = m ∧
      cx.features = F ∧ ∃ s s', step cx i s = .ok ⟨⟩ s' := fun hcode hi => by
    obtain ⟨ft, refs, hbody⟩ := exists_validateFunction h hcode
    exact ⟨_, rfl, rfl, (of_validateFunction hbody).2 _ hi⟩
  cases hf with
  | ungated hf => exact hungated f hf
  | declared hf => exact checkModuleFeatures_eq_ok.mp hdecl f hf
  | const hexpr hi hf =>
    obtain ⟨_, _, _, _, hone⟩ := constChecked_of_validateWithFeatures h hexpr
    obtain ⟨s, s', hi⟩ := exists_constStep_of_validateConstExpr hone hi
    exact has_of_constStep hdecl hi hf
  | constNull hexpr hi hf =>
    obtain ⟨_, _, _, _, hone⟩ := constChecked_of_validateWithFeatures h hexpr
    obtain ⟨s, s', hi⟩ := exists_constStep_of_validateConstExpr hone hi
    exact has_of_constNull hi hf
  | local_ hcode hl hf =>
    obtain ⟨ft, refs, hbody⟩ := exists_validateFunction h hcode
    exact gate_eq_ok.mp ((of_validateFunction hbody).1 _ hl) f hf
  | instr hcode hi hf =>
    obtain ⟨cx, rfl, rfl, s, s', hi⟩ := hstep hcode hi
    exact has_of_step hdecl hi hf
  | blockType hcode hi hbt hf =>
    obtain ⟨cx, rfl, rfl, s, s', hi⟩ := hstep hcode hi
    exact has_of_blockType (step_eq_ok hi).2.2 hbt hf
  | null hcode hi hf =>
    obtain ⟨cx, rfl, rfl, s, s', hi⟩ := hstep hcode hi
    exact has_of_null (step_eq_ok hi).2.2 hf

end Modules

/-! ## Constructs that pass -/

/-- Everything but custom descriptors. -/
def withoutDescriptors : Features := { Features.all with customDescriptors := false }

/-- Everything but GC and what rests on it. -/
def withoutGc : Features := { withoutDescriptors with gc := false }

/-- Tests a null against the exact type of a struct. -/
def testsExact : Module :=
  { decoded [[⟨true, none, {}, .struct []⟩], [⟨true, none, {}, .func [] []⟩]] with
    functions := [1]
    code := [⟨[], [.refNull (.concrete 0), .refTest ⟨false, .exact 0⟩, .drop, .end_]⟩] }

/-- Two function types in one group, the first open. -/
def groupsOpen : Module :=
  { decoded [[⟨false, none, {}, .func [] []⟩, ⟨true, none, {}, .func [] []⟩]] with }

/-- An exact reference type passes without custom descriptors; a rec group and an open type pass
without GC. -/
theorem ungated_accepted :
    (withoutDescriptors.checkCoherent = .ok () ∧
        validateWithFeatures testsExact List.length withoutDescriptors = .ok () ∧
        testsExact.Uses .customDescriptors ∧ withoutDescriptors.has .customDescriptors = false) ∧
      withoutGc.checkCoherent = .ok () ∧
        validateWithFeatures groupsOpen List.length withoutGc = .ok () ∧
        (∃ g ∈ groupsOpen.recGroups, g.len = 2) ∧ groupsOpen.isFinal 0 = false ∧
        groupsOpen.Uses .gc ∧ withoutGc.has .gc = false := by
  refine ⟨⟨by decide, by decide, ?_, rfl⟩, by decide, by decide, ⟨⟨0, 2⟩, by decide, rfl⟩, rfl, ?_,
    rfl⟩
  · refine .ungated (.castType (List.mem_singleton.mpr rfl) (i := .refTest ⟨false, .exact 0⟩) ?_
      (List.mem_singleton.mpr rfl) rfl)
    decide
  · exact .ungated (.openType (t := 0) rfl)

/-- What is left ungated of the first of them. -/
theorem uses_testsExact_iff :
    (∀ f, testsExact.Uses f → withoutDescriptors.has f = true) ↔
      ∀ f, testsExact.UsesUngated f → withoutDescriptors.has f = true :=
  uses_accepted_iff (show validateWithFeatures testsExact List.length _ = .ok () by decide)

end Wasmrt
