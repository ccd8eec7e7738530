import Wasmrt.Store.ConstEval
import Wasmrt.Store.Instance

/-!
# Instantiation

`Store::instantiate` joins a module to a store. Everything that can be refused is worked out first:
the imports are matched, the initialisers evaluated and the bodies prepared. Then the new resources
move into the pools, the instance is recorded, and the active segments are written.

The start function is an invocation of its own and runs after `instantiate`.

## Main definitions

* `Parts`, `prepare`: what an instance is made of.
* `Pools.extend`, `Parts.maps`: the new resources and where they land.
* `Store.instantiate`: the whole operation, with the state an error leaves.
-/

namespace Wasmrt

open MonadExcept (ofExcept)

/-! ## Imports -/

/-- Are there as many backings of each kind as the module declares imports? -/
def Imports.countsMatch (imports : Imports) (m : Module) : Bool :=
  imports.funcs.length == m.importedFuncCount &&
    imports.globals.length == m.imports.countP Import.isGlobal &&
    imports.memories.length == m.importedMemoryCount &&
    imports.tables.length == m.importedTableCount && imports.tags.length == m.importedTagCount

/-- Check every function import against its backing, in declaration order. -/
def checkFuncImports (s : Store) (typeIds : List ℕ) (m : Module) (funcs : List ImportedFunc) :
    Except Trap Unit :=
  (m.funcImports.zip funcs).forM fun (imp, backing) =>
    match imp.ty with
    | .func declared => checkFuncImport s typeIds declared imp.funcTypeIndex imp.exact backing
    | _ => .ok ()

/-- The slot of one global import; a host value is marked by the slot no pool has. -/
def resolveGlobal (s : Store) : Option ExternImport → Except Trap ℕ
  | some g => do
    let exporter ← orError .missingImport (s.slot g.inst)
    let d ← orError .missingImport s.code[exporter]?
    let slot := IndexMaps.get d.maps.globals g.index
    ensure (decide (slot < s.pools.globals.length)) .missingImport
    pure slot
  | none => pure usizeMax

/-- The values the host supplies, in declaration order. -/
def hostGlobals (imports : Imports) : Except Trap (List Value) :=
  (imports.globalSources.zipIdx.filter (·.1.isNone)).mapM fun p =>
    orError .missingImport imports.globals[p.2]?

/-- The slot of one memory import, matched against its declared type. -/
def resolveMemory (s : Store) (im : ExternImport) (declared : Option MemoryType) :
    Except Trap ℕ := do
  let slot := (s.slot im.inst).elim usizeMax fun i =>
    (s.code[i]?).elim usizeMax fun d => d.maps.mem im.index
  let actual ← orError .missingImport s.pools.memories[slot]?
  let declared ← orError .missingImport declared
  ensure (memoryImportMatches actual declared) .incompatibleImport
  pure slot

/-- The slot of one tag import, matched on the store-wide id of its type. -/
def resolveTag (s : Store) (typeIds : List ℕ) (m : Module) (declaredIndex : ℕ)
    (it : ExternImport) : Except Trap ℕ := do
  let exporter ← orError .missingImport (s.slot it.inst)
  let want ← orError .undefinedTag ((m.tagTypeIndex declaredIndex).bind (typeIds[·]?))
  let d ← orError .missingImport s.code[exporter]?
  let got ← orError .missingImport ((d.module.tagTypeIndex it.index).bind (d.typeIds[·]?))
  ensure (want == got) .incompatibleImport
  pure (IndexMaps.get d.maps.tags it.index)

/-- The slot of one table import, matched against its declared type. -/
def resolveTable (s : Store) (it : ExternImport) (declared : Option TableType) :
    Except Trap ℕ := do
  let slot := (s.slot it.inst).elim usizeMax fun i =>
    (s.code[i]?).elim usizeMax fun d => d.maps.table it.index
  let actual ← orError .missingImport s.pools.tables[slot]?
  let declared ← orError .missingImport declared
  ensure (tableImportMatches actual declared) .incompatibleImport
  pure slot

/-! ## Resources of the instance -/

/-- Evaluate the initialisers of the defined globals, each against everything before it. -/
def evalGlobals (m : Module) (inst : ℕ) (globals : List Value) :
    EStateM Trap Pools (List Value) :=
  m.globalInits.foldlM (fun globals init => do
    let v ← evalConstExpr globals inst (some m) init
    pure (globals ++ [v])) globals

/-- A zeroed memory of the given size. -/
def MemoryType.allocate (mt : MemoryType) (nbytes : ℕ) : Memory where
  bytes := List.replicate nbytes 0
  max := mt.limits.max
  is64 := mt.limits.is64
  shared := mt.limits.shared
  pageSizeLog2 := mt.pageSizeLog2

/-- Allocate the defined memories at their minimum; `total` bytes are taken already. -/
def allocateMemories (limits : ResourceLimits) : ℕ → List MemoryType → Except Trap (List Memory)
  | _, [] => pure []
  | total, mt :: mts => do
    let nbytes ← orError .memoryLimitExceeded (pagesToBytes mt.limits.min mt.pageSizeLog2)
    ensure (decide (total + nbytes ≤ usizeMax ∧ total + nbytes ≤ limits.maxMemoryBytes))
      .memoryLimitExceeded
    let rest ← allocateMemories limits (total + nbytes) mts
    pure (mt.allocate nbytes :: rest)

/-- The value a new table's entries start with. -/
def tableFill (m : Module) (inst : ℕ) (globals : List Value) :
    Option ConstExpr → EStateM Trap Pools Value
  | some expr => evalConstExpr globals inst (some m) expr
  | none => pure nullRef

/-- A declared table maximum as the store keeps it: dropped when it is no `u32`. -/
def TableType.storedMax (tt : TableType) : Option ℕ := tt.limits.max.filter (· < 2 ^ 32)

/-- A table of the declared minimum length. -/
def TableType.allocate (tt : TableType) (fill : Value) : Table where
  entries := List.replicate tt.limits.min fill
  max := tt.storedMax
  element := tt.element
  is64 := tt.limits.is64

/-- Allocate the defined tables at their minimum; `total` entries are taken already. -/
def allocateTables (m : Module) (inst : ℕ) (globals : List Value) (limits : ResourceLimits) :
    ℕ → List TableType → EStateM Trap Pools (List Table)
  | _, [] => pure []
  | total, tt :: tts => do
    let min := tt.limits.min
    ofExcept (ensure (decide (min ≤ usizeMax)) .tableLimitExceeded)
    ofExcept (ensure (decide (total + min ≤ usizeMax ∧ total + min ≤ limits.maxTableElems))
      .tableLimitExceeded)
    let fill ← tableFill m inst globals tt.init
    let rest ← allocateTables m inst globals limits (total + min) tts
    pure (tt.allocate fill :: rest)

/-- An active segment: its index, the table or memory it fills, and the offset. -/
structure ActiveSegment where
  segment : ℕ
  target : ℕ
  offset : ℕ
  deriving DecidableEq, Repr

/-- Evaluate an element segment to reference values. -/
def evalElement (m : Module) (inst : ℕ) (globals : List Value) (elem : Element) :
    EStateM Trap Pools (List Value) := do
  let exprs ← elem.exprs.foldlM (fun vs ex => do
    let v ← evalConstExpr globals inst (some m) ex
    pure (vs ++ [v])) []
  pure (elem.funcs.map (packFuncref inst) ++ exprs)

/-- Evaluate the element segments, and the offsets of the active ones. -/
def evalElements (m : Module) (inst : ℕ) (globals : List Value) :
    EStateM Trap Pools (List (List Value) × List ActiveSegment) :=
  m.elements.foldlM (fun (values, active) elem => do
    let vals ← evalElement m inst globals elem
    if elem.mode = .active then
      let is64 := (m.tables[elem.tableIndex]?).any (·.limits.is64)
      let offset ← evalConstOffset globals is64 elem.offsetExpr
      pure (values ++ [vals], active ++ [⟨values.length, elem.tableIndex, offset⟩])
    else pure (values ++ [vals], active)) ([], [])

/-- One element segment, and its offset if it is active. -/
def evalElementStep (m : Module) (inst : ℕ) (globals : List Value)
    (acc : List (List Value) × List ActiveSegment) (elem : Element) :
    EStateM Trap Pools (List (List Value) × List ActiveSegment) := do
  let vals ← evalElement m inst globals elem
  if elem.mode = .active then
    let is64 := (m.tables[elem.tableIndex]?).any (·.limits.is64)
    let offset ← evalConstOffset globals is64 elem.offsetExpr
    pure (acc.1 ++ [vals], acc.2 ++ [⟨acc.1.length, elem.tableIndex, offset⟩])
  else pure (acc.1 ++ [vals], acc.2)

theorem evalElements_eq (m : Module) (inst : ℕ) (globals : List Value) :
    evalElements m inst globals = m.elements.foldlM (evalElementStep m inst globals) ([], []) := rfl

/-- Evaluate the offsets of the active data segments. -/
def evalData (m : Module) (globals : List Value) : EStateM Trap Pools (List ActiveSegment) :=
  m.data.zipIdx.foldlM (fun active (seg, k) => do
    if seg.active then
      let is64 := (m.memories[seg.memIndex]?).any (·.limits.is64)
      let offset ← evalConstOffset globals is64 seg.offsetExpr
      pure (active ++ [⟨k, seg.memIndex, offset⟩])
    else pure active) []

/-! ## Preparing an instance -/

/-- What an instance is made of, before any of it is in the store. -/
structure Parts where
  typeIds : List ℕ
  importedGlobals : List ℕ
  hostGlobals : List Value
  definedGlobals : List Value
  importedMems : List ℕ
  memories : List Memory
  importedTags : List ℕ
  importedTables : List ℕ
  tables : List Table
  elemValues : List (List Value)
  elemDropped : List Bool
  activeElems : List ActiveSegment
  dataDropped : List Bool
  activeData : List ActiveSegment
  funcBodies : List FuncBody

/-- Intern the rec groups of a module; its types get their store-wide ids. -/
def joinTypes (ts : TypeSection) : EStateM Trap Pools (List ℕ) := do
  let p ← get
  let joined := p.types.assign ts
  set { p with types := joined.1 }
  pure joined.2

/-- Match the imports of a module whose types have the ids `typeIds`, evaluate its initialisers and
prepare its bodies. -/
def prepareJoined (s : Store) (m : Module) (imports : Imports) (typeIds : List ℕ) :
    EStateM Trap Pools Parts := do
  let s := { s with pools := ← get }
  ofExcept (checkFuncImports s typeIds m imports.funcs)
  let selfInst := s.code.length
  ofExcept (ensure (decide (selfInst < maxInstances)) .tableLimitExceeded)
  let importedGlobals ← ofExcept (imports.globalSources.mapM (resolveGlobal s))
  let hostGlobals ← ofExcept (hostGlobals imports)
  let globals ← evalGlobals m selfInst imports.globals
  let importedMems ← ofExcept (imports.memories.zipIdx.mapM fun p =>
    resolveMemory s p.1 m.memories[p.2]?)
  let memories ← ofExcept (allocateMemories s.pools.limits 0
    (m.memories.drop m.importedMemoryCount))
  let importedTags ← ofExcept (imports.tags.zipIdx.mapM fun p => resolveTag s typeIds m p.2 p.1)
  let importedTables ← ofExcept (imports.tables.zipIdx.mapM fun p =>
    resolveTable s p.1 m.tables[p.2]?)
  let tables ← allocateTables m selfInst globals s.pools.limits 0
    (m.tables.drop m.importedTableCount)
  let (elemValues, activeElems) ← evalElements m selfInst globals
  let activeData ← evalData m globals
  let funcBodies ← ofExcept ((m.functions.zip m.code).mapM fun p =>
    prepareBody m.toTypeSection p.1 p.2)
  pure {
    typeIds, importedGlobals, hostGlobals, importedMems, memories, importedTags, importedTables
    tables, elemValues, activeElems, activeData, funcBodies
    definedGlobals := globals.drop imports.globals.length
    elemDropped := m.elements.map fun e => decide (e.mode ≠ .passive)
    dataDropped := m.data.map (·.active) }

/-- Count the imports, join the registry and prepare everything else. -/
def prepare (s : Store) (m : Module) (imports : Imports) : EStateM Trap Pools Parts := do
  ofExcept (ensure (m.functions.length == m.code.length) .undefinedFunc)
  ofExcept (ensure (imports.countsMatch m) .missingImport)
  let typeIds ← joinTypes m.toTypeSection
  prepareJoined s m imports typeIds

/-! ## Committing an instance -/

/-- Number the host-supplied globals, which take the slots from `next` on. -/
def numberHostGlobals : ℕ → List ℕ → List ℕ
  | _, [] => []
  | next, slot :: slots =>
    if slot = usizeMax then next :: numberHostGlobals (next + 1) slots
    else slot :: numberHostGlobals next slots

/-- The index maps of the new instance: imports keep the exporter's slots, defined resources take
fresh ones after them. -/
def Parts.maps (parts : Parts) (p : Pools) (definedTags : ℕ) : IndexMaps where
  memories := parts.importedMems ++ List.range' p.memories.length parts.memories.length
  tables := parts.importedTables ++ List.range' p.tables.length parts.tables.length
  globals :=
    numberHostGlobals (p.globals.length + parts.definedGlobals.length) parts.importedGlobals ++
      List.range' p.globals.length parts.definedGlobals.length
  data := List.range' p.dataDropped.length parts.dataDropped.length
  elems := List.range' p.elemValues.length parts.elemValues.length
  tags := parts.importedTags ++ List.range' p.tags.length definedTags

/-- Move the resources of a new instance into the pools. -/
def Pools.extend (p : Pools) (parts : Parts) (selfInst definedTags : ℕ) : Pools :=
  { p with
    memories := p.memories ++ parts.memories
    tables := p.tables ++ parts.tables
    globals := p.globals ++ parts.definedGlobals ++ parts.hostGlobals
    dataDropped := p.dataDropped ++ parts.dataDropped
    elemValues := p.elemValues ++ parts.elemValues
    elemDropped := p.elemDropped ++ parts.elemDropped
    tags := p.tags ++ List.replicate definedTags selfInst }

/-- Bind the function imports; host callbacks join the store-wide pool as they are seen. -/
def bindTargets (s : Store) : ℕ → List ImportedFunc → Except Trap (List FuncTarget)
  | _, [] => pure []
  | next, .host :: fs => do
    let rest ← bindTargets s (next + 1) fs
    pure (.host next :: rest)
  | next, .wasm inst func :: fs => do
    let exporter ← orError .missingImport (s.slot inst)
    let rest ← bindTargets s next fs
    pure (.wasm exporter func :: rest)

/-- Overwrite a list from a position on. -/
def writeAt {α : Type*} (l : List α) (start : ℕ) (vals : List α) : List α :=
  l.take start ++ vals ++ l.drop (start + vals.length)

/-- Overwriting within bounds keeps the length. -/
theorem length_writeAt {α : Type*} {l vals : List α} {start : ℕ}
    (h : start + vals.length ≤ l.length) : (writeAt l start vals).length = l.length := by
  simp [writeAt]
  omega

/-- Write an active element segment into its table. -/
def applyElem (maps : IndexMaps) (seg : ActiveSegment) : EStateM Trap Pools Unit := do
  let p ← get
  let vals := p.elemValues.getD (IndexMaps.get maps.elems seg.segment) []
  let slot := maps.table seg.target
  let t ← ofExcept (orError .noTable p.tables[slot]?)
  ofExcept (ensure (decide (seg.offset + vals.length ≤ t.entries.length)) .tableOutOfBounds)
  set { p with tables := p.tables.set slot { t with entries := writeAt t.entries seg.offset vals } }

/-- Write an active data segment into its memory. -/
def applyData (m : Module) (maps : IndexMaps) (seg : ActiveSegment) : EStateM Trap Pools Unit := do
  let p ← get
  let bytes := (m.data[seg.segment]?).elim [] (·.bytes)
  let slot := maps.mem seg.target
  let mem ← ofExcept (orError .noMemory p.memories[slot]?)
  ofExcept (ensure (decide (seg.offset + bytes.length ≤ mem.bytes.length)) .memoryOutOfBounds)
  set { p with
    memories := p.memories.set slot { mem with bytes := writeAt mem.bytes seg.offset bytes } }

/-- Run a computation on the pools of a store. -/
def onPools {α : Type} (x : EStateM Trap Pools α) : EStateM Trap Store α := fun s =>
  match x s.pools with
  | .ok a p => .ok a { s with pools := p }
  | .error e p => .error e { s with pools := p }

namespace Store

/-- Record the instance; its resources are in the pools `p` already. -/
def pushInstance (s : Store) (m : Module) (parts : Parts) (maps : IndexMaps)
    (targets : List FuncTarget) : Store :=
  { s with
    code := s.code ++ [{
      module := m
      typeIds := parts.typeIds
      funcBodies := parts.funcBodies
      maps
      imports := targets }]
    hostFuncs := s.hostFuncs + targets.countP (· matches .host _) }

/-- Instantiate a module into a store. An error leaves whatever was done before it. -/
def instantiate (m : Module) (imports : Imports) : EStateM Trap Store InstanceId := do
  let s ← get
  let parts ← onPools (prepare s m imports)
  let selfInst := s.code.length
  let maps := parts.maps s.pools m.tags.length
  onPools (modify (·.extend parts selfInst m.tags.length))
  let targets ← ofExcept (bindTargets s s.hostFuncs imports.funcs)
  modify (·.pushInstance m parts maps targets)
  onPools (parts.activeElems.forM (applyElem maps))
  onPools (parts.activeData.forM (applyData m maps))
  pure ⟨s.id, selfInst⟩

end Store

/-! ## What preparing an instance changes -/

open Pools

theorem keeps_evalGlobals (m : Module) (inst : ℕ) (globals : List Value) :
    Keeps HeapGrows (evalGlobals m inst globals) :=
  .foldlM .refl HeapGrows.trans (fun _ _ => .bind HeapGrows.trans (keeps_evalConstExpr _ _ _ _)
    fun _ => keeps_pure _) _ _

theorem keeps_allocateTables (m : Module) (inst : ℕ) (globals : List Value)
    (limits : ResourceLimits) (tts : List TableType) (total : ℕ) :
    Keeps HeapGrows (allocateTables m inst globals limits total tts) := by
  induction tts generalizing total with
  | nil => exact keeps_pure _
  | cons tt tts ih =>
    have hfill : Keeps HeapGrows (tableFill m inst globals tt.init) := by
      cases tt.init with
      | none => exact keeps_pure _
      | some expr => exact keeps_evalConstExpr _ _ _ _
    exact .bind HeapGrows.trans (keeps_check _) fun _ => .bind HeapGrows.trans (keeps_check _)
      fun _ => .bind HeapGrows.trans hfill fun _ => .bind HeapGrows.trans (ih _)
        fun _ => keeps_pure _

theorem keeps_evalElements (m : Module) (inst : ℕ) (globals : List Value) :
    Keeps HeapGrows (evalElements m inst globals) := by
  refine .foldlM .refl HeapGrows.trans (fun acc elem => ?_) _ _
  have hvals : Keeps HeapGrows (evalElement m inst globals elem) :=
    .bind HeapGrows.trans (.foldlM .refl HeapGrows.trans (fun _ _ => .bind HeapGrows.trans
      (keeps_evalConstExpr _ _ _ _) fun _ => keeps_pure _) _ _) fun _ => keeps_pure _
  refine .bind HeapGrows.trans hvals fun vals => ?_
  split
  · exact .bind HeapGrows.trans (keeps_evalConstOffset _ _ _) fun _ => keeps_pure _
  · exact keeps_pure _

theorem keeps_evalData (m : Module) (globals : List Value) :
    Keeps HeapGrows (evalData m globals) := by
  refine .foldlM .refl HeapGrows.trans (fun acc seg => ?_) _ _
  obtain ⟨seg, k⟩ := seg
  dsimp only
  split
  · exact .bind HeapGrows.trans (keeps_evalConstOffset _ _ _) fun _ => keeps_pure _
  · exact keeps_pure _

/-- Once the types have joined, preparing an instance at most appends objects to the heap. -/
theorem keeps_prepareJoined (s : Store) (m : Module) (imports : Imports) (typeIds : List ℕ) :
    Keeps HeapGrows (prepareJoined s m imports typeIds) := by
  unfold prepareJoined
  repeat' first
    | exact keeps_check _
    | exact keeps_pure _
    | exact .get .refl
    | exact keeps_evalGlobals _ _ _
    | exact keeps_allocateTables _ _ _ _ _ _
    | exact keeps_evalElements _ _ _
    | exact keeps_evalData _ _
    | refine .bind HeapGrows.trans ?_ fun _ => ?_

theorem joinTypes_eq (ts : TypeSection) (p : Pools) : joinTypes ts p =
    .ok (p.types.assign ts).2 { p with types := (p.types.assign ts).1 } := rfl

/-- Preparing an instance, however it ends, does nothing or joins the types and at most appends
objects to the heap. -/
theorem prepare_state (s : Store) (m : Module) (imports : Imports) (p : Pools) :
    (prepare s m imports p).state = p ∨
      { p with types := (p.types.assign m.toTypeSection).1 }.HeapGrows
        (prepare s m imports p).state := by
  unfold prepare
  cases hlen : m.functions.length == m.code.length with
  | false => exact .inl rfl
  | true =>
    cases hcounts : imports.countsMatch m with
    | false => exact .inl rfl
    | true => exact .inr (keeps_prepareJoined s m imports _ _)

/-! ## What a prepared instance passed -/

/-- The store its imports are matched in: the types of the module have joined. -/
def Store.joined (s : Store) (p : Pools) (ts : TypeSection) : Store :=
  { s with pools := { p with types := (p.types.assign ts).1 } }

@[simp]
theorem Store.id_joined (s : Store) (p : Pools) (ts : TypeSection) : (s.joined p ts).id = s.id := rfl

@[simp]
theorem Store.code_joined (s : Store) (p : Pools) (ts : TypeSection) :
    (s.joined p ts).code = s.code := rfl

@[simp]
theorem Store.types_joined (s : Store) (p : Pools) (ts : TypeSection) :
    (s.joined p ts).pools.types = (p.types.assign ts).1 := rfl

/-- What is known of the parts of an instance: the registry it joined, and the check every import and
every resource passed. -/
structure Prepared (s : Store) (m : Module) (imports : Imports) (p : Pools) (parts : Parts) :
    Prop where
  counts : imports.countsMatch m = true
  bodies : (m.functions.zip m.code).mapM (fun e => prepareBody m.toTypeSection e.1 e.2) =
    .ok parts.funcBodies
  functions : m.functions.length = m.code.length
  typeIds : parts.typeIds = (p.types.assign m.toTypeSection).2
  funcs : checkFuncImports (s.joined p m.toTypeSection) parts.typeIds m imports.funcs = .ok ()
  instances : s.code.length < maxInstances
  importedMems : imports.memories.zipIdx.mapM (fun e => resolveMemory
    (s.joined p m.toTypeSection) e.1 m.memories[e.2]?) = .ok parts.importedMems
  memories : allocateMemories p.limits 0 (m.memories.drop m.importedMemoryCount) =
    .ok parts.memories
  importedTables : imports.tables.zipIdx.mapM (fun e => resolveTable
    (s.joined p m.toTypeSection) e.1 m.tables[e.2]?) = .ok parts.importedTables
  tables : ∃ globals q q', allocateTables m s.code.length globals p.limits 0
    (m.tables.drop m.importedTableCount) q = .ok parts.tables q'

/-- The stages of a successful preparation: what each passed, and the pools the evaluating ones left. -/
structure PrepareStages (s : Store) (m : Module) (imports : Imports) (p : Pools) (parts : Parts) where
  globals : List Value
  joined : Pools
  afterGlobals : Pools
  afterTables : Pools
  afterElements : Pools
  functions : m.functions.length = m.code.length
  counts : imports.countsMatch m = true
  typeIds : parts.typeIds = (p.types.assign m.toTypeSection).2
  funcs : checkFuncImports (s.joined p m.toTypeSection) parts.typeIds m imports.funcs = .ok ()
  instances : s.code.length < maxInstances
  importedGlobals : imports.globalSources.mapM (resolveGlobal (s.joined p m.toTypeSection)) =
    .ok parts.importedGlobals
  hostGlobals : hostGlobals imports = .ok parts.hostGlobals
  evaluated : evalGlobals m s.code.length imports.globals joined = .ok globals afterGlobals
  definedGlobals : parts.definedGlobals = globals.drop imports.globals.length
  importedMems : imports.memories.zipIdx.mapM (fun e => resolveMemory
    (s.joined p m.toTypeSection) e.1 m.memories[e.2]?) = .ok parts.importedMems
  memories : allocateMemories p.limits 0 (m.memories.drop m.importedMemoryCount) = .ok parts.memories
  importedTags : imports.tags.zipIdx.mapM (fun e => resolveTag (s.joined p m.toTypeSection)
    parts.typeIds m e.2 e.1) = .ok parts.importedTags
  importedTables : imports.tables.zipIdx.mapM (fun e => resolveTable
    (s.joined p m.toTypeSection) e.1 m.tables[e.2]?) = .ok parts.importedTables
  tables : allocateTables m s.code.length globals p.limits 0 (m.tables.drop m.importedTableCount)
    afterGlobals = .ok parts.tables afterTables
  elements : evalElements m s.code.length globals afterTables =
    .ok (parts.elemValues, parts.activeElems) afterElements
  bodies : (m.functions.zip m.code).mapM (fun e => prepareBody m.toTypeSection e.1 e.2) =
    .ok parts.funcBodies
  elemDropped : parts.elemDropped = m.elements.map fun e => decide (e.mode ≠ .passive)

/-- A successful preparation went through its stages in order. -/
theorem prepare_stages {s : Store} {m : Module} {imports : Imports} {p p' : Pools} {parts : Parts}
    (h : prepare s m imports p = .ok parts p') : Nonempty (PrepareStages s m imports p parts) := by
  obtain ⟨_, hfunctions, h⟩ := ofExcept_bind_eq_ok.mp h
  obtain ⟨_, hcounts, h⟩ := ofExcept_bind_eq_ok.mp h
  rw [estate_bind_of_ok (joinTypes_eq _ _), prepareJoined, estate_get_bind] at h
  obtain ⟨_, hfuncs, h⟩ := ofExcept_bind_eq_ok.mp h
  obtain ⟨_, hroom, h⟩ := ofExcept_bind_eq_ok.mp h
  obtain ⟨importedGlobals, himportedGlobals, h⟩ := ofExcept_bind_eq_ok.mp h
  obtain ⟨hosts, hhosts, h⟩ := ofExcept_bind_eq_ok.mp h
  obtain ⟨globals, q₁, hglobals, h⟩ := estate_bind_eq_ok.mp h
  obtain ⟨mems, hmems, h⟩ := ofExcept_bind_eq_ok.mp h
  obtain ⟨memories, hmemories, h⟩ := ofExcept_bind_eq_ok.mp h
  obtain ⟨tags, htags, h⟩ := ofExcept_bind_eq_ok.mp h
  obtain ⟨tabs, htabs, h⟩ := ofExcept_bind_eq_ok.mp h
  obtain ⟨tables, q₂, htables, h⟩ := estate_bind_eq_ok.mp h
  obtain ⟨⟨values, active⟩, q₃, helements, h⟩ := estate_bind_eq_ok.mp h
  obtain ⟨data, q₄, -, h⟩ := estate_bind_eq_ok.mp h
  obtain ⟨bodies, hbodies, h⟩ := ofExcept_bind_eq_ok.mp h
  obtain ⟨rfl, -⟩ := estate_pure_eq_ok.mp h
  rw [ensure_eq_ok] at hfunctions hcounts hroom
  exact ⟨{
    globals, joined := _, afterGlobals := q₁, afterTables := q₂, afterElements := q₃
    functions := by simpa using hfunctions
    counts := hcounts
    typeIds := rfl
    funcs := hfuncs
    instances := by simpa using hroom
    importedGlobals := himportedGlobals
    hostGlobals := hhosts
    evaluated := hglobals
    definedGlobals := rfl
    importedMems := hmems
    memories := hmemories
    importedTags := htags
    importedTables := htabs
    tables := htables
    elements := helements
    bodies := hbodies
    elemDropped := rfl }⟩

/-- What a successful preparation passed; it leaves the registry joined and at most adds objects. -/
theorem prepare_ok {s : Store} {m : Module} {imports : Imports} {p p' : Pools} {parts : Parts}
    (h : prepare s m imports p = .ok parts p') :
    Prepared s m imports p parts ∧
      { p with types := (p.types.assign m.toTypeSection).1 }.HeapGrows p' := by
  obtain ⟨stages⟩ := prepare_stages h
  constructor
  · exact ⟨stages.counts, stages.bodies, stages.functions, stages.typeIds, stages.funcs, stages.instances,
      stages.importedMems, stages.memories, stages.importedTables, stages.globals, stages.afterGlobals,
      stages.afterTables, stages.tables⟩
  · obtain ⟨_, _, h⟩ := ofExcept_bind_eq_ok.mp h
    obtain ⟨_, _, h⟩ := ofExcept_bind_eq_ok.mp h
    rw [estate_bind_of_ok (joinTypes_eq _ _)] at h
    exact (keeps_prepareJoined s m imports _).of_eq_ok h

end Wasmrt
