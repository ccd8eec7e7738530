import Wasmrt.Library.Saturation
import Wasmrt.Store.Step

/-!
# Resource ceilings over runs

An instance may hold a limited number of memory bytes and table entries, summed over what it defines.
Instantiation checks the sums. The growing instructions compare the one memory or table they grow
with the whole ceiling, so the sums stay below it in every run exactly when the sizes its resources
can reach by themselves sum to no more than the ceiling.

## Main definitions

* `MemoryType.reach`, `TableType.reach`: the size a defined resource can reach.
* `Module.FitsCeilings`: the reachable sizes of a module sum to no more than the ceilings.
* `Store.definedMemoryBytes`, `Store.definedTableElems`: what an instance holds.

## Main results

* `ceilings_hold_iff_fitsCeilings`: the ceilings hold in every run iff the module fits them.
-/

namespace Wasmrt

/-- The largest size in bytes a memory of this type can have. -/
def MemoryType.reach (byteCeiling : ℕ) (mt : MemoryType) : ℕ :=
  max (mt.limits.min * 2 ^ mt.pageSizeLog2) ((mt.allocate 0).reach byteCeiling)

/-- The largest length a table of this type can have. -/
def TableType.reach (ceiling : ℕ) (tt : TableType) : ℕ :=
  max tt.limits.min ((tt.allocate nullRef).reach ceiling)

/-- The types of the memories and tables a module defines. -/
def Module.definedMemories (m : Module) : List MemoryType :=
  m.memories.drop m.importedMemoryCount

@[inherit_doc Module.definedMemories]
def Module.definedTables (m : Module) : List TableType := m.tables.drop m.importedTableCount

/-- The sizes the memories of a module can reach sum to no more than the memory ceiling, and the
lengths of its tables to no more than the table ceiling. -/
def Module.FitsCeilings (m : Module) (limits : ResourceLimits) : Prop :=
  (m.definedMemories.map (·.reach limits.maxMemoryBytes)).sum ≤ limits.maxMemoryBytes ∧
    (m.definedTables.map (·.reach limits.maxTableElems)).sum ≤ limits.maxTableElems

/-- The slots of the memories and tables an instance defines: its maps after the imports. -/
def InstanceData.definedMems (d : InstanceData) : List ℕ :=
  d.maps.memories.drop d.module.importedMemoryCount

@[inherit_doc InstanceData.definedMems]
def InstanceData.definedTabs (d : InstanceData) : List ℕ :=
  d.maps.tables.drop d.module.importedTableCount

namespace Store

/-- The size of the memory in a slot. -/
def memorySize (s : Store) (slot : ℕ) : ℕ := (s.pools.memories[slot]?).elim 0 (·.bytes.length)

/-- The length of the table in a slot. -/
def tableSize (s : Store) (slot : ℕ) : ℕ := (s.pools.tables[slot]?).elim 0 (·.entries.length)

/-- The bytes of all memories an instance defines. -/
def definedMemoryBytes (s : Store) (inst : ℕ) : ℕ :=
  (((s.code[inst]?).elim [] (·.definedMems)).map s.memorySize).sum

/-- The entries of all tables an instance defines. -/
def definedTableElems (s : Store) (inst : ℕ) : ℕ :=
  (((s.code[inst]?).elim [] (·.definedTabs)).map s.tableSize).sum

end Store

/-! ## A fresh instance -/

theorem allocateMemories_spec {limits : ResourceLimits} {mts : List MemoryType} {total : ℕ}
    {mems : List Memory} (h : allocateMemories limits total mts = .ok mems) :
    List.Forall₂ (fun mt mem => mt.pageSizeLog2 < 64 ∧
      mem = mt.allocate (mt.limits.min * 2 ^ mt.pageSizeLog2)) mts mems := by
  induction mts generalizing total mems with
  | nil =>
    obtain rfl := Except.pure_eq_ok.mp h
    exact .nil
  | cons mt mts ih =>
    simp only [allocateMemories, Except.bind_eq_ok, orError_eq_ok, Except.pure_eq_ok, pagesToBytes,
      Option.ite_none_right_eq_some, Option.some.injEq] at h
    obtain ⟨_, ⟨⟨hlog, -⟩, rfl⟩, _, -, rest, hrest, rfl⟩ := h
    exact .cons ⟨hlog, rfl⟩ (ih hrest)

theorem allocateTables_spec {m : Module} {inst : ℕ} {globals : List Value} {limits : ResourceLimits}
    {tts : List TableType} {total : ℕ} {tabs : List Table} {p p' : Pools}
    (h : allocateTables m inst globals limits total tts p = .ok tabs p') :
    List.Forall₂ (fun tt tab => ∃ fill, tab = TableType.allocate tt fill) tts tabs := by
  induction tts generalizing total tabs p p' with
  | nil =>
    obtain ⟨rfl, -⟩ := estate_pure_eq_ok.mp h
    exact .nil
  | cons tt tts ih =>
    simp only [allocateTables, estate_bind_eq_ok, estate_pure_eq_ok] at h
    obtain ⟨_, _, -, _, _, -, fill, _, -, rest, _, hrest, rfl, -⟩ := h
    exact .cons ⟨fill, rfl⟩ (ih hrest)

/-- A freshly instantiated module: its defined resources take the slots from `memBase` and `tabBase`
on, each at its declared minimum. -/
structure Fresh (s : Store) (inst : ℕ) (m : Module) (memBase tabBase : ℕ) : Prop where
  exists_code : ∃ d, s.code[inst]? = some d ∧
    d.definedMems = List.range' memBase m.definedMemories.length ∧
    d.definedTabs = List.range' tabBase m.definedTables.length
  memory : ∀ {j : ℕ} {mt : MemoryType}, m.definedMemories[j]? = some mt → mt.pageSizeLog2 < 64 ∧
    ∃ mem, s.pools.memories[memBase + j]? = some mem ∧
      mem.shape = (mt.allocate (mt.limits.min * 2 ^ mt.pageSizeLog2)).shape
  table : ∀ {j : ℕ} {tt : TableType}, m.definedTables[j]? = some tt →
    ∃ tab, s.pools.tables[tabBase + j]? = some tab ∧ tab.shape = (tt.allocate nullRef).shape

/-- A successful instantiation leaves the instance fresh. -/
theorem fresh_of_instantiate {m : Module} {imports : Imports} {s s' : Store} {id : InstanceId}
    (h : Store.instantiate m imports s = .ok id s') :
    id.index = s.code.length ∧ s'.pools.limits = s.pools.limits ∧
      Fresh s' id.index m s.pools.memories.length s.pools.tables.length := by
  obtain ⟨rfl, -, parts, p, targets, hparts, hheap, -, hcode, hrw⟩ := Store.instantiate_ok h
  have hmems := allocateMemories_spec hparts.memories
  obtain ⟨globals, q, q', htables⟩ := hparts.tables
  have htabs := allocateTables_spec htables
  have hcounts := hparts.counts
  simp only [Imports.countsMatch, Bool.and_eq_true, beq_iff_eq] at hcounts
  have hmemCount : parts.importedMems.length = m.importedMemoryCount := by
    rw [← (mapM_eq_ok.mp hparts.importedMems).length_eq, List.length_zipIdx, hcounts.1.1.2]
  have htabCount : parts.importedTables.length = m.importedTableCount := by
    rw [← (mapM_eq_ok.mp hparts.importedTables).length_eq, List.length_zipIdx, hcounts.1.2]
  refine ⟨rfl, hrw.limits.trans hheap.limits_eq, ⟨_, by rw [hcode, List.getElem?_concat_length],
    ?_, ?_⟩, ?_, ?_⟩
  · exact (List.drop_left' hmemCount).trans (by rw [Module.definedMemories, hmems.length_eq])
  · exact (List.drop_left' htabCount).trans (by rw [Module.definedTables, htabs.length_eq])
  · intro j mt hmt
    obtain ⟨mem, hmem, hlog, rfl⟩ := exists_getElem?_of_forall₂ hmems hmt
    refine ⟨hlog, hrw.getElem?_memories ?_⟩
    rw [Pools.extend, hheap.memories_eq, List.getElem?_append_right (Nat.le_add_right _ _),
      Nat.add_sub_cancel_left, hmem]
  · intro j tt htt
    obtain ⟨tab, htab, fill, rfl⟩ := exists_getElem?_of_forall₂ htabs htt
    obtain ⟨tab', htab', hshape⟩ := hrw.getElem?_tables
      (k := s.pools.tables.length + j) (t := tt.allocate fill)
      (by rw [Pools.extend, hheap.tables_eq, List.getElem?_append_right (Nat.le_add_right _ _),
        Nat.add_sub_cancel_left, htab])
    refine ⟨tab', htab', ?_⟩
    rw [hshape]
    simp only [Table.shape, TableType.allocate, List.length_replicate]

/-! ## Sizes stay within reach -/

/-- What a memory can reach does not depend on its contents. -/
theorem Memory.reach_of_shape_eq {c : ℕ} {m m' : Memory} (h : m.shape = m'.shape) :
    m.reach c = m'.reach c := by
  simp only [shape, mk.injEq] at h
  simp only [reach, h.2.1, h.2.2.1, h.2.2.2.2]

theorem Table.reach_of_shape_eq {c : ℕ} {t t' : Table} (h : t.shape = t'.shape) :
    t.reach c = t'.reach c := by
  simp only [shape, mk.injEq] at h
  simp only [reach, h.2.1]

theorem Memory.length_of_shape_eq {m m' : Memory} (h : m.shape = m'.shape) :
    m.bytes.length = m'.bytes.length := by
  simp only [shape, mk.injEq] at h
  simpa using congrArg List.length h.1

theorem Table.length_of_shape_eq {t t' : Table} (h : t.shape = t'.shape) :
    t.entries.length = t'.entries.length := by
  simp only [shape, mk.injEq] at h
  simpa using congrArg List.length h.1

section Fresh

variable {s s' : Store} {inst memBase tabBase : ℕ} {m : Module}

/-- The sum over consecutive slots is bounded by the sum of bounds on each. -/
private theorem sum_range'_le {α : Type*} {size : ℕ → ℕ} {bound : α → ℕ} {l : List α} {base : ℕ}
    (h : ∀ {j a}, l[j]? = some a → size (base + j) ≤ bound a) :
    ((List.range' base l.length).map size).sum ≤ (l.map bound).sum := by
  induction l generalizing base with
  | nil => simp
  | cons a l ih =>
    simp only [List.length_cons, List.range'_succ, List.map_cons, List.sum_cons]
    refine Nat.add_le_add (by simpa using h (j := 0) rfl) (ih fun {j b} hj => ?_)
    rw [Nat.add_assoc, Nat.add_comm 1 j]
    exact h (j := j + 1) hj

/-- In every run each defined memory stays within the reach of its type. -/
theorem Fresh.memorySize_le (h : Fresh s inst m memBase tabBase) (hrun : s.Run s') {j : ℕ}
    {mt : MemoryType} (hmt : m.definedMemories[j]? = some mt) :
    s'.memorySize (memBase + j) ≤ mt.reach s.pools.limits.maxMemoryBytes := by
  obtain ⟨-, mem, hmem, hshape⟩ := h.memory hmt
  obtain ⟨mem', hmem', hgrows⟩ := hrun.extends.pools.memories hmem
  rw [Store.memorySize, hmem', Option.elim_some, MemoryType.reach]
  rcases hgrows.size with heq | hle
  · rw [heq, Memory.length_of_shape_eq hshape]
    simp [MemoryType.allocate]
  · rw [Memory.reach_of_shape_eq hshape] at hle
    exact hle.trans (le_max_right _ _)

/-- In every run each defined table stays within the reach of its type. -/
theorem Fresh.tableSize_le (h : Fresh s inst m memBase tabBase) (hrun : s.Run s') {j : ℕ}
    {tt : TableType} (htt : m.definedTables[j]? = some tt) :
    s'.tableSize (tabBase + j) ≤ tt.reach s.pools.limits.maxTableElems := by
  obtain ⟨tab, htab, hshape⟩ := h.table htt
  obtain ⟨tab', htab', hgrows⟩ := hrun.extends.pools.tables htab
  rw [Store.tableSize, htab', Option.elim_some, TableType.reach]
  rcases hgrows.size with heq | hle
  · rw [heq, Table.length_of_shape_eq hshape]
    simp [TableType.allocate]
  · rw [Table.reach_of_shape_eq hshape] at hle
    exact hle.trans (le_max_right _ _)

/-- In every run what an instance holds is at most what its module can reach. -/
theorem Fresh.held_le (h : Fresh s inst m memBase tabBase) (hrun : s.Run s') :
    s'.definedMemoryBytes inst ≤
        (m.definedMemories.map (·.reach s.pools.limits.maxMemoryBytes)).sum ∧
      s'.definedTableElems inst ≤
        (m.definedTables.map (·.reach s.pools.limits.maxTableElems)).sum := by
  obtain ⟨d, hd, hmems, htabs⟩ := h.exists_code
  have hd' := hrun.extends.getElem?_code hd
  constructor
  · rw [Store.definedMemoryBytes, hd', Option.elim_some, hmems]
    exact sum_range'_le (h.memorySize_le hrun)
  · rw [Store.definedTableElems, hd', Option.elim_some, htabs]
    exact sum_range'_le (h.tableSize_le hrun)

end Fresh

/-! ## Every size within reach is reached -/

theorem maxPages_lt (is64 : Bool) (pageSizeLog2 : ℕ) : maxPages is64 pageSizeLog2 < 2 ^ 64 := by
  have hpow : ∀ bits ≤ 64, pageSizeLog2 ≠ 0 → 2 ^ (bits - pageSizeLog2) < 2 ^ 64 :=
    fun bits hbits h0 => Nat.pow_lt_pow_right (by decide) (by omega)
  by_cases h0 : pageSizeLog2 = 0
  · subst h0
    cases is64 <;> decide
  · cases is64 <;> simp only [maxPages, if_neg h0, Bool.false_eq_true, if_false, if_true] <;> split
    · decide
    · exact hpow 32 (by decide) h0
    · decide
    · exact hpow 64 (by decide) h0

/-- A whole number of pages below reach grows by one page. -/
theorem Memory.growTarget_one {m : Memory} {c q : ℕ} (hlog : m.pageSizeLog2 < 64)
    (hc : c ≤ usizeMax) (hlen : m.bytes.length = q * 2 ^ m.pageSizeLog2)
    (hlt : m.bytes.length < m.reach c) :
    m.growTarget c 1 = some ((q + 1) * 2 ^ m.pageSizeLog2) ∧
      (q + 1) * 2 ^ m.pageSizeLog2 ≤ m.reach c := by
  have hpos : 0 < 2 ^ m.pageSizeLog2 := Nat.two_pow_pos _
  have hpages : m.pages = q := by
    rw [pages, hlen, Nat.shiftRight_eq_div_pow, Nat.mul_div_cancel _ hpos]
  have hq : q + 1 ≤ min (min (m.max.getD (maxPages m.is64 m.pageSizeLog2))
      (maxPages m.is64 m.pageSizeLog2)) (c / 2 ^ m.pageSizeLog2) := by
    rw [hlen] at hlt
    exact Nat.lt_of_mul_lt_mul_right hlt
  have hbytes : (q + 1) * 2 ^ m.pageSizeLog2 ≤ c :=
    (Nat.le_div_iff_mul_le hpos).mp (hq.trans (min_le_right _ _))
  have hlimit := hq.trans (min_le_left _ _)
  have hcap : q + 1 < 2 ^ 64 :=
    (hlimit.trans (min_le_right _ _)).trans_lt (maxPages_lt _ _)
  refine ⟨?_, Nat.mul_le_mul_right _ hq⟩
  simp only [growTarget, hpages, pageBytes, pagesToBytes]
  rw [if_pos ⟨hcap, hlimit⟩, if_pos ⟨hlog, hbytes.trans hc⟩]
  simpa using hbytes

/-- A table below reach grows by one entry. -/
theorem Table.growTarget_one {t : Table} {c : ℕ} (hc : c ≤ usizeMax)
    (hlt : t.entries.length < t.reach c) :
    t.growTarget c 1 = some (t.entries.length + 1) := by
  have hle : t.entries.length + 1 ≤ min (t.max.getD c) c := hlt
  simp only [growTarget]
  rw [if_pos ⟨(hle.trans (min_le_right _ _)).trans hc, hle⟩]

section Saturate

variable {s s' : Store} {inst memBase tabBase : ℕ} {m : Module}

/-- A store on the way to saturating the memories of an instance: each is a whole number of pages, no
smaller than declared, and can reach what its type can. -/
structure MemoriesReady (s : Store) (m : Module) (memBase : ℕ) (s' : Store) : Prop where
  code : s'.code = s.code
  limits : s'.pools.limits = s.pools.limits
  memory : ∀ {j : ℕ} {mt : MemoryType}, m.definedMemories[j]? = some mt → ∃ mem q,
    s'.pools.memories[memBase + j]? = some mem ∧ mem.pageSizeLog2 = mt.pageSizeLog2 ∧
      mt.pageSizeLog2 < 64 ∧ (∀ c, mem.reach c = (mt.allocate 0).reach c) ∧
      mem.bytes.length = q * 2 ^ mt.pageSizeLog2 ∧ mt.limits.min ≤ q

/-- A store on the way to saturating the tables of an instance. -/
structure TablesReady (s : Store) (m : Module) (tabBase : ℕ) (s' : Store) : Prop where
  code : s'.code = s.code
  limits : s'.pools.limits = s.pools.limits
  table : ∀ {j : ℕ} {tt : TableType}, m.definedTables[j]? = some tt → ∃ tab,
    s'.pools.tables[tabBase + j]? = some tab ∧
      (∀ c, tab.reach c = (tt.allocate nullRef).reach c) ∧ tt.limits.min ≤ tab.entries.length

theorem Fresh.memoriesReady (h : Fresh s inst m memBase tabBase) : MemoriesReady s m memBase s := by
  refine ⟨rfl, rfl, fun {j mt} hmt => ?_⟩
  obtain ⟨hlog, mem, hmem, hshape⟩ := h.memory hmt
  refine ⟨mem, mt.limits.min, hmem, ?_, hlog, fun c => (Memory.reach_of_shape_eq hshape).trans rfl, ?_,
    le_rfl⟩
  · simp only [Memory.shape, Memory.mk.injEq] at hshape
    exact hshape.2.2.2.2
  · rw [Memory.length_of_shape_eq hshape]
    simp [MemoryType.allocate]

theorem Fresh.tablesReady (h : Fresh s inst m memBase tabBase) : TablesReady s m tabBase s := by
  refine ⟨rfl, rfl, fun {j tt} htt => ?_⟩
  obtain ⟨tab, htab, hshape⟩ := h.table htt
  refine ⟨tab, htab, fun c => Table.reach_of_shape_eq hshape, ?_⟩
  rw [Table.length_of_shape_eq hshape]
  simp [TableType.allocate]

/-- A memory below the reach of its type grows by a page; no other memory changes. -/
theorem MemoriesReady.step (h : MemoriesReady s m memBase s') {d : InstanceData}
    (hd : s.code[inst]? = some d) {i j : ℕ} (hi : d.maps.mem i = memBase + j) {mt : MemoryType}
    (hmt : m.definedMemories[j]? = some mt)
    (hlt : s'.memorySize (memBase + j) < mt.reach s.pools.limits.maxMemoryBytes) :
    ∃ s'', Store.Step s' s'' ∧ MemoriesReady s m memBase s'' ∧
      s'.memorySize (memBase + j) < s''.memorySize (memBase + j) ∧
      s''.memorySize (memBase + j) ≤ mt.reach s.pools.limits.maxMemoryBytes ∧
      ∀ k ≠ memBase + j, s''.memorySize k = s'.memorySize k := by
  obtain ⟨mem, q, hmem, hlog, hlog64, hreach, hlen, hmin⟩ := h.memory hmt
  have hpos : 0 < 2 ^ mt.pageSizeLog2 := Nat.two_pow_pos _
  have hsize : s'.memorySize (memBase + j) = mem.bytes.length := by
    rw [Store.memorySize, hmem, Option.elim_some]
  rw [hsize, MemoryType.reach, lt_max_iff, hlen] at hlt
  have hlt : mem.bytes.length < mem.reach s'.pools.limits.maxMemoryBytes := by
    rw [h.limits, hreach, hlen]
    exact hlt.resolve_left fun hlt => absurd (Nat.lt_of_mul_lt_mul_right hlt) (by omega)
  obtain ⟨htarget, hle⟩ := Memory.growTarget_one (hlog ▸ hlog64) s'.pools.limits.memory_le
    (hlog ▸ hlen) hlt
  rw [hlog] at htarget hle
  set mem' : Memory := { mem with bytes := resize mem.bytes ((q + 1) * 2 ^ mt.pageSizeLog2) 0 }
  have hslot : memBase + j < s'.pools.memories.length := (List.getElem?_eq_some_iff.mp hmem).1
  have hlen' : mem'.bytes.length = (q + 1) * 2 ^ mt.pageSizeLog2 := by simp [mem']
  have hstep : Store.Step s' { s' with pools := { s'.pools with
      memories := s'.pools.memories.set (memBase + j) mem' } } := by
    refine @Store.Step.memoryGrow s' inst d i (BitVec.ofNat 128 1)
      (if mem.is64 then i64Value (BitVec.ofInt 64 mem.pages)
        else i32Value (BitVec.ofInt 32 mem.pages)) _ (h.code ▸ hd) ?_
    simp [Pools.memoryGrow, hi, hmem, orError, bind, Except.bind, popMem_ofNat, htarget, pure,
      Except.pure, mem']
  refine ⟨_, hstep, ⟨h.code, h.limits, fun {j' mt'} hmt' => ?_⟩, ?_, ?_, fun k hk => ?_⟩
  · by_cases hj : j' = j
    · subst hj
      obtain rfl := Option.some.inj (hmt.symm.trans hmt')
      exact ⟨mem', q + 1, by simp [hslot], hlog, hlog64, hreach, hlen', by omega⟩
    · obtain ⟨mem₀, q₀, hmem₀, hrest⟩ := h.memory hmt'
      exact ⟨mem₀, q₀, by rw [List.getElem?_set_ne (by omega), hmem₀], hrest⟩
  · rw [hsize, hlen, Store.memorySize, List.getElem?_set_self hslot, Option.elim_some, hlen']
    exact Nat.mul_lt_mul_of_pos_right (Nat.lt_succ_self q) hpos
  · rw [Store.memorySize, List.getElem?_set_self hslot, Option.elim_some, hlen']
    refine hle.trans ?_
    rw [h.limits, hreach]
    exact le_max_right _ _
  · simp only [Store.memorySize]
    rw [List.getElem?_set_ne (Ne.symm hk)]

/-- A table below the reach of its type grows by an entry; no other table changes. -/
theorem TablesReady.step (h : TablesReady s m tabBase s') {d : InstanceData}
    (hd : s.code[inst]? = some d) {i j : ℕ} (hi : d.maps.table i = tabBase + j) {tt : TableType}
    (htt : m.definedTables[j]? = some tt)
    (hlt : s'.tableSize (tabBase + j) < tt.reach s.pools.limits.maxTableElems) :
    ∃ s'', Store.Step s' s'' ∧ TablesReady s m tabBase s'' ∧
      s'.tableSize (tabBase + j) < s''.tableSize (tabBase + j) ∧
      s''.tableSize (tabBase + j) ≤ tt.reach s.pools.limits.maxTableElems ∧
      ∀ k ≠ tabBase + j, s''.tableSize k = s'.tableSize k := by
  obtain ⟨tab, htab, hreach, hmin⟩ := h.table htt
  have hsize : s'.tableSize (tabBase + j) = tab.entries.length := by
    rw [Store.tableSize, htab, Option.elim_some]
  rw [hsize, TableType.reach, lt_max_iff] at hlt
  have hlt : tab.entries.length < tab.reach s'.pools.limits.maxTableElems := by
    rw [h.limits, hreach]
    exact hlt.resolve_left (by omega)
  have htarget := Table.growTarget_one s'.pools.limits.table_le hlt
  set tab' : Table := { tab with entries := resize tab.entries (tab.entries.length + 1) nullRef }
  have hslot : tabBase + j < s'.pools.tables.length := (List.getElem?_eq_some_iff.mp htab).1
  have hlen' : tab'.entries.length = tab.entries.length + 1 := by simp [tab']
  have hstep : Store.Step s' { s' with pools := { s'.pools with
      tables := s'.pools.tables.set (tabBase + j) tab' } } := by
    refine @Store.Step.tableGrow s' inst d i (BitVec.ofNat 128 1) nullRef
      (if tab.is64 then i64Value (BitVec.ofInt 64 tab.entries.length)
        else i32Value (BitVec.ofInt 32 tab.entries.length)) _ (h.code ▸ hd) ?_
    simp [Pools.tableGrow, hi, htab, orError, bind, Except.bind, popMem_ofNat, htarget, pure,
      Except.pure, tab']
  refine ⟨_, hstep, ⟨h.code, h.limits, fun {j' tt'} htt' => ?_⟩, ?_, ?_, fun k hk => ?_⟩
  · by_cases hj : j' = j
    · subst hj
      obtain rfl := Option.some.inj (htt.symm.trans htt')
      exact ⟨tab', by simp [hslot], hreach, by omega⟩
    · obtain ⟨tab₀, htab₀, hrest⟩ := h.table htt'
      exact ⟨tab₀, by rw [List.getElem?_set_ne (by omega), htab₀], hrest⟩
  · rw [hsize, Store.tableSize, List.getElem?_set_self hslot, Option.elim_some, hlen']
    exact Nat.lt_succ_self _
  · rw [Store.tableSize, List.getElem?_set_self hslot, Option.elim_some, hlen']
    rw [h.limits, hreach] at hlt
    exact Nat.succ_le_of_lt (hlt.trans_le (le_max_right _ _))
  · simp only [Store.tableSize]
    rw [List.getElem?_set_ne (Ne.symm hk)]

/-- An index of a slice past the imports is an index of the whole map. -/
private theorem get_of_drop_eq_range' {map : List ℕ} {n base len j : ℕ}
    (h : map.drop n = List.range' base len) (hj : j < len) :
    IndexMaps.get map (n + j) = base + j := by
  have hget := congrArg (·[j]?) h
  simp only [List.getElem?_drop, List.getElem?_range' hj, Nat.one_mul] at hget
  simp [IndexMaps.get, List.getD_eq_getElem?_getD, hget]

/-- The sum over consecutive slots, when every slot has its target. -/
private theorem sum_range'_eq {α : Type*} {size : ℕ → ℕ} {bound : α → ℕ} {l : List α} {base : ℕ}
    (h : ∀ {j a}, l[j]? = some a → size (base + j) = bound a) :
    ((List.range' base l.length).map size).sum = (l.map bound).sum := by
  congr 1
  refine List.ext_getElem? fun j => ?_
  cases hj : l[j]? with
  | none =>
    have : l.length ≤ j := List.getElem?_eq_none_iff.mp hj
    simp [this]
  | some a =>
    have : j < l.length := (List.getElem?_eq_some_iff.mp hj).1
    simp [hj, List.getElem?_range' this, h hj]

/-- Some run brings the memories of an instance to the reach of their types. -/
theorem Fresh.exists_run_memories (h : Fresh s inst m memBase tabBase) :
    ∃ s', s.Run s' ∧ s'.definedMemoryBytes inst =
      (m.definedMemories.map (·.reach s.pools.limits.maxMemoryBytes)).sum := by
  obtain ⟨d, hd, hmems, -⟩ := h.exists_code
  set target : ℕ → ℕ := fun k => (m.definedMemories[k - memBase]?).elim 0
    (·.reach s.pools.limits.maxMemoryBytes)
  have hslot : ∀ k ∈ List.range' memBase m.definedMemories.length, ∃ j mt, k = memBase + j ∧
      m.definedMemories[j]? = some mt ∧ target k = mt.reach s.pools.limits.maxMemoryBytes := by
    intro k hk
    obtain ⟨hle, hlt⟩ := List.mem_range'_1.mp hk
    have hj : k - memBase < m.definedMemories.length := by omega
    exact ⟨k - memBase, _, by omega, List.getElem?_eq_getElem hj, by simp [target, hj]⟩
  obtain ⟨s', hrun, hready, hsat⟩ := @exists_run_saturated Store Store.Step
    (MemoriesReady s m memBase) Store.memorySize target
    (List.range' memBase m.definedMemories.length)
    (by
      intro s₁ hready k hk hlt
      obtain ⟨j, mt, rfl, hmt, htarget⟩ := hslot k hk
      rw [htarget] at hlt ⊢
      exact hready.step hd
        (get_of_drop_eq_range' hmems (List.getElem?_eq_some_iff.mp hmt).1) hmt hlt)
    _ h.memoriesReady
    (by
      intro k hk
      obtain ⟨j, mt, rfl, hmt, htarget⟩ := hslot k hk
      exact htarget ▸ h.memorySize_le .refl hmt)
  refine ⟨s', hrun, ?_⟩
  rw [Store.definedMemoryBytes, hready.code, hd, Option.elim_some, hmems]
  refine sum_range'_eq fun {j mt} hmt => ?_
  have hj := (List.getElem?_eq_some_iff.mp hmt).1
  rw [hsat (memBase + j) (List.mem_range'_1.mpr ⟨by omega, by omega⟩)]
  simp [target, hmt]

/-- Some run brings the tables of an instance to the reach of their types. -/
theorem Fresh.exists_run_tables (h : Fresh s inst m memBase tabBase) :
    ∃ s', s.Run s' ∧ s'.definedTableElems inst =
      (m.definedTables.map (·.reach s.pools.limits.maxTableElems)).sum := by
  obtain ⟨d, hd, -, htabs⟩ := h.exists_code
  set target : ℕ → ℕ := fun k => (m.definedTables[k - tabBase]?).elim 0
    (·.reach s.pools.limits.maxTableElems)
  have hslot : ∀ k ∈ List.range' tabBase m.definedTables.length, ∃ j tt, k = tabBase + j ∧
      m.definedTables[j]? = some tt ∧ target k = tt.reach s.pools.limits.maxTableElems := by
    intro k hk
    obtain ⟨hle, hlt⟩ := List.mem_range'_1.mp hk
    have hj : k - tabBase < m.definedTables.length := by omega
    exact ⟨k - tabBase, _, by omega, List.getElem?_eq_getElem hj, by simp [target, hj]⟩
  obtain ⟨s', hrun, hready, hsat⟩ := @exists_run_saturated Store Store.Step
    (TablesReady s m tabBase) Store.tableSize target
    (List.range' tabBase m.definedTables.length)
    (by
      intro s₁ hready k hk hlt
      obtain ⟨j, tt, rfl, htt, htarget⟩ := hslot k hk
      rw [htarget] at hlt ⊢
      exact hready.step hd
        (get_of_drop_eq_range' htabs (List.getElem?_eq_some_iff.mp htt).1) htt hlt)
    _ h.tablesReady
    (by
      intro k hk
      obtain ⟨j, tt, rfl, htt, htarget⟩ := hslot k hk
      exact htarget ▸ h.tableSize_le .refl htt)
  refine ⟨s', hrun, ?_⟩
  rw [Store.definedTableElems, hready.code, hd, Option.elim_some, htabs]
  refine sum_range'_eq fun {j tt} htt => ?_
  have hj := (List.getElem?_eq_some_iff.mp htt).1
  rw [hsat (tabBase + j) (List.mem_range'_1.mpr ⟨by omega, by omega⟩)]
  simp [target, htt]

end Saturate

/-! ## The ceilings -/

/-- The ceilings hold of an instance in every run exactly when the sizes its resources can reach by
themselves sum to no more than the ceilings. -/
theorem ceilings_hold_iff_fitsCeilings {m : Module} {imports : Imports} {s s' : Store}
    {id : InstanceId} (h : Store.instantiate m imports s = .ok id s') :
    (∀ s'', s'.Run s'' →
      s''.definedMemoryBytes id.index ≤ s.pools.limits.maxMemoryBytes ∧
        s''.definedTableElems id.index ≤ s.pools.limits.maxTableElems) ↔
      m.FitsCeilings s.pools.limits := by
  obtain ⟨-, hlimits, hfresh⟩ := fresh_of_instantiate h
  constructor
  · intro hall
    obtain ⟨s₁, hrun₁, hmem⟩ := hfresh.exists_run_memories
    obtain ⟨s₂, hrun₂, htab⟩ := hfresh.exists_run_tables
    rw [hlimits] at hmem htab
    exact ⟨hmem ▸ (hall s₁ hrun₁).1, htab ▸ (hall s₂ hrun₂).2⟩
  · rintro ⟨hmem, htab⟩ s'' hrun
    obtain ⟨hmem', htab'⟩ := hfresh.held_le hrun
    rw [hlimits] at hmem' htab'
    exact ⟨hmem'.trans hmem, htab'.trans htab⟩

/-! ## Two memories that outgrow the ceiling -/

/-- A store that admits four bytes and four table entries an instance. -/
def fourByteStore : Store :=
  { pools := { limits := { maxMemoryBytes := 4, maxTableElems := 4, maxGcObjects := 4 } } }

/-- A module with two memories of one-byte pages, one byte each at first. -/
def twoMemories : Module :=
  { memories := [⟨{ min := 1, max := none }, some 0⟩, ⟨{ min := 1, max := none }, some 0⟩] }

/-- The store with an instance of the module. -/
def twoMemoriesStore : Store := (Store.instantiate twoMemories {} fourByteStore).state

/-- Growing each memory by three pages takes the instance to eight bytes. -/
theorem twoMemories_exceed_ceiling :
    Store.instantiate twoMemories {} fourByteStore = .ok ⟨0, 0⟩ twoMemoriesStore ∧
      ∃ s', twoMemoriesStore.Run s' ∧
        fourByteStore.pools.limits.maxMemoryBytes < s'.definedMemoryBytes 0 := by
  refine ⟨rfl, _, .head (@Store.Step.memoryGrow _ 0 _ 0 3 _ _ rfl rfl)
    (.single (@Store.Step.memoryGrow _ 0 _ 1 3 _ _ rfl rfl)), ?_⟩
  decide

/-- Neither do the reachable sizes fit the ceilings. -/
theorem twoMemories_ceilings_hold_iff :
    (∀ s', twoMemoriesStore.Run s' →
      s'.definedMemoryBytes 0 ≤ fourByteStore.pools.limits.maxMemoryBytes ∧
        s'.definedTableElems 0 ≤ fourByteStore.pools.limits.maxTableElems) ↔
      twoMemories.FitsCeilings fourByteStore.pools.limits :=
  @ceilings_hold_iff_fitsCeilings twoMemories {} fourByteStore twoMemoriesStore ⟨0, 0⟩ rfl

end Wasmrt
