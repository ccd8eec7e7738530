import Mathlib.Data.BitVec
import Mathlib.Data.FinEnum
import Mathlib.Tactic.Common
import Wasmrt.Store.Instantiate

/-!
# Runs of a store

A store changes when a module joins it and when a guest runs. Of everything a guest does only the two
growing instructions change a size, so the other instructions are taken together: they rewrite
contents and may allocate GC objects. A run is any interleaving of these steps, by any instances.

## Main definitions

* `Memory.reach`, `Table.reach`: the largest size a memory or table can grow to.
* `Pools.Grows`, `Store.Extends`: what every step keeps.
* `Store.Step`, `Store.Run`: one step, and any number of them.

## Main results

* `Store.Step.extends`, `Store.Run.extends`: a run extends the store it starts from.
* `Store.instantiate_ok`: what a successful instantiation did.
-/

namespace Wasmrt

open MonadExcept (ofExcept)

/-! ## The size a resource can reach -/

/-- The largest size in bytes `memory.grow` admits. -/
def Memory.reach (byteCeiling : ℕ) (m : Memory) : ℕ :=
  let cap := maxPages m.is64 m.pageSizeLog2
  min (min (m.max.getD cap) cap) (byteCeiling / 2 ^ m.pageSizeLog2) * 2 ^ m.pageSizeLog2

/-- The largest length `table.grow` admits. -/
def Table.reach (ceiling : ℕ) (t : Table) : ℕ := min (t.max.getD ceiling) ceiling

/-- A granted growth stays within reach. -/
theorem Memory.le_reach_of_growTarget {m : Memory} {byteCeiling delta n : ℕ}
    (h : m.growTarget byteCeiling delta = some n) : n ≤ m.reach byteCeiling := by
  simp only [growTarget, pageBytes, pagesToBytes] at h
  split at h
  · rename_i hpages
    rw [Option.filter_eq_some_iff, Option.ite_none_right_eq_some, Option.some.injEq] at h
    obtain ⟨⟨-, rfl⟩, hn⟩ := h
    refine Nat.mul_le_mul_right _ (le_min hpages.2 ?_)
    rw [Nat.le_div_iff_mul_le (Nat.two_pow_pos _)]
    simpa using hn
  · cases h

theorem Table.le_reach_of_growTarget {t : Table} {ceiling delta n : ℕ}
    (h : t.growTarget ceiling delta = some n) : n ≤ t.reach ceiling := by
  simp only [growTarget, Option.ite_none_right_eq_some, Option.some.injEq] at h
  obtain ⟨⟨-, hlimit⟩, rfl⟩ := h
  exact hlimit

/-! ## Pools that grow -/

/-- A memory after a run: the same type, and a size within reach if it changed. -/
structure Memory.GrowsTo (byteCeiling : ℕ) (m m' : Memory) : Prop where
  max : m'.max = m.max
  is64 : m'.is64 = m.is64
  shared : m'.shared = m.shared
  pageSizeLog2 : m'.pageSizeLog2 = m.pageSizeLog2
  size : m'.bytes.length = m.bytes.length ∨ m'.bytes.length ≤ m.reach byteCeiling

/-- A table after a run. -/
structure Table.GrowsTo (ceiling : ℕ) (t t' : Table) : Prop where
  max : t'.max = t.max
  element : t'.element = t.element
  is64 : t'.is64 = t.is64
  size : t'.entries.length = t.entries.length ∨ t'.entries.length ≤ t.reach ceiling

theorem Memory.GrowsTo.trans {c : ℕ} {m₁ m₂ m₃ : Memory} (h : m₁.GrowsTo c m₂)
    (h' : m₂.GrowsTo c m₃) : m₁.GrowsTo c m₃ := by
  have hreach : m₂.reach c = m₁.reach c := by
    simp only [reach, h.max, h.is64, h.pageSizeLog2]
  refine ⟨h'.max.trans h.max, h'.is64.trans h.is64, h'.shared.trans h.shared,
    h'.pageSizeLog2.trans h.pageSizeLog2, ?_⟩
  rcases h'.size with heq | hle
  · exact heq ▸ h.size
  · exact .inr (hreach ▸ hle)

theorem Table.GrowsTo.trans {c : ℕ} {t₁ t₂ t₃ : Table} (h : t₁.GrowsTo c t₂)
    (h' : t₂.GrowsTo c t₃) : t₁.GrowsTo c t₃ := by
  have hreach : t₂.reach c = t₁.reach c := by simp only [reach, h.max]
  refine ⟨h'.max.trans h.max, h'.element.trans h.element, h'.is64.trans h.is64, ?_⟩
  rcases h'.size with heq | hle
  · exact heq ▸ h.size
  · exact .inr (hreach ▸ hle)

theorem Memory.GrowsTo.refl (c : ℕ) (m : Memory) : m.GrowsTo c m := ⟨rfl, rfl, rfl, rfl, .inl rfl⟩

theorem Table.GrowsTo.refl (c : ℕ) (t : Table) : t.GrowsTo c t := ⟨rfl, rfl, rfl, .inl rfl⟩

/-- The part of a GC object that never changes. -/
def HeapObject.header (o : HeapObject) : ℕ × ℕ := (o.owner, o.typeIndex)

/-- Pools after a run: every slot is still there with its type, and every GC object with its
header. -/
structure Pools.Grows (p p' : Pools) : Prop where
  limits : p'.limits = p.limits
  memories : ∀ {k : ℕ} {m : Memory}, p.memories[k]? = some m →
    ∃ m', p'.memories[k]? = some m' ∧ m.GrowsTo p.limits.maxMemoryBytes m'
  tables : ∀ {k : ℕ} {t : Table}, p.tables[k]? = some t →
    ∃ t', p'.tables[k]? = some t' ∧ t.GrowsTo p.limits.maxTableElems t'
  heap : p.gcHeap.map HeapObject.header <+: p'.gcHeap.map HeapObject.header

namespace Pools.Grows

theorem refl (p : Pools) : p.Grows p :=
  ⟨rfl, fun h => ⟨_, h, .refl _ _⟩, fun h => ⟨_, h, .refl _ _⟩, List.prefix_refl _⟩

theorem trans ⦃p q r : Pools⦄ (h : p.Grows q) (h' : q.Grows r) : p.Grows r := by
  refine ⟨h'.limits.trans h.limits, fun hm => ?_, fun ht => ?_, h.heap.trans h'.heap⟩
  · obtain ⟨m₁, hm₁, hg⟩ := h.memories hm
    obtain ⟨m₂, hm₂, hg'⟩ := h'.memories hm₁
    exact ⟨m₂, hm₂, hg.trans (h.limits ▸ hg')⟩
  · obtain ⟨t₁, ht₁, hg⟩ := h.tables ht
    obtain ⟨t₂, ht₂, hg'⟩ := h'.tables ht₁
    exact ⟨t₂, ht₂, hg.trans (h.limits ▸ hg')⟩

end Pools.Grows

/-- A memory with its contents cleared. -/
def Memory.shape (m : Memory) : Memory := { m with bytes := List.replicate m.bytes.length 0 }

/-- A table with its entries cleared. -/
def Table.shape (t : Table) : Table :=
  { t with entries := List.replicate t.entries.length nullRef }

theorem Memory.growsTo_of_shape_eq {c : ℕ} {m m' : Memory} (h : m'.shape = m.shape) :
    m.GrowsTo c m' := by
  simp only [shape, mk.injEq] at h
  exact ⟨h.2.1, h.2.2.1, h.2.2.2.1, h.2.2.2.2, .inl (by simpa using congrArg List.length h.1)⟩

theorem Table.growsTo_of_shape_eq {c : ℕ} {t t' : Table} (h : t'.shape = t.shape) :
    t.GrowsTo c t' := by
  simp only [shape, mk.injEq] at h
  exact ⟨h.2.1, h.2.2.1, h.2.2.2, .inl (by simpa using congrArg List.length h.1)⟩

/-- Pools that differ in contents only: every size and type is as before. -/
structure Pools.Rewrites (p p' : Pools) : Prop where
  limits : p'.limits = p.limits
  types : p'.types = p.types
  memories : p'.memories.map Memory.shape = p.memories.map Memory.shape
  tables : p'.tables.map Table.shape = p.tables.map Table.shape
  globals : p'.globals.length = p.globals.length
  dataDropped : p'.dataDropped.length = p.dataDropped.length
  elemValues : p'.elemValues.length = p.elemValues.length
  elemDropped : p'.elemDropped.length = p.elemDropped.length
  tags : p'.tags = p.tags
  heap : p.gcHeap.map HeapObject.header <+: p'.gcHeap.map HeapObject.header

namespace Pools.Rewrites

theorem refl (p : Pools) : p.Rewrites p :=
  ⟨rfl, rfl, rfl, rfl, rfl, rfl, rfl, rfl, rfl, List.prefix_refl _⟩

theorem trans ⦃p q r : Pools⦄ (h : p.Rewrites q) (h' : q.Rewrites r) : p.Rewrites r :=
  ⟨h'.limits.trans h.limits, h'.types.trans h.types, h'.memories.trans h.memories,
    h'.tables.trans h.tables, h'.globals.trans h.globals, h'.dataDropped.trans h.dataDropped,
    h'.elemValues.trans h.elemValues, h'.elemDropped.trans h.elemDropped, h'.tags.trans h.tags,
    h.heap.trans h'.heap⟩

variable {p p' : Pools}

/-- A memory keeps its slot and its shape. -/
theorem getElem?_memories (h : p.Rewrites p') {k : ℕ} {m : Memory} (hm : p.memories[k]? = some m) :
    ∃ m', p'.memories[k]? = some m' ∧ m'.shape = m.shape := by
  have hk := congrArg (·[k]?) h.memories
  simpa [hm] using hk

/-- A table keeps its slot and its shape. -/
theorem getElem?_tables (h : p.Rewrites p') {k : ℕ} {t : Table} (ht : p.tables[k]? = some t) :
    ∃ t', p'.tables[k]? = some t' ∧ t'.shape = t.shape := by
  have hk := congrArg (·[k]?) h.tables
  simpa [ht] using hk

theorem grows (h : p.Rewrites p') : p.Grows p' := by
  refine ⟨h.limits, fun hm => ?_, fun ht => ?_, h.heap⟩
  · obtain ⟨m', hm', hshape⟩ := h.getElem?_memories hm
    exact ⟨m', hm', Memory.growsTo_of_shape_eq hshape⟩
  · obtain ⟨t', ht', hshape⟩ := h.getElem?_tables ht
    exact ⟨t', ht', Table.growsTo_of_shape_eq hshape⟩

end Pools.Rewrites

theorem Pools.HeapGrows.grows {p p' : Pools} (h : p.HeapGrows p') : p.Grows p' := by
  obtain ⟨objs, rfl⟩ := h
  exact ⟨rfl, fun h => ⟨_, h, .refl _ _⟩, fun h => ⟨_, h, .refl _ _⟩, by simp⟩

/-- Replacing one memory by a grown one. -/
theorem Pools.grows_set_memory {p : Pools} {mi : ℕ} {m m' : Memory} (hm : p.memories[mi]? = some m)
    (hg : m.GrowsTo p.limits.maxMemoryBytes m') :
    p.Grows { p with memories := p.memories.set mi m' } := by
  refine ⟨rfl, fun {k mk} hk => ?_, fun h => ⟨_, h, .refl _ _⟩, List.prefix_refl _⟩
  by_cases hki : mi = k
  · subst hki
    obtain rfl := Option.some.inj (hm.symm.trans hk)
    have hlt := (List.getElem?_eq_some_iff.mp hk).1
    exact ⟨m', by simp [hlt], hg⟩
  · exact ⟨mk, by simpa [List.getElem?_set, hki] using hk, .refl _ _⟩

/-- Replacing one table by a grown one. -/
theorem Pools.grows_set_table {p : Pools} {ti : ℕ} {t t' : Table} (ht : p.tables[ti]? = some t)
    (hg : t.GrowsTo p.limits.maxTableElems t') :
    p.Grows { p with tables := p.tables.set ti t' } := by
  refine ⟨rfl, fun h => ⟨_, h, .refl _ _⟩, fun {k tk} hk => ?_, List.prefix_refl _⟩
  by_cases hki : ti = k
  · subst hki
    obtain rfl := Option.some.inj (ht.symm.trans hk)
    have hlt := (List.getElem?_eq_some_iff.mp hk).1
    exact ⟨t', by simp [hlt], hg⟩
  · exact ⟨tk, by simpa [List.getElem?_set, hki] using hk, .refl _ _⟩

theorem Pools.grows_memoryGrow {p p' : Pools} {mi : ℕ} {operand v : Value}
    (h : p.memoryGrow mi operand = .ok (v, p')) : p.Grows p' := by
  rcases memoryGrow_cases h with rfl | ⟨mem, nbytes, hmem, ht, rfl⟩
  · exact .refl _
  · exact grows_set_memory hmem
      ⟨rfl, rfl, rfl, rfl, .inr (by simpa using Memory.le_reach_of_growTarget ht)⟩

theorem Pools.grows_tableGrow {p p' : Pools} {ti : ℕ} {operand init v : Value}
    (h : p.tableGrow ti operand init = .ok (v, p')) : p.Grows p' := by
  rcases tableGrow_cases h with rfl | ⟨t, newLen, ht, hg, rfl⟩
  · exact .refl _
  · exact grows_set_table ht ⟨rfl, rfl, rfl, .inr (by simpa using Table.le_reach_of_growTarget hg)⟩

/-- Joining the registry changes no resource. -/
theorem Pools.grows_types (p : Pools) (reg : TypeRegistry) : p.Grows { p with types := reg } :=
  ⟨rfl, fun h => ⟨_, h, .refl _ _⟩, fun h => ⟨_, h, .refl _ _⟩, List.prefix_refl _⟩

theorem keeps_prepare (s : Store) (m : Module) (imports : Imports) :
    Keeps Pools.Grows (prepare s m imports) := by
  intro p
  rcases prepare_state s m imports p with heq | hgrows
  · rw [heq]
    exact .refl p
  · exact (p.grows_types _).trans hgrows.grows

/-! ## Writing the segments -/

/-- Replacing an entry by one of the same image changes no image. -/
private theorem map_set_of_eq {α β : Type*} {f : α → β} {l : List α} {k : ℕ} {a a' : α}
    (ha : l[k]? = some a) (hf : f a' = f a) : (l.set k a').map f = l.map f := by
  rw [List.map_set, hf]
  obtain ⟨hk, rfl⟩ := List.getElem?_eq_some_iff.mp ha
  rw [← List.getElem_map f (h := by simpa using hk), List.set_getElem_self]

/-- A write behind two checks. -/
theorem rewrites_checkedSet {α : Type} {p : Pools} {x : Except Trap α} {y : α → Except Trap Unit} {f : α → Pools}
    (h : ∀ a, x = .ok a → y a = .ok () → p.Rewrites (f a)) :
    p.Rewrites ((do
      let a ← ofExcept x
      ofExcept (y a)
      set (f a) : EStateM Trap Pools Unit) p).state := by
  cases hx : x with
  | error e => exact .refl p
  | ok a =>
    have hrun : (ofExcept (.ok a) >>= fun a => ofExcept (y a) >>= fun _ => set (f a) : EStateM Trap Pools Unit) p =
        (ofExcept (y a) >>= fun _ => set (f a) : EStateM Trap Pools Unit) p := rfl
    rw [hrun]
    cases hy : y a with
    | error e => exact .refl p
    | ok u => exact h a hx hy

theorem keeps_applyElem (maps : IndexMaps) (seg : ActiveSegment) :
    Keeps Pools.Rewrites (applyElem maps seg) := by
  intro p
  rw [applyElem, estate_get_bind]
  refine rewrites_checkedSet fun t ht hfits => ?_
  have hle := of_decide_eq_true (ensure_eq_ok.mp hfits)
  exact { Pools.Rewrites.refl p with
    tables := map_set_of_eq (orError_eq_ok.mp ht) (by simp only [Table.shape, length_writeAt hle]) }

theorem keeps_applyData (m : Module) (maps : IndexMaps) (seg : ActiveSegment) :
    Keeps Pools.Rewrites (applyData m maps seg) := by
  intro p
  rw [applyData, estate_get_bind]
  refine rewrites_checkedSet fun mem hmem hfits => ?_
  have hle := of_decide_eq_true (ensure_eq_ok.mp hfits)
  exact { Pools.Rewrites.refl p with
    memories := map_set_of_eq (orError_eq_ok.mp hmem) (by simp only [Memory.shape, length_writeAt hle]) }

/-- The resources of a new instance take fresh slots. -/
theorem Pools.grows_extend (p : Pools) (parts : Parts) (inst tags : ℕ) :
    p.Grows (p.extend parts inst tags) := by
  refine ⟨rfl, fun {k m} hm => ⟨m, ?_, .refl _ _⟩, fun {k t} ht => ⟨t, ?_, .refl _ _⟩,
    List.prefix_refl _⟩
  · rw [extend, List.getElem?_append_left (List.getElem?_eq_some_iff.mp hm).1, hm]
  · rw [extend, List.getElem?_append_left (List.getElem?_eq_some_iff.mp ht).1, ht]

/-! ## Stores that extend -/

namespace Store

/-- A store after a run: the instances are still there, and the pools have grown. -/
structure Extends (s s' : Store) : Prop where
  id : s'.id = s.id
  code : s.code <+: s'.code
  pools : s.pools.Grows s'.pools

theorem Extends.refl (s : Store) : s.Extends s := ⟨rfl, List.prefix_refl _, .refl _⟩

theorem Extends.trans ⦃s t u : Store⦄ (h : s.Extends t) (h' : t.Extends u) : s.Extends u :=
  ⟨h'.id.trans h.id, h.code.trans h'.code, h.pools.trans h'.pools⟩

/-- An instance of the earlier store is the same instance later. -/
theorem Extends.getElem?_code {s s' : Store} (h : s.Extends s') {i : ℕ} {d : InstanceData}
    (hd : s.code[i]? = some d) : s'.code[i]? = some d :=
  getElem?_of_prefix h.code hd

end Store

/-- A computation on the pools that lets them grow extends the store. -/
theorem keeps_onPools {α : Type} {x : EStateM Trap Pools α} (h : Keeps Pools.Grows x) :
    Keeps Store.Extends (onPools x) := by
  intro s
  have hs := h s.pools
  simp only [onPools]
  cases hx : x s.pools with
  | ok a p =>
    rw [hx] at hs
    exact ⟨rfl, List.prefix_refl _, hs⟩
  | error e p =>
    rw [hx] at hs
    exact ⟨rfl, List.prefix_refl _, hs⟩

theorem onPools_eq_ok {α : Type} {x : EStateM Trap Pools α} {s s' : Store} {a : α} :
    onPools x s = .ok a s' ↔ ∃ p, x s.pools = .ok a p ∧ s' = { s with pools := p } := by
  simp only [onPools]
  cases x s.pools <;> simp [eq_comm]

/-- Writing segments only rewrites. -/
theorem keeps_segments {f : ActiveSegment → EStateM Trap Pools Unit}
    (hf : ∀ seg, Keeps Pools.Rewrites (f seg)) (segs : List ActiveSegment) :
    Keeps Pools.Grows (segs.forM f) :=
  (Keeps.forM Pools.Rewrites.refl Pools.Rewrites.trans hf segs).mono fun _ _ => Pools.Rewrites.grows

/-- Writing segments changes the pools only. -/
theorem keeps_onPools_rewrites {f : ActiveSegment → EStateM Trap Pools Unit}
    (hf : ∀ seg, Keeps Pools.Rewrites (f seg)) (segs : List ActiveSegment) :
    Keeps (fun s s' : Store => s'.id = s.id ∧ s'.code = s.code ∧ s.pools.Rewrites s'.pools)
      (onPools (segs.forM f)) := by
  intro s
  have hs := Keeps.forM Pools.Rewrites.refl Pools.Rewrites.trans hf segs s.pools
  simp only [onPools]
  cases hx : segs.forM f s.pools with
  | ok a p =>
    rw [hx] at hs
    exact ⟨rfl, rfl, hs⟩
  | error e p =>
    rw [hx] at hs
    exact ⟨rfl, rfl, hs⟩

/-- Instantiation, however it ends, extends the store. -/
theorem keeps_instantiate (m : Module) (imports : Imports) :
    Keeps Store.Extends (Store.instantiate m imports) := by
  refine .bind Store.Extends.trans (.get .refl) fun s => ?_
  refine .bind Store.Extends.trans (keeps_onPools (keeps_prepare s m imports)) fun parts => ?_
  refine .bind Store.Extends.trans (keeps_onPools (.modify fun p => p.grows_extend _ _ _)) fun _ => ?_
  refine .bind Store.Extends.trans (.ofExcept .refl _) fun targets => ?_
  refine .bind Store.Extends.trans (.modify fun s => ⟨rfl, List.prefix_append _ _, .refl _⟩)
    fun _ => ?_
  refine .bind Store.Extends.trans (keeps_onPools (keeps_segments
    (keeps_applyElem _) _)) fun _ => ?_
  refine .bind Store.Extends.trans (keeps_onPools (keeps_segments
    (keeps_applyData m _) _)) fun _ => .pure .refl _

namespace Store

/-- The instance a module becomes: the module with its prepared parts. -/
def newInstance (s : Store) (m : Module) (parts : Parts) (targets : List FuncTarget) : InstanceData :=
  ⟨m, parts.typeIds, parts.funcBodies, parts.maps s.pools m.tags.length, targets⟩

/-- An instantiation that got as far as recording the instance: everything was prepared, the resources
took fresh slots, and the segments rewrote contents. -/
structure Committed (s : Store) (m : Module) (imports : Imports) (s' : Store) : Prop where
  id : s'.id = s.id
  exists_parts : ∃ parts p targets, Prepared s m imports s.pools parts ∧
    { s.pools with types := (s.pools.types.assign m.toTypeSection).1 }.HeapGrows p ∧
    bindTargets s s.hostFuncs imports.funcs = .ok targets ∧
    s'.code = s.code ++ [s.newInstance m parts targets] ∧
    (p.extend parts s.code.length m.tags.length).Rewrites s'.pools

/-- A successful instantiation has recorded the instance. -/
theorem instantiate_ok {m : Module} {imports : Imports} {s s' : Store} {id : InstanceId}
    (h : instantiate m imports s = .ok id s') :
    id = ⟨s.id, s.code.length⟩ ∧ Committed s m imports s' := by
  simp only [instantiate, estate_bind_eq_ok, estate_get_eq_ok, onPools_eq_ok, ofExcept_eq_ok,
    estate_modify_eq_ok, estate_pure_eq_ok] at h
  obtain ⟨_, _, ⟨rfl, rfl⟩, parts, _, ⟨p, hprep, rfl⟩, _, _, ⟨_, rfl, rfl⟩, targets, _,
    ⟨htargets, rfl⟩, _, _, rfl, _, _, ⟨p₁, helems, rfl⟩, _, _, ⟨p₂, hdata, rfl⟩, hid, rfl⟩ := h
  obtain ⟨hparts, hheap⟩ := prepare_ok hprep
  refine ⟨hid.symm, rfl, parts, p, targets, hparts, hheap, htargets, rfl, ?_⟩
  have hg₁ := (Keeps.forM Pools.Rewrites.refl Pools.Rewrites.trans
    (keeps_applyElem _) _).of_eq_ok helems
  have hg₂ := (Keeps.forM Pools.Rewrites.refl Pools.Rewrites.trans
    (keeps_applyData m _) _).of_eq_ok hdata
  exact hg₁.trans hg₂

/-- An instantiation, however it ends, has recorded the instance or left the instances alone; in the
latter case it did nothing to the registry, or joined the types. -/
theorem instantiate_state (m : Module) (imports : Imports) (s : Store) :
    ((instantiate m imports s).state.code = s.code ∧
        ((instantiate m imports s).state.pools.types = s.pools.types ∨
          (instantiate m imports s).state.pools.types =
            (s.pools.types.assign m.toTypeSection).1)) ∨
      Committed s m imports (instantiate m imports s).state := by
  have hprepState := prepare_state s m imports s.pools
  cases hprep : prepare s m imports s.pools with
  | error e p =>
    rw [hprep, EStateM.Result.state_error] at hprepState
    have hstate : (instantiate m imports s).state = { s with pools := p } := by
      simp only [instantiate, estate_bind_apply, estate_get_apply, onPools, hprep, EStateM.Result.state_error]
    rw [hstate]
    exact .inl ⟨rfl, hprepState.imp (congrArg Pools.types) Pools.HeapGrows.types_eq⟩
  | ok parts p =>
    obtain ⟨hparts, hheap⟩ := prepare_ok hprep
    cases htargets : bindTargets s s.hostFuncs imports.funcs with
    | error e =>
      have hstate : (instantiate m imports s).state =
          { s with pools := p.extend parts s.code.length m.tags.length } := by
        simp only [instantiate, estate_bind_apply, estate_get_apply, onPools, hprep, estate_modify_apply, htargets]
        rfl
      rw [hstate]
      exact .inl ⟨rfl, .inr hheap.types_eq⟩
    | ok targets =>
      right
      set s₁ : Store := ({ s with pools := p.extend parts s.code.length m.tags.length } :
        Store).pushInstance m parts (parts.maps s.pools m.tags.length) targets
      -- what follows the commit only writes segments
      have hrest : instantiate m imports s = (do
          onPools (parts.activeElems.forM (applyElem (parts.maps s.pools m.tags.length)))
          onPools (parts.activeData.forM (applyData m (parts.maps s.pools m.tags.length)))
          pure ⟨s.id, s.code.length⟩ : EStateM Trap Store InstanceId) s₁ := by
        simp only [instantiate, estate_bind_apply, estate_get_apply, onPools, hprep, estate_modify_apply, htargets]
        rfl
      have hkeeps : Keeps (fun s s' : Store => s'.id = s.id ∧ s'.code = s.code ∧
          s.pools.Rewrites s'.pools) (do
          onPools (parts.activeElems.forM (applyElem (parts.maps s.pools m.tags.length)))
          onPools (parts.activeData.forM (applyData m (parts.maps s.pools m.tags.length)))
          pure ⟨s.id, s.code.length⟩ : EStateM Trap Store InstanceId) := by
        have htrans : ∀ ⦃s t u : Store⦄, (t.id = s.id ∧ t.code = s.code ∧ s.pools.Rewrites t.pools) →
            (u.id = t.id ∧ u.code = t.code ∧ t.pools.Rewrites u.pools) →
            (u.id = s.id ∧ u.code = s.code ∧ s.pools.Rewrites u.pools) :=
          fun s t u h h' => ⟨h'.1.trans h.1, h'.2.1.trans h.2.1, h.2.2.trans h'.2.2⟩
        exact .bind htrans (keeps_onPools_rewrites (keeps_applyElem _) _) fun _ =>
          .bind htrans (keeps_onPools_rewrites (keeps_applyData m _) _) fun _ =>
            .pure (fun s => ⟨rfl, rfl, .refl _⟩) _
      obtain ⟨hid, hcode, hrw⟩ := hkeeps s₁
      rw [hrest]
      exact ⟨hid, parts, p, targets, hparts, hheap, htargets, hcode, hrw⟩

/-! ## Runs -/

/-- One step of a store: a module joins, an instance grows one of its memories or tables, or a guest
rewrites contents and allocates objects. The modules that join have been decoded and validated. -/
inductive Step : Store → Store → Prop
  | instantiate {s : Store} (m : Module) (imports : Imports) (hm : m.toTypeSection.WellFormed) :
    Step s (instantiate m imports s).state
  | memoryGrow {s : Store} {inst : ℕ} {d : InstanceData} {mi : ℕ} {operand v : Value} {p : Pools}
    (hd : s.code[inst]? = some d) (h : s.pools.memoryGrow (d.maps.mem mi) operand = .ok (v, p)) :
    Step s { s with pools := p }
  | tableGrow {s : Store} {inst : ℕ} {d : InstanceData} {ti : ℕ} {operand init v : Value} {p : Pools}
    (hd : s.code[inst]? = some d) (h : s.pools.tableGrow (d.maps.table ti) operand init = .ok (v, p)) :
    Step s { s with pools := p }
  | rewrite {s : Store} {p : Pools} (h : s.pools.Rewrites p) : Step s { s with pools := p }

/-- Any number of steps. -/
abbrev Run : Store → Store → Prop := Relation.ReflTransGen Step

theorem Step.extends {s s' : Store} (h : Step s s') : s.Extends s' := by
  cases h with
  | instantiate m imports _ => exact keeps_instantiate m imports s
  | memoryGrow _ h => exact ⟨rfl, List.prefix_refl _, Pools.grows_memoryGrow h⟩
  | tableGrow _ h => exact ⟨rfl, List.prefix_refl _, Pools.grows_tableGrow h⟩
  | rewrite h => exact ⟨rfl, List.prefix_refl _, h.grows⟩

theorem Run.extends {s s' : Store} (h : Run s s') : s.Extends s' := by
  induction h with
  | refl => exact .refl s
  | tail _ hstep ih => exact ih.trans hstep.extends

end Store

end Wasmrt
