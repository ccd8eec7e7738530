import Wasmrt.Store.Ceilings
import Wasmrt.Store.Reachable

/-!
# Table imports

A table import is matched on its limits, its index type and its element type. The element types are
compared as the two modules write them, so a concrete one by its type index, which each module counts
for itself.

## Main definitions

* `TableLimitsMatch`: limits and index type of a table fit a declared table type.
* `IndexKept`: two concrete element types have one index exactly when they have one store-wide id.
* `Store.TablesLinked`: every instance finds its tables in the pools, with the element types it
  declares.

## Main results

* `Store.Reachable.tablesLinked`: this holds of reachable stores.
* `Store.TablesLinked.resolveTable_agrees_iff`: exactly when table imports are matched store-wide.
-/

namespace Wasmrt

open TypeRegistry

/-! ## Element types across modules -/

/-- The limits and the index type of a table fit a declared table type. -/
def TableLimitsMatch (actual : Table) (declared : TableType) : Prop :=
  actual.is64 = declared.limits.is64 ∧ declared.limits.min ≤ actual.entries.length ∧
    ∀ m ∈ declared.limits.max, ∃ a ∈ actual.max, a ≤ m

/-- If both types are concrete references that agree in nullability and exactness, then they have one
index and family exactly when they have one store-wide id. -/
def IndexKept (aIds : List ℕ) (a : ValType) (bIds : List ℕ) (b : ValType) : Prop :=
  ∀ n e k i k' i', a = .concrete n e k i → b = .concrete n e k' i' →
    (k = k' ∧ i = i' ↔ aIds[(i : ℕ)]? = bIds[(i' : ℕ)]?)

/-- Written equality is store-wide equality exactly when indices are kept. -/
theorem eq_iff_storeType_eq_iff {aIds bIds : List ℕ} {a b : ValType} :
    (a = b ↔ a.storeType aIds = b.storeType bIds) ↔ IndexKept aIds a bIds b := by
  by_cases hab : ∃ n e k i k' i', a = .concrete n e k i ∧ b = .concrete n e k' i'
  · obtain ⟨n, e, k, i, k', i', rfl, rfl⟩ := hab
    have hkept : IndexKept aIds (.concrete n e k i) bIds (.concrete n e k' i') ↔
        (k = k' ∧ i = i' ↔ aIds[(i : ℕ)]? = bIds[(i' : ℕ)]?) := by
      refine ⟨fun h => h n e k i k' i' rfl rfl, ?_⟩
      rintro h _ _ _ _ _ _ ⟨⟩ ⟨⟩
      exact h
    rw [hkept]
    simp [ValType.storeType, ValType.shape, ValShape.map]
  · -- elsewhere neither side reads an index
    refine iff_of_true ?_ fun n e k i k' i' ha hb => absurd ⟨n, e, k, i, k', i', ha, hb⟩ hab
    cases a with
    | concrete n e k i =>
      cases b with
      | concrete n' e' k' i' =>
        have hne : ¬ (n = n' ∧ e = e') := by
          rintro ⟨rfl, rfl⟩
          exact hab ⟨n, e, k, i, k', i', rfl, rfl⟩
        simp [ValType.storeType, ValType.shape, ValShape.map]
        tauto
      | _ => simp [ValType.storeType, ValType.shape, ValShape.map]
    | _ => cases b <;> simp [ValType.storeType, ValType.shape, ValShape.map]

/-- What the check of a table import compares. -/
theorem tableImportMatches_iff {actual : Table} {declared : TableType} :
    tableImportMatches actual declared = true ↔
      TableLimitsMatch actual declared ∧ actual.element = declared.element := by
  unfold tableImportMatches TableLimitsMatch
  cases declared.limits.max with
  | none =>
    simp
    tauto
  | some m =>
    simp [Option.any_eq_true]
    tauto

/-! ## The tables of an instance -/

namespace Store

/-- Every instance finds each of its tables in the pools, with the element type it declares. -/
def TablesLinked (s : Store) : Prop :=
  ∀ ⦃i : ℕ⦄ ⦃d : InstanceData⦄ ⦃k : ℕ⦄ ⦃tt : TableType⦄, s.code[i]? = some d →
    d.module.tables[k]? = some tt →
      ∃ t, s.pools.tables[d.maps.table k]? = some t ∧ t.element = tt.element

/-- A successful match names an existing table with the declared element type. -/
theorem resolveTable_ok {s : Store} {it : ExternImport} {declared : Option TableType} {slot : ℕ}
    (h : resolveTable s it declared = .ok slot) :
    ∃ t tt, s.pools.tables[slot]? = some t ∧ declared = some tt ∧ TableLimitsMatch t tt ∧
      t.element = tt.element := by
  simp only [resolveTable, Except.bind_eq_ok, orError_eq_ok, ensure_eq_ok, Except.pure_eq_ok] at h
  obtain ⟨t, ht, tt, rfl, _, hmatch, rfl⟩ := h
  obtain ⟨hlimits, helem⟩ := tableImportMatches_iff.mp hmatch
  exact ⟨t, tt, ht, rfl, hlimits, helem⟩

/-- The tables stay linked while the pools grow. -/
theorem TablesLinked.of_grows {s s' : Store} (h : s.TablesLinked) (hcode : s'.code = s.code)
    (hg : s.pools.Grows s'.pools) : s'.TablesLinked := by
  intro i d k tt hd htt
  rw [hcode] at hd
  obtain ⟨t, ht, helem⟩ := h hd htt
  obtain ⟨t', ht', hgrows⟩ := hg.tables ht
  exact ⟨t', ht', hgrows.element.trans helem⟩

end Store

/-- The tables of a new instance: an imported one is in the slot its import resolved to, a defined one
in a fresh slot. -/
theorem Prepared.table_cases {s : Store} {m : Module} {imports : Imports} {parts : Parts}
    (h : Prepared s m imports s.pools parts) (targets : List FuncTarget) {k : ℕ} {tt : TableType}
    (htt : m.tables[k]? = some tt) :
    (∃ it, imports.tables[k]? = some it ∧ resolveTable (s.joined s.pools m.toTypeSection) it (some tt) =
        .ok ((s.newInstance m parts targets).maps.table k)) ∨
      ∃ j fill, parts.tables[j]? = some (tt.allocate fill) ∧
        (s.newInstance m parts targets).maps.table k = s.pools.tables.length + j := by
  have himports := mapM_eq_ok.mp h.importedTables
  obtain ⟨globals, q, q', htables⟩ := h.tables
  have htabs := allocateTables_spec htables
  have hcounts := h.counts
  simp only [Imports.countsMatch, Bool.and_eq_true, beq_iff_eq] at hcounts
  have hlen : parts.importedTables.length = imports.tables.length := by
    rw [← himports.length_eq, List.length_zipIdx]
  have hmap : (s.newInstance m parts targets).maps.table k =
      (parts.importedTables ++
        List.range' s.pools.tables.length parts.tables.length).getD k usizeMax := rfl
  rw [hmap, List.getD_eq_getElem?_getD]
  by_cases hk : k < imports.tables.length
  · have hit : imports.tables[k]? = some imports.tables[k] := List.getElem?_eq_getElem hk
    have hzip : imports.tables.zipIdx[k]? = some (imports.tables[k], k) := by simp [hit]
    obtain ⟨slot, hslot, hres⟩ := exists_getElem?_of_forall₂ himports hzip
    rw [htt] at hres
    refine .inl ⟨_, hit, ?_⟩
    rw [List.getElem?_append_left (by omega), hslot]
    exact hres
  · obtain ⟨j, rfl⟩ : ∃ j, k = m.importedTableCount + j := ⟨k - m.importedTableCount, by omega⟩
    obtain ⟨tab, htab, fill, rfl⟩ := exists_getElem?_of_forall₂ htabs
      (by rw [List.getElem?_drop]; exact htt)
    have hj := (List.getElem?_eq_some_iff.mp htab).1
    refine .inr ⟨j, fill, htab, ?_⟩
    have hbase : parts.importedTables.length = m.importedTableCount := hlen.trans hcounts.1.2
    rw [List.getElem?_append_right (by omega), hbase, Nat.add_sub_cancel_left,
      List.getElem?_range' hj]
    simp

namespace Store

/-- Recording an instance grows the pools. -/
theorem Committed.grows {s s' : Store} {m : Module} {imports : Imports}
    (h : Committed s m imports s') : s.pools.Grows s'.pools := by
  obtain ⟨parts, p, targets, -, hheap, -, -, hrw⟩ := h.exists_parts
  exact (s.pools.grows_types _).trans
    (hheap.grows.trans ((p.grows_extend parts s.code.length m.tags.length).trans hrw.grows))

/-- An instance of the new store is an old one or the one that joined. -/
theorem Committed.code_cases {s s' : Store} {m : Module} {imports : Imports}
    (h : Committed s m imports s') {i : ℕ} {d : InstanceData} (hd : s'.code[i]? = some d) :
    s.code[i]? = some d ∨ i = s.code.length ∧ ∃ parts targets,
      Prepared s m imports s.pools parts ∧ d = s.newInstance m parts targets ∧
        ∀ {j : ℕ} {t : Table}, parts.tables[j]? = some t →
          ∃ t', s'.pools.tables[s.pools.tables.length + j]? = some t' ∧ t'.shape = t.shape := by
  obtain ⟨parts, p, targets, hparts, hheap, -, hcode, hrw⟩ := h.exists_parts
  rw [hcode] at hd
  by_cases hi : i < s.code.length
  · rw [List.getElem?_append_left hi] at hd
    exact .inl hd
  · rw [List.getElem?_append_right (by omega)] at hd
    obtain ⟨h0, hd⟩ := List.getElem?_eq_some_iff.mp hd
    rw [List.length_singleton] at h0
    refine .inr ⟨by omega, parts, targets, hparts, by simpa using hd.symm, fun {j t} ht => ?_⟩
    refine hrw.getElem?_tables ?_
    rw [Pools.extend, hheap.tables_eq, List.getElem?_append_right (Nat.le_add_right _ _),
      Nat.add_sub_cancel_left, ht]

/-- A new instance finds its tables. -/
theorem TablesLinked.of_committed {s s' : Store} {m : Module} {imports : Imports}
    (h : s.TablesLinked) (hcommit : Committed s m imports s') : s'.TablesLinked := by
  intro i d k tt hd htt
  rcases hcommit.code_cases hd with hd | ⟨-, parts, targets, hparts, rfl, hfresh⟩
  · obtain ⟨t, ht, helem⟩ := h hd htt
    obtain ⟨t', ht', hg⟩ := hcommit.grows.tables ht
    exact ⟨t', ht', hg.element.trans helem⟩
  · rcases hparts.table_cases targets htt with ⟨it, -, hres⟩ | ⟨j, fill, htab, hslot⟩
    · obtain ⟨t, _, ht, ⟨⟩, -, helem⟩ := resolveTable_ok hres
      obtain ⟨t', ht', hg⟩ := hcommit.grows.tables ht
      exact ⟨t', ht', hg.element.trans helem⟩
    · obtain ⟨t', ht', hshape⟩ := hfresh htab
      exact ⟨t', hslot ▸ ht', congrArg Table.element hshape⟩

/-- A step keeps the tables linked. -/
theorem Step.tablesLinked {s s' : Store} (h : Step s s') (hs : s.TablesLinked) :
    s'.TablesLinked := by
  have hgrows := h.extends.pools
  cases h with
  | instantiate m imports hm =>
    rcases instantiate_state m imports s with ⟨hcode, -⟩ | hcommit
    · exact hs.of_grows hcode hgrows
    · exact hs.of_committed hcommit
  | memoryGrow _ _ => exact hs.of_grows rfl hgrows
  | tableGrow _ _ => exact hs.of_grows rfl hgrows
  | rewrite _ => exact hs.of_grows rfl hgrows

/-- In a reachable store every instance finds its tables. -/
theorem Reachable.tablesLinked {s : Store} (h : s.Reachable) : s.TablesLinked := by
  obtain ⟨id, limits, hrun⟩ := h
  induction hrun with
  | refl => intro i d k tt hd; simp [new] at hd
  | tail _ hstep ih => exact hstep.tablesLinked ih

/-! ## Linking a table -/

/-- An import of table `k` of instance `e` links exactly when the limits fit and the element types are
written alike. -/
theorem TablesLinked.resolveTable_ok_iff {s : Store} (h : s.TablesLinked) {ts : TypeSection}
    {e k : ℕ} {de : InstanceData} {tt declared : TableType} {t : Table} (hde : s.code[e]? = some de)
    (htt : de.module.tables[k]? = some tt) (ht : s.pools.tables[de.maps.table k]? = some t) :
    (∃ slot, resolveTable (s.joined s.pools ts) ⟨⟨s.id, e⟩, k⟩ (some declared) = .ok slot) ↔
      TableLimitsMatch t declared ∧ tt.element = declared.element := by
  obtain ⟨t', ht', helem⟩ := h hde htt
  obtain rfl := Option.some.inj (ht.symm.trans ht')
  have hlt := (List.getElem?_eq_some_iff.mp hde).1
  have hslot : (s.joined s.pools ts).slot ⟨s.id, e⟩ = some e := by simp [slot, hlt]
  have htables : (s.joined s.pools ts).pools.tables = s.pools.tables := rfl
  rw [← helem, ← tableImportMatches_iff]
  simp [resolveTable, hslot, hde, htables, ht]

/-- The import is matched on the store-wide element types exactly when a concrete element type keeps
its index, or the limits do not fit anyway. -/
theorem TablesLinked.resolveTable_agrees_iff {s : Store} (h : s.TablesLinked) {ts : TypeSection}
    {e k : ℕ} {de : InstanceData} {tt declared : TableType} {t : Table} (hde : s.code[e]? = some de)
    (htt : de.module.tables[k]? = some tt) (ht : s.pools.tables[de.maps.table k]? = some t) :
    ((∃ slot, resolveTable (s.joined s.pools ts) ⟨⟨s.id, e⟩, k⟩ (some declared) = .ok slot) ↔
        TableLimitsMatch t declared ∧
          tt.element.storeType de.typeIds =
            declared.element.storeType (s.pools.types.assign ts).2) ↔
      (TableLimitsMatch t declared →
        IndexKept de.typeIds tt.element (s.pools.types.assign ts).2 declared.element) := by
  rw [h.resolveTable_ok_iff hde htt ht, ← eq_iff_storeType_eq_iff]
  tauto

end Store

end Wasmrt
