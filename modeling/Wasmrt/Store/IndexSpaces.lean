import Wasmrt.Library.Aliasing
import Wasmrt.Store.Outcome

/-!
# Index spaces

The index maps of an instance mix aliases, which keep the slot of the instance an item is imported
from, with fresh slots. Along every run each entry is in range, and two entries name one slot exactly
when following the imports from both leads to one definition.

An instance does not record what its imports were bound to, so a run is followed together with the
imports handed to each instance.

## Main definitions

* `ItemKind`, `IndexMaps.entries`, `Pools.items`: the index spaces and the pools behind them, by kind.
* `Imports.sources`: where the leading entries of an index space come from.
* `History`, `History.Step`: a store with the imports of its instances.
* `History.Linked`: what holds of every reachable one.

## Main results

* `History.Step.linked`: a step keeps index spaces linked.
* `indexSpaces_linked`: entries are in range, and share a slot iff they share a definition.
-/

namespace Wasmrt

open MonadExcept (ofExcept)

/-! ## Items -/

/-- The kinds of items that have slots in the pools. -/
inductive ItemKind
  | memory | table | global | tag | data | elem
  deriving DecidableEq, Repr

/-- What a slot of the kind holds. A data segment has no content but its dropped flag. -/
abbrev ItemKind.Content : ItemKind → Type
  | memory => Memory
  | table => Table
  | global => Value
  | tag => ℕ
  | data => Bool
  | elem => List Value

/-- The index space of a kind: slots, by module-level index. -/
def IndexMaps.entries (maps : IndexMaps) : ItemKind → List ℕ
  | .memory => maps.memories
  | .table => maps.tables
  | .global => maps.globals
  | .tag => maps.tags
  | .data => maps.data
  | .elem => maps.elems

namespace Pools

/-- The pool of a kind. -/
def items (p : Pools) : (kind : ItemKind) → List kind.Content
  | .memory => p.memories
  | .table => p.tables
  | .global => p.globals
  | .tag => p.tags
  | .data => p.dataDropped
  | .elem => p.elemValues

/-- Write one slot. -/
def setItem (p : Pools) : (kind : ItemKind) → ℕ → kind.Content → Pools
  | .memory, slot, v => { p with memories := p.memories.set slot v }
  | .table, slot, v => { p with tables := p.tables.set slot v }
  | .global, slot, v => { p with globals := p.globals.set slot v }
  | .tag, slot, v => { p with tags := p.tags.set slot v }
  | .data, slot, v => { p with dataDropped := p.dataDropped.set slot v }
  | .elem, slot, v => { p with elemValues := p.elemValues.set slot v }

theorem items_setItem (p : Pools) (kind : ItemKind) (slot : ℕ) (v : kind.Content) :
    (p.setItem kind slot v).items kind = (p.items kind).set slot v := by
  cases kind <;> rfl

/-- Every pool fits the host: a vector has fewer entries than there are host sizes. -/
def FitsHost (p : Pools) : Prop := ∀ kind, (p.items kind).length ≤ usizeMax

end Pools

/-- The backings of the imports of a kind, in declaration order. A host-supplied global has none. Data
and element segments are never imported. -/
def Imports.sources (imports : Imports) : ItemKind → List (Option ExternImport)
  | .memory => imports.memories.map some
  | .table => imports.tables.map some
  | .global => imports.globalSources
  | .tag => imports.tags.map some
  | .data | .elem => []

/-! ## Sizes of the pools -/

/-- The pools have the same sizes. -/
def Pools.SameSizes (p p' : Pools) : Prop :=
  (∀ kind, (p'.items kind).length = (p.items kind).length) ∧
    p'.elemDropped.length = p.elemDropped.length

namespace Pools

variable {p p' : Pools}

theorem Rewrites.sameSizes (h : p.Rewrites p') : p.SameSizes p' := by
  refine ⟨fun kind => ?_, h.elemDropped⟩
  cases kind with
  | memory =>
    have := congrArg List.length h.memories
    rwa [List.length_map, List.length_map] at this
  | table =>
    have := congrArg List.length h.tables
    rwa [List.length_map, List.length_map] at this
  | global => exact h.globals
  | tag => exact congrArg List.length h.tags
  | data => exact h.dataDropped
  | elem => exact h.elemValues

theorem HeapGrows.sameSizes (h : p.HeapGrows p') : p.SameSizes p' := by
  obtain ⟨objs, rfl⟩ := h
  exact ⟨fun kind => by cases kind <;> rfl, rfl⟩

theorem sameSizes_types (p : Pools) (reg : TypeRegistry) : p.SameSizes { p with types := reg } :=
  ⟨fun kind => by cases kind <;> rfl, rfl⟩

theorem SameSizes.refl (p : Pools) : p.SameSizes p := ⟨fun _ => rfl, rfl⟩

theorem SameSizes.trans {q : Pools} (h : p.SameSizes p') (h' : p'.SameSizes q) : p.SameSizes q :=
  ⟨fun kind => (h'.1 kind).trans (h.1 kind), h'.2.trans h.2⟩

end Pools

/-- A step that adds no instance keeps the sizes of the pools. -/
theorem Store.Step.sameSizes {s s' : Store} (h : s.Step s') (hcode : s'.code = s.code) :
    s.pools.SameSizes s'.pools := by
  cases h with
  | instantiate m imports _ =>
    rcases instantiate_error_or_committed m imports s with ⟨e, p, hprep, heq⟩ | hcommit
    · have hstate := prepare_state s m imports s.pools
      rw [hprep, EStateM.Result.state_error] at hstate
      rw [heq, EStateM.Result.state_error]
      rcases hstate with rfl | hgrows
      · exact .refl _
      · exact (Pools.sameSizes_types _ _).trans hgrows.sameSizes
    · -- there is one more instance
      obtain ⟨parts, p, targets, -, -, -, hadded, -⟩ := hcommit.exists_parts
      have := congrArg List.length (hadded.symm.trans hcode)
      simp at this
  | memoryGrow _ h =>
    rcases Pools.memoryGrow_cases h with rfl | ⟨_, _, _, _, rfl⟩
    · exact .refl _
    · exact ⟨fun kind => by cases kind <;> simp [Pools.items], rfl⟩
  | tableGrow _ h =>
    rcases Pools.tableGrow_cases h with rfl | ⟨_, _, _, _, rfl⟩
    · exact .refl _
    · exact ⟨fun kind => by cases kind <;> simp [Pools.items], rfl⟩
  | rewrite h => exact h.sameSizes

/-! ## Resolving imports -/

namespace Store

/-- The import `x` of a kind resolves to a slot: the entry its exporter has at that index. -/
def Resolves (s : Store) (kind : ItemKind) (x : ExternImport) (slot : ℕ) : Prop :=
  ∃ e d, s.slot x.inst = some e ∧ s.code[e]? = some d ∧ (d.maps.entries kind)[x.index]? = some slot

end Store

theorem resolves_joined {s : Store} {p : Pools} {ts : TypeSection} {kind : ItemKind}
    {x : ExternImport} {slot : ℕ} :
    (s.joined p ts).Resolves kind x slot ↔ s.Resolves kind x slot := Iff.rfl

/-- An index that does not resolve yields the slot no pool has. -/
theorem getElem?_of_get_lt {map : List ℕ} {i n : ℕ} (h : IndexMaps.get map i < n)
    (hn : n ≤ usizeMax) : map[i]? = some (IndexMaps.get map i) := by
  unfold IndexMaps.get at h ⊢
  rw [List.getD_eq_getElem?_getD] at h ⊢
  cases hi : map[i]? with
  | some c => rfl
  | none =>
    rw [hi, Option.getD_none] at h
    omega

section Resolve

variable {s : Store} {x : ExternImport} {slot : ℕ}

theorem resolves_of_memory (hfit : s.pools.FitsHost) {declared : Option MemoryType}
    (h : resolveMemory s x declared = .ok slot) : s.Resolves .memory x slot := by
  simp only [resolveMemory, Except.bind_eq_ok, orError_eq_ok, Except.pure_eq_ok] at h
  obtain ⟨actual, hactual, -, -, -, -, rfl⟩ := h
  have hlt := (List.getElem?_eq_some_iff.mp hactual).1
  have hn : s.pools.memories.length ≤ usizeMax := hfit .memory
  cases he : s.slot x.inst with
  | none => rw [he] at hlt; simp only [Option.elim_none] at hlt; omega
  | some e =>
    cases hd : s.code[e]? with
    | none => rw [he] at hlt; simp only [Option.elim_some, hd, Option.elim_none] at hlt; omega
    | some d =>
      simp only [he, hd, Option.elim_some] at hlt ⊢
      exact ⟨e, d, he, hd, getElem?_of_get_lt hlt hn⟩

theorem resolves_of_table (hfit : s.pools.FitsHost) {declared : Option TableType}
    (h : resolveTable s x declared = .ok slot) : s.Resolves .table x slot := by
  simp only [resolveTable, Except.bind_eq_ok, orError_eq_ok, Except.pure_eq_ok] at h
  obtain ⟨actual, hactual, -, -, -, -, rfl⟩ := h
  have hlt := (List.getElem?_eq_some_iff.mp hactual).1
  have hn : s.pools.tables.length ≤ usizeMax := hfit .table
  cases he : s.slot x.inst with
  | none => rw [he] at hlt; simp only [Option.elim_none] at hlt; omega
  | some e =>
    cases hd : s.code[e]? with
    | none => rw [he] at hlt; simp only [Option.elim_some, hd, Option.elim_none] at hlt; omega
    | some d =>
      simp only [he, hd, Option.elim_some] at hlt ⊢
      exact ⟨e, d, he, hd, getElem?_of_get_lt hlt hn⟩

theorem resolves_of_global (hfit : s.pools.FitsHost) (h : resolveGlobal s (some x) = .ok slot) :
    s.Resolves .global x slot ∧ slot < s.pools.globals.length := by
  simp only [resolveGlobal, Except.bind_eq_ok, orError_eq_ok, ensure_eq_ok, Except.pure_eq_ok,
    decide_eq_true_eq] at h
  obtain ⟨e, he, d, hd, -, hlt, rfl⟩ := h
  exact ⟨⟨e, d, he, hd, getElem?_of_get_lt hlt (hfit .global)⟩, hlt⟩

/-- A tag resolves when the exporter has an entry for each of its tags. -/
theorem resolves_of_tag {typeIds : List ℕ} {m : Module} {declared : ℕ}
    (hspace : ∀ {e : ℕ} {d : InstanceData}, s.code[e]? = some d →
      d.maps.tags.length = d.module.importedTagCount + d.module.tags.length)
    (h : resolveTag s typeIds m declared x = .ok slot) : s.Resolves .tag x slot := by
  simp only [resolveTag, Except.bind_eq_ok, orError_eq_ok, Except.pure_eq_ok] at h
  obtain ⟨e, he, want, -, d, hd, got, hgot, -, -, rfl⟩ := h
  refine ⟨e, d, he, hd, ?_⟩
  have hlt : x.index < d.maps.tags.length := by
    rw [hspace hd]
    obtain ⟨ti, hti, -⟩ := Option.bind_eq_some_iff.mp hgot
    unfold Module.tagTypeIndex at hti
    split at hti
    · next i hi =>
      have := (List.getElem?_eq_some_iff.mp hi).1
      rw [Module.tagImports, ← List.countP_eq_length_filter] at this
      exact Nat.lt_add_right _ this
    · next hi =>
      have := (List.getElem?_eq_some_iff.mp hti).1
      omega
  show d.maps.tags[x.index]? = some (IndexMaps.get d.maps.tags x.index)
  rw [IndexMaps.get, List.getD_eq_getElem?_getD, List.getElem?_eq_getElem hlt, Option.getD_some]

end Resolve

/-! ## The index spaces of a new instance -/

/-- The entries of an index space line up with the sources of the imports: an imported entry has the
slot its import resolves to, and the other entries have distinct slots in `[size, size')`. -/
structure Linkage (s : Store) (kind : ItemKind) (sources : List (Option ExternImport))
    (entries : List ℕ) (size size' : ℕ) : Prop where
  imported : ∀ ⦃k : ℕ⦄ ⦃x : ExternImport⦄, sources[k]? = some (some x) →
    ∃ slot, entries[k]? = some slot ∧ s.Resolves kind x slot
  own_bounds : ∀ ⦃k c : ℕ⦄, (sources[k]?).join = none → entries[k]? = some c → size ≤ c ∧ c < size'
  own_inj : ∀ ⦃k k' c : ℕ⦄, (sources[k]?).join = none → (sources[k']?).join = none →
    entries[k]? = some c → entries[k']? = some c → k = k'

/-- What stands past a prefix. -/
private theorem getElem?_append_past {α : Type*} {l l' : List α} {k : ℕ} {a : α}
    (hk : l.length ≤ k) (h : (l ++ l')[k]? = some a) : l'[k - l.length]? = some a := by
  rwa [List.getElem?_append_right hk] at h

/-- An entry of a stretch of fresh slots. -/
private theorem getElem?_range'_some {start n k c : ℕ} (h : (List.range' start n)[k]? = some c) :
    k < n ∧ c = start + k := by
  obtain ⟨hlt, hc⟩ := List.getElem?_eq_some_iff.mp h
  rw [List.length_range'] at hlt
  rw [List.getElem_range', Nat.one_mul] at hc
  exact ⟨hlt, hc.symm⟩

/-- Resolved imports followed by fresh slots. -/
theorem linkage_append {s : Store} {kind : ItemKind} {l : List ExternImport} {slots : List ℕ}
    (h : List.Forall₂ (s.Resolves kind) l slots) (size n : ℕ) :
    Linkage s kind (l.map some) (slots ++ List.range' size n) size (size + n) := by
  have hlen := h.length_eq
  -- an entry without a source lies beyond the imports
  have hown : ∀ {k c : ℕ}, ((l.map some)[k]?).join = none →
      (slots ++ List.range' size n)[k]? = some c →
        slots.length ≤ k ∧ k - slots.length < n ∧ c = size + (k - slots.length) := by
    intro k c hnone hc
    have hk : slots.length ≤ k := by
      by_contra hlt
      have hx : l[k]? = some (l.get ⟨k, by omega⟩) := by
        rw [List.getElem?_eq_getElem (by omega), List.get_eq_getElem]
      simp [hx] at hnone
    exact ⟨hk, getElem?_range'_some (getElem?_append_past hk hc)⟩
  refine ⟨fun k x hx => ?_, fun k c hnone hc => ?_, fun k k' c hk hk' hc hc' => ?_⟩
  · rw [List.getElem?_map, Option.map_eq_some_iff] at hx
    obtain ⟨y, hy, hxy⟩ := hx
    obtain rfl := Option.some.inj hxy
    obtain ⟨slot, hslot, hres⟩ := exists_getElem?_of_forall₂ h hy
    refine ⟨slot, ?_, hres⟩
    rw [List.getElem?_append_left (List.getElem?_eq_some_iff.mp hslot).1, hslot]
  · obtain ⟨-, hlt, rfl⟩ := hown hnone hc
    omega
  · obtain ⟨hle, -, rfl⟩ := hown hk hc
    obtain ⟨hle', -, heq⟩ := hown hk' hc'
    omega

/-! ## Host-supplied globals -/

/-- A host-supplied global takes the next free slot, a shared one keeps its slot. -/
theorem getElem?_numberHostGlobals (next : ℕ) (slots : List ℕ) (k : ℕ) :
    (numberHostGlobals next slots)[k]? = (slots[k]?).map fun slot =>
      if slot = usizeMax then next + (slots.take k).count usizeMax else slot := by
  induction slots generalizing next k with
  | nil => simp [numberHostGlobals]
  | cons slot slots ih =>
    unfold numberHostGlobals
    cases k with
    | zero => by_cases h : slot = usizeMax <;> simp [h]
    | succ k =>
      by_cases h : slot = usizeMax
      · simp only [h, if_true, List.getElem?_cons_succ, ih, List.take_succ_cons, List.count_cons_self]
        congr 1
        funext x
        split <;> omega
      · simp only [h, if_false, List.getElem?_cons_succ, ih, List.take_succ_cons,
          List.count_cons_of_ne h]

theorem length_numberHostGlobals (next : ℕ) (slots : List ℕ) :
    (numberHostGlobals next slots).length = slots.length := by
  induction slots generalizing next with
  | nil => rfl
  | cons slot slots ih =>
    unfold numberHostGlobals
    split <;> simp [ih]

/-- An entry is counted between its position and a later one. -/
private theorem count_take_lt {α : Type*} [BEq α] [LawfulBEq α] {l : List α} {a : α} {k n : ℕ}
    (hk : l[k]? = some a) (hn : k < n) : (l.take k).count a < (l.take n).count a := by
  have hstep : (l.take (k + 1)).count a = (l.take k).count a + 1 := by
    rw [List.take_add_one, hk, Option.toList_some, List.count_append, List.count_singleton_self]
  have hmono : (l.take (k + 1)).count a ≤ (l.take n).count a :=
    (List.take_prefix_take_left (by omega)).count_le a
  omega

/-- Imported globals followed by the defined ones; those the host supplies come after both in the
pool. -/
theorem linkage_globals {s : Store} {sources : List (Option ExternImport)} {slots : List ℕ}
    (h : List.Forall₂ (fun x slot => x.elim (slot = usizeMax)
      fun x => s.Resolves .global x slot ∧ slot ≠ usizeMax) sources slots) (size n : ℕ) :
    Linkage s .global sources (numberHostGlobals (size + n) slots ++ List.range' size n) size
      (size + n + slots.count usizeMax) := by
  have hlen := h.length_eq
  have hlenNum := length_numberHostGlobals (size + n) slots
  -- an entry without a source is a global of the host, or a defined one
  have hown : ∀ {k c : ℕ}, (sources[k]?).join = none →
      (numberHostGlobals (size + n) slots ++ List.range' size n)[k]? = some c →
        (slots[k]? = some usizeMax ∧ c = size + n + (slots.take k).count usizeMax) ∨
        (slots.length ≤ k ∧ k - slots.length < n ∧ c = size + (k - slots.length)) := by
    intro k c hnone hc
    rcases Nat.lt_or_ge k slots.length with hlt | hle
    · left
      obtain ⟨source, hsource⟩ : ∃ source, sources[k]? = some source :=
        ⟨_, List.getElem?_eq_getElem (by omega)⟩
      obtain rfl : source = none := by simpa [hsource] using hnone
      obtain ⟨slot, hslot, rfl⟩ := exists_getElem?_of_forall₂ h hsource
      rw [List.getElem?_append_left (by omega), getElem?_numberHostGlobals, hslot] at hc
      exact ⟨hslot, by simpa using hc.symm⟩
    · right
      rw [← hlenNum] at hle ⊢
      exact ⟨hle, getElem?_range'_some (getElem?_append_past hle hc)⟩
  have hcount : ∀ {k : ℕ}, slots[k]? = some usizeMax →
      (slots.take k).count usizeMax < slots.count usizeMax := by
    intro k hk
    have hlt := (List.getElem?_eq_some_iff.mp hk).1
    simpa using count_take_lt hk hlt
  refine ⟨fun k x hx => ?_, fun k c hnone hc => ?_, fun k k' c hk hk' hc hc' => ?_⟩
  · obtain ⟨slot, hslot, hres, hne⟩ := exists_getElem?_of_forall₂ h hx
    refine ⟨slot, ?_, hres⟩
    have hlt := (List.getElem?_eq_some_iff.mp hslot).1
    rw [List.getElem?_append_left (by omega), getElem?_numberHostGlobals, hslot, Option.map_some,
      if_neg hne]
  · rcases hown hnone hc with ⟨hslot, rfl⟩ | ⟨-, hlt, rfl⟩
    · have := hcount hslot
      omega
    · omega
  · rcases hown hk hc with ⟨hslot, hc⟩ | ⟨hle, hlt, hc⟩ <;>
      rcases hown hk' hc' with ⟨hslot', hc'⟩ | ⟨hle', hlt', hc'⟩
    · by_contra hne
      rcases Nat.lt_or_gt_of_ne hne with hlt | hlt
      · have := count_take_lt hslot hlt
        omega
      · have := count_take_lt hslot' hlt
        omega
    · omega
    · omega
    · omega

/-! ## Preparing the index spaces -/

/-- What a prepared instance has of its imported globals and tags, and of its element segments. -/
structure Resolved (s : Store) (m : Module) (imports : Imports) (parts : Parts) : Prop where
  importedGlobals : imports.globalSources.mapM (resolveGlobal
    (s.joined s.pools m.toTypeSection)) = .ok parts.importedGlobals
  hostGlobals : hostGlobals imports = .ok parts.hostGlobals
  importedTags : imports.tags.zipIdx.mapM (fun e => resolveTag (s.joined s.pools m.toTypeSection)
    parts.typeIds m e.2 e.1) = .ok parts.importedTags
  elems : parts.elemDropped.length = parts.elemValues.length

/-- Evaluating the element segments yields one list of values for each. -/
theorem length_evalElements {m : Module} {inst : ℕ} {globals : List Value} {p p' : Pools}
    {values : List (List Value)} {active : List ActiveSegment}
    (h : evalElements m inst globals p = .ok (values, active) p') :
    values.length = m.elements.length := by
  have hcount := estate_foldlM_count (μ := fun acc => acc.1.length) ?_ h
  · simpa using hcount
  · rintro acc elem acc' q q' hone
    obtain ⟨vals, q₁, -, hone⟩ := estate_bind_eq_ok.mp hone
    split at hone
    · obtain ⟨offset, q₂, -, hone⟩ := estate_bind_eq_ok.mp hone
      obtain ⟨rfl, -⟩ := estate_pure_eq_ok.mp hone
      simp
    · obtain ⟨rfl, -⟩ := estate_pure_eq_ok.mp hone
      simp

theorem resolved_of_prepare {s : Store} {m : Module} {imports : Imports} {p' : Pools}
    {parts : Parts} (h : prepare s m imports s.pools = .ok parts p') :
    Resolved s m imports parts := by
  obtain ⟨stages⟩ := prepare_stages h
  have helems : parts.elemDropped.length = parts.elemValues.length := by
    rw [stages.elemDropped, List.length_map, length_evalElements stages.elements]
  exact ⟨stages.importedGlobals, stages.hostGlobals, stages.importedTags, helems⟩

/-- A list of checked imports, each paired with its position. -/
private theorem forall₂_of_zipIdx {R : ExternImport → ℕ → Prop} {l : List ExternImport}
    {slots : List ℕ} {n : ℕ} {f : ExternImport × ℕ → Except Trap ℕ}
    (h : (l.zipIdx n).mapM f = .ok slots) (hf : ∀ {x : ExternImport × ℕ} {slot : ℕ},
      f x = .ok slot → R x.1 slot) : List.Forall₂ R l slots := by
  have hrel := (mapM_eq_ok.mp h).imp fun _ _ => hf
  have := List.forall₂_map_left_iff (f := Prod.fst) (R := R) |>.mpr hrel
  rwa [List.zipIdx_map_fst] at this

/-- The host supplies one value for each import it marks. -/
theorem length_hostGlobals {imports : Imports} {vals : List Value}
    (h : hostGlobals imports = .ok vals) :
    vals.length = imports.globalSources.countP Option.isNone := by
  have hlen := (mapM_eq_ok.mp h).length_eq
  rw [← hlen, ← List.countP_eq_length_filter]
  conv_rhs => rw [← List.zipIdx_map_fst 0 imports.globalSources, List.countP_map]
  rfl

variable {s : Store} {m : Module} {imports : Imports} {parts : Parts}

/-- How many slots of a kind an instance adds. -/
def Parts.added (parts : Parts) (definedTags : ℕ) : ItemKind → ℕ
  | .memory => parts.memories.length
  | .table => parts.tables.length
  | .global => parts.definedGlobals.length + parts.hostGlobals.length
  | .tag => definedTags
  | .data => parts.dataDropped.length
  | .elem => parts.elemValues.length

theorem length_items_extend (p : Pools) (parts : Parts) (inst definedTags : ℕ) (kind : ItemKind) :
    ((p.extend parts inst definedTags).items kind).length =
      (p.items kind).length + parts.added definedTags kind := by
  cases kind <;> simp [Pools.items, Pools.extend, Parts.added]

/-- Every index space of a new instance lines up with its imports, whatever the kind. -/
theorem linkage_maps (hprep : Prepared s m imports s.pools parts)
    (hres : Resolved s m imports parts) (hfit : s.pools.FitsHost)
    (hspace : ∀ {e : ℕ} {d : InstanceData}, s.code[e]? = some d →
      d.maps.tags.length = d.module.importedTagCount + d.module.tags.length) (kind : ItemKind) :
    Linkage s kind (imports.sources kind) ((parts.maps s.pools m.tags.length).entries kind)
      (s.pools.items kind).length ((s.pools.items kind).length + parts.added m.tags.length kind) := by
  cases kind with
  | memory =>
    have hslots := forall₂_of_zipIdx hprep.importedMems fun h => resolves_joined.mp
      (resolves_of_memory (s := s.joined s.pools m.toTypeSection) hfit h)
    exact linkage_append hslots _ _
  | table =>
    have hslots := forall₂_of_zipIdx hprep.importedTables fun h => resolves_joined.mp
      (resolves_of_table (s := s.joined s.pools m.toTypeSection) hfit h)
    exact linkage_append hslots _ _
  | global =>
    have hfitGlobals : s.pools.globals.length ≤ usizeMax := hfit .global
    have hslots : List.Forall₂ (fun x slot => x.elim (slot = usizeMax)
        fun x => s.Resolves .global x slot ∧ slot ≠ usizeMax)
        imports.globalSources parts.importedGlobals := by
      refine (mapM_eq_ok.mp hres.importedGlobals).imp fun source slot h => ?_
      cases source with
      | none => exact (Except.pure_eq_ok.mp h).symm
      | some x =>
        obtain ⟨hresolves, hlt⟩ :=
          resolves_of_global (s := s.joined s.pools m.toTypeSection) hfit h
        have hlt : slot < s.pools.globals.length := hlt
        exact ⟨resolves_joined.mp hresolves, by omega⟩
    -- a marked import is one the host supplies
    have hcount : parts.hostGlobals.length = parts.importedGlobals.count usizeMax := by
      rw [length_hostGlobals hres.hostGlobals, List.count]
      generalize imports.globalSources = sources at hslots
      generalize parts.importedGlobals = slots at hslots
      induction hslots with
      | nil => rfl
      | @cons source slot _ _ hone _ ih =>
        rw [List.countP_cons, List.countP_cons, ih]
        cases source with
        | none => simp [show slot = usizeMax from hone]
        | some x => simp [hone.2]
    have hlink := linkage_globals hslots s.pools.globals.length parts.definedGlobals.length
    rwa [← hcount, Nat.add_assoc] at hlink
  | tag =>
    have hslots := forall₂_of_zipIdx hres.importedTags fun h => resolves_joined.mp
      (resolves_of_tag (s := s.joined s.pools m.toTypeSection) hspace h)
    exact linkage_append hslots _ _
  | data => exact linkage_append (l := []) .nil _ _
  | elem => exact linkage_append (l := []) .nil _ _

/-! ## Histories -/

/-- A store with the imports each of its instances joined with. -/
structure History where
  store : Store
  imports : List Imports

namespace History

/-- Where entry `k` of an index space of instance `i` is imported from. -/
def source (h : History) (kind : ItemKind) (i k : ℕ) : Option (ℕ × ℕ) :=
  (h.imports[i]?).bind fun imports =>
    ((imports.sources kind)[k]?).join.map fun x => (x.inst.index, x.index)

/-- The slot entry `k` of an index space of instance `i` names. -/
def slot (h : History) (kind : ItemKind) (i k : ℕ) : Option ℕ :=
  (h.store.code[i]?).bind fun d => (d.maps.entries kind)[k]?

/-- One step: an instance joins, even if writing its segments then fails, or the instances stay as they
are. -/
inductive Step : History → History → Prop
  | join {h : History} (m : Module) (imports : Imports) (hm : m.toTypeSection.WellFormed)
    (hjoin : h.store.code.length < (Store.instantiate m imports h.store).state.code.length) :
    Step h ⟨(Store.instantiate m imports h.store).state, h.imports ++ [imports]⟩
  | other {h : History} {s : Store} (hstep : h.store.Step s) (hcode : s.code = h.store.code) :
    Step h ⟨s, h.imports⟩

/-- A history some run has. -/
def Reachable (h : History) : Prop :=
  ∃ id limits, Relation.ReflTransGen Step ⟨Store.new id limits, []⟩ h

/-- The instances are accounted for, index spaces are in range, and aliases share slots. -/
structure Linked (h : History) : Prop where
  length : h.imports.length = h.store.code.length
  tagSpace : ∀ {i : ℕ} {d : InstanceData}, h.store.code[i]? = some d →
    d.maps.tags.length = d.module.importedTagCount + d.module.tags.length
  elemFlags : h.store.pools.elemDropped.length = h.store.pools.elemValues.length
  inRange : ∀ {kind : ItemKind} {i k c : ℕ}, h.slot kind i k = some c →
    c < (h.store.pools.items kind).length
  aliases : ∀ kind, AliasTable (h.source kind) (h.slot kind)

theorem linked_new (id : ℕ) (limits : ResourceLimits) : Linked ⟨Store.new id limits, []⟩ where
  length := rfl
  tagSpace h := by simp [Store.new] at h
  elemFlags := rfl
  inRange h := by simp [slot, Store.new] at h
  aliases kind := by
    refine ⟨fun i k e j h => ?_, fun i k e j h => ?_, fun i k i' k' c _ _ h => ?_⟩
    · simp [source] at h
    · simp [source] at h
    · simp [slot, Store.new] at h

/-! ## Joining -/

/-- Appending one entry changes no other place. -/
private theorem getElem?_append_one_of_ne {α : Type*} {l : List α} {a : α} {i : ℕ}
    (hi : i ≠ l.length) : (l ++ [a])[i]? = l[i]? := by
  rcases Nat.lt_or_gt_of_ne hi with hlt | hgt
  · exact List.getElem?_append_left hlt
  · rw [List.getElem?_append_right hgt.le, List.getElem?_eq_none (by simp; omega),
      List.getElem?_eq_none hgt.le]

/-- An instance that joins: its parts were prepared, its resources took fresh slots, and what follows
rewrites contents. -/
theorem exists_parts_of_join {s : Store} {m : Module} {imports : Imports}
    (hjoin : s.code.length < (Store.instantiate m imports s).state.code.length) :
    ∃ parts p targets, Prepared s m imports s.pools parts ∧ Resolved s m imports parts ∧
      s.pools.SameSizes p ∧
      (Store.instantiate m imports s).state.code = s.code ++ [s.newInstance m parts targets] ∧
      (p.extend parts s.code.length m.tags.length).SameSizes
        (Store.instantiate m imports s).state.pools := by
  rcases Store.instantiate_cases m imports s with ⟨e, p, -, heq⟩ |
    ⟨parts, p, targets, hprep, hparts, -, heq⟩
  · rw [heq, EStateM.Result.state_error] at hjoin
    exact absurd hjoin (Nat.lt_irrefl _)
  · refine ⟨parts, p, targets, hparts, resolved_of_prepare hprep, ?_, ?_⟩
    · exact (Pools.sameSizes_types _ _).trans (prepare_ok hprep).2.sameSizes
    · -- writing the segments keeps the instances and the sizes
      obtain ⟨-, hcode, hrw⟩ := (Keeps.bind
        (fun _ _ _ h h' => ⟨h'.1.trans h.1, h'.2.1.trans h.2.1, h.2.2.trans h'.2.2⟩)
        (Store.keeps_writeSegments m parts (parts.maps s.pools m.tags.length)) fun _ =>
          Keeps.pure (fun _ => ⟨rfl, rfl, Pools.Rewrites.refl _⟩) (⟨s.id, s.code.length⟩ : InstanceId))
        (s.commit m parts p targets)
      rw [heq]
      exact ⟨hcode, hrw.sameSizes⟩

section Join

variable {h : History} {s' : Store} {m : Module} {imports : Imports} {parts : Parts} {p : Pools}
  {targets : List FuncTarget}

/-- The index spaces of the instances that were there are untouched. -/
theorem slot_join_of_ne (hcode : s'.code = h.store.code ++ [h.store.newInstance m parts targets])
    (l : List Imports) {kind : ItemKind} {i : ℕ} (hi : i ≠ h.store.code.length) :
    slot ⟨s', l⟩ kind i = h.slot kind i := by
  funext k
  rw [slot, slot, hcode, getElem?_append_one_of_ne hi]

theorem slot_join_self (hcode : s'.code = h.store.code ++ [h.store.newInstance m parts targets])
    (l : List Imports) (kind : ItemKind) (k : ℕ) : slot ⟨s', l⟩ kind h.store.code.length k =
      ((parts.maps h.store.pools m.tags.length).entries kind)[k]? := by
  rw [slot, hcode, List.getElem?_append_right le_rfl, Nat.sub_self, List.getElem?_cons_zero]
  rfl

theorem source_join_of_ne (hlength : h.imports.length = h.store.code.length) (s' : Store)
    (imports : Imports) {kind : ItemKind} {i : ℕ} (hi : i ≠ h.store.code.length) :
    source ⟨s', h.imports ++ [imports]⟩ kind i = h.source kind i := by
  funext k
  rw [source, source, getElem?_append_one_of_ne (hlength ▸ hi)]

theorem source_join_self (hlength : h.imports.length = h.store.code.length) (s' : Store)
    (imports : Imports) (kind : ItemKind) (k : ℕ) :
    source ⟨s', h.imports ++ [imports]⟩ kind h.store.code.length k =
      ((imports.sources kind)[k]?).join.map fun x => (x.inst.index, x.index) := by
  rw [source, ← hlength, List.getElem?_append_right le_rfl, Nat.sub_self, List.getElem?_cons_zero,
    Option.bind_some]

/-- The aliases of the new instance point into the table, and its other slots are fresh. -/
theorem Linked.aliases_join (hl : h.Linked)
    (hcode : s'.code = h.store.code ++ [h.store.newInstance m parts targets]) {kind : ItemKind}
    (hlink : Linkage h.store kind (imports.sources kind)
      ((parts.maps h.store.pools m.tags.length).entries kind) (h.store.pools.items kind).length
      ((h.store.pools.items kind).length + parts.added m.tags.length kind)) :
    AliasTable (source ⟨s', h.imports ++ [imports]⟩ kind) (slot ⟨s', h.imports ++ [imports]⟩ kind) := by
  -- a source of the new instance is an import that resolved
  have hnone : ∀ {k : ℕ}, source ⟨s', h.imports ++ [imports]⟩ kind h.store.code.length k = none →
      ((imports.sources kind)[k]?).join = none := by
    intro k hk
    rwa [source_join_self hl.length, Option.map_eq_none_iff] at hk
  refine (hl.aliases kind).join h.store.code.length (h.store.pools.items kind).length (fun i hi => source_join_of_ne hl.length _ _ hi)
    (fun i hi => slot_join_of_ne hcode _ hi) (fun i k c _ hc => hl.inRange hc)
    (fun k e j hs => ?_) (fun k c hs hc => ?_) (fun k k' c hs hs' hc hc' => ?_)
    (fun i k e j hi hs => ?_)
  · rw [source_join_self hl.length, Option.map_eq_some_iff] at hs
    obtain ⟨x, hx, heq⟩ := hs
    obtain ⟨rfl, rfl⟩ := Prod.mk.inj heq
    rw [Option.join_eq_some_iff] at hx
    obtain ⟨slot, hslot, e, d, he, hd, hentry⟩ := hlink.imported hx
    simp only [Store.slot, Option.ite_none_right_eq_some, Option.some.injEq] at he
    obtain ⟨⟨-, hlt⟩, rfl⟩ := he
    refine ⟨hlt, ?_⟩
    rw [slot_join_self hcode, hslot, History.slot, hd, Option.bind_some, hentry]
  · rw [slot_join_self hcode] at hc
    exact (hlink.own_bounds (hnone hs) hc).1
  · rw [slot_join_self hcode] at hc hc'
    exact hlink.own_inj (hnone hs) (hnone hs') hc hc'
  · -- sources point to earlier instances
    have hlt := (hl.aliases kind).source_lt hs
    simp only [source, Option.bind_eq_some_iff] at hs
    obtain ⟨_, hi', -⟩ := hs
    have := (List.getElem?_eq_some_iff.mp hi').1
    have := hl.length
    omega

/-- Every entry of the new instance is in range: an alias by what it points to, and a fresh slot
because the pool has grown by as many. -/
theorem Linked.inRange_join (hl : h.Linked) {kind : ItemKind}
    (hlink : Linkage h.store kind (imports.sources kind)
      ((parts.maps h.store.pools m.tags.length).entries kind) (h.store.pools.items kind).length
      ((h.store.pools.items kind).length + parts.added m.tags.length kind)) {k c : ℕ}
    (hc : ((parts.maps h.store.pools m.tags.length).entries kind)[k]? = some c) :
    c < (h.store.pools.items kind).length + parts.added m.tags.length kind := by
  cases hs : ((imports.sources kind)[k]?).join with
  | none => exact (hlink.own_bounds hs hc).2
  | some x =>
    rw [Option.join_eq_some_iff] at hs
    obtain ⟨slot, hslot, e, d, -, hd, hentry⟩ := hlink.imported hs
    obtain rfl := Option.some.inj (hslot.symm.trans hc)
    have hold : h.slot kind e x.index = some slot := by rw [History.slot, hd, Option.bind_some, hentry]
    exact Nat.lt_add_right _ (hl.inRange hold)

end Join

/-! ## Runs -/

/-- No pool shrinks. -/
theorem Step.length_items_le {h h' : History} (hstep : Step h h') (kind : ItemKind) :
    (h.store.pools.items kind).length ≤ (h'.store.pools.items kind).length := by
  cases hstep with
  | join m imports _ hjoin =>
    obtain ⟨parts, p, targets, -, -, hsize, -, hsize'⟩ := exists_parts_of_join hjoin
    show _ ≤ ((Store.instantiate m imports h.store).state.pools.items kind).length
    rw [hsize'.1 kind, length_items_extend, hsize.1 kind]
    exact Nat.le_add_right _ _
  | other hstep hcode => exact ((hstep.sameSizes hcode).1 kind).ge

theorem Step.fitsHost {h h' : History} (hstep : Step h h') (hfit : h'.store.pools.FitsHost) :
    h.store.pools.FitsHost := fun kind => (hstep.length_items_le kind).trans (hfit kind)

/-- A step keeps index spaces linked. -/
theorem Step.linked {h h' : History} (hstep : Step h h') (hfit : h.store.pools.FitsHost)
    (hl : h.Linked) : h'.Linked := by
  cases hstep with
  | other hstep hcode =>
    have hsize := hstep.sameSizes hcode
    rename_i s
    have hslot : slot ⟨s, h.imports⟩ = h.slot := by
      funext kind i k
      rw [slot, slot, hcode]
    refine ⟨?_, fun {i d} hd => ?_, ?_, fun {kind i k c} hc => ?_, fun kind => ?_⟩
    · rw [hl.length, ← hcode]
    · rw [hcode] at hd
      exact hl.tagSpace hd
    · have helems := hsize.1 .elem
      exact hsize.2.trans (hl.elemFlags.trans helems.symm)
    · rw [hslot] at hc
      exact (hl.inRange hc).trans_eq (hsize.1 kind).symm
    · rw [hslot]
      exact hl.aliases kind
  | join m imports _ hjoin =>
    obtain ⟨parts, p, targets, hprep, hres, hsize, hcode, hsize'⟩ := exists_parts_of_join hjoin
    have hlink := linkage_maps hprep hres hfit hl.tagSpace
    have hlength : ∀ kind, ((Store.instantiate m imports h.store).state.pools.items kind).length =
        (h.store.pools.items kind).length + parts.added m.tags.length kind := by
      intro kind
      rw [hsize'.1 kind, length_items_extend, hsize.1 kind]
    refine ⟨?_, fun {i d} hd => ?_, ?_, fun {kind i k c} hc => ?_, fun kind => ?_⟩
    · simp [hcode, hl.length]
    · rw [hcode] at hd
      by_cases hi : i = h.store.code.length
      · -- the new instance has an entry for each tag it imports or defines
        subst hi
        rw [List.getElem?_append_right le_rfl, Nat.sub_self, List.getElem?_cons_zero,
          Option.some.injEq] at hd
        subst hd
        have htags := (mapM_eq_ok.mp hres.importedTags).length_eq
        have hcounts := hprep.counts
        simp only [Imports.countsMatch, Bool.and_eq_true, beq_iff_eq] at hcounts
        simp only [Store.newInstance, Parts.maps, List.length_append, List.length_range', ← htags,
          List.length_zipIdx, hcounts.2]
      · rw [getElem?_append_one_of_ne hi] at hd
        exact hl.tagSpace hd
    · have helems := hlength .elem
      have hdropped := hsize'.2
      have hold := hsize.2
      simp only [Pools.items, Parts.added] at helems
      simp only [Pools.extend, List.length_append] at hdropped
      have := hl.elemFlags
      have := hres.elems
      show (Store.instantiate m imports h.store).state.pools.elemDropped.length =
        (Store.instantiate m imports h.store).state.pools.elemValues.length
      omega
    · show c < ((Store.instantiate m imports h.store).state.pools.items kind).length
      rw [hlength]
      by_cases hi : i = h.store.code.length
      · subst hi
        rw [slot_join_self hcode] at hc
        exact hl.inRange_join (hlink kind) hc
      · rw [slot_join_of_ne hcode _ hi] at hc
        exact Nat.lt_add_right _ (hl.inRange hc)
    · exact hl.aliases_join hcode (hlink kind)

/-- A run keeps index spaces linked. The pools only grow, so when the last fit the host all did. -/
theorem Reachable.linked {h : History} (hr : h.Reachable) (hfit : h.store.pools.FitsHost) :
    h.Linked := by
  obtain ⟨id, limits, hrun⟩ := hr
  induction hrun with
  | refl => exact linked_new id limits
  | tail _ hstep ih => exact hstep.linked (hstep.fitsHost hfit) (ih (hstep.fitsHost hfit))

end History

/-- A step of a store that adds an instance is an instantiation. -/
theorem Store.Step.exists_history {h : History} {s' : Store} (hstep : h.store.Step s') :
    ∃ imports, h.Step ⟨s', imports⟩ := by
  by_cases hcode : s'.code = h.store.code
  · exact ⟨_, .other hstep hcode⟩
  · cases hstep with
    | instantiate m imports hm =>
      have hcodes := (keeps_instantiate m imports h.store).code
      refine ⟨_, .join m imports hm (Nat.lt_of_le_of_ne hcodes.length_le fun hlen => ?_)⟩
      exact hcode (hcodes.eq_of_length hlen).symm
    | memoryGrow _ _ => exact absurd rfl hcode
    | tableGrow _ _ => exact absurd rfl hcode
    | rewrite _ => exact absurd rfl hcode

/-- Every reachable store has a history. -/
theorem Store.Reachable.exists_history {s : Store} (hs : s.Reachable) :
    ∃ imports, History.Reachable ⟨s, imports⟩ := by
  obtain ⟨id, limits, hrun⟩ := hs
  induction hrun with
  | refl => exact ⟨[], id, limits, .refl⟩
  | tail _ hstep ih =>
    obtain ⟨l, id, limits, hrun⟩ := ih
    obtain ⟨l', hstep'⟩ := Store.Step.exists_history (h := ⟨_, l⟩) hstep
    exact ⟨l', id, limits, hrun.tail hstep'⟩

/-! ## Index spaces of a reachable store -/

namespace History

/-- In every history, each entry of an index space is in range and leads to one definition. Two entries
name one slot exactly when they lead to the same definition, so a write through one is read through the
other then, and only then. -/
theorem indexSpaces_linked {h : History} (hr : h.Reachable) (hfit : h.store.pools.FitsHost)
    (kind : ItemKind) {i k c : ℕ} (hc : h.slot kind i k = some c) :
    c < (h.store.pools.items kind).length ∧
      (kind = .elem → c < h.store.pools.elemDropped.length) ∧
      ∃ o l, Origin (h.source kind) i k o l ∧ h.slot kind o l = some c ∧
        ∀ {i' k' c' o' l' : ℕ}, h.slot kind i' k' = some c' → Origin (h.source kind) i' k' o' l' →
          (c' = c ↔ o' = o ∧ l' = l) ∧
          ∀ v : kind.Content, ((h.store.pools.setItem kind c v).items kind)[c']? =
            if o' = o ∧ l' = l then some v else (h.store.pools.items kind)[c']? := by
  have hl := hr.linked hfit
  have htable := hl.aliases kind
  obtain ⟨o, l, ho⟩ := htable.exists_origin i k
  refine ⟨hl.inRange hc, ?_, o, l, ho, (htable.slot_origin ho).symm.trans hc, ?_⟩
  · rintro rfl
    exact hl.elemFlags ▸ hl.inRange hc
  · intro i' k' c' o' l' hc' ho'
    have hiff : c' = c ↔ o' = o ∧ l' = l := htable.slot_eq_iff hc' hc ho' ho
    refine ⟨hiff, fun v => ?_⟩
    rw [Pools.items_setItem, List.getElem?_set]
    by_cases heq : o' = o ∧ l' = l
    · obtain rfl := hiff.mpr heq
      simp [heq, hl.inRange hc]
    · have hne : c ≠ c' := fun h => heq (hiff.mp h.symm)
      simp [heq, hne]

end History

/-! ## A global imported through a re-export -/

/-- Defines a mutable global. -/
def definesGlobal : Module := { globals := [⟨.i32, true⟩], globalInits := [[.i32Const 7]] }

/-- Imports a mutable global, and may export it again. -/
def importsGlobal : Module where
  imports := [⟨"m", "g", .global ⟨.i32, true⟩, none, false⟩]
  globals := [⟨.i32, true⟩]

/-- The backing of that import: global 0 of another instance. -/
def sharedGlobal (inst : ℕ) : Imports := { globals := [7], globalSources := [some ⟨⟨0, inst⟩, 0⟩] }

/-- Instance 1 imports the global of instance 0, and instance 2 imports it from instance 1. -/
def chainHistory : History where
  store := (Store.instantiate importsGlobal (sharedGlobal 1)
    (Store.instantiate importsGlobal (sharedGlobal 0)
      (Store.instantiate definesGlobal {} (Store.new 0 .defaults)).state).state).state
  imports := [{}, sharedGlobal 0, sharedGlobal 1]

theorem wellFormed_noTypes : ({} : TypeSection).WellFormed :=
  wellFormed_of_decode [] (by decide) (by decide) rfl rfl rfl

theorem reachable_chainHistory : chainHistory.Reachable :=
  ⟨0, .defaults, .head (.join definesGlobal {} wellFormed_noTypes (by decide))
    (.head (.join importsGlobal (sharedGlobal 0) wellFormed_noTypes (by decide))
      (.single (.join importsGlobal (sharedGlobal 1) wellFormed_noTypes (by decide))))⟩

theorem fitsHost_chainHistory : chainHistory.store.pools.FitsHost := by
  intro kind
  cases kind <;> decide

/-- The global of instance 2 is in range, and it is the global of instance 0. -/
theorem chainHistory_global_linked :
    0 < chainHistory.store.pools.globals.length ∧
      (ItemKind.global = .elem → 0 < chainHistory.store.pools.elemDropped.length) ∧
      ∃ o l, Origin (chainHistory.source .global) 2 0 o l ∧
        chainHistory.slot .global o l = some 0 ∧
        ∀ {i' k' c' o' l' : ℕ}, chainHistory.slot .global i' k' = some c' →
          Origin (chainHistory.source .global) i' k' o' l' →
          (c' = 0 ↔ o' = o ∧ l' = l) ∧
          ∀ v : Value, ((chainHistory.store.pools.setItem .global 0 v).items .global)[c']? =
            if o' = o ∧ l' = l then some v
            else (chainHistory.store.pools.items .global)[c']? :=
  History.indexSpaces_linked reachable_chainHistory fitsHost_chainHistory .global (by decide)

end Wasmrt
