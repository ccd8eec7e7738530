import Wasmrt.Store.Reachable

/-!
# How an instantiation ends

Whatever can be refused is refused while an instance is prepared, before any of its resources is in the
pools. Once it is prepared, binding its function imports cannot fail any more: their instances were
resolved when they were matched. So an instantiation stops while preparing, with the types joined and
some GC objects allocated at most, or it records the instance and goes on to write the segments.

## Main definitions

* `Store.commit`: the store with a prepared instance recorded, before its segments are written.
* `Store.writeSegments`: what is left to do then.

## Main results

* `Store.instantiate_cases`, `Store.instantiate_error_or_committed`: the two ways an instantiation can
  go.
-/

namespace Wasmrt

open MonadExcept (ofExcept)

/-! ## Binding prepared imports -/

/-- The instances that back the function imports of a prepared module are in the store. -/
theorem Prepared.exists_slot {s : Store} {m : Module} {imports : Imports} {p : Pools} {parts : Parts}
    (h : Prepared s m imports p parts) {inst : InstanceId} {func : ℕ}
    (hf : .wasm inst func ∈ imports.funcs) : ∃ e, s.slot inst = some e := by
  obtain ⟨k, hk⟩ := List.getElem?_of_mem hf
  have hcounts := h.counts
  simp only [Imports.countsMatch, Bool.and_eq_true, beq_iff_eq] at hcounts
  have hlt := (List.getElem?_eq_some_iff.mp hk).1
  have hlt' : k < m.funcImports.length := by
    rw [Module.funcImports, ← List.countP_eq_length_filter]
    have := hcounts.1.1.1.1
    rw [Module.importedFuncCount] at this
    omega
  have himp : m.funcImports[k]? = some m.funcImports[k] := List.getElem?_eq_getElem hlt'
  have hfunc : m.funcImports[k].isFunc = true := (List.mem_filter.mp (List.getElem_mem hlt')).2
  generalize m.funcImports[k] = imp at himp hfunc
  -- the check of this import resolved the exporter
  have hzip : (m.funcImports.zip imports.funcs)[k]? = some (imp, .wasm inst func) :=
    List.getElem?_zip_eq_some.mpr ⟨himp, hk⟩
  have hcheck := forM_eq_ok.mp h.funcs _ (List.mem_of_getElem? hzip)
  obtain ⟨mod, name, ty, ti, exact⟩ := imp
  cases ty with
  | func declared =>
    simp only [checkFuncImport, Except.bind_eq_ok, orError_eq_ok] at hcheck
    obtain ⟨e, he, -⟩ := hcheck
    exact ⟨e, he⟩
  | _ => cases hfunc

/-- Binding succeeds when every instance is in the store. -/
theorem exists_bindTargets {s : Store} {fs : List ImportedFunc}
    (h : ∀ inst func, .wasm inst func ∈ fs → ∃ e, s.slot inst = some e) (next : ℕ) :
    ∃ targets, bindTargets s next fs = .ok targets := by
  induction fs generalizing next with
  | nil => exact ⟨[], rfl⟩
  | cons f fs ih =>
    have hrest := fun next => ih (fun inst func hf => h inst func (List.mem_cons_of_mem _ hf)) next
    cases f with
    | host =>
      obtain ⟨rest, hrest⟩ := hrest (next + 1)
      exact ⟨.host next :: rest, by simp [bindTargets, hrest]⟩
    | wasm inst func =>
      obtain ⟨e, he⟩ := h inst func (by simp)
      obtain ⟨rest, hrest⟩ := hrest next
      exact ⟨.wasm e func :: rest, by simp [bindTargets, he, hrest]⟩

theorem Prepared.exists_targets {s : Store} {m : Module} {imports : Imports} {p : Pools}
    {parts : Parts} (h : Prepared s m imports p parts) (next : ℕ) :
    ∃ targets, bindTargets s next imports.funcs = .ok targets :=
  exists_bindTargets (fun _ _ hf => h.exists_slot hf) next

/-! ## The two outcomes -/

namespace Store

/-- The store once a prepared instance is recorded; `p` are the pools its preparation left. -/
def commit (s : Store) (m : Module) (parts : Parts) (p : Pools) (targets : List FuncTarget) : Store :=
  ({ s with pools := p.extend parts s.code.length m.tags.length } : Store).pushInstance m parts
    (parts.maps s.pools m.tags.length) targets

/-- Write the active segments of a recorded instance, the element segments first. -/
def writeSegments (m : Module) (parts : Parts) (maps : IndexMaps) : EStateM Trap Store Unit := do
  onPools (parts.activeElems.forM (applyElem maps))
  onPools (parts.activeData.forM (applyData m maps))

@[simp]
theorem code_commit (s : Store) (m : Module) (parts : Parts) (p : Pools)
    (targets : List FuncTarget) :
    (s.commit m parts p targets).code = s.code ++ [s.newInstance m parts targets] := rfl

@[simp]
theorem pools_commit (s : Store) (m : Module) (parts : Parts) (p : Pools)
    (targets : List FuncTarget) :
    (s.commit m parts p targets).pools = p.extend parts s.code.length m.tags.length := rfl

/-- An instantiation fails while preparing, or records the instance and writes its segments. -/
theorem instantiate_cases (m : Module) (imports : Imports) (s : Store) :
    (∃ e p, prepare s m imports s.pools = .error e p ∧
        instantiate m imports s = .error e { s with pools := p }) ∨
      ∃ parts p targets, prepare s m imports s.pools = .ok parts p ∧
        Prepared s m imports s.pools parts ∧
        bindTargets s s.hostFuncs imports.funcs = .ok targets ∧
        instantiate m imports s = (do
          writeSegments m parts (parts.maps s.pools m.tags.length)
          pure ⟨s.id, s.code.length⟩ : EStateM Trap Store InstanceId)
            (s.commit m parts p targets) := by
  cases hprep : prepare s m imports s.pools with
  | error e p =>
    refine .inl ⟨e, p, rfl, ?_⟩
    simp only [instantiate, estate_bind_apply, estate_get_apply, onPools, hprep]
  | ok parts p =>
    obtain ⟨hparts, -⟩ := prepare_ok hprep
    obtain ⟨targets, htargets⟩ := hparts.exists_targets s.hostFuncs
    refine .inr ⟨parts, p, targets, rfl, hparts, htargets, ?_⟩
    simp only [instantiate, writeSegments, commit, estate_bind_apply, estate_get_apply, onPools, hprep,
      estate_modify_apply, htargets, ofExcept, estate_pure_apply]
    split <;> rfl

/-- Writing the segments rewrites contents and changes nothing else. -/
theorem keeps_writeSegments (m : Module) (parts : Parts) (maps : IndexMaps) :
    Keeps (fun s s' : Store => s'.id = s.id ∧ s'.code = s.code ∧ s.pools.Rewrites s'.pools)
      (writeSegments m parts maps) :=
  .bind (fun _ _ _ h h' => ⟨h'.1.trans h.1, h'.2.1.trans h.2.1, h.2.2.trans h'.2.2⟩)
    (keeps_onPools_rewrites (keeps_applyElem _) _) fun _ =>
      keeps_onPools_rewrites (keeps_applyData m _) _

/-- An instantiation fails while preparing, or has recorded the instance, however it ends then. -/
theorem instantiate_error_or_committed (m : Module) (imports : Imports) (s : Store) :
    (∃ e p, prepare s m imports s.pools = .error e p ∧
        instantiate m imports s = .error e { s with pools := p }) ∨
      Committed s m imports (instantiate m imports s).state := by
  rcases instantiate_cases m imports s with herr | ⟨parts, p, targets, hprep, hparts, htargets, heq⟩
  · exact .inl herr
  · right
    obtain ⟨hid, hcode, hrw⟩ := (Keeps.bind
      (fun _ _ _ h h' => ⟨h'.1.trans h.1, h'.2.1.trans h.2.1, h.2.2.trans h'.2.2⟩)
      (keeps_writeSegments m parts (parts.maps s.pools m.tags.length))
      fun _ => Keeps.pure (fun _ => ⟨rfl, rfl, Pools.Rewrites.refl _⟩) (⟨s.id, s.code.length⟩ : InstanceId))
      (s.commit m parts p targets)
    rw [heq]
    exact ⟨hid, parts, p, targets, hparts, (prepare_ok hprep).2, htargets, hcode, hrw⟩

end Store

end Wasmrt
