import Wasmrt.Interp.Bulk

/-!
# Bulk instructions as steps of the machine

The machine's plain step forgets what a trapping instruction has written. For the bulk instructions
nothing is forgotten: the step succeeds when the step in place does, with the same state, and a trap of
the one is a trap of the other.

## Main definitions

* `Agrees`: the outcomes of a plain step and of a step in place are the same.

## Main results

* `AllOrNothing.agrees`: a plain step of one check and one write agrees.
* `agrees_memoryCopy` to `agrees_arrayInit`: the plain step of each bulk instruction agrees.
-/

namespace Wasmrt

open BlockMove

/-- The plain step succeeds as the step in place does, and traps when it traps. -/
def Agrees (plain : Except Trap PlainState) (outcome : EStateM.Result Abort PlainState Unit) : Prop :=
  (∀ st', plain = .ok st' ↔ outcome = .ok () st') ∧
    ∀ t, plain = .error t → ∃ t' st', outcome = .error (.trap t') st'

theorem moved_writeAt {α : Type} {l vals : List α} {dst : ℕ} (h : dst + vals.length ≤ l.length) :
    Moved l (writeAt l dst vals) dst vals.length fun k => vals[k]? := by
  obtain ⟨after, hafter, hmoved⟩ := moved_overwrite h
  obtain rfl : writeAt l dst vals = after := Option.some.inj ((if_pos h).symm.trans hafter)
  exact hmoved

/-- A plain step that makes one check and then writes the run agrees with a step that is all or
nothing. -/
theorem AllOrNothing.agrees {α : Type} {outcome : EStateM.Result Abort PlainState Unit} {st : PlainState}
    {pops : ℕ} {sourceFits : Prop} {before : List α} {dst n : ℕ} {source : ℕ → Option α}
    {put : List α → Contents} {plain : Except Trap PlainState} {check : Except Trap Unit}
    (h : AllOrNothing outcome st pops sourceFits before dst n source put) (vals : List α)
    (hcheck : check = .ok () ↔ sourceFits ∧ dst + n ≤ before.length)
    (hplain : plain = check >>= fun _ =>
      pure { st.popped pops with contents := put (writeAt before dst vals) })
    (hvals : sourceFits → vals.length = n ∧ ∀ k < n, vals[k]? = source k) : Agrees plain outcome := by
  subst hplain
  by_cases hfits : sourceFits ∧ dst + n ≤ before.length
  · obtain ⟨after, hrun, hmoved⟩ := h.1 hfits
    obtain ⟨rfl, hvals⟩ := hvals hfits.1
    obtain rfl := ((moved_writeAt hfits.2).congr hvals).unique hmoved
    rw [hrun, hcheck.mpr hfits]
    refine ⟨fun st' => ?_, fun t ht => nomatch ht⟩
    rw [EStateM.Result.ok.injEq, eq_self, true_and]
    exact Except.pure_eq_ok
  · obtain ⟨t, k, hrun⟩ := h.2 hfits
    cases hout : check with
    | ok u => exact absurd (hcheck.mp hout) hfits
    | error t' =>
      rw [hrun]
      exact ⟨fun st' => ⟨fun h => (nomatch h), fun h => (nomatch h)⟩, fun _ _ => ⟨t, _, rfl⟩⟩

/-! ## Popping -/

namespace PlainState

theorem pop_popped (st : PlainState) (k : ℕ) : (st.popped k).pop = (st.operand k, st.popped (k + 1)) := by
  simp [pop, popped, operand, List.getD_eq_getElem?_getD, List.headD_eq_head?_getD, List.head?_drop]

theorem popAddr_popped (st : PlainState) (is64 : Bool) (k : ℕ) :
    (st.popped k).popAddr is64 = (st.addr is64 k, st.popped (k + 1)) := by
  rw [popAddr, pop_popped]
  rfl

theorem popI32_popped (st : PlainState) (k : ℕ) :
    (st.popped k).popI32 = (asI32 (st.operand k), st.popped (k + 1)) := by
  rw [popI32, pop_popped]

end PlainState

open PlainState

/-! ## Checks -/

theorem memRange_eq_ok {base n len : ℕ} (hlen : len < 2 ^ 64) :
    memRange base n len = .ok () ↔ base + n ≤ len := by
  rw [memRange, ensure_eq_ok, decide_eq_true_iff]
  omega

theorem ensure_decide_eq_ok {P : Prop} [Decidable P] (t : Trap) :
    ensure (decide P) t = .ok () ↔ P := by
  rw [ensure_eq_ok, decide_eq_true_iff]

theorem ensure_bind {α : Type} (P : Prop) [Decidable P] (t : Trap) (a : α) :
    (ensure (decide P) t >>= fun _ => pure a) = if P then .ok a else .error t := by
  by_cases h : P
  · rw [if_pos h, decide_eq_true h]
    rfl
  · rw [if_neg h, decide_eq_false h]
    rfl

theorem then_eq_ok {x y : Except Trap Unit} : (x >>= fun _ => y) = .ok () ↔ x = .ok () ∧ y = .ok () := by
  rw [Except.bind_eq_ok]
  exact ⟨fun ⟨_, hx, hy⟩ => ⟨hx, hy⟩, fun ⟨hx, hy⟩ => ⟨(), hx, hy⟩⟩

section Instructions

variable {d : InstanceData} {st : PlainState} {limits : ResourceLimits} {inst : ℕ}

theorem agrees_memoryCopy (hst : Addressable d st.contents) {dst src : ℕ} {dm sm : Memory}
    (hdm : st.contents.memories[d.maps.mem dst]? = some dm)
    (hsm : st.contents.memories[d.maps.mem src]? = some sm) :
    Agrees (execMemory d limits st (.memoryCopy dst src)) (InPlace.memoryCopy d dst src st) := by
  refine (memoryCopy_allOrNothing hdm hsm (hst.memory hdm) (hst.memory hsm) rfl rfl rfl).agrees _
    (then_eq_ok.trans (and_congr (memRange_eq_ok (hst.memory hsm)) (memRange_eq_ok (hst.memory hdm)))) ?_
    fun hs => ⟨length_slice hs, fun k hk => getElem?_slice hk⟩
  show execMemory d limits (st.popped 0) (.memoryCopy dst src) = _
  unfold execMemory
  simp only [hdm, hsm, orError, popAddr_popped, contents_popped, bind_assoc]
  rfl

theorem agrees_memoryFill (hst : Addressable d st.contents) {mi : ℕ} {mem : Memory}
    (hmem : st.contents.memories[d.maps.mem mi]? = some mem) :
    Agrees (execMemory d limits st (.memoryFill mi)) (InPlace.memoryFill d mi st) := by
  refine (memoryFill_allOrNothing hmem (hst.memory hmem) rfl rfl).agrees _
    ((memRange_eq_ok (hst.memory hmem)).trans (and_iff_right trivial).symm) ?_
    fun _ => ⟨List.length_replicate, fun k hk => by rw [List.getElem?_replicate, if_pos hk]⟩
  show execMemory d limits (st.popped 0) (.memoryFill mi) = _
  unfold execMemory
  simp only [hmem, orError, popAddr_popped, popI32_popped, contents_popped]
  rfl

theorem agrees_memoryInit (hst : Addressable d st.contents) {data mi : ℕ} {mem : Memory}
    {seg : List UInt8} (hmem : st.contents.memories[d.maps.mem mi]? = some mem)
    (hseg : dataSegment d st.contents data = .ok seg) :
    Agrees (execMemory d limits st (.memoryInit data mi)) (InPlace.memoryInit d data mi st) := by
  refine (memoryInit_allOrNothing hmem hseg (hst.memory hmem) (hst.dataSegment hseg) rfl rfl rfl).agrees _
    (then_eq_ok.trans (and_congr (memRange_eq_ok (hst.dataSegment hseg)) (memRange_eq_ok (hst.memory hmem))))
    ?_ fun hs => ⟨length_slice hs, fun k hk => getElem?_slice hk⟩
  show execMemory d limits (st.popped 0) (.memoryInit data mi) = _
  unfold execMemory
  simp only [hmem, hseg, orError, popAddr_popped, popI32_popped, contents_popped, bind_assoc]
  rfl

theorem agrees_tableFill (hst : Addressable d st.contents) {x : ℕ} {t : Table}
    (ht : st.contents.tables[d.maps.table x]? = some t) :
    Agrees (execTable d limits st (.tableFill x)) (InPlace.tableFill d x st) := by
  refine (tableFill_allOrNothing ht (hst.table ht) rfl rfl).agrees _
    ((ensure_decide_eq_ok .tableOutOfBounds).trans (and_iff_right trivial).symm) ?_
    fun _ => ⟨List.length_replicate, fun k hk => by rw [List.getElem?_replicate, if_pos hk]⟩
  show execTable d limits (st.popped 0) (.tableFill x) = _
  unfold execTable
  simp only [ht, orError, popAddr_popped, pop_popped, contents_popped]
  rfl

theorem agrees_tableInit (hst : Addressable d st.contents) {elem x : ℕ} {t : Table} {seg : List Value}
    (ht : st.contents.tables[d.maps.table x]? = some t)
    (hseg : elemSegmentValues d st.contents elem = .ok seg) :
    Agrees (execTable d limits st (.tableInit elem x)) (InPlace.tableInit d elem x st) := by
  refine (tableInit_allOrNothing ht hseg (hst.table ht) (hst.elemSegment hseg) rfl rfl rfl).agrees _
    (ensure_decide_eq_ok .tableOutOfBounds) ?_ fun hs => ⟨length_slice hs, fun k hk => getElem?_slice hk⟩
  simp only [elemSegmentValues, Except.bind_eq_ok, orError_eq_ok] at hseg
  obtain ⟨dropped, hdropped, hvals⟩ := hseg
  have hread : (if dropped then [] else
      st.contents.elemValues.getD (IndexMaps.get d.maps.elems elem) []) = seg := by
    cases dropped with
    | true => exact Except.pure_eq_ok.mp hvals
    | false =>
      have hget : st.contents.elemValues[IndexMaps.get d.maps.elems elem]? = some seg :=
        orError_eq_ok.mp hvals
      rw [List.getD_eq_getElem?_getD, hget]
      rfl
  show execTable d limits (st.popped 0) (.tableInit elem x) = _
  unfold execTable
  simp only [hdropped, ht, orError, popAddr_popped, popI32_popped, contents_popped]
  rw [← hread]
  rfl

theorem agrees_tableCopy (hst : Addressable d st.contents) {dst src : ℕ} {dt sr : Table}
    (hdt : st.contents.tables[d.maps.table dst]? = some dt)
    (hsr : st.contents.tables[d.maps.table src]? = some sr) :
    Agrees (execTable d limits st (.tableCopy dst src)) (InPlace.tableCopy d dst src st) := by
  refine (tableCopy_allOrNothing hdt hsr (hst.table hdt) (hst.table hsr) rfl rfl rfl).agrees _
    (ensure_decide_eq_ok .tableOutOfBounds) ?_ fun hs => ⟨length_slice hs, fun k hk => getElem?_slice hk⟩
  show execTable d limits (st.popped 0) (.tableCopy dst src) = _
  unfold execTable
  simp only [hdt, hsr, orError, popAddr_popped, contents_popped]
  rfl

theorem agrees_arrayFill (hst : Addressable d st.contents) {ti index : ℕ} {f : FieldType}
    {obj : HeapObject} (hf : d.module.arrayField ti = some f)
    (hobj : gcObjectIndex st.contents (st.operand 3) = .ok (index, obj)) :
    Agrees (execArray inst d limits st (.arrayFill ti)) (InPlace.arrayFill d ti st) := by
  refine (arrayFill_allOrNothing hf hobj (hst.object hobj) rfl rfl).agrees _
    ((ensure_decide_eq_ok .gcOutOfBounds).trans (and_iff_right trivial).symm) ?_
    fun _ => ⟨List.length_replicate, fun k hk => by rw [List.getElem?_replicate, if_pos hk]⟩
  show execArray inst d limits (st.popped 0) (.arrayFill ti) = _
  unfold execArray
  simp only [hf, orError, popI32_popped, pop_popped, contents_popped, hobj]
  rfl

theorem agrees_arrayCopy (hst : Addressable d st.contents) {dst src sindex dindex : ℕ} {df sf : FieldType}
    {sobj dobj : HeapObject} (hdf : d.module.arrayField dst = some df)
    (hsf : d.module.arrayField src = some sf)
    (hsobj : gcObjectIndex st.contents (st.operand 2) = .ok (sindex, sobj))
    (hdobj : gcObjectIndex st.contents (st.operand 4) = .ok (dindex, dobj)) :
    Agrees (execArray inst d limits st (.arrayCopy dst src)) (InPlace.arrayCopy d dst src st) := by
  refine (arrayCopy_allOrNothing hdf hsf hsobj hdobj (hst.object hdobj) (hst.object hsobj) rfl rfl
    rfl).agrees (((sobj.fields.drop (st.i32 1)).take (st.i32 0)).map
      (InPlace.copied df.storage sf.storage)) ((ensure_decide_eq_ok .gcOutOfBounds).trans and_comm) ?_ fun hs => ⟨?_, fun k hk => ?_⟩
  · show execArray inst d limits (st.popped 0) (.arrayCopy dst src) = _
    unfold execArray
    simp only [hdf, hsf, orError, popI32_popped, pop_popped, contents_popped, hsobj, hdobj]
    rfl
  · rw [List.length_map]
    exact length_slice hs
  · rw [List.getElem?_map]
    exact congrArg _ (getElem?_slice hk)

/-- The check that precedes the writes of `array.init_data` and `array.init_elem`. -/
theorem agrees_arrayInitSeg {ofData : Bool} {ti seg index : ℕ} {f : FieldType} {obj : HeapObject}
    {sourceFits : Prop} [Decidable sourceFits] {source : ℕ → Option Value} (run : List Value) (t : Trap)
    (hf : d.module.arrayField ti = some f)
    (hobj : gcObjectIndex st.contents (st.operand 3) = .ok (index, obj))
    (hspec : AllOrNothing (InPlace.arrayInitSeg d ofData ti seg st) st 4 sourceFits obj.fields (st.i32 2)
      (st.i32 0) source (st.contents.putFields index obj))
    (hrun : segmentRun d st.contents f.storage ofData seg (st.i32 1) (st.i32 0) =
      if sourceFits then .ok run else .error t)
    (hvals : sourceFits → run.length = st.i32 0 ∧
      ∀ k < st.i32 0, (run[k]?).map (packField f.storage) = source k) :
    Agrees (execArrayInitSeg d st ofData ti seg) (InPlace.arrayInitSeg d ofData ti seg st) := by
  have hplain : execArrayInitSeg d (st.popped 0) ofData ti seg =
      (do
        ensure (decide (st.i32 2 + st.i32 0 ≤ obj.fields.length)) .gcOutOfBounds
        let run ← segmentRun d st.contents f.storage ofData seg (st.i32 1) (st.i32 0)
        let after := writeAt obj.fields (st.i32 2) (run.map (packField f.storage))
        pure { st.popped 4 with contents := st.contents.putFields index obj after }) := by
    unfold execArrayInitSeg
    simp only [hf, orError, popI32_popped, pop_popped, contents_popped, hobj]
    rfl
  have hcheck : (ensure (decide (st.i32 2 + st.i32 0 ≤ obj.fields.length)) .gcOutOfBounds >>= fun _ =>
      ensure (decide sourceFits) t) = .ok () ↔
        sourceFits ∧ st.i32 2 + st.i32 0 ≤ obj.fields.length :=
    then_eq_ok.trans ((and_congr (ensure_decide_eq_ok _) (ensure_decide_eq_ok t)).trans and_comm)
  refine hspec.agrees (run.map (packField f.storage)) hcheck ?_ fun hs => ?_
  · refine hplain.trans ?_
    rw [hrun, bind_assoc]
    by_cases hs : sourceFits <;> simp only [hs, decide_true, decide_false, if_true, if_false] <;> rfl
  · obtain ⟨hlen, hsource⟩ := hvals hs
    exact ⟨by rw [List.length_map, hlen], fun k hk => by rw [List.getElem?_map, hsource k hk]⟩

theorem agrees_arrayInitData (hst : Addressable d st.contents) {ti seg index w : ℕ} {f : FieldType}
    {obj : HeapObject} {bytes : List UInt8} (hf : d.module.arrayField ti = some f)
    (hw : dataElemWidth f.storage = some w) (hseg : dataSegment d st.contents seg = .ok bytes)
    (hobj : gcObjectIndex st.contents (st.operand 3) = .ok (index, obj)) :
    Agrees (execArray inst d limits st (.arrayInitData ti seg))
      (InPlace.arrayInitSeg d true ti seg st) := by
  refine agrees_arrayInitSeg ((List.range (st.i32 0)).map fun k =>
      packField f.storage (BitVec.ofNat 128 (leValue ((bytes.drop (st.i32 1 + k * w)).take w))))
    .memoryOutOfBounds hf hobj (arrayInitData_allOrNothing hf hw hobj hseg (hst.object hobj)
      (hst.dataSegment hseg) rfl rfl rfl) ?_ fun _ => ⟨?_, fun k hk => ?_⟩
  · simp only [segmentRun, if_true, hseg, readDataElems, hw, orError]
    show (ensure (decide (st.i32 1 + st.i32 0 * w ≤ bytes.length)) Trap.memoryOutOfBounds >>= _) = _
    exact ensure_bind _ _ _
  · rw [List.length_map, List.length_range]
  · rw [List.getElem?_map, List.getElem?_range hk]
    rfl

theorem agrees_arrayInitElem (hst : Addressable d st.contents) {ti seg index : ℕ} {f : FieldType}
    {obj : HeapObject} {vals : List Value} (hf : d.module.arrayField ti = some f)
    (hseg : elemSegmentValues d st.contents seg = .ok vals)
    (hobj : gcObjectIndex st.contents (st.operand 3) = .ok (index, obj)) :
    Agrees (execArray inst d limits st (.arrayInitElem ti seg))
      (InPlace.arrayInitSeg d false ti seg st) := by
  refine agrees_arrayInitSeg ((vals.drop (st.i32 1)).take (st.i32 0)) .tableOutOfBounds hf hobj
    (arrayInitElem_allOrNothing hf hobj hseg (hst.object hobj) (hst.elemSegment hseg) rfl rfl rfl) ?_
    fun hs => ⟨length_slice hs, fun k hk => ?_⟩
  · simp only [segmentRun, Bool.false_eq_true, if_false, hseg]
    show (ensure (decide (st.i32 1 + st.i32 0 ≤ vals.length)) Trap.tableOutOfBounds >>= _) = _
    exact ensure_bind _ _ _
  · rw [getElem?_slice hk]
    rfl

end Instructions

end Wasmrt
