import Wasmrt.Interp.ClauseTables

/-!
# Where an expression ends

The decoder of expressions counts the open constructs and stops when the count comes to 0. It does not look at
the clauses. The tables have the end of every construct of what it takes, wherever the clauses stand, if the
pass succeeds; the clauses themselves they have if the body is well nested.

## Main definitions

* `controlDepth`, `endsAtDepth`: how the decoder finds where an expression ends.
* `EndsConstruct`: the end of a construct, by the depths.

## Main results

* `endOf_of_endsAtDepth`: the tables have the end of every construct.
* `WellNested.endsAtDepth`: a well nested body ends where the decoder says.
-/

namespace Wasmrt

/-! ## Where an expression ends -/

/-- The depth after an instruction: `control_depth`. -/
def controlDepth (depth : ℕ) (i : Instr) : Option ℕ :=
  if i.opens.isSome then some (depth + 1)
  else if i.closes then (if depth = 0 then none else some (depth - 1))
  else some depth

/-- Does the decoder, at a depth, stop right at the end of these instructions? -/
def endsAtDepth : ℕ → List Instr → Bool
  | 0, ir => ir.isEmpty
  | _ + 1, [] => false
  | depth + 1, i :: ir => (controlDepth (depth + 1) i).any (endsAtDepth · ir)

/-- The depth is the number of open constructs. -/
theorem endsAtDepth_of_nestAt {ir : List Instr} (hir : WellNested ir) {n : ℕ} {nest : List Open}
    (hnest : nestAt ir n = some nest) (hn : n ≤ ir.length) : endsAtDepth nest.length (ir.drop n) = true := by
  induction hk : ir.length - n generalizing n nest with
  | zero =>
    obtain rfl : n = ir.length := by omega
    obtain rfl := Option.some.inj (hnest.symm.trans hir)
    rw [List.drop_length]
    rfl
  | succ k ih =>
    have hlt : n < ir.length := by omega
    obtain ⟨after, hafter⟩ := exists_nestAt_of_le (show n + 1 ≤ ir.length from hlt) hir
    obtain ⟨i, before, hi, hbefore, hne, hstep⟩ := nestAt_succ hafter
    obtain rfl := Option.some.inj (hnest.symm.trans hbefore)
    obtain rfl : ir[n] = i := Option.some.inj ((List.getElem?_eq_getElem hlt).symm.trans hi)
    have hrest := ih hafter hlt (by omega)
    obtain ⟨top, rest, rfl⟩ := List.exists_cons_of_ne_nil hne
    rw [List.drop_eq_getElem_cons hlt, List.length_cons, endsAtDepth]
    suffices hdepth : controlDepth (rest.length + 1) ir[n] = some after.length by rwa [hdepth]
    cases hstep with
    | opener h => rw [controlDepth, h]; rfl
    | closer h heq _ =>
      obtain ⟨-, rfl⟩ := List.cons.inj heq
      generalize ir[n] = i at h
      cases i <;> cases h <;> rfl
    | else_ h heq _ =>
      obtain ⟨-, rfl⟩ := List.cons.inj heq
      rw [h]
      rfl
    | catch_ h heq _ =>
      obtain ⟨-, rfl⟩ := List.cons.inj heq
      generalize ir[n] = i at h
      cases i <;> cases h <;> rfl
    | flat h =>
      generalize ir[n] = i at h
      cases i <;> cases h <;> rfl

/-- A well nested body ends where the decoder says. -/
theorem WellNested.endsAtDepth {ir : List Instr} (h : WellNested ir) : endsAtDepth 1 ir = true :=
  endsAtDepth_of_nestAt h (n := 0) rfl (Nat.zero_le _)

/-! ### The end of a construct -/

/-- The depth after some instructions, if the decoder has not stopped before. -/
def depthAfter : ℕ → List Instr → Option ℕ
  | depth, [] => some depth
  | 0, _ :: _ => none
  | depth + 1, i :: ir => (controlDepth (depth + 1) i).bind (depthAfter · ir)

theorem endsAtDepth_iff {depth : ℕ} {ir : List Instr} : endsAtDepth depth ir = true ↔ depthAfter depth ir = some 0 := by
  induction ir generalizing depth with
  | nil => cases depth <;> simp [endsAtDepth, depthAfter]
  | cons i ir ih =>
    cases depth with
    | zero => simp [endsAtDepth, depthAfter]
    | succ depth =>
      rw [endsAtDepth, depthAfter]
      cases controlDepth (depth + 1) i with
      | none => simp
      | some depth' => exact ih

theorem depthAfter_append {depth : ℕ} {ir ir' : List Instr} :
    depthAfter depth (ir ++ ir') = (depthAfter depth ir).bind (depthAfter · ir') := by
  induction ir generalizing depth with
  | nil => cases depth <;> rfl
  | cons i ir ih =>
    cases depth with
    | zero => rfl
    | succ depth =>
      rw [List.cons_append, depthAfter, depthAfter]
      cases controlDepth (depth + 1) i with
      | none => rfl
      | some depth' => exact ih

/-- Deeper by `k`, the decoder goes the same way until it would have stopped. -/
theorem controlDepth_add {depth depth' : ℕ} {i : Instr} (h : controlDepth depth i = some depth') (k : ℕ) :
    controlDepth (depth + k) i = some (depth' + k) := by
  unfold controlDepth at h ⊢
  split_ifs at h ⊢ <;> cases h
  · rw [Nat.add_right_comm]
  · omega
  · rw [Nat.sub_add_comm (by omega)]
  · rfl

/-- The instruction at `e` ends the construct opened at `o`, by the depths the decoder counts. -/
def EndsConstruct (ir : List Instr) (o e : ℕ) : Prop :=
  o < e ∧ e < ir.length ∧ endsAtDepth 1 ((ir.take (e + 1)).drop (o + 1)) = true

/-- What the pass has established of the ends before a position, whatever clauses it came by. -/
structure ScanEnds (ir : List Instr) (n : ℕ) (st : ControlScan) : Prop where
  endOf_length : st.cf.endOf.length = ir.length
  /-- Beside those of the openers the pass sets the ends of clauses only. -/
  elseOf : ∀ o p : ℕ, st.cf.elseOf[o]? = some p → p ≠ ir.length → ir[p]? = some .else_
  catchPcs : ∀ cps ∈ st.catchPcs, ∀ p ∈ cps, ∃ i, ir[p]? = some i ∧ i.isCatch = true
  opened : ∀ o ∈ st.stack, o < n
  depths : ∀ j o : ℕ, st.stack[j]? = some o → depthAfter 1 ((ir.take n).drop (o + 1)) = some (j + 1)
  ended : ∀ o < n, ∀ i, ir[o]? = some i → i.opens.isSome = true →
    o ∈ st.stack ∨ ∃ e < n, EndsConstruct ir o e ∧ st.cf.endOf[o]? = some e

section Ends

variable {ir : List Instr} {n : ℕ} {st st' : ControlScan} {i : Instr}

/-- The depth after one more instruction. -/
theorem depthAfter_take_succ {o depth : ℕ} (hi : ir[n]? = some i) (ho : o < n)
    (h : depthAfter 1 ((ir.take n).drop (o + 1)) = some (depth + 1)) :
    depthAfter 1 ((ir.take (n + 1)).drop (o + 1)) = controlDepth (depth + 1) i := by
  have hlt : n < ir.length := (List.getElem?_eq_some_iff.mp hi).1
  rw [List.take_add_one, hi, Option.toList_some, List.drop_append_of_le_length (by rw [List.length_take]; omega),
    depthAfter_append, h, Option.bind_some, depthAfter]
  cases controlDepth (depth + 1) i <;> rfl

/-- Past an instruction that neither opens nor closes anything. -/
theorem ScanEnds.skip (h : ScanEnds ir n st) (hi : ir[n]? = some i) (hopens : i.opens = none)
    (hcloses : i.closes = false ∨ st.stack = []) : ScanEnds ir (n + 1) st where
  endOf_length := h.endOf_length
  elseOf := h.elseOf
  catchPcs := h.catchPcs
  opened := fun o ho => (h.opened o ho).trans n.lt_succ_self
  depths := by
    intro j o hj
    rcases hcloses with hcloses | hempty
    · rw [depthAfter_take_succ hi (h.opened o (List.mem_of_getElem? hj)) (h.depths j o hj), controlDepth, hopens,
        hcloses]
      rfl
    · rw [hempty] at hj
      cases hj
  ended := by
    intro o ho i' hi' hopens'
    rcases Nat.lt_succ_iff_lt_or_eq.mp ho with ho | rfl
    · rcases h.ended o ho i' hi' hopens' with hopen | ⟨e, he, hends⟩
      · exact .inl hopen
      · exact .inr ⟨e, he.trans n.lt_succ_self, hends⟩
    · obtain rfl := Option.some.inj (hi.symm.trans hi')
      rw [hopens] at hopens'
      cases hopens'

/-- A handler is collected for the innermost construct. -/
theorem ScanEnds.catch_ (h : ScanEnds ir n st) {tag : Option ℕ} (hi : ir[n]? = some i) (hcatch : i.isCatch = true)
    (hstep : st.catch_ tag n = .ok st') : ScanEnds ir (n + 1) st' := by
  have hskip := h.skip hi (by cases i <;> cases hcatch <;> rfl) (.inl (by cases i <;> cases hcatch <;> rfl))
  rw [ControlScan.catch_] at hstep
  split at hstep
  case h_1 hs handlers cps rest hhandlers hcatchPcs =>
    obtain rfl := Except.ok.inj hstep
    refine { hskip with catchPcs := fun cps' hcps' p hp => ?_ }
    have hold : ∀ cps' ∈ cps :: rest, ∀ p ∈ cps', ∃ i, ir[p]? = some i ∧ i.isCatch = true := by
      rw [← hcatchPcs]
      exact h.catchPcs
    rcases List.mem_cons.mp hcps' with rfl | hcps'
    · rcases List.mem_append.mp hp with hp | hp
      · exact hold cps List.mem_cons_self p hp
      · obtain rfl := List.mem_singleton.mp hp
        exact ⟨i, hi, hcatch⟩
    · exact hold cps' (List.mem_cons_of_mem _ hcps') p hp
  case h_2 => cases hstep

theorem ScanEnds.opener (h : ScanEnds ir n st) (hi : ir[n]? = some i) {kind : FrameKind}
    (hopens : i.opens = some kind) : ScanEnds ir (n + 1) (st.opener n) where
  endOf_length := h.endOf_length
  elseOf := h.elseOf
  catchPcs := by
    intro cps hcps p hp
    rcases List.mem_cons.mp hcps with rfl | hcps
    · cases hp
    · exact h.catchPcs cps hcps p hp
  opened := by
    intro o ho
    rcases List.mem_cons.mp ho with rfl | ho
    · exact Nat.lt_succ_self _
    · exact (h.opened o ho).trans n.lt_succ_self
  depths := by
    intro j o hj
    cases j with
    | zero =>
      obtain rfl := Option.some.inj hj
      rw [List.drop_eq_nil_of_le (by rw [List.length_take]; omega)]
      rfl
    | succ j =>
      have hj : st.stack[j]? = some o := hj
      rw [depthAfter_take_succ hi (h.opened o (List.mem_of_getElem? hj)) (h.depths j o hj), controlDepth, hopens]
      rfl
  ended := by
    intro o ho i' hi' hopens'
    rcases Nat.lt_succ_iff_lt_or_eq.mp ho with ho | rfl
    · rcases h.ended o ho i' hi' hopens' with hopen | ⟨e, he, hends⟩
      · exact .inl (List.mem_cons_of_mem _ hopen)
      · exact .inr ⟨e, he.trans n.lt_succ_self, hends⟩
    · exact .inl List.mem_cons_self

/-- The innermost construct is closed: its opener gets the end, and no other opener does. -/
theorem ScanEnds.close (h : ScanEnds ir n st) (hi : ir[n]? = some i) (hcloses : i.closes = true) {o : ℕ}
    {stack : List ℕ} (hstack : st.stack = o :: stack) {cf : ControlFlow} (hlen : cf.endOf.length = ir.length)
    (helse : cf.elseOf = st.cf.elseOf) (hset : cf.endOf[o]? = some n)
    (hkeep : ∀ (o' : ℕ) (i' : Instr), o' ≠ o → ir[o']? = some i' → i'.opens.isSome = true →
      cf.endOf[o']? = st.cf.endOf[o']?) {handlers : List (List LegacyCatch)} :
    ScanEnds ir (n + 1) ⟨cf, stack, handlers, st.catchPcs.tail⟩ where
  endOf_length := hlen
  elseOf := by
    rw [helse]
    exact h.elseOf
  catchPcs := fun cps hcps => h.catchPcs cps (List.mem_of_mem_tail hcps)
  opened := fun o' ho' => (h.opened o' (hstack ▸ List.mem_cons_of_mem _ ho')).trans n.lt_succ_self
  depths := by
    intro j o' hj
    have hj : st.stack[j + 1]? = some o' := by rw [hstack]; exact hj
    rw [depthAfter_take_succ hi (h.opened o' (List.mem_of_getElem? hj)) (h.depths _ o' hj), controlDepth]
    cases i <;> cases hcloses <;> rfl
  ended := by
    intro o' ho' i' hi' hopens'
    rcases Nat.lt_succ_iff_lt_or_eq.mp ho' with ho' | rfl
    · by_cases heq : o' = o
      · subst heq
        have hdepth := depthAfter_take_succ hi ho' (h.depths 0 o' (by rw [hstack]; rfl))
        refine .inr ⟨n, n.lt_succ_self, ⟨ho', (List.getElem?_eq_some_iff.mp hi).1, ?_⟩, hset⟩
        rw [endsAtDepth_iff, hdepth]
        cases i <;> cases hcloses <;> rfl
      · rcases h.ended o' ho' i' hi' hopens' with hopen | ⟨e, he, hends, hget⟩
        · rw [hstack, List.mem_cons] at hopen
          exact .inl (hopen.resolve_left heq)
        · exact .inr ⟨e, he.trans n.lt_succ_self, hends, (hkeep o' i' heq hi' hopens').trans hget⟩
    · obtain rfl := Option.some.inj (hi.symm.trans hi')
      cases i <;> cases hcloses <;> cases hopens'

/-- What an `end` sets beside the entry of its opener are the entries of clauses. -/
theorem ScanEnds.not_mem_endSet (h : ScanEnds ir n st) {o o' : ℕ} (hne : o' ≠ o)
    (hi : ir[o']? = some i) (hopens : i.opens.isSome = true) : o' ∉ endSet ir st.cf o (st.catchPcs.headD []) := by
  intro hmem
  simp only [endSet, List.mem_cons, List.mem_append] at hmem
  rcases hmem with heq | hmem | hmem
  · exact hne heq
  · split_ifs at hmem with helse
    · obtain rfl := List.mem_singleton.mp hmem
      have hget : st.cf.elseOf[o]? = some (st.cf.elseOf.getD o ir.length) := by
        rw [List.getD_eq_getElem?_getD] at helse ⊢
        cases hget : st.cf.elseOf[o]? with
        | none =>
          rw [hget] at helse
          exact absurd rfl helse
        | some p => rfl
      obtain rfl := Option.some.inj (hi.symm.trans (h.elseOf o _ hget helse))
      cases hopens
    · cases hmem
  · split_ifs at hmem
    · cases hcatch : st.catchPcs with
      | nil =>
        rw [hcatch] at hmem
        cases hmem
      | cons cps rest =>
        rw [hcatch] at hmem
        obtain ⟨i', hi', hcatch'⟩ := h.catchPcs cps (by rw [hcatch]; exact List.mem_cons_self) o' hmem
        obtain rfl := Option.some.inj (hi.symm.trans hi')
        cases i <;> cases hcatch' <;> cases hopens
    · cases hmem

/-- One instruction of the pass. -/
theorem ScanEnds.step (h : ScanEnds ir n st) (hi : ir[n]? = some i) (hstep : st.step ir (i, n) = .ok st') :
    ScanEnds ir (n + 1) st' := by
  cases i with
  | block _ | loop _ | if_ _ | tryTable _ _ | tryLegacy _ =>
    obtain rfl := Except.ok.inj hstep
    exact h.opener hi rfl
  | else_ =>
    have helse : st.else_ n = .ok st' := hstep
    rw [ControlScan.else_] at helse
    cases hstack : st.stack with
    | nil =>
      rw [hstack] at helse
      cases helse
    | cons o stack =>
      rw [hstack] at helse
      obtain rfl := Except.ok.inj helse
      rw [← hstack]
      have hskip := h.skip hi rfl (.inl rfl)
      refine { hskip with elseOf := fun o' p hget hne => ?_ }
      by_cases heq : o = o'
      · subst heq
        rw [List.getElem?_set, if_pos rfl] at hget
        split_ifs at hget
        obtain rfl := Option.some.inj hget
        exact hi
      · exact h.elseOf o' p ((List.getElem?_set_ne heq).symm.trans hget) hne
  | catchLegacy tag => exact h.catch_ hi rfl hstep
  | catchAll => exact h.catch_ hi rfl hstep
  | delegate label =>
    have hdelegate : st.delegate label n = .ok st' := hstep
    rw [ControlScan.delegate] at hdelegate
    cases hstack : st.stack with
    | nil =>
      rw [hstack] at hdelegate
      cases hdelegate
    | cons o stack =>
      rw [hstack] at hdelegate
      obtain rfl := Except.ok.inj hdelegate
      have holt : o < st.cf.endOf.length := by
        rw [h.endOf_length]
        exact (h.opened o (by rw [hstack]; exact List.mem_cons_self)).trans (List.getElem?_eq_some_iff.mp hi).1
      refine h.close hi rfl hstack ?_ ?_ ?_ fun o' i' hne _ _ => ?_
      · exact List.length_set.trans h.endOf_length
      · rfl
      · exact List.getElem?_set_self holt
      · exact List.getElem?_set_ne (Ne.symm hne)
  | end_ =>
    obtain rfl : st.end_ ir n = st' := Except.ok.inj hstep
    cases hstack : st.stack with
    | nil =>
      have hend : st.end_ ir n = st := by rw [ControlScan.end_, hstack]
      rw [hend]
      exact h.skip hi rfl (.inr hstack)
    | cons o stack =>
      rw [ControlScan.end_eq hstack, hstack, List.tail_cons]
      have holt : o < st.cf.endOf.length := by
        rw [h.endOf_length]
        exact (h.opened o (by rw [hstack]; exact List.mem_cons_self)).trans (List.getElem?_eq_some_iff.mp hi).1
      refine h.close hi rfl hstack ?_ ?_ ?_ fun o' i' hne hi' hopens => ?_
      · exact length_setAll.trans h.endOf_length
      · rfl
      · exact getElem?_setAll_of_mem List.mem_cons_self holt
      · exact getElem?_setAll_of_not_mem (h.not_mem_endSet hne hi' hopens)
  | _ =>
    obtain rfl := Except.ok.inj hstep
    exact h.skip hi rfl (.inl rfl)

/-- The rest of the pass. -/
theorem ScanEnds.run (h : ScanEnds ir n st) (hn : n ≤ ir.length)
    (hrun : ((ir.drop n).zipIdx n).foldlM (ControlScan.step ir) st = .ok st') : ScanEnds ir ir.length st' := by
  induction hk : ir.length - n generalizing n st with
  | zero =>
    obtain rfl : n = ir.length := by omega
    rw [List.drop_length] at hrun
    obtain rfl := Except.ok.inj hrun
    exact h
  | succ k ih =>
    have hlt : n < ir.length := by omega
    rw [List.drop_eq_getElem_cons hlt, List.zipIdx_cons, List.foldlM_cons] at hrun
    obtain ⟨st₁, hone, hrest⟩ := Except.bind_eq_ok.mp hrun
    exact ih (h.step (List.getElem?_eq_getElem hlt) hone) hlt hrest (by omega)

theorem ScanEnds.start (ir : List Instr) : ScanEnds ir 0 (.start ir) where
  endOf_length := List.length_replicate
  elseOf := by
    intro o p hget hne
    rw [ControlScan.start, List.getElem?_replicate] at hget
    split_ifs at hget
    exact absurd (Option.some.inj hget).symm hne
  catchPcs := nofun
  opened := nofun
  depths := nofun
  ended := nofun

end Ends

/-- In what the decoder takes nothing is left open. -/
theorem depthAfter_add {depth depth' : ℕ} {ir : List Instr} (h : depthAfter depth ir = some depth') (k : ℕ) :
    depthAfter (depth + k) ir = some (depth' + k) := by
  induction ir generalizing depth with
  | nil =>
    obtain rfl := Option.some.inj (show some depth = some depth' by cases depth <;> exact h)
    cases depth + k <;> rfl
  | cons i ir ih =>
    cases depth with
    | zero => cases h
    | succ depth =>
      obtain ⟨mid, hmid, hrest⟩ := Option.bind_eq_some_iff.mp h
      have hstep := controlDepth_add hmid k
      rw [show depth + 1 + k = depth + k + 1 by omega] at hstep ⊢
      rw [depthAfter, hstep]
      exact ih hrest

/-- The tables have the end of every construct of what the decoder takes, wherever the clauses stand. -/
theorem endOf_of_endsAtDepth {ir : List Instr} {cf : ControlFlow} (hends : endsAtDepth 1 ir = true)
    (hcf : precomputeControlFlow ir = .ok cf) {o : ℕ} {i : Instr} (hi : ir[o]? = some i)
    (hopens : i.opens.isSome = true) : ∃ e, EndsConstruct ir o e ∧ cf.endOf[o]? = some e := by
  obtain ⟨st, hrun, hst⟩ := Except.bind_eq_ok.mp hcf
  obtain rfl := Except.ok.inj hst
  have h := (ScanEnds.start ir).run (Nat.zero_le _) hrun
  have hlt : o < ir.length := (List.getElem?_eq_some_iff.mp hi).1
  rcases h.ended o hlt i hi hopens with hopen | ⟨e, -, hends, hget⟩
  · -- an open construct would leave the count above 0
    obtain ⟨j, hj, rfl⟩ := List.mem_iff_getElem.mp hopen
    have hrest := h.depths j _ (List.getElem?_eq_getElem hj)
    rw [List.take_length] at hrest
    rw [endsAtDepth_iff, ← List.take_append_drop (st.stack[j] + 1) ir, depthAfter_append, List.take_add_one, hi,
      Option.toList_some, depthAfter_append] at hends
    obtain ⟨mid, hmid, hends⟩ := Option.bind_eq_some_iff.mp hends
    obtain ⟨before, -, hmid⟩ := Option.bind_eq_some_iff.mp hmid
    cases before with
    | zero => cases hmid
    | succ before =>
      have hdepth : controlDepth (before + 1) i = some (1 + (before + 1)) := by
        rw [controlDepth, if_pos hopens, Nat.add_comm]
      rw [depthAfter, hdepth] at hmid
      obtain rfl := Option.some.inj hmid
      have := Option.some.inj ((depthAfter_add hrest (before + 1)).symm.trans hends)
      omega
  · exact ⟨e, hends, hget⟩

/-- The decoder takes a legacy `try` that has a handler and is closed by a `delegate`. The pass succeeds on
it, and the handler is in no table. -/
theorem handler_before_delegate :
    endsAtDepth 1 [.tryLegacy .empty, .catchAll, .delegate 0, .end_] = true ∧
      CatchAt [.tryLegacy .empty, .catchAll, .delegate 0, .end_] 1 0 ∧
      precomputeControlFlow [.tryLegacy .empty, .catchAll, .delegate 0, .end_] =
        .ok ⟨[2, 0, 0, 0], [4, 4, 4, 4], [some ⟨[], some 0⟩, none, none, none]⟩ := by
  refine ⟨by decide, isCatchOf_iff.mp (by decide), by decide⟩

end Wasmrt
