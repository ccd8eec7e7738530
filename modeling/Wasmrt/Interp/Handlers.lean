import Wasmrt.Interp.Labels

/-!
# The handler an exception finds

Each open construct reacts to an exception in one way: a `try_table` by its first clause that takes it, a
legacy `try` by the first of its own handlers that takes it or by its `delegate`, unless one of its
handlers is running. The search goes outward from the innermost construct, and a `delegate` has it pass over
the labels up to its own. The interpreter's search of the labels of a frame is this one.

## Main definitions

* `Reaction`, `Reacts`: how an open construct reacts to an exception.
* `searchReactions`: the search, and how deep the construct is that takes the exception.

## Main results

* `findHandler_eq_search`: what the interpreter finds.
* `CallFrame.Placed.throwException`: a frame that takes an exception goes on with its open constructs.
-/

namespace Wasmrt

/-! ## Constructs -/

/-- What an open construct does about an exception: nothing, a clause of a `try_table` takes it, the handler at
a position takes it, or it is delegated to a label. -/
inductive Reaction
  | pass
  | clause (c : Catch)
  | handler (c : ℕ)
  | delegate (label : ℕ)
  deriving DecidableEq, Repr

/-- How an open construct reacts to an exception. -/
inductive Reacts (ir : List Instr) (tags : List ℕ) (exn : Exception) : Open → Reaction → Prop
  | function (kind : FrameKind) : Reacts ir tags exn ⟨none, kind⟩ .pass
  /-- A construct that is no `try`. -/
  | plain {o : ℕ} {i : Instr} {opened kind : FrameKind} (hi : ir[o]? = some i) (hopens : i.opens = some opened)
      (htable : opened ≠ .tryTable) (hlegacy : opened ≠ .tryLegacy) : Reacts ir tags exn ⟨some o, kind⟩ .pass
  | clause {o : ℕ} {bt : BlockType} {catches : List Catch} {kind : FrameKind} {c : Catch}
      (hi : ir[o]? = some (.tryTable bt catches)) (hfirst : catches.find? (·.takes tags exn) = some c) :
      Reacts ir tags exn ⟨some o, kind⟩ (.clause c)
  | noClause {o : ℕ} {bt : BlockType} {catches : List Catch} {kind : FrameKind}
      (hi : ir[o]? = some (.tryTable bt catches)) (hnone : catches.find? (·.takes tags exn) = none) :
      Reacts ir tags exn ⟨some o, kind⟩ .pass
  | handler {o e c : ℕ} {bt : BlockType} {kind : FrameKind} (hi : ir[o]? = some (.tryLegacy bt))
      (hkind : kind ≠ .catchLegacy) (he : ClosesAt ir e o) (hend : ir[e]? = some .end_)
      (hfirst : (ownCatches ir o e).find? (fun c => (clauseAt ir c).takes tags exn) = some c) :
      Reacts ir tags exn ⟨some o, kind⟩ (.handler c)
  | noHandler {o e : ℕ} {bt : BlockType} {kind : FrameKind} (hi : ir[o]? = some (.tryLegacy bt))
      (hkind : kind ≠ .catchLegacy) (he : ClosesAt ir e o) (hend : ir[e]? = some .end_)
      (hnone : (ownCatches ir o e).find? (fun c => (clauseAt ir c).takes tags exn) = none) :
      Reacts ir tags exn ⟨some o, kind⟩ .pass
  | delegate {o e label : ℕ} {bt : BlockType} {kind : FrameKind} (hi : ir[o]? = some (.tryLegacy bt))
      (he : ClosesAt ir e o) (hdelegate : ir[e]? = some (.delegate label)) :
      Reacts ir tags exn ⟨some o, kind⟩ (.delegate label)
  /-- A handler of the `try` is running. -/
  | handling {o e : ℕ} {bt : BlockType} (hi : ir[o]? = some (.tryLegacy bt)) (he : ClosesAt ir e o)
      (hend : ir[e]? = some .end_) : Reacts ir tags exn ⟨some o, .catchLegacy⟩ .pass

/-- The innermost construct that takes an exception, passing over the first `skip`: how deep it is, and how it
reacts. A `delegate` counts its labels from the construct around its `try`. -/
def searchReactions : ℕ → List Reaction → Option (ℕ × Reaction)
  | _, [] => none
  | skip + 1, _ :: rs => (searchReactions skip rs).map fun p => (p.1 + 1, p.2)
  | 0, .pass :: rs => (searchReactions 0 rs).map fun p => (p.1 + 1, p.2)
  | 0, .delegate label :: rs => (searchReactions label rs).map fun p => (p.1 + 1, p.2)
  | 0, r :: _ => some (0, r)

variable {m : Module} {E : ℕ → ℕ → Prop} {body : FuncBody} {tags : List ℕ} {exn : Exception}

/-! ## Labels -/

/-- The clauses of an instruction. -/
def Instr.clauses : Instr → List Catch
  | .tryTable _ catches => catches
  | _ => []

/-- The clauses and the handlers of a label are those of its construct. -/
theorem LabelOf.clauses_legacyTry (hcf : body.cf.Exact body.ir) {o e : ℕ} {kind opened : FrameKind} {i : Instr}
    {l : Label} (h : LabelOf m body E ⟨some o, kind⟩ l) (hi : body.ir[o]? = some i) (hopens : i.opens = some opened)
    (he : ClosesAt body.ir e o) : l.clauses body = i.clauses ∧ l.legacyTry body = clausesOf body.ir o e ∧
      (opened = .tryLegacy → (l.caught.isSome = true ↔ kind = .catchLegacy)) := by
  have htry := hcf.clauses o e he
  cases h with
  | loop hi' =>
    obtain rfl := Option.some.inj (hi.symm.trans hi')
    refine ⟨rfl, ?_, ?_⟩
    · rw [clausesOf, hi]
      rfl
    · rintro rfl
      cases hopens
  | block hi' hbt hopens' hloop he' hbase hcaught =>
    obtain rfl := Option.some.inj (hi.symm.trans hi')
    obtain rfl := Option.some.inj (hopens.symm.trans hopens')
    refine ⟨?_, ?_, fun _ => hcaught⟩
    · cases i <;> cases hopens <;> simp [Label.clauses, Instr.clauses, hi]
    · rw [Label.legacyTry]
      cases i <;> cases hopens <;> simp [clausesOf, hi, htry]

/-- The handler that a reaction of the construct of a label is. -/
def Reaction.toHandler (ir : List Instr) (d : ℕ) (l : Label) : Reaction → Option CallFrame.Handler
  | .clause c => some (.clause d l c)
  | .handler c => some (.legacy d l (clauseAt ir c))
  | _ => none

/-- The handler found at a label or, if its construct does not take the exception, outside it. -/
def Reaction.orOuter (ir : List Instr) (d skip : ℕ) (l : Label) (outer : ℕ → Option CallFrame.Handler) :
    Reaction → Option CallFrame.Handler
  | .pass => outer skip
  | .delegate label => outer (d + 1 + label)
  | r => r.toHandler ir d l

/-- A legacy `try` with an `end` has its own handlers. -/
theorem clausesOf_end {ir : List Instr} {o e : ℕ} {bt : BlockType} (hi : ir[o]? = some (.tryLegacy bt))
    (hend : ir[e]? = some .end_) : clausesOf ir o e = some ⟨(ownCatches ir o e).map (clauseAt ir), none⟩ := by
  rw [clausesOf, hi, hend]

/-- One with a `delegate` has its label. -/
theorem clausesOf_delegate {ir : List Instr} {o e label : ℕ} {bt : BlockType} (hi : ir[o]? = some (.tryLegacy bt))
    (hdelegate : ir[e]? = some (.delegate label)) : clausesOf ir o e = some ⟨[], some label⟩ := by
  rw [clausesOf, hi, hdelegate]

/-- What the search of the labels does at the label of a construct. -/
theorem findHandler_cons (hcf : body.cf.Exact body.ir) {o : Open} {l : Label} (hol : LabelOf m body E o l)
    {r : Reaction} (hr : Reacts body.ir tags exn o r) {d skip : ℕ} (hd : ¬ d < skip) (ls : List Label) :
    findHandler body tags exn d skip (l :: ls) =
      r.orOuter body.ir d skip l fun skip => findHandler body tags exn (d + 1) skip ls := by
  rw [findHandler, if_neg hd]
  cases hr with
  | function kind =>
    cases hol
    rfl
  | plain hi hopens htable hlegacy =>
    cases hol with
    | loop => rfl
    | block hi' _ hopens' =>
      obtain rfl := Option.some.inj (hi.symm.trans hi')
      obtain rfl := Option.some.inj (hopens.symm.trans hopens')
      simp [Label.clauses, Label.legacyTry, htable, hlegacy, Reaction.orOuter]
  | clause hi hfirst =>
    cases hol with
    | loop hi' => cases hi.symm.trans hi'
    | block hi' _ hopens' =>
      obtain rfl := Option.some.inj (hi.symm.trans hi')
      obtain rfl := Option.some.inj hopens'
      simp [Label.clauses, hi, hfirst, Reaction.orOuter, Reaction.toHandler]
  | noClause hi hnone =>
    cases hol with
    | loop hi' => cases hi.symm.trans hi'
    | block hi' _ hopens' =>
      obtain rfl := Option.some.inj (hi.symm.trans hi')
      obtain rfl := Option.some.inj hopens'
      simp only [Label.clauses, Label.legacyTry, if_true, Option.bind_some, hi, hnone, reduceCtorEq, if_false,
        Option.bind_none, Reaction.orOuter]
  | handler hi hkind he hend hfirst =>
    obtain ⟨hclauses, htry, hcaught⟩ := hol.clauses_legacyTry hcf hi rfl he
    have hnot : l.caught.isSome = false := Bool.eq_false_iff.mpr fun h => hkind ((hcaught rfl).mp h)
    rw [hclauses, htry, clausesOf_end hi hend]
    simp [Instr.clauses, hnot, List.find?_map, Function.comp_def, hfirst, Reaction.orOuter, Reaction.toHandler]
  | noHandler hi hkind he hend hnone =>
    obtain ⟨hclauses, htry, hcaught⟩ := hol.clauses_legacyTry hcf hi rfl he
    have hnot : l.caught.isSome = false := Bool.eq_false_iff.mpr fun h => hkind ((hcaught rfl).mp h)
    rw [hclauses, htry, clausesOf_end hi hend]
    simp [Instr.clauses, hnot, List.find?_map, Function.comp_def, hnone, Reaction.orOuter]
  | delegate hi he hdelegate =>
    obtain ⟨hclauses, htry, -⟩ := hol.clauses_legacyTry hcf hi rfl he
    rw [hclauses, htry, clausesOf_delegate hi hdelegate]
    rfl
  | handling hi he hend =>
    obtain ⟨hclauses, htry, hcaught⟩ := hol.clauses_legacyTry hcf hi rfl he
    rw [hclauses, htry, clausesOf_end hi hend]
    simp [Instr.clauses, (hcaught rfl).mpr rfl, Reaction.orOuter]

/-- The search of the labels of a frame is the search of its open constructs. -/
theorem findHandler_eq_search (hcf : body.cf.Exact body.ir) {nest : List Open} {rs : List Reaction}
    (hreacts : List.Forall₂ (Reacts body.ir tags exn) nest rs) {labels : List Label}
    (h : List.Forall₂ (LabelOf m body E) nest labels) (d skip : ℕ) :
    findHandler body tags exn d skip labels = (searchReactions (skip - d) rs).bind fun p =>
      (labels[p.1]?).bind fun l => p.2.toHandler body.ir (d + p.1) l := by
  induction h generalizing rs d skip with
  | nil =>
    cases hreacts
    rfl
  | @cons o l nest labels hol hrest ih =>
    cases hreacts with
    | @cons _ r _ rs hr hreacts =>
      have houter (skip' : ℕ) : findHandler body tags exn (d + 1) skip' labels =
          ((searchReactions (skip' - (d + 1)) rs).map fun p => (p.1 + 1, p.2)).bind fun p =>
            ((l :: labels)[p.1]?).bind fun l => p.2.toHandler body.ir (d + p.1) l := by
        rw [ih hreacts, Option.bind_map]
        simp only [Function.comp_def, List.getElem?_cons_succ, Nat.add_right_comm d 1, Nat.add_assoc]
      by_cases hd : d < skip
      · obtain ⟨k, hk⟩ : ∃ k, skip - d = k + 1 := ⟨skip - d - 1, by omega⟩
        rw [findHandler, if_pos hd, houter, hk, searchReactions, show skip - (d + 1) = k by omega]
      · rw [findHandler_cons hcf hol hr hd, Nat.sub_eq_zero_of_le (by omega)]
        cases r with
        | pass =>
          rw [Reaction.orOuter, houter, searchReactions, Nat.sub_eq_zero_of_le (by omega)]
        | delegate label =>
          rw [Reaction.orOuter, houter, searchReactions, Nat.add_sub_cancel_left]
        | clause c | handler c => rfl

/-! ## What the search finds -/

/-- The search finds a construct that takes the exception, by a clause or in a handler. -/
theorem searchReactions_eq_some {skip k : ℕ} {rs : List Reaction} {r : Reaction}
    (h : searchReactions skip rs = some (k, r)) :
    rs[k]? = some r ∧ ((∃ c, r = .clause c) ∨ ∃ c, r = .handler c) := by
  induction rs generalizing skip k with
  | nil => cases skip <;> cases h
  | cons r' rs ih =>
    have hlater : ∀ {skip'}, (searchReactions skip' rs).map (fun p => (p.1 + 1, p.2)) = some (k, r) →
        (r' :: rs)[k]? = some r ∧ ((∃ c, r = .clause c) ∨ ∃ c, r = .handler c) := fun h => by
      obtain ⟨p, hp, heq⟩ := Option.map_eq_some_iff.mp h
      obtain ⟨rfl, rfl⟩ := Prod.mk.inj heq
      exact ih hp
    cases skip with
    | succ skip => exact hlater h
    | zero =>
      cases r' with
      | pass | delegate label => exact hlater h
      | clause c =>
        obtain ⟨rfl, rfl⟩ := Prod.mk.inj (Option.some.inj h)
        exact ⟨rfl, .inl ⟨c, rfl⟩⟩
      | handler c =>
        obtain ⟨rfl, rfl⟩ := Prod.mk.inj (Option.some.inj h)
        exact ⟨rfl, .inr ⟨c, rfl⟩⟩

section Reacts

variable {ir : List Instr} {n : ℕ} {nest : List Open}

/-- An open construct reacts. -/
theorem exists_reacts (hir : WellNested ir) (hnest : nestAt ir n = some nest) {j : ℕ} {top : Open}
    (htop : nest[j]? = some top) : ∃ r, Reacts ir tags exn top r := by
  obtain ⟨opener, kind⟩ := top
  cases opener with
  | none => exact ⟨_, .function kind⟩
  | some o =>
    obtain ⟨-, -, i, opened, hi, hopens, -⟩ := below_of_nestAt hnest htop rfl
    cases i with
    | tryTable bt catches =>
      cases hfirst : catches.find? (·.takes tags exn) with
      | some c => exact ⟨_, .clause hi hfirst⟩
      | none => exact ⟨_, .noClause hi hfirst⟩
    | tryLegacy bt =>
      have hopen : IsOpen ir n o := ⟨nest, hnest, List.mem_map.mpr ⟨_, List.mem_of_getElem? htop, rfl⟩⟩
      obtain ⟨e, he⟩ := hopen.exists_closesAt hir
      obtain ⟨ie, hie, hcloses⟩ := he.2
      cases ie with
      | delegate label => exact ⟨_, .delegate hi he hie⟩
      | end_ =>
        by_cases hkind : kind = .catchLegacy
        · subst hkind
          exact ⟨_, .handling hi he hie⟩
        · cases hfirst : (ownCatches ir o e).find? (fun c => (clauseAt ir c).takes tags exn) with
          | some c => exact ⟨_, .handler hi hkind he hie hfirst⟩
          | none => exact ⟨_, .noHandler hi hkind he hie hfirst⟩
      | _ => cases hcloses
    | block _ | loop _ | if_ _ =>
      obtain rfl := Option.some.inj hopens
      exact ⟨_, .plain hi rfl nofun nofun⟩
    | _ => cases hopens

/-- All of them do. -/
theorem exists_forall₂_reacts (hir : WellNested ir) (hnest : nestAt ir n = some nest) :
    ∃ rs, List.Forall₂ (Reacts ir tags exn) nest rs := by
  have hall : ∀ top ∈ nest, ∃ r, Reacts ir tags exn top r := fun top hmem => by
    obtain ⟨j, hj, rfl⟩ := List.mem_iff_getElem.mp hmem
    exact exists_reacts hir hnest (List.getElem?_eq_getElem hj)
  clear hnest
  induction nest with
  | nil => exact ⟨[], .nil⟩
  | cons top rest ih =>
    obtain ⟨r, hr⟩ := hall top List.mem_cons_self
    obtain ⟨rs, hrs⟩ := ih fun t ht => hall t (List.mem_cons_of_mem _ ht)
    exact ⟨r :: rs, .cons hr hrs⟩

end Reacts

/-! ## Where a frame goes on -/

/-- A legacy `try` that goes on to a handler remembers what it caught. -/
theorem LabelOf.catching {o : ℕ} {kind : FrameKind} {bt : BlockType} {l : Label}
    (h : LabelOf m body E ⟨some o, kind⟩ l) (hi : body.ir[o]? = some (.tryLegacy bt)) (exn : Exception) :
    LabelOf m body E ⟨some o, .catchLegacy⟩ { l with caught := some exn } := by
  cases h with
  | loop hi' => cases hi.symm.trans hi'
  | block hi' hbt hopens hloop he hbase _ => exact .block hi' hbt hopens hloop he hbase (by simp)

/-- In a handler there is open what was open at its `try`, which is in its handler. -/
theorem CatchAt.nestAt_succ {ir : List Instr} (hir : WellNested ir) {c o : ℕ} (h : CatchAt ir c o)
    {nest : List Open} (hnest : nestAt ir o = some nest) :
    nestAt ir (c + 1) = some (⟨some o, .catchLegacy⟩ :: nest) := by
  obtain ⟨htop, i, hi, hcatch⟩ := h
  obtain ⟨top, hc, ho⟩ := exists_nestAt_of_topAt htop hnest
  have hlt : c < ir.length := (List.getElem?_eq_some_iff.mp hi).1
  obtain ⟨after, hafter⟩ := exists_nestAt_of_le (show c + 1 ≤ ir.length from hlt) hir
  obtain ⟨i', before, hi', hbefore, -, hstep⟩ := Wasmrt.nestAt_succ hafter
  obtain rfl := Option.some.inj (hi.symm.trans hi')
  obtain rfl := Option.some.inj (hc.symm.trans hbefore)
  rw [hafter]
  cases hstep with
  | catch_ _ heq _ =>
    obtain ⟨rfl, rfl⟩ := List.cons.inj heq
    rw [ho]
  | opener h => cases i <;> cases hcatch <;> cases h
  | closer h => cases i <;> cases hcatch <;> cases h
  | else_ h =>
    subst h
    cases hcatch
  | flat h => cases i <;> cases hcatch <;> cases h

namespace CallFrame

/-- The operands above a height, cut off. -/
def lower (frame : CallFrame) (base : ℕ) : List Value := frame.vstack.drop (frame.vstack.length - base)

/-- The operands a clause binds, the last on top: the payload if it names a tag, and then the reference if it
asks for one. -/
def clauseOperands (exn : Exception) (ref : ℕ) (c : Catch) : List Value :=
  match c.kind with
  | .catchTag => exn.values.reverse
  | .catchRef => BitVec.ofNat 128 ref :: exn.values.reverse
  | .catchAll => []
  | .catchAllRef => [BitVec.ofNat 128 ref]

/-- The operands a handler binds. -/
def handlerOperands (exn : Exception) (h : LegacyCatch) : List Value :=
  if h.tag.isSome then exn.values.reverse else []

variable {frame : CallFrame} {pc : ℕ} {nest : List Open} {x x' : Exec} {r : Resume}

theorem unwindTo_eq (base : ℕ) : frame.unwindTo base =
    if base ≤ frame.vstack.length then .ok (frame.truncate base) else .error .stackUnderflow := by
  by_cases h : base ≤ frame.vstack.length
  · rw [if_pos h]
    simp only [unwindTo, h, decide_true]
    rfl
  · rw [if_neg h]
    simp only [unwindTo, h, decide_false]
    rfl

/-- A legacy handler begins with what it binds on the operands below its `try`. -/
theorem enterLegacy_eq (d : ℕ) (l : Label) (h : LegacyCatch) : frame.enterLegacy exn d l h x =
    if l.stackBase ≤ frame.vstack.length then
      .ok ⟨h.handlerPc, { frame with
        vstack := handlerOperands exn h ++ frame.lower l.stackBase
        labels := { l with caught := some exn } :: frame.labels.drop (d + 1) }, []⟩ x
    else .error .stackUnderflow x := by
  simp only [enterLegacy, unwindTo_eq]
  by_cases hbase : l.stackBase ≤ frame.vstack.length
  · simp only [hbase, if_true]
    cases htag : h.tag <;> simp [handlerOperands, htag, truncate, lower, extend]
  · simp only [hbase, if_false]

/-- A clause with a reference boxes the exception, if there is room. -/
theorem box_eq : box exn x = if x.exnStore.length < x.runLimits.maxExnBoxes then
    .ok (BitVec.ofNat 128 x.exnStore.length, { x with exnStore := x.exnStore ++ [exn] })
    else .error .exnStoreExhausted := by
  by_cases h : x.exnStore.length < x.runLimits.maxExnBoxes
  · rw [if_pos h]
    simp only [box, h, decide_true]
    rfl
  · rw [if_neg h]
    simp only [box, h, decide_false]
    rfl

/-- A clause branches, with what it binds on the operands below its `try_table`, to a label counted from the scope
around it. -/
theorem enterClause_eq (d : ℕ) (l : Label) (c : Catch) : frame.enterClause exn d l c x =
    if l.stackBase ≤ frame.vstack.length then
      if c.kind = .catchRef ∨ c.kind = .catchAllRef then
        if x.exnStore.length < x.runLimits.maxExnBoxes then
          { frame with vstack := clauseOperands exn x.exnStore.length c ++ frame.lower l.stackBase }.branchOut
            (d + 1 + c.label) [.capture (BitVec.ofNat 128 x.exnStore.length) exn]
            { x with exnStore := x.exnStore ++ [exn] }
        else .error .exnStoreExhausted x
      else { frame with vstack := clauseOperands exn x.exnStore.length c ++ frame.lower l.stackBase }.branchOut
        (d + 1 + c.label) [] x
    else .error .stackUnderflow x := by
  simp only [enterClause, unwindTo_eq]
  by_cases hbase : l.stackBase ≤ frame.vstack.length
  · simp only [hbase, if_true, box_eq]
    cases hkind : c.kind with
    | catchTag | catchAll => simp [clauseOperands, hkind, truncate, lower, extend]
    | catchRef | catchAllRef =>
      by_cases hroom : x.exnStore.length < x.runLimits.maxExnBoxes <;>
        simp [hroom, clauseOperands, hkind, truncate, lower, extend]
  · simp only [hbase, if_false]

theorem branchOut_eq_ok {n : ℕ} {events : List Event} (h : frame.branchOut n events x = .ok r x') :
    ∃ r', frame.branch n x = .ok (r', x') ∧ r.pc = r'.pc ∧ r.frame = r'.frame := by
  unfold branchOut at h
  split_ifs at h
  cases hbranch : frame.branch n x with
  | error t =>
    rw [hbranch] at h
    cases h
  | ok p =>
    rw [hbranch] at h
    cases h
    exact ⟨p.1, rfl, rfl, rfl⟩

/-- Where a frame goes on by a clause. -/
theorem enterClause_eq_ok {d : ℕ} {l : Label} {c : Catch} (h : frame.enterClause exn d l c x = .ok r x') :
    l.stackBase ≤ frame.vstack.length ∧ ∃ x₁ r', r.pc = r'.pc ∧ r.frame = r'.frame ∧
      { frame with vstack := clauseOperands exn x.exnStore.length c ++ frame.lower l.stackBase }.branch
        (d + 1 + c.label) x₁ = .ok (r', x') := by
  rw [enterClause_eq] at h
  split_ifs at h with hbase href hroom
  · obtain ⟨r', hbranch, hpc, hframe⟩ := branchOut_eq_ok h
    exact ⟨hbase, _, r', hpc, hframe, hbranch⟩
  · obtain ⟨r', hbranch, hpc, hframe⟩ := branchOut_eq_ok h
    exact ⟨hbase, _, r', hpc, hframe, hbranch⟩

/-- Where a frame goes on at the construct that takes an exception, the `k`-th with this label. -/
def enterHandler (frame : CallFrame) (exn : Exception) (k : ℕ) (l : Label) : Reaction → EStateM Trap Exec Resume
  | .clause c => frame.enterClause exn k l c
  | .handler c => frame.enterLegacy exn k l (clauseAt frame.body.ir c)
  | _ => throw .unsupportedInstruction

/-- A frame goes on at the construct the search finds. -/
theorem throwException_eq (hcf : frame.body.cf.Exact frame.body.ir) {rs : List Reaction}
    (hreacts : List.Forall₂ (Reacts frame.body.ir tags exn) nest rs)
    (h : List.Forall₂ (LabelOf m frame.body E) nest frame.labels) :
    (searchReactions 0 rs = none ∧ frame.throwException tags exn x = .ok none x) ∨
      ∃ k r l o, searchReactions 0 rs = some (k, r) ∧ nest[k]? = some o ∧ frame.labels[k]? = some l ∧
        Reacts frame.body.ir tags exn o r ∧ LabelOf m frame.body E o l ∧
          frame.throwException tags exn x = (some <$> frame.enterHandler exn k l r) x := by
  have hfind := findHandler_eq_search hcf hreacts h 0 0
  cases hsearch : searchReactions 0 rs with
  | none =>
    rw [hsearch] at hfind
    exact .inl ⟨rfl, by simp only [throwException, hfind]; rfl⟩
  | some p =>
    obtain ⟨k, r⟩ := p
    obtain ⟨hk, hr⟩ := searchReactions_eq_some hsearch
    obtain ⟨hkrs, hkr⟩ := List.getElem?_eq_some_iff.mp hk
    have hknest : k < nest.length := by rw [hreacts.length_eq]; exact hkrs
    have hklabels : k < frame.labels.length := by rw [← h.length_eq]; exact hknest
    have hreact := hreacts.get hknest hkrs
    have hlabel := h.get hknest hklabels
    simp only [List.get_eq_getElem, hkr] at hreact hlabel
    rw [hsearch] at hfind
    simp only [Option.bind_some, List.getElem?_eq_getElem hklabels, Nat.zero_add] at hfind
    refine .inr ⟨k, r, frame.labels[k], nest[k], rfl, List.getElem?_eq_getElem hknest,
      List.getElem?_eq_getElem hklabels, hreact, hlabel, ?_⟩
    rcases hr with ⟨c, rfl⟩ | ⟨c, rfl⟩
    · simp only [throwException, hfind, Reaction.toHandler, enterHandler, Functor.map, EStateM.map]
      cases frame.enterClause exn k frame.labels[k] c x <;> rfl
    · simp only [throwException, hfind, Reaction.toHandler, enterHandler, Functor.map, EStateM.map]
      cases frame.enterLegacy exn k frame.labels[k] (clauseAt frame.body.ir c) x <;> rfl

/-- After an exception is taken the labels are those of the constructs open where the frame goes on. -/
theorem Placed.enterHandler (hir : WellNested frame.body.ir) {n : ℕ} (hnest : nestAt frame.body.ir n = some nest)
    (h : List.Forall₂ (LabelOf m frame.body E) nest frame.labels) {k : ℕ} {o : Open} {l : Label} {re : Reaction}
    (hk : nest[k]? = some o) (hl : frame.labels[k]? = some l) (hre : Reacts frame.body.ir tags exn o re)
    (henter : frame.enterHandler exn k l re x = .ok r x') : r.frame.body = frame.body ∧ r.frame.Placed m E r.pc := by
  cases hre with
  | clause hi hfirst =>
    obtain ⟨-, x₁, r', hpc, hframe, hbranch⟩ := enterClause_eq_ok henter
    rw [hpc, hframe]
    have hplaced := Placed.branch (m := m) (E := E) (by exact hir) (by exact hnest) (by exact h) hbranch
    exact hplaced
  | @handler o e c bt kind hi hkind he hend hfirst =>
    obtain ⟨o', ho', hol, hrest⟩ := exists_open_of_label h hl
    obtain rfl := Option.some.inj (hk.symm.trans ho')
    have hbelow := (below_of_nestAt hnest hk rfl).2.1
    have hcatch : CatchAt frame.body.ir c o := isCatchOf_iff.mp (List.mem_filter.mp (List.mem_of_find?_eq_some hfirst)).2
    rw [CallFrame.enterHandler, enterLegacy_eq] at henter
    split_ifs at henter
    cases henter
    exact ⟨rfl, .of_forall₂ hir (hcatch.nestAt_succ hir hbelow) (.cons (hol.catching hi exn) hrest)⟩
  | _ => cases henter

/-- An exception that is taken is taken at an open construct. -/
theorem throwException_eq_some (hir : WellNested frame.body.ir) (hcf : frame.body.cf.Exact frame.body.ir) {n : ℕ}
    (hnest : nestAt frame.body.ir n = some nest) (h : List.Forall₂ (LabelOf m frame.body E) nest frame.labels)
    (hthrow : frame.throwException tags exn x = .ok (some r) x') :
    ∃ k re l o, nest[k]? = some o ∧ frame.labels[k]? = some l ∧ Reacts frame.body.ir tags exn o re ∧
      frame.enterHandler exn k l re x = .ok r x' := by
  obtain ⟨rs, hreacts⟩ : ∃ rs, List.Forall₂ (Reacts frame.body.ir tags exn) nest rs := exists_forall₂_reacts hir hnest
  rcases throwException_eq (x := x) hcf hreacts h with ⟨-, heq⟩ | ⟨k, re, l, o, -, hk, hl, hre, -, heq⟩
  · rw [heq] at hthrow
    cases hthrow
  · rw [heq] at hthrow
    simp only [Functor.map, EStateM.map] at hthrow
    cases henter : frame.enterHandler exn k l re x with
    | error t y =>
      rw [henter] at hthrow
      cases hthrow
    | ok r' y =>
      rw [henter] at hthrow
      cases hthrow
      exact ⟨k, re, l, o, hk, hl, hre, henter⟩

/-- And so they are when the frame takes an exception. -/
theorem Placed.throwException (hir : WellNested frame.body.ir) (hcf : frame.body.cf.Exact frame.body.ir) {n : ℕ}
    (hnest : nestAt frame.body.ir n = some nest) (h : List.Forall₂ (LabelOf m frame.body E) nest frame.labels)
    (hthrow : frame.throwException tags exn x = .ok (some r) x') :
    r.frame.body = frame.body ∧ r.frame.Placed m E r.pc := by
  obtain ⟨k, re, l, o, hk, hl, hre, henter⟩ := throwException_eq_some hir hcf hnest h hthrow
  exact Placed.enterHandler hir hnest h hk hl hre henter

/-- A frame that takes an exception keeps its body and its locals. -/
theorem frame_of_throwException (h : frame.throwException tags exn x = .ok (some r) x') :
    r.frame.body = frame.body ∧ r.frame.locals = frame.locals := by
  unfold throwException at h
  cases hfind : findHandler frame.body tags exn 0 0 frame.labels with
  | none =>
    rw [hfind] at h
    cases h
  | some handler =>
    rw [hfind] at h
    cases handler with
    | clause d l c =>
      simp only at h
      cases henter : frame.enterClause exn d l c x with
      | error t y =>
        rw [henter] at h
        cases h
      | ok r' y =>
        rw [henter] at h
        cases h
        obtain ⟨-, x₁, r', -, hframe, hbranch⟩ := enterClause_eq_ok henter
        obtain ⟨l, -, -, -, hframe'⟩ := branch_eq_ok hbranch
        rw [hframe, hframe']
        exact ⟨rfl, rfl⟩
    | legacy d l c =>
      simp only [enterLegacy_eq] at h
      split_ifs at h
      cases h
      exact ⟨rfl, rfl⟩

/-- An instruction raises an exception that the frame takes, -/
theorem raise_eq_ok (h : frame.raise tags exn x = .ok r x') : frame.throwException tags exn x = .ok (some r) x' := by
  unfold raise at h
  cases hthrow : frame.throwException tags exn x with
  | error t y =>
    rw [hthrow] at h
    cases h
  | ok o y =>
    rw [hthrow] at h
    cases o <;> cases h
    rfl

/-- or one comes out of a call. -/
theorem onCallError_eq_ok {t : Trap} (h : frame.onCallError tags t x = .ok r x') :
    ∃ exn, t = .uncaughtException ∧ x.pendingExn = some exn ∧
      frame.throwException tags exn { x with pendingExn := none } = .ok (some r) x' := by
  unfold onCallError at h
  split_ifs at h with huncaught
  cases hpending : x.pendingExn with
  | none =>
    rw [hpending] at h
    cases h
  | some exn =>
    rw [hpending] at h
    simp only at h
    refine ⟨exn, not_not.mp huncaught, rfl, ?_⟩
    cases hthrow : frame.throwException tags exn { x with pendingExn := none } with
    | error t y =>
      rw [hthrow] at h
      cases h
    | ok o y =>
      rw [hthrow] at h
      cases o <;> cases h
      rfl

end CallFrame

end Wasmrt
