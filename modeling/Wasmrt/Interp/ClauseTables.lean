import Wasmrt.Interp.ControlTables

/-!
# The clauses in the control-flow tables

For a well nested body the pass over it succeeds, and its tables hold all there is to know of how its
constructs continue: for each opener its end, its own `else` if it has one, and for a legacy `try` its own
handlers in order or the label of its `delegate`.

## Main definitions

* `ownCatches`, `clauseAt`: the handlers of a legacy `try`, as positions and as entries of a table.
* `ControlFlow.Exact`: the tables hold exactly the clauses of each construct.

## Main results

* `precompute_exact`: the pass over a well nested body succeeds, with exact tables.
-/

namespace Wasmrt

/-! ## The clauses of a construct -/

/-- Is there a handler of the legacy `try` opened at `o`? -/
def isCatchOf (ir : List Instr) (o c : ℕ) : Bool := topAt ir c == some o && (ir[c]?).any Instr.isCatch

theorem isCatchOf_iff {ir : List Instr} {o c : ℕ} : isCatchOf ir o c = true ↔ CatchAt ir c o := by
  simp [isCatchOf, CatchAt, Option.any_eq_true]

/-- The positions of the handlers of the legacy `try` opened at `o`, below `n`. -/
def ownCatches (ir : List Instr) (o n : ℕ) : List ℕ := (List.range n).filter (isCatchOf ir o)

/-- The entry of a handler: its tag, and where it begins. -/
def clauseAt (ir : List Instr) (c : ℕ) : LegacyCatch where
  tag := match ir[c]? with
    | some (.catchLegacy tag) => some tag
    | _ => none
  handlerPc := c + 1

/-- What is recorded of the construct that is opened at `o` and closed at `e`. -/
def clausesOf (ir : List Instr) (o e : ℕ) : Option LegacyTry :=
  match ir[o]?, ir[e]? with
  | some (.tryLegacy _), some (.delegate label) => some ⟨[], some label⟩
  | some (.tryLegacy _), _ => some ⟨(ownCatches ir o e).map (clauseAt ir), none⟩
  | _, _ => none

/-- The tables hold exactly the clauses of each construct. -/
structure ControlFlow.Exact (ir : List Instr) (cf : ControlFlow) : Prop where
  /-- An opener and what continues it have the end of the construct. -/
  ended : ∀ o e p, ClosesAt ir e o → Belongs ir p o → cf.endOf[p]? = some e
  /-- An `if` has its own `else`. -/
  elses : ∀ o p, ElseAt ir p o → cf.elseOf[o]? = some p
  /-- A construct without an `else` has none. -/
  noElse : ∀ o < ir.length, (∀ p, ¬ ElseAt ir p o) → cf.elseOf[o]? = some ir.length
  /-- A legacy `try` has its own handlers in order, or its `delegate`; no other construct has any. -/
  clauses : ∀ o e, ClosesAt ir e o → cf.tryInfo[o]? = some (clausesOf ir o e)

section Catches

variable {ir : List Instr} {o n : ℕ}

theorem ownCatches_succ_of_catchAt (h : CatchAt ir n o) :
    ownCatches ir o (n + 1) = ownCatches ir o n ++ [n] := by
  rw [ownCatches, List.range_succ, List.filter_append, List.filter_singleton, isCatchOf_iff.mpr h]
  rfl

theorem ownCatches_succ_of_not (h : ¬ CatchAt ir n o) : ownCatches ir o (n + 1) = ownCatches ir o n := by
  rw [ownCatches, List.range_succ, List.filter_append, List.filter_singleton,
    Bool.eq_false_iff.mpr (isCatchOf_iff.not.mpr h)]
  exact List.append_nil _

/-- A construct has no handlers before it is opened. -/
theorem ownCatches_opener : ownCatches ir n (n + 1) = [] := by
  rw [ownCatches, List.filter_eq_nil_iff]
  intro c hc hcatch
  have := (isOpen_of_topAt (isCatchOf_iff.mp hcatch).1).lt
  have := List.mem_range.mp hc
  omega

end Catches

/-! ## The pass -/

/-- What more the pass has established before a position. -/
structure ScanClauses (ir : List Instr) (n : ℕ) (st : ControlScan) : Prop where
  tryInfo_length : st.cf.tryInfo.length = ir.length
  handlers : ∀ o hs, (o, hs) ∈ st.stack.zip st.handlers → hs = (ownCatches ir o n).map (clauseAt ir)
  elses : ∀ o p, p < n → ElseAt ir p o → st.cf.elseOf[o]? = some p
  noElse : ∀ o < ir.length, (∀ p < n, ¬ ElseAt ir p o) → st.cf.elseOf[o]? = some ir.length
  pending : ∀ o < ir.length, (∀ e < n, ¬ ClosesAt ir e o) → st.cf.tryInfo[o]? = some none
  clauses : ∀ o e, e < n → ClosesAt ir e o → st.cf.tryInfo[o]? = some (clausesOf ir o e)

section Scan

variable {ir : List Instr} {n : ℕ} {st st' : ControlScan}

/-- An instruction that is no clause and closes nothing. -/
theorem ScanClauses.skip (h : ScanClauses ir n st) (hcatch : ∀ o, ¬ CatchAt ir n o)
    (helse : ∀ o, ¬ ElseAt ir n o) (hcloses : ∀ o, ¬ ClosesAt ir n o) : ScanClauses ir (n + 1) st where
  tryInfo_length := h.tryInfo_length
  handlers := by
    intro o hs hmem
    rw [ownCatches_succ_of_not (hcatch o)]
    exact h.handlers o hs hmem
  elses := fun o p hp hp' => h.elses o p (hp'.lt_of_lt_succ (helse o) hp) hp'
  noElse := fun o ho hnone => h.noElse o ho fun p hp => hnone p (by omega)
  pending := fun o ho hnone => h.pending o ho fun e he => hnone e (by omega)
  clauses := fun o e he he' => h.clauses o e (he'.lt_of_lt_succ (hcloses o) he) he'

theorem ScanClauses.opener (h : ScanClauses ir n st) {i : Instr} {kind : FrameKind} (hi : ir[n]? = some i)
    (hopens : i.opens = some kind) : ScanClauses ir (n + 1) (st.opener n) := by
  have hskip := h.skip (fun o => CatchAt.not_of hi (by cases i <;> cases hopens <;> rfl))
    (fun o => ElseAt.not_of hi (by rintro rfl; cases hopens))
    (fun o => ClosesAt.not_of hi (by cases i <;> cases hopens <;> rfl))
  refine { hskip with handlers := ?_ }
  intro o hs hmem
  rcases List.mem_cons.mp hmem with heq | hmem
  · obtain ⟨rfl, rfl⟩ := Prod.mk.inj heq
    rw [ownCatches_opener]
    rfl
  · exact hskip.handlers o hs hmem

/-- An `if` goes on to its `else`. -/
theorem ScanClauses.else_ {top : Open} {rest : List Open} (h : ScanClauses ir n st)
    (hscan : ScanInv ir n (top :: rest) st) (hnest : nestAt ir n = some (top :: rest))
    (hi : ir[n]? = some .else_) (hkind : top.kind = .if_) :
    ∃ st', st.else_ n = .ok st' ∧ ScanClauses ir (n + 1) st' := by
  obtain ⟨o, ho⟩ := exists_opener hnest (by rw [hkind]; nofun)
  have hstack : st.stack = o :: rest.filterMap Open.opener := by
    rw [hscan.stack, List.filterMap_cons_some ho]
  have hn : ElseAt ir n o := ⟨topAt_eq_some.mpr ⟨top, rest, hnest, ho⟩, hi⟩
  have hlt : n < ir.length := (List.getElem?_eq_some_iff.mp hi).1
  have holt : o < n := (isOpen_of_topAt hn.1).lt
  refine ⟨_, by rw [ControlScan.else_, hstack], ?_⟩
  exact {
    tryInfo_length := h.tryInfo_length
    handlers := by
      intro o' hs hmem
      rw [ownCatches_succ_of_not (CatchAt.not_of hi rfl)]
      exact h.handlers o' hs (hstack ▸ hmem)
    elses := by
      intro o' p hp helse
      by_cases heq : o = o'
      · subst heq
        -- an `if` that has no `else` yet has this one only
        have hnew : ¬ p < n := fun hp =>
          not_continues_of_nestAt (j := 0) hnest rfl ho (.inl hkind) hp (continues_iff.mpr (.inl helse))
        obtain rfl : p = n := by omega
        exact List.getElem?_set_self (by rw [hscan.elseOf_length]; omega)
      · have hp : p < n := helse.lt_of_lt_succ (fun helse' =>
          heq (Option.some.inj (hn.1.symm.trans helse'.1))) hp
        exact (List.getElem?_set_ne heq).trans (h.elses o' p hp helse)
    noElse := by
      intro o' ho' hnone
      have hne : o ≠ o' := by
        rintro rfl
        exact hnone n (by omega) hn
      exact (List.getElem?_set_ne hne).trans (h.noElse o' ho' fun p hp => hnone p (by omega))
    pending := fun o' ho' hnone => h.pending o' ho' fun e he => hnone e (by omega)
    clauses := fun o' e he hcloses =>
      h.clauses o' e (hcloses.lt_of_lt_succ (ClosesAt.not_of hi rfl) he) hcloses }

/-- The tag that the pass reads off a handler. -/
def handlerTag : Instr → Option ℕ
  | .catchLegacy tag => some tag
  | _ => none

/-- A legacy `try` goes on to a handler. -/
theorem ScanClauses.catch_ {top : Open} {rest : List Open} (h : ScanClauses ir n st)
    (hscan : ScanInv ir n (top :: rest) st) {i : Instr} (hnest : nestAt ir n = some (top :: rest))
    (hi : ir[n]? = some i) (hcatch : i.isCatch = true)
    (hkind : top.kind = .tryLegacy ∨ top.kind = .catchLegacy) :
    ∃ st', st.catch_ (handlerTag i) n = .ok st' ∧ ScanClauses ir (n + 1) st' := by
  obtain ⟨o, ho⟩ := exists_opener hnest (by rintro heq; rw [heq] at hkind; rcases hkind with h | h <;> cases h)
  have hstack : st.stack = o :: rest.filterMap Open.opener := by
    rw [hscan.stack, List.filterMap_cons_some ho]
  have hn : CatchAt ir n o := ⟨topAt_eq_some.mpr ⟨top, rest, hnest, ho⟩, i, hi, hcatch⟩
  obtain ⟨hs, handlers, hhandlers⟩ := List.exists_cons_of_length_pos
    (show 0 < st.handlers.length by rw [hscan.handlers_length, hstack]; exact Nat.succ_pos _)
  obtain ⟨cps, catchPcs, hcatchPcs⟩ := List.exists_cons_of_length_pos
    (show 0 < st.catchPcs.length by rw [hscan.catchPcs_length, hstack]; exact Nat.succ_pos _)
  have hzip := h.handlers
  rw [hstack, hhandlers] at hzip
  have hother : ∀ {o'}, o' ∈ rest.filterMap Open.opener → ¬ CatchAt ir n o' := fun ho' hcatch' => by
    obtain rfl := Option.some.inj (hn.1.symm.trans hcatch'.1)
    exact not_mem_below hnest ho ho'
  have helse : ∀ o, ¬ ElseAt ir n o := fun o => ElseAt.not_of hi (by rintro rfl; cases hcatch)
  have hcloses : ∀ o, ¬ ClosesAt ir n o := fun o => ClosesAt.not_of hi (by cases i <;> cases hcatch <;> rfl)
  have hclause : clauseAt ir n = ⟨handlerTag i, n + 1⟩ := by
    rw [clauseAt, hi]
    cases i <;> cases hcatch <;> rfl
  refine ⟨_, by rw [ControlScan.catch_, hhandlers, hcatchPcs], ?_⟩
  exact {
    tryInfo_length := h.tryInfo_length
    handlers := by
      rw [hstack]
      intro o' hs' hmem
      rcases List.mem_cons.mp hmem with heq | hmem
      · obtain ⟨rfl, rfl⟩ := Prod.mk.inj heq
        rw [ownCatches_succ_of_catchAt hn, List.map_append, ← hzip _ _ List.mem_cons_self, List.map_singleton,
          hclause]
      · rw [ownCatches_succ_of_not (hother (List.of_mem_zip hmem).1)]
        exact hzip o' hs' (List.mem_cons_of_mem _ hmem)
    elses := fun o' p hp hp' => h.elses o' p (hp'.lt_of_lt_succ (helse o') hp) hp'
    noElse := fun o' ho' hnone => h.noElse o' ho' fun p hp => hnone p (by omega)
    pending := fun o' ho' hnone => h.pending o' ho' fun e he => hnone e (by omega)
    clauses := fun o' e he he' => h.clauses o' e (he'.lt_of_lt_succ (hcloses o') he) he' }

/-- The innermost open block is closed, and its clauses are recorded. -/
theorem ScanClauses.close (h : ScanClauses ir n st) {i : Instr} {o : ℕ} (hi : ir[n]? = some i)
    (hcloses : i.closes = true) (htop : topAt ir n = some o) {endOf : List ℕ}
    {tryInfo : List (Option LegacyTry)} (hlen : tryInfo.length = ir.length)
    (hset : tryInfo[o]? = some (clausesOf ir o n)) (hkeep : ∀ o', o' ≠ o → tryInfo[o']? = st.cf.tryInfo[o']?) :
    ScanClauses ir (n + 1) {
      cf := { st.cf with endOf, tryInfo }, stack := st.stack.tail, handlers := st.handlers.tail
      catchPcs := st.catchPcs.tail } := by
  have hclose : ClosesAt ir n o := ⟨htop, i, hi, hcloses⟩
  have helse : ∀ o, ¬ ElseAt ir n o := fun o => ElseAt.not_of hi (by rintro rfl; cases hcloses)
  exact {
    tryInfo_length := hlen
    handlers := by
      intro o' hs hmem
      rw [ownCatches_succ_of_not (CatchAt.not_of hi (by cases i <;> cases hcloses <;> rfl))]
      refine h.handlers o' hs ?_
      rw [← List.tail_zip] at hmem
      exact List.mem_of_mem_tail hmem
    elses := fun o' p hp hp' => h.elses o' p (hp'.lt_of_lt_succ (helse o') hp) hp'
    noElse := fun o' ho' hnone => h.noElse o' ho' fun p hp => hnone p (by omega)
    pending := by
      intro o' ho' hnone
      have hne : o' ≠ o := by
        rintro rfl
        exact hnone n (by omega) hclose
      rw [hkeep o' hne]
      exact h.pending o' ho' fun e he => hnone e (by omega)
    clauses := by
      intro o' e he hcloses'
      by_cases heq : o' = o
      · subst heq
        rw [hclose.unique hcloses'] at hset
        exact hset
      · rw [hkeep o' heq]
        refine h.clauses o' e (hcloses'.lt_of_lt_succ (fun hn => ?_) he) hcloses'
        exact heq (Option.some.inj (hn.1.symm.trans htop)) }

/-- A `delegate` closes a legacy `try`. -/
theorem ScanClauses.delegate {top : Open} {rest : List Open} (h : ScanClauses ir n st)
    (hscan : ScanInv ir n (top :: rest) st) {label : ℕ} (hnest : nestAt ir n = some (top :: rest))
    (hi : ir[n]? = some (.delegate label)) (hkind : top.kind = .tryLegacy) :
    ∃ st', st.delegate label n = .ok st' ∧ ScanClauses ir (n + 1) st' := by
  obtain ⟨o, ho⟩ := exists_opener hnest (by rw [hkind]; nofun)
  have htop : topAt ir n = some o := topAt_eq_some.mpr ⟨top, rest, hnest, ho⟩
  have hstack : st.stack = o :: rest.filterMap Open.opener := by
    rw [hscan.stack, List.filterMap_cons_some ho]
  have holt : o < ir.length := (isOpen_of_topAt htop).lt.trans (List.getElem?_eq_some_iff.mp hi).1
  obtain ⟨bt, hbt⟩ : ∃ bt, ir[o]? = some (.tryLegacy bt) := by
    obtain ⟨-, -, io, kind, hio, hopens, hpart⟩ := below_of_nestAt (j := 0) hnest rfl ho
    rw [hkind] at hpart
    rcases hpart with rfl | ⟨-, h⟩ | ⟨-, h⟩
    · cases io <;> cases hopens
      exact ⟨_, hio⟩
    · cases h
    · cases h
  refine ⟨_, by rw [ControlScan.delegate, hstack], ?_⟩
  have htail : st.stack.tail = rest.filterMap Open.opener := by rw [hstack, List.tail_cons]
  rw [← htail]
  refine h.close hi rfl htop (List.length_set.trans h.tryInfo_length) ?_
    (fun o' hne => List.getElem?_set_ne (Ne.symm hne))
  rw [List.getElem?_set_self (by rw [h.tryInfo_length]; exact holt), clausesOf, hbt, hi]

/-- The `end` of a block. -/
theorem ScanClauses.end_ {top : Open} {rest : List Open} (h : ScanClauses ir n st)
    (hscan : ScanInv ir n (top :: rest) st) (hnest : nestAt ir n = some (top :: rest))
    (hi : ir[n]? = some .end_) {o : ℕ} (ho : top.opener = some o) :
    ScanClauses ir (n + 1) (st.end_ ir n) := by
  have htop : topAt ir n = some o := topAt_eq_some.mpr ⟨top, rest, hnest, ho⟩
  have hstack : st.stack = o :: rest.filterMap Open.opener := by
    rw [hscan.stack, List.filterMap_cons_some ho]
  have holt : o < ir.length := (isOpen_of_topAt htop).lt.trans (List.getElem?_eq_some_iff.mp hi).1
  obtain ⟨hs, handlers, hhandlers⟩ := List.exists_cons_of_length_pos
    (show 0 < st.handlers.length by rw [hscan.handlers_length, hstack]; exact Nat.succ_pos _)
  have hown : hs = (ownCatches ir o n).map (clauseAt ir) :=
    h.handlers o hs (by rw [hstack, hhandlers]; exact List.mem_cons_self)
  rw [ControlScan.end_eq hstack, hhandlers, List.headD_cons, ← hhandlers]
  have hopen : ¬ ∃ e < n, ClosesAt ir e o := fun ⟨e, he, hcloses⟩ => by
    have := hcloses.le_of_isOpen (isOpen_of_topAt htop)
    omega
  refine h.close hi rfl htop ?_ ?_ ?_
  · rw [endTries]
    split_ifs
    · exact List.length_set.trans h.tryInfo_length
    · exact h.tryInfo_length
  · obtain ⟨io, hio⟩ : ∃ io, ir[o]? = some io := ⟨_, List.getElem?_eq_getElem holt⟩
    have hpending := h.pending o holt fun e he hcloses => hopen ⟨e, he, hcloses⟩
    rw [endTries, clausesOf, hio, hi]
    cases io with
    | tryLegacy bt =>
      simp only [if_true]
      rw [List.getElem?_set_self (by rw [h.tryInfo_length]; exact holt), hown]
    | _ => exact hpending
  · intro o' hne
    rw [endTries]
    split_ifs
    · exact List.getElem?_set_ne (Ne.symm hne)
    · rfl

/-- The `end` of the function. -/
theorem ScanClauses.endBody {top : Open} {rest : List Open} (h : ScanClauses ir n st)
    (hscan : ScanInv ir n (top :: rest) st) (hnest : nestAt ir n = some (top :: rest))
    (hi : ir[n]? = some .end_) (ho : top.opener = none) : ScanClauses ir (n + 1) (st.end_ ir n) := by
  have hrest : rest = [] := List.length_eq_zero_iff.mp (Nat.succ.inj (function_of_nestAt (j := 0) hnest rfl ho).2)
  subst hrest
  have hstack : st.stack = [] := by rw [hscan.stack, List.filterMap_cons_none ho]; rfl
  have hend : st.end_ ir n = st := by rw [ControlScan.end_, hstack]
  rw [hend]
  refine h.skip (fun o => CatchAt.not_of hi rfl) (fun o => ElseAt.not_of hi fun h => by cases h) fun o hcloses => ?_
  obtain ⟨top', rest', hnest', ho'⟩ := topAt_eq_some.mp hcloses.1
  obtain ⟨rfl, -⟩ := List.cons.inj (Option.some.inj (hnest.symm.trans hnest'))
  rw [ho] at ho'
  cases ho'

/-- One instruction of the pass succeeds. -/
theorem ScanClauses.step {nest nest' : List Open} (h : ScanClauses ir n st) (hscan : ScanInv ir n nest st)
    {i : Instr} (hnest : nestAt ir n = some nest) (hi : ir[n]? = some i) (hnext : NestStep n i nest nest') :
    ∃ st', st.step ir (i, n) = .ok st' ∧ ScanClauses ir (n + 1) st' := by
  cases hnext with
  | opener hopens =>
    have hst : st.step ir (i, n) = .ok (st.opener n) := by cases i <;> cases hopens <;> rfl
    exact ⟨_, hst, h.opener hi hopens⟩
  | flat hflat =>
    have hst : st.step ir (i, n) = .ok st := by cases i <;> cases hflat <;> rfl
    refine ⟨_, hst, h.skip (fun o => CatchAt.not_of hi ?_) (fun o => ElseAt.not_of hi ?_)
      (fun o => ClosesAt.not_of hi ?_)⟩
    · cases i <;> cases hflat <;> rfl
    · rintro rfl
      cases hflat
    · cases i <;> cases hflat <;> rfl
  | else_ helse heq hkind =>
    subst helse heq
    exact h.else_ hscan hnest hi hkind
  | catch_ hcatch heq hkind =>
    subst heq
    have hst : st.step ir (i, n) = st.catch_ (handlerTag i) n := by cases i <;> cases hcatch <;> rfl
    rw [hst]
    exact h.catch_ hscan hnest hi hcatch hkind
  | @closer top _ hcloses heq hdelegate =>
    subst heq
    cases i with
    | delegate label => exact h.delegate hscan hnest hi (hdelegate label rfl)
    | end_ =>
      cases ho : top.opener with
      | some o => exact ⟨_, rfl, h.end_ hscan hnest hi ho⟩
      | none => exact ⟨_, rfl, h.endBody hscan hnest hi ho⟩
    | _ => cases hcloses

/-- The rest of the pass succeeds. -/
theorem ScanClauses.run (hir : WellNested ir) {nest : List Open} (h : ScanClauses ir n st)
    (hscan : ScanInv ir n nest st) (hnest : nestAt ir n = some nest) (hn : n ≤ ir.length) :
    ∃ st', ((ir.drop n).zipIdx n).foldlM (ControlScan.step ir) st = .ok st' ∧
      ScanClauses ir ir.length st' := by
  induction hk : ir.length - n generalizing n nest st with
  | zero =>
    obtain rfl : n = ir.length := by omega
    rw [List.drop_length]
    exact ⟨st, rfl, h⟩
  | succ k ih =>
    have hlt : n < ir.length := by omega
    obtain ⟨after, hafter⟩ := exists_nestAt_of_le (show n + 1 ≤ ir.length from hlt) hir
    obtain ⟨i, before, hi, hbefore, -, hstep⟩ := nestAt_succ hafter
    obtain rfl := Option.some.inj (hnest.symm.trans hbefore)
    obtain rfl : ir[n] = i := Option.some.inj ((List.getElem?_eq_getElem hlt).symm.trans hi)
    obtain ⟨st₁, hone, hclauses⟩ := h.step hscan hnest hi hstep
    obtain ⟨st₂, hrest, hend⟩ := ih hclauses (hscan.step hnest hi hstep hone) hafter hlt (by omega)
    refine ⟨st₂, ?_, hend⟩
    rw [List.drop_eq_getElem_cons hlt, List.zipIdx_cons, List.foldlM_cons]
    exact Except.bind_eq_ok.mpr ⟨st₁, hone, hrest⟩

end Scan

/-- The pass over a well nested body succeeds, with exact tables. -/
theorem precompute_exact {ir : List Instr} (hir : WellNested ir) :
    ∃ cf, precomputeControlFlow ir = .ok cf ∧ cf.Exact ir := by
  have hstart : ScanClauses ir 0 (.start ir) := {
    tryInfo_length := List.length_replicate
    handlers := nofun
    elses := fun o p hp => by omega
    noElse := fun o ho _ => List.getElem?_replicate_of_lt ho
    pending := fun o ho _ => List.getElem?_replicate_of_lt ho
    clauses := fun o e he => by omega }
  obtain ⟨st, hrun, hclauses⟩ := hstart.run hir (.start ir) rfl (Nat.zero_le _)
  have hcf : precomputeControlFlow ir = .ok st.cf := Except.bind_eq_ok.mpr ⟨st, hrun, rfl⟩
  have hlt {p : ℕ} {i : Instr} (hi : ir[p]? = some i) : p < ir.length := (List.getElem?_eq_some_iff.mp hi).1
  refine ⟨st.cf, hcf, ?_⟩
  exact {
    ended := (ControlFlow.fits_of_precompute hir hcf).ended
    elses := fun o p hp => hclauses.elses o p (hlt hp.2) hp
    noElse := fun o ho hnone => hclauses.noElse o ho fun p _ => hnone p
    clauses := by
      intro o e hcloses
      obtain ⟨i, hi, -⟩ := hcloses.2
      exact hclauses.clauses o e (hlt hi) hcloses }

end Wasmrt
