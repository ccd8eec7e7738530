import Wasmrt.Interp.LocalInit

/-!
# What becomes of an exception

In a run of accepted modules an exception goes to the construct that the search of the open ones finds, in the
frame that raises it and, while it is pending, in each caller in turn. A handler begins with the payload on the
operands below its `try`. A clause branches with the payload and, if it asks for one, a reference. What may come
instead are the traps of the checks on the way, each for its own reason.

## Main definitions

* `CallFrame.Dispatched`: what a frame does about an exception.
* `Config.dispatch`: how the machine goes on after that.

## Main results

* `Activation.Placed.dispatches`: what an activation does about an exception.
* `exceptions_dispatched`: exceptions that are raised, and those that come out of calls.
-/

namespace Wasmrt

/-! ## Types of labels -/

/-- The types of a block have the numbers of operands the interpreter counts. -/
theorem blockSig_arity {cx : FuncContext} {bt : BlockType} {sig : Sig} (h : blockSig cx bt = .ok sig) :
    sig.pop.length = blockArity cx.module bt true ∧ sig.push.length = blockArity cx.module bt false := by
  cases bt with
  | empty =>
    cases h
    exact ⟨rfl, rfl⟩
  | typeIndex ti =>
    obtain ⟨ft, hft, h⟩ := Except.bind_eq_ok.mp h
    have hsig : sig = ⟨ft.params, ft.results⟩ := by
      split_ifs at h
      · obtain ⟨_, -, h⟩ := Except.bind_eq_ok.mp h
        exact (Except.pure_eq_ok.mp h).symm
      · exact (Except.pure_eq_ok.mp h).symm
    subst hsig
    rw [blockArity, blockArity, orError_eq_ok.mp hft]
    exact ⟨rfl, rfl⟩
  | _ =>
    obtain ⟨t, -, h⟩ := Except.bind_eq_ok.mp h
    cases h
    exact ⟨rfl, rfl⟩

/-- A branch to an open construct carries as many operands as the label of its frame has types. -/
theorem Continuation.arity_eq {cx : FuncContext} {body : FuncBody} {E : ℕ → ℕ → Prop} {init : Option ℕ → List Bool}
    {n j : ℕ} {nest : List Open} {o : Open} {f : Frame} {pc arity height : ℕ} (hresults : body.ty.results = cx.results)
    (hnest : nestAt body.ir n = some nest) (ho : nest[j]? = some o) (hf : Open.Matches cx body.ir init o f)
    (h : Continuation cx.module body E o pc arity height) : f.labelTypes.length = arity := by
  cases h with
  | function kind =>
    have hkind : f.kind ≠ .loop := by
      rw [hf.kind, (function_of_nestAt hnest ho rfl).1]
      nofun
    rw [Frame.labelTypes, if_neg hkind, hf.function rfl, hresults]
  | @loop o base bt hi hbase kind =>
    obtain ⟨-, -, i, opened, hi', hopens, hpart⟩ := below_of_nestAt hnest ho rfl
    obtain rfl := Option.some.inj (hi.symm.trans hi')
    obtain rfl := Option.some.inj hopens
    have hkind : kind = .loop := by
      rcases hpart with hpart | ⟨h, -⟩ | ⟨h, -⟩
      · exact hpart
      · cases h
      · cases h
    obtain ⟨sig, hsig, -, hstart⟩ := hf.typed _ _ _ rfl hi rfl
    rw [Frame.labelTypes, if_pos (hf.kind.trans hkind), hstart (by rw [hkind]; nofun)]
    exact (blockSig_arity hsig).1
  | @block o e base i bt opened hi hbt hopens hloop he hbase kind =>
    obtain ⟨-, -, i', opened', hi', hopens', hpart⟩ := below_of_nestAt hnest ho rfl
    obtain rfl := Option.some.inj (hi.symm.trans hi')
    obtain rfl := Option.some.inj (hopens.symm.trans hopens')
    have hkind : kind ≠ .loop := by
      rintro rfl
      rcases hpart with hpart | ⟨-, h⟩ | ⟨-, h⟩
      · exact hloop hpart.symm
      · cases h
      · cases h
    obtain ⟨sig, hsig, hend, -⟩ := hf.typed _ _ _ rfl hi hbt
    rw [Frame.labelTypes, if_neg fun h => hkind (hf.kind.symm.trans h), hend]
    exact (blockSig_arity hsig).2

/-- The payload of an exception is that of its tag, as a module knows it. -/
def Exception.Fits (m : Module) (tags : List ℕ) (exn : Exception) : Prop :=
  ∀ tag ft, m.tagType tag = some ft → IndexMaps.get tags tag = exn.tag → exn.values.length = ft.params.length

/-- A label of a clause has the types of what the clause binds. -/
theorem checkCatch_arity {cx : FuncContext} {c : Catch} {lt : List ValType} (h : checkCatch cx c lt = .ok ⟨⟩)
    {tags : List ℕ} {exn : Exception} (htakes : c.takes tags exn = true) (hfits : exn.Fits cx.module tags) (ref : ℕ) :
    (CallFrame.clauseOperands exn ref c).length = lt.length := by
  unfold checkCatch at h
  unfold Catch.takes at htakes
  unfold CallFrame.clauseOperands
  cases hkind : c.kind with
  | catchTag =>
    simp only [hkind, Except.bind_eq_ok, ensure_eq_ok] at h htakes ⊢
    obtain ⟨ft, hft, hmatch⟩ := h
    rw [FuncContext.matchTypes, Bool.and_eq_true, beq_iff_eq] at hmatch
    rw [List.length_reverse, hfits _ _ (orError_eq_ok.mp hft) (beq_iff_eq.mp htakes), hmatch.1]
  | catchRef =>
    simp only [hkind, Except.bind_eq_ok, ensure_eq_ok] at h htakes ⊢
    obtain ⟨ft, hft, _, hlen, -⟩ := h
    rw [beq_iff_eq] at hlen
    rw [List.length_cons, List.length_reverse, hfits _ _ (orError_eq_ok.mp hft) (beq_iff_eq.mp htakes), hlen]
  | catchAll =>
    simp only [hkind, ensure_eq_ok, List.isEmpty_iff] at h ⊢
    rw [h]
    rfl
  | catchAllRef =>
    simp only [hkind, ensure_eq_ok, Bool.and_eq_true, beq_iff_eq] at h ⊢
    rw [h.1, List.length_singleton]

/-! ## One frame -/

/-- Does a clause ask for a reference? -/
def Catch.asksRef (c : Catch) : Bool :=
  match c.kind with
  | .catchRef | .catchAllRef => true
  | .catchTag | .catchAll => false

/-- The state of the invocation once a clause has boxed an exception, if it asks for a reference. -/
def Exec.boxFor (x : Exec) (exn : Exception) (c : Catch) : Exec :=
  if c.asksRef then { x with exnStore := x.exnStore ++ [exn] } else x

namespace CallFrame

/-- A frame with what a clause binds on the operands at a height. -/
def bind (frame : CallFrame) (exn : Exception) (ref : ℕ) (c : Catch) (base : ℕ) : CallFrame :=
  { frame with vstack := clauseOperands exn ref c ++ frame.lower base }

/-- What a frame does about an exception, by what its open constructs do. -/
inductive Dispatched (m : Module) (tags : List ℕ) (E : ℕ → ℕ → Prop) (nest : List Open) (rs : List Reaction)
    (frame : CallFrame) (exn : Exception) (x : Exec) : EStateM.Result Trap Exec (Option Resume) → Prop
  | uncaught (hsearch : searchReactions 0 rs = none) : Dispatched m tags E nest rs frame exn x (.ok none x)
  /-- A handler begins with the payload on the operands below its `try`, whose label is now the innermost. -/
  | handler {k o c base : ℕ} {kind : FrameKind} {l : Label} (hsearch : searchReactions 0 rs = some (k, .handler c))
      (ho : nest[k]? = some ⟨some o, kind⟩) (hl : frame.labels[k]? = some l) (hbase : E o base)
      (hle : base ≤ frame.vstack.length) :
      Dispatched m tags E nest rs frame exn x (.ok (some ⟨c + 1, { frame with
        vstack := handlerOperands exn (clauseAt frame.body.ir c) ++ frame.lower base
        labels := { l with caught := some exn } :: frame.labels.drop (k + 1) }, []⟩) x)
  /-- A clause branches, from the scope around its `try_table`, with what it binds. -/
  | clause {k o base pc arity height : ℕ} {c : Catch} {kind : FrameKind} {target : Open} {r : Resume} {x' : Exec}
      (hsearch : searchReactions 0 rs = some (k, .clause c)) (ho : nest[k]? = some ⟨some o, kind⟩) (hbase : E o base)
      (hle : base ≤ frame.vstack.length) (htarget : nest[k + 1 + c.label]? = some target)
      (hcontinues : Continuation m frame.body E target pc arity height)
      (hfits : exn.Fits m tags → (clauseOperands exn x.exnStore.length c).length = arity)
      (hpc : r.pc = pc) (hlabels : r.frame.Placed m E pc)
      (hvstack : r.frame.vstack = (frame.bind exn x.exnStore.length c base).vstack.take arity ++
        (frame.bind exn x.exnStore.length c base).lower height)
      (hx : x' = x.boxFor exn c ∨ (x.boxFor exn c).tick = .ok x') : Dispatched m tags E nest rs frame exn x (.ok (some r) x')
  /-- There are not the operands there were below the construct. -/
  | underflow {k o base : ℕ} {re : Reaction} {kind : FrameKind} (hsearch : searchReactions 0 rs = some (k, re))
      (ho : nest[k]? = some ⟨some o, kind⟩) (hbase : E o base) (hlt : frame.vstack.length < base) :
      Dispatched m tags E nest rs frame exn x (.error .stackUnderflow x)
  /-- There is no room for the box. -/
  | full {k : ℕ} {c : Catch} (hsearch : searchReactions 0 rs = some (k, .clause c)) (href : c.asksRef = true)
      (hfull : x.runLimits.maxExnBoxes ≤ x.exnStore.length) :
      Dispatched m tags E nest rs frame exn x (.error .exnStoreExhausted x)
  /-- There are not the operands the branch carries, on those there were below its construct. -/
  | short {k o base pc arity height : ℕ} {c : Catch} {kind : FrameKind} {target : Open}
      (hsearch : searchReactions 0 rs = some (k, .clause c)) (ho : nest[k]? = some ⟨some o, kind⟩) (hbase : E o base)
      (htarget : nest[k + 1 + c.label]? = some target) (hcontinues : Continuation m frame.body E target pc arity height)
      (hlt : (frame.bind exn x.exnStore.length c base).vstack.length < arity + height) :
      Dispatched m tags E nest rs frame exn x (.error .stackUnderflow (x.boxFor exn c))
  /-- The branch goes back to a loop, and the invocation may not go on any longer. -/
  | exhausted {k : ℕ} {c : Catch} {t : Trap} (hsearch : searchReactions 0 rs = some (k, .clause c))
      (htick : (x.boxFor exn c).tick = .error t) :
      Dispatched m tags E nest rs frame exn x (.error t (x.boxFor exn c))

/-- What a branch comes to. -/
theorem branch_cases {frame : CallFrame} {n : ℕ} {l : Label} {x : Exec} (hl : frame.labels[n]? = some l) :
    (frame.vstack.length < l.arity + l.stackBase ∧ frame.branch n x = .error .stackUnderflow) ∨
      (∃ t, x.tick = .error t ∧ frame.branch n x = .error t) ∨
        ∃ r x', frame.branch n x = .ok (r, x') ∧ (x' = x ∨ x.tick = .ok x') := by
  unfold branch
  rw [orError_eq_ok.mpr hl]
  by_cases harity : l.arity ≤ frame.vstack.length
  · have hheight : frame.stackBase l.arity = .ok (frame.vstack.length - l.arity) := by
      simp only [stackBase, harity, decide_true]
      rfl
    change (_ ∧ (frame.stackBase l.arity >>= _) = _) ∨ (∃ t, _ ∧ (frame.stackBase l.arity >>= _) = _) ∨
      ∃ r x', (frame.stackBase l.arity >>= _) = _ ∧ _
    rw [hheight]
    by_cases hbase : l.stackBase ≤ frame.vstack.length - l.arity
    · right
      change (∃ t, _ ∧ (ensure (decide (l.stackBase ≤ frame.vstack.length - l.arity)) _ >>= _) = _) ∨
        ∃ r x', (ensure (decide (l.stackBase ≤ frame.vstack.length - l.arity)) _ >>= _) = _ ∧ _
      rw [decide_eq_true hbase]
      cases hloop : l.isLoop with
      | true =>
        cases htick : x.tick with
        | error t => exact .inl ⟨t, rfl, rfl⟩
        | ok x' => exact .inr ⟨_, x', rfl, .inr rfl⟩
      | false => exact .inr ⟨_, x, rfl, .inl rfl⟩
    · refine .inl ⟨by omega, ?_⟩
      change (ensure (decide (l.stackBase ≤ frame.vstack.length - l.arity)) _ >>= _) = _
      rw [decide_eq_false hbase]
      rfl
  · refine .inl ⟨by omega, ?_⟩
    change (frame.stackBase l.arity >>= _) = _
    rw [stackBase, decide_eq_false harity]
    rfl

end CallFrame

/-- The clauses of the `try_table`s among some open constructs have labels, which take what the clauses bind. -/
def ClausesFit (m : Module) (tags : List ℕ) (body : FuncBody) (E : ℕ → ℕ → Prop) (nest : List Open) : Prop :=
  ∀ (k o : ℕ) (kind : FrameKind) (bt : BlockType) (catches : List Catch) (c : Catch),
    nest[k]? = some ⟨some o, kind⟩ → body.ir[o]? = some (.tryTable bt catches) → c ∈ catches →
      k + 1 + c.label ≤ 2 ^ 32 - 1 ∧ ∃ target, nest[k + 1 + c.label]? = some target ∧
        ∀ (exn : Exception) (ref pc arity height : ℕ), c.takes tags exn = true → exn.Fits m tags →
          Continuation m body E target pc arity height → (CallFrame.clauseOperands exn ref c).length = arity

namespace CallFrame

variable {m : Module} {tags : List ℕ} {E : ℕ → ℕ → Prop} {nest : List Open} {rs : List Reaction} {frame : CallFrame}
  {exn : Exception} {x : Exec} {n k o : ℕ} {kind : FrameKind} {l : Label}

/-- Going on at a legacy handler. -/
theorem dispatched_handler {c : ℕ} (hsearch : searchReactions 0 rs = some (k, .handler c))
    (ho : nest[k]? = some ⟨some o, kind⟩) (hl : frame.labels[k]? = some l) (hbase : E o l.stackBase) :
    Dispatched m tags E nest rs frame exn x ((some <$> frame.enterHandler exn k l (.handler c)) x) := by
  simp only [Functor.map, EStateM.map, enterHandler, enterLegacy_eq]
  by_cases hle : l.stackBase ≤ frame.vstack.length
  · rw [if_pos hle]
    exact .handler hsearch ho hl hbase hle
  · rw [if_neg hle]
    exact .underflow hsearch ho hbase (not_le.mp hle)

/-- A clause that has bound what it binds branches. -/
theorem dispatched_branchOut {c : Catch} {target : Open} {lt : Label} (events : List Event)
    (hir : WellNested frame.body.ir) (hnest : nestAt frame.body.ir n = some nest) (h : List.Forall₂ (LabelOf m frame.body E) nest frame.labels)
    (hsearch : searchReactions 0 rs = some (k, .clause c)) (ho : nest[k]? = some ⟨some o, kind⟩)
    {base : ℕ} (hbase : E o base) (hle : base ≤ frame.vstack.length) (htarget : nest[k + 1 + c.label]? = some target)
    (hlt : frame.labels[k + 1 + c.label]? = some lt) (hof : LabelOf m frame.body E target lt)
    (hbound : k + 1 + c.label ≤ 2 ^ 32 - 1)
    (hfits : exn.Fits m tags → (clauseOperands exn x.exnStore.length c).length = lt.arity) :
    Dispatched m tags E nest rs frame exn x ((some <$> (frame.bind exn x.exnStore.length c base).branchOut
      (k + 1 + c.label) events) (x.boxFor exn c)) := by
  have hl : (frame.bind exn x.exnStore.length c base).labels[k + 1 + c.label]? = some lt := hlt
  simp only [Functor.map, EStateM.map, branchOut, if_pos hbound]
  rcases branch_cases (x := x.boxFor exn c) hl with ⟨hshort, heq⟩ | ⟨t, htick, heq⟩ | ⟨r, x', heq, hx⟩
  · rw [heq]
    exact .short hsearch ho hbase htarget hof.continuation hshort
  · rw [heq]
    exact .exhausted hsearch htick
  · obtain ⟨l', hl', hpc, -, hframe⟩ := branch_eq_ok heq
    obtain rfl := Option.some.inj (hl.symm.trans hl')
    obtain ⟨-, hplaced⟩ := Placed.branch (m := m) (E := E) (by exact hir) (by exact hnest) (by exact h) heq
    rw [hpc] at hplaced
    rw [heq]
    exact .clause hsearch ho hbase hle htarget hof.continuation hfits hpc hplaced (by rw [hframe]; rfl) hx

/-- Going on at a clause. -/
theorem dispatched_clause {c : Catch} {target : Open} {lt : Label} (hir : WellNested frame.body.ir)
    (hnest : nestAt frame.body.ir n = some nest) (h : List.Forall₂ (LabelOf m frame.body E) nest frame.labels)
    (hsearch : searchReactions 0 rs = some (k, .clause c)) (ho : nest[k]? = some ⟨some o, kind⟩)
    (hbase : E o l.stackBase) (htarget : nest[k + 1 + c.label]? = some target)
    (hlt : frame.labels[k + 1 + c.label]? = some lt) (hof : LabelOf m frame.body E target lt)
    (hbound : k + 1 + c.label ≤ 2 ^ 32 - 1)
    (hfits : exn.Fits m tags → (clauseOperands exn x.exnStore.length c).length = lt.arity) :
    Dispatched m tags E nest rs frame exn x ((some <$> frame.enterHandler exn k l (.clause c)) x) := by
  have hbranch := fun hle events => dispatched_branchOut events hir hnest h hsearch ho hbase hle htarget hlt hof hbound
    hfits
  simp only [Functor.map, EStateM.map, enterHandler, enterClause_eq]
  by_cases hle : l.stackBase ≤ frame.vstack.length
  · rw [if_pos hle]
    by_cases href : c.kind = .catchRef ∨ c.kind = .catchAllRef
    · have hasks : c.asksRef = true := by
        unfold Catch.asksRef
        rcases href with hkind | hkind <;> rw [hkind]
      rw [if_pos href]
      by_cases hroom : x.exnStore.length < x.runLimits.maxExnBoxes
      · rw [if_pos hroom]
        have hbranch := hbranch hle [.capture (BitVec.ofNat 128 x.exnStore.length) exn]
        rw [Exec.boxFor, if_pos hasks] at hbranch
        exact hbranch
      · rw [if_neg hroom]
        exact .full hsearch hasks (not_lt.mp hroom)
    · have hasks : c.asksRef = false := by
        unfold Catch.asksRef
        cases hkind : c.kind with
        | catchTag | catchAll => rfl
        | catchRef => exact absurd (.inl hkind) href
        | catchAllRef => exact absurd (.inr hkind) href
      rw [if_neg href]
      have hbranch := hbranch hle []
      rw [Exec.boxFor, hasks] at hbranch
      exact hbranch
  · rw [if_neg hle]
    exact .underflow hsearch ho hbase (not_le.mp hle)

/-- What a frame does about an exception, whose labels are those of the constructs open there. -/
theorem dispatched (hir : WellNested frame.body.ir) (hcf : frame.body.cf.Exact frame.body.ir)
    (hnest : nestAt frame.body.ir n = some nest) (h : List.Forall₂ (LabelOf m frame.body E) nest frame.labels)
    (hfit : ClausesFit m tags frame.body E nest) :
    ∃ rs, List.Forall₂ (Reacts frame.body.ir tags exn) nest rs ∧
      Dispatched m tags E nest rs frame exn x (frame.throwException tags exn x) := by
  obtain ⟨rs, hreacts⟩ : ∃ rs, List.Forall₂ (Reacts frame.body.ir tags exn) nest rs := exists_forall₂_reacts hir hnest
  refine ⟨rs, hreacts, ?_⟩
  rcases throwException_eq (x := x) hcf hreacts h with ⟨hnone, heq⟩ | ⟨k, re, l, top, hsearch, hk, hl, hre, hol, heq⟩
  · rw [heq]
    exact .uncaught hnone
  · rw [heq]
    obtain ⟨-, ⟨c, rfl⟩ | ⟨c, rfl⟩⟩ := searchReactions_eq_some hsearch
    · cases hre with
      | @clause o bt catches kind _ hi hfirst =>
        obtain ⟨hbound, target, htarget, harity⟩ :=
          hfit k o kind bt catches c hk hi (List.mem_of_find?_eq_some hfirst)
        have htakes := List.find?_some hfirst
        have hlen : k + 1 + c.label < frame.labels.length := by
          rw [← h.length_eq]
          exact (List.getElem?_eq_some_iff.mp htarget).1
        have hlt := List.getElem?_eq_getElem hlen
        obtain ⟨target', htarget', hof, -⟩ := exists_open_of_label h hlt
        obtain rfl := Option.some.inj (htarget.symm.trans htarget')
        cases hol with
        | loop hi' => cases hi.symm.trans hi'
        | block _ _ _ _ _ hbase _ =>
          exact dispatched_clause hir hnest h hsearch hk hbase htarget hlt hof hbound fun hfits =>
            harity exn _ _ _ _ htakes hfits hof.continuation
    · cases hre with
      | handler hi =>
        cases hol with
        | loop hi' => cases hi.symm.trans hi'
        | block _ _ _ _ _ hbase _ => exact dispatched_handler hsearch hk hl hbase

end CallFrame

/-! ## Accepted bodies -/

/-- In a body that is accepted the clauses have labels, which take what they bind. -/
theorem Takes.clausesFit {cx : FuncContext} {body : FuncBody} {s : FuncValidator} {n : ℕ} {nest : List Open}
    (hs : Takes cx body.ir s) (hresults : body.ty.results = cx.results) (hnest : nestAt body.ir n = some nest)
    (tags : List ℕ) (E : ℕ → ℕ → Prop) : ClausesFit cx.module tags body E nest := by
  intro k o kind bt catches c hk hi hc
  obtain ⟨-, hbelow, -⟩ := below_of_nestAt hnest hk rfl
  obtain ⟨t', ht', -⟩ := hs.exists_checkerAt (show o + 1 ≤ body.ir.length from (List.getElem?_eq_some_iff.mp hi).1)
  obtain ⟨t, i, v, ht, hi', -, hstep⟩ := checkerAt_succ ht'
  obtain rfl := Option.some.inj (hi.symm.trans hi')
  obtain ⟨around, haround, hmatches⟩ := hs.matches ht
  obtain rfl := Option.some.inj (hbelow.symm.trans haround)
  obtain ⟨f, hf, hcheck⟩ := tryTable_clauses hstep c hc
  -- the label of a clause is counted from the scope around its construct
  obtain ⟨hlt, -⟩ := List.getElem?_eq_some_iff.mp hf
  rw [← hmatches.length_eq] at hlt
  have htarget := List.getElem?_eq_getElem hlt
  have hof := hmatches.get hlt (List.getElem?_eq_some_iff.mp hf).1
  simp only [List.get_eq_getElem, (List.getElem?_eq_some_iff.mp hf).2] at hof
  rw [List.getElem?_drop] at htarget
  refine ⟨?_, _, htarget, fun exn ref pc arity height htakes hfits hcontinues => ?_⟩
  · have hlength := hs.length_le hnest
    have hbound := (List.getElem?_eq_some_iff.mp htarget).1
    rw [maxCtrlDepth] at hlength
    omega
  · rw [checkCatch_arity hcheck htakes hfits, hcontinues.arity_eq hresults hnest htarget hof]

section Runs

variable {W : Type} {env : Env W} {d : InstanceData} {h : Executed} {a : Activation}

/-- So they do in what an activation runs. -/
theorem Activation.RunsBody.clausesFit (henv : env.Accepted) (ha : a.RunsBody env) (hd : env.code[a.inst]? = some d)
    {n : ℕ} {nest : List Open} (hnest : nestAt a.frame.body.ir n = some nest) (E : ℕ → ℕ → Prop) :
    ClausesFit d.module d.maps.tags a.frame.body E nest := by
  obtain ⟨d', hd', -, hbody⟩ := ha
  obtain rfl := Option.some.inj (hd.symm.trans hd')
  obtain ⟨ti, ft, code, refs, features, -, -, -, hir, hft, hvalid, -⟩ := henv.body (List.mem_of_getElem? hd) hbody
  obtain ⟨s, hs, -⟩ := takes_of_validateFunction hvalid
  rw [hir] at hs
  exact hs.clausesFit (by rw [← hft]; rfl) hnest d.maps.tags E

/-- How the machine goes on once a frame has dealt with an exception. One that no construct takes is pending. -/
def Config.dispatch (c : Config W) (a : Activation) (exn : Exception) : EStateM.Result Trap Exec (Option Resume) → Config W
  | .ok (some r) x => { c with control := .run (a.resume r), exec := x }
  | .ok none x => { c with control := .fail .uncaughtException, exec := { x with pendingExn := some exn } }
  | .error t x => { c with control := .fail t, exec := x }

theorem Config.dispatch_raise (c : Config W) (a : Activation) (tags : List ℕ) (exn : Exception) (st : PlainState)
    (es : List Event) : (applyFlow c a tags (.raise exn st es)).2 =
      c.dispatch a exn ((a.goTo st a.pc).frame.throwException tags exn c.exec) := by
  simp only [applyFlow, Config.andThen, CallFrame.raise]
  cases (a.goTo st a.pc).frame.throwException tags exn c.exec with
  | error t x => rfl
  | ok r x => cases r <;> rfl

theorem Config.dispatch_onCallError (c : Config W) (a : Activation) (tags : List ℕ) {exn : Exception}
    (hpending : c.exec.pendingExn = some exn) :
    (c.andThen (a.frame.onCallError tags .uncaughtException c.exec) fun r => (r.events, .run (a.resume r))).2 =
      c.dispatch a exn (a.frame.throwException tags exn { c.exec with pendingExn := none }) := by
  simp only [Config.andThen, CallFrame.onCallError, hpending]
  cases a.frame.throwException tags exn { c.exec with pendingExn := none } with
  | error t x => rfl
  | ok r x => cases r <;> rfl

/-- What is done about an exception where an activation is. -/
def Activation.Dispatches (a : Activation) (d : InstanceData) (h : Executed) (frame : CallFrame) (exn : Exception)
    (x : Exec) (res : EStateM.Result Trap Exec (Option Resume)) : Prop :=
  ∃ nest rs, nestAt a.frame.body.ir a.pc = some nest ∧ List.Forall₂ (Reacts a.frame.body.ir d.maps.tags exn) nest rs ∧
    CallFrame.Dispatched d.module d.maps.tags (EnteredWith d.module a.frame.body.ir h) nest rs frame exn x res

theorem Activation.Placed.dispatches (henv : env.Accepted) (ha : a.Placed env d h) (hbody : a.RunsBody env) {i : Instr}
    (hi : a.frame.body.ir[a.pc]? = some i) (hopens : i.isFlat = true) (st : List Value × List Value) (exn : Exception)
    (x : Exec) : a.Dispatches d h { a.frame with locals := st.1, vstack := st.2 } exn x
      (CallFrame.throwException { a.frame with locals := st.1, vstack := st.2 } d.maps.tags exn x) := by
  obtain ⟨nest, hnest, -, hlabels⟩ := ha.placed.forall₂ hi (by cases i <;> cases hopens <;> rfl)
  have hfit := hbody.clausesFit henv ha.code hnest (EnteredWith d.module a.frame.body.ir h)
  generalize hframe : { a.frame with locals := st.1, vstack := st.2 } = frame
  have hbodyEq : frame.body = a.frame.body := by rw [← hframe]
  have hlabelsEq : frame.labels = a.frame.labels := by rw [← hframe]
  rw [← hbodyEq] at hnest hlabels hfit
  rw [← hlabelsEq] at hlabels
  obtain ⟨rs, hreacts, hdispatched⟩ := CallFrame.dispatched (by rw [hbodyEq]; exact ha.nested)
    (by rw [hbodyEq]; exact ha.exact) hnest hlabels hfit
  rw [hbodyEq] at hnest hreacts hdispatched
  exact ⟨nest, rs, hnest, hreacts, hdispatched⟩

/-- In a run of accepted modules an exception that an instruction raises is dealt with where the activation is, and
one that is pending where the innermost caller is. -/
theorem exceptions_dispatched {W : Type} (env : Env W) (henv : env.Accepted) (c : Config W) (hs : List Executed)
    (htraced : Config.Traced env c hs) :
    (∀ (a : Activation) (d : InstanceData) (i : Instr) (exn : Exception) (st : PlainState) (es : List Event),
      c.control = .run a → env.code[a.inst]? = some d → a.frame.body.ir[a.pc]? = some i →
        flow env.ops a.inst d c.exec env.code a.frame a.pc i = .ok (.raise exn st es) →
          ∃ h rest res, hs = h :: rest ∧ a.Dispatches d h (a.goTo st a.pc).frame exn c.exec res ∧
            (c.step env).map Prod.snd = some (c.dispatch a exn res)) ∧
    ∀ (s : Suspended) (waiting : List Suspended) (exn : Exception), c.control = .fail .uncaughtException →
      c.stack = s :: waiting → c.exec.pendingExn = some exn →
        ∃ d h rest res, env.code[s.activation.inst]? = some d ∧ hs = h :: rest ∧
          s.activation.Dispatches d h s.activation.frame exn { c.exec with pendingExn := none } res ∧
            (c.step env).map Prod.snd = some (({ c with stack := waiting } : Config W).dispatch s.activation exn res) := by
  constructor
  · intro a d i exn st es hc hd hi hfl
    obtain ⟨h, rest, rfl, ⟨d', ha⟩, -⟩ := (Activation.placed_invariant henv.prepared).of_run htraced hc
    obtain ⟨_, _, heq, hbody, -⟩ := (Activation.body_invariant env).of_run htraced hc
    obtain ⟨rfl, rfl⟩ := List.cons.inj heq
    obtain rfl := Option.some.inj (hd.symm.trans ha.code)
    have hflat : i.isFlat = true := by
      cases flow_of hfl with
      | raise hflat => exact hflat
    refine ⟨h, rest, _, rfl, ha.dispatches henv hbody hi hflat (st.locals, st.vstack) exn c.exec, ?_⟩
    rw [Config.step, hc]
    simp only [stepRun, hi, hd, hfl, Option.map_some]
    rw [Config.dispatch_raise]
    rfl
  · intro s waiting exn hc hstack hpending
    have hnot : ∀ a, c.control ≠ .run a := by
      rw [hc]
      nofun
    have hplaced := (Activation.placed_invariant henv.prepared).of_waiting htraced hnot
    have hbodies := (Activation.body_invariant env).of_waiting htraced hnot
    rw [hstack] at hplaced hbodies
    cases hplaced with
    | @cons h _ rest _ hplaced _ =>
      cases hbodies with
      | cons hbody _ =>
        obtain ⟨d, i, ha, hi, hflat⟩ := hplaced
        have hdispatches := ha.dispatches henv hbody hi hflat (s.activation.frame.locals, s.activation.frame.vstack) exn
          { c.exec with pendingExn := none }
        refine ⟨d, h, rest, _, ha.code, rfl, hdispatches, ?_⟩
        have htags : tagsOf env s.activation.inst = d.maps.tags := by
          rw [tagsOf, ha.code]
          rfl
        rw [Config.step, hc, hstack]
        simp only [Option.map_some, htags]
        exact congrArg some (Config.dispatch_onCallError ⟨.fail .uncaughtException, waiting, c.exec, c.world⟩ s.activation
          d.maps.tags hpending)

end Runs

/-- A body that throws inside a `try_table`, whose clause asks for a reference. -/
def throwsInside : Code where
  locals := []
  ir := [.tryTable (.value (.ref .exn true)) [⟨.catchAllRef, 0, 0⟩], .throw 0, .end_, .end_]

def throwsInsideModule : Module :=
  { decoded [[⟨true, none, {}, .func [] [.ref true .exn]⟩], [⟨true, none, {}, .func [] []⟩]] with
    functions := [0], tags := [1], code := [throwsInside] }

def throwsInsideEnv : Env Unit where
  code := [{
    module := throwsInsideModule, typeIds := []
    funcBodies := [⟨⟨[], [.ref .exn true]⟩, 0, [], throwsInside.ir, ⟨[2, 0, 0, 0], [4, 4, 4, 4], [none, none, none, none]⟩⟩]
    maps := { tags := [0] } }]
  ops := .unsupported

theorem accepted_throwsInsideEnv : throwsInsideEnv.Accepted := by
  intro d hd
  obtain rfl := List.mem_singleton.mp hd
  exact ⟨⟨List.length, .all, by decide⟩, by decide⟩

/-- The body is called within some limits. -/
def throwsInsideCall (limits : RunLimits) : Config Unit where
  control := .call 0 0 [] 0
  stack := []
  exec := { runLimits := limits }
  world := ()

/-- The body at its throw. -/
def throwsInsideRun (limits : RunLimits) : Config Unit := ((throwsInsideCall limits).runFor throwsInsideEnv 3).2

theorem traced_throwsInsideRun (limits : RunLimits) :
    Config.Traced throwsInsideEnv (throwsInsideRun limits) [[(0, [])]] := by
  have hcall : Config.Traced throwsInsideEnv (throwsInsideCall limits) [] := .start 0 0 [] 0 _ ()
  have hfound : Config.Traced throwsInsideEnv ((throwsInsideCall limits).runFor throwsInsideEnv 1).2 [] := hcall.step rfl
  have hbegun : Config.Traced throwsInsideEnv ((throwsInsideCall limits).runFor throwsInsideEnv 2).2 [[]] :=
    hfound.step rfl
  exact hbegun.step rfl

/-- Room for one box. -/
def oneBox : RunLimits := { maxCallDepth := 8, maxExnBoxes := 1, maxIterations := 0, exnBoxes_le := one_le_usizeMax }

/-- No room for any box. -/
def noBox : RunLimits := { maxCallDepth := 8, maxExnBoxes := 0, maxIterations := 0, exnBoxes_le := Nat.zero_le _ }

/-- With room for its box the exception is taken by the clause, which leaves the body with the reference. -/
theorem throwsInside_dispatched : ∃ a h rest res, (throwsInsideRun oneBox).control = .run a ∧ [[(0, [])]] = h :: rest ∧
    a.Dispatches throwsInsideEnv.code[0] h (a.goTo (a.frame.plain (throwsInsideRun oneBox).exec) a.pc).frame ⟨0, []⟩
      (throwsInsideRun oneBox).exec res ∧
    ((throwsInsideRun oneBox).step throwsInsideEnv).map Prod.snd = some ((throwsInsideRun oneBox).dispatch a ⟨0, []⟩ res) := by
  obtain ⟨h, rest, res, heq, hdispatches, hstep⟩ := (exceptions_dispatched throwsInsideEnv accepted_throwsInsideEnv _ _
    (traced_throwsInsideRun oneBox)).1 _ _ (.throw 0) ⟨0, []⟩ _ [] rfl rfl rfl rfl
  exact ⟨_, h, rest, res, rfl, heq, hdispatches, hstep⟩

/-- With no room for its box no handler is entered, though the search finds the clause. -/
theorem found_handler_not_entered : ¬ ∀ {W : Type} (env : Env W), env.Accepted → ∀ (c : Config W) (hs : List Executed),
    Config.Traced env c hs → ∀ (a : Activation) (d : InstanceData) (i : Instr) (exn : Exception) (st : PlainState)
      (es : List Event) (nest : List Open) (rs : List Reaction) (found : ℕ × Reaction), c.control = .run a →
        env.code[a.inst]? = some d → a.frame.body.ir[a.pc]? = some i →
          flow env.ops a.inst d c.exec env.code a.frame a.pc i = .ok (.raise exn st es) →
            nestAt a.frame.body.ir a.pc = some nest →
              List.Forall₂ (Reacts a.frame.body.ir d.maps.tags exn) nest rs → searchReactions 0 rs = some found →
                ∃ es' c' a', c.step env = some (es', c') ∧ c'.control = .run a' := by
  intro h
  have hreacts : List.Forall₂ (Reacts throwsInside.ir [0] ⟨0, []⟩) [⟨some 0, .tryTable⟩, ⟨none, .block⟩]
      [.clause ⟨.catchAllRef, 0, 0⟩, .pass] :=
    .cons (.clause rfl rfl) (.cons (.function _) .nil)
  obtain ⟨es, c', a', hstep, hrun⟩ := h throwsInsideEnv accepted_throwsInsideEnv _ _ (traced_throwsInsideRun noBox) _ _
    (.throw 0) ⟨0, []⟩ _ [] _ _ _ rfl rfl rfl rfl rfl hreacts rfl
  have hfails : ((throwsInsideRun noBox).step throwsInsideEnv).map (fun r => r.2.control) = some (.fail .exnStoreExhausted) :=
    rfl
  rw [hstep, Option.map_some, hrun] at hfails
  cases hfails

end Wasmrt
