import Wasmrt.Interp.HeapSlots
import Wasmrt.Library.StateFolds
import Wasmrt.Store.Outcome

/-!
# Objects that an instantiation allocates

The initialisers of globals, tables and element segments may allocate objects. As in a body most lengths are
stated in the module, and `array.new` and `array.new_default` take theirs from an operand.

## Main definitions

* `Pools.Allocates`: what a step of a constant expression does to the pools.
* `ConstExpr.AsksWithin`, `Store.InitialisersAskWithin`: the lengths that are asked for are within a bound.

## Main results

* `pools_of_evalConstStep_error`: a step that is refused leaves the pools alone.
* `within_instantiate`: an instantiation keeps to the bound, if the lengths it asks for do.
-/

namespace Wasmrt

open MonadExcept (ofExcept)

/-! ## Constant expressions -/

/-- A step of a constant expression leaves the pools alone, or allocates one object, for which there is room
and which has at most `B` slots. -/
def Pools.Allocates {α : Type} (p : Pools) (B : ℕ) (r : EStateM.Result Trap Pools α) : Prop :=
  r.state = p ∨ ∃ a o, r = .ok a { p with gcHeap := p.gcHeap ++ [o] } ∧
    p.gcHeap.length < p.limits.maxGcObjects ∧ o.fields.length ≤ B

namespace Pools.Allocates

variable {α β : Type} {p : Pools} {B : ℕ}

theorem check_bind {e : Except Trap α} {f : α → EStateM Trap Pools β} (h : ∀ a, e = .ok a → p.Allocates B (f a p)) :
    p.Allocates B ((ofExcept e >>= f) p) := by
  cases e with
  | ok a => exact h a rfl
  | error t => exact .inl rfl

theorem alloc_bind {owner ti : ℕ} {fields stack : List Value}
    (h : p.gcHeap.length < p.limits.maxGcObjects → fields.length ≤ B) :
    p.Allocates B ((allocObject owner ti fields >>= fun v => pure (v :: stack)) p) := by
  by_cases hroom : p.limits.maxGcObjects ≤ p.gcHeap.length
  · rw [estate_bind_of_error (allocObject_of_full hroom)]
    exact .inl rfl
  · rw [estate_bind_of_ok (allocObject_of_room hroom)]
    exact .inr ⟨_, ⟨owner, ti, fields⟩, rfl, not_le.mp hroom, h (not_le.mp hroom)⟩

theorem within {limits : ResourceLimits} {r : EStateM.Result Trap Pools α} (h : p.Allocates B r)
    (hp : p.Within limits B) : r.state.Within limits B := by
  rcases h with hsame | ⟨a, o, rfl, hroom, hle⟩
  · rwa [hsame]
  · obtain ⟨rfl, hp⟩ := hp
    refine ⟨rfl, ?_, ?_, hp.segment⟩
    · show (p.gcHeap ++ [o]).length ≤ _
      rw [List.length_append]
      exact hroom
    · intro o' ho'
      rcases List.mem_append.mp ho' with ho' | ho'
      · exact hp.object o' ho'
      · obtain rfl := List.mem_singleton.mp ho'
        exact hle

end Pools.Allocates

section ConstExpr

variable {m : Module} {globals : List Value} {inst : ℕ} {gc : Option Module} {stack : List Value} {i : Instr} {p : Pools}
  {B : ℕ}

theorem length_popConsts {n : ℕ} {vs rest : List Value} (h : popConsts n stack = .ok (vs, rest)) : vs.length = n := by
  unfold popConsts at h
  split_ifs at h with hn
  obtain ⟨rfl, -⟩ := Prod.mk.inj (Except.ok.inj h)
  rw [List.length_reverse, List.length_take, Nat.min_eq_left hn]

theorem popConst_eq_ok {v : Value} {rest : List Value} (h : popConst stack = .ok (v, rest)) : stack = v :: rest := by
  cases stack with
  | nil => cases h
  | cons w stack =>
    obtain ⟨rfl, rfl⟩ := Prod.mk.inj (Except.ok.inj h)
    rfl

/-- The operand on top, a number in the module or the stack says how many slots an object gets. -/
theorem allocates_evalConstGc (hm : m.SlotsWithin B) (hstated : i.statedSlots ≤ B)
    (hasked : p.gcHeap.length < p.limits.maxGcObjects → i.askedSlots stack ≤ B) :
    p.Allocates B (evalConstGc m inst stack i p) := by
  cases i with
  | structNew ti =>
    refine .check_bind fun sf hsf => .check_bind fun ⟨vs, rest⟩ hvs => .alloc_bind fun _ => ?_
    have hle := hm.struct (orError_eq_ok.mp hsf)
    rw [List.length_zipWith]
    omega
  | structNewDesc ti =>
    refine .check_bind fun ⟨desc, _⟩ _ => .check_bind fun _ _ => .check_bind fun sf hsf =>
      .check_bind fun ⟨vs, rest⟩ hvs => .alloc_bind fun _ => ?_
    have hle := hm.struct (orError_eq_ok.mp hsf)
    rw [List.length_append, List.length_zipWith, List.length_singleton]
    omega
  | structNewDefaultDesc ti =>
    refine .check_bind fun ⟨desc, _⟩ _ => .check_bind fun _ _ => .check_bind fun sf hsf => .alloc_bind fun _ => ?_
    have hle := hm.struct (orError_eq_ok.mp hsf)
    rwa [List.length_append, List.length_map, List.length_singleton]
  | structNewDefault ti =>
    refine .check_bind fun sf hsf => .alloc_bind fun _ => ?_
    have hle := hm.struct (orError_eq_ok.mp hsf)
    rw [List.length_map]
    omega
  | arrayNew ti =>
    refine .check_bind fun _ _ => .check_bind fun ⟨n, _⟩ hn => .check_bind fun ⟨v, _⟩ _ => .alloc_bind fun hroom => ?_
    obtain rfl := popConst_eq_ok hn
    exact List.length_replicate.trans_le (hasked hroom)
  | arrayNewDefault ti =>
    refine .check_bind fun _ _ => .check_bind fun ⟨n, _⟩ hn => .alloc_bind fun hroom => ?_
    obtain rfl := popConst_eq_ok hn
    exact List.length_replicate.trans_le (hasked hroom)
  | arrayNewFixed ti n =>
    refine .check_bind fun _ _ => .check_bind fun ⟨vs, _⟩ hvs => .alloc_bind fun _ => ?_
    exact ((List.length_map _).trans (length_popConsts hvs)).trans_le hstated
  | anyConvertExtern | externConvertAny | refI31 => exact .check_bind fun ⟨_, _⟩ _ => .inl rfl
  | _ => exact .inl rfl

/-- A step of a constant expression allocates one object at most, and none without a module. -/
theorem allocates_evalConstStep (h : ∀ m ∈ gc, m.SlotsWithin B ∧ i.statedSlots ≤ B ∧
    (p.gcHeap.length < p.limits.maxGcObjects → i.askedSlots stack ≤ B)) :
    p.Allocates B (evalConstStep globals inst gc stack i p) := by
  have hgc : p.Allocates B ((ofExcept (orError .constantExpr gc) >>= fun m => evalConstGc m inst stack i) p) := by
    refine .check_bind fun m hm => ?_
    obtain ⟨hm, hstated, hasked⟩ := h m (orError_eq_ok.mp hm)
    exact allocates_evalConstGc hm hstated hasked
  cases i with
  | i32Const _ | i64Const _ | f32Const _ | f64Const _ | refNull _ | refFunc _ => exact .inl rfl
  | globalGet _ => exact .check_bind fun _ _ => .inl rfl
  | simd _ => exact .check_bind fun _ _ => .inl rfl
  | iBin w op =>
    cases w with
    | w32 | w64 =>
      exact .check_bind fun ⟨_, _⟩ _ => .check_bind fun ⟨_, _⟩ _ => .check_bind fun _ _ => .inl rfl
  | _ => exact hgc

/-- A constant expression that is refused an object leaves the pools alone. -/
theorem pools_of_evalConstStep_error {t : Trap} {p' : Pools} (h : evalConstStep globals inst gc stack i p = .error t p') :
    p' = p := by
  -- any module keeps to its own bound
  let B (m : Module) := max m.staticSlots (max i.statedSlots (i.askedSlots stack))
  have hall : p.Allocates (gc.elim 0 B) (evalConstStep globals inst gc stack i p) := by
    apply allocates_evalConstStep
    rintro m rfl
    refine ⟨Module.slotsWithin (le_max_left _ _), ?_, fun _ => ?_⟩
    · exact (le_max_left _ _).trans (le_max_right _ _)
    · exact (le_max_right _ _).trans (le_max_right _ _)
  rcases hall with hsame | ⟨a, o, hok, -⟩
  · rwa [h] at hsame
  · rw [h] at hok
    cases hok

end ConstExpr

/-! ## What an instantiation asks for -/

section Conditions

variable (B : ℕ) (m : Module) (inst : ℕ)

/-- Whenever the evaluation of a constant expression comes to an instruction while there is room for an object,
the length the instruction asks for is at most `B`. -/
def ConstExpr.AsksWithin (globals : List Value) (expr : ConstExpr) : Pools → Prop :=
  FoldMeets (evalConstStep globals inst (some m))
    (fun stack i p => p.gcHeap.length < p.limits.maxGcObjects → i.askedSlots stack ≤ B) expr []

/-- So it is in the initialisers of the globals. -/
def Module.GlobalsAskWithin (globals : List Value) : Pools → Prop :=
  FoldMeets (fun globals init => do
    let v ← evalConstExpr globals inst (some m) init
    pure (globals ++ [v])) (fun globals init p => ConstExpr.AsksWithin B m inst globals init p) m.globalInits globals

/-- So it is in those of the tables, each evaluated once its length has been admitted. -/
def Module.TablesAskWithin (globals : List Value) (limits : ResourceLimits) : ℕ → List TableType → Pools → Prop
  | _, [], _ => True
  | total, tt :: tts, p =>
    tt.limits.min ≤ usizeMax → total + tt.limits.min ≤ usizeMax ∧ total + tt.limits.min ≤ limits.maxTableElems →
      (∀ expr ∈ tt.init, ConstExpr.AsksWithin B m inst globals expr p) ∧
        ∀ fill p', tableFill m inst globals tt.init p = .ok fill p' →
          TablesAskWithin globals limits (total + tt.limits.min) tts p'

/-- So it is in the entries of an element segment. -/
def Module.ElementAsksWithin (globals : List Value) (elem : Element) : Pools → Prop :=
  FoldMeets (fun vs ex => do
    let v ← evalConstExpr globals inst (some m) ex
    pure (vs ++ [v])) (fun _ ex p => ConstExpr.AsksWithin B m inst globals ex p) elem.exprs []

/-- So it is in the entries of the element segments. -/
def Module.ElementsAskWithin (globals : List Value) : Pools → Prop :=
  FoldMeets (evalElementStep m inst globals) (fun _ elem p => m.ElementAsksWithin B inst globals elem p) m.elements
    ([], [])

/-- So it is in all that an instantiation evaluates. -/
def Store.InitialisersAskWithin (s : Store) (imports : Imports) : Prop :=
  let inst := s.code.length
  let tables := m.tables.drop m.importedTableCount
  let p := { s.pools with types := (s.pools.types.assign m.toTypeSection).1 }
  m.GlobalsAskWithin B inst imports.globals p ∧
    ∀ globals p₁, evalGlobals m inst imports.globals p = .ok globals p₁ →
      m.TablesAskWithin B inst globals s.pools.limits 0 tables p₁ ∧
        ∀ tabs p₂, allocateTables m inst globals s.pools.limits 0 tables p₁ = .ok tabs p₂ →
          m.ElementsAskWithin B inst globals p₂

end Conditions

section Evaluations

variable {m : Module} {inst : ℕ} {globals : List Value} {limits : ResourceLimits} {B : ℕ} {p : Pools}

theorem within_evalConstExpr (hm : m.SlotsWithin B) {expr : ConstExpr} (hstated : ∀ i ∈ expr, i.statedSlots ≤ B)
    (hasks : ConstExpr.AsksWithin B m inst globals expr p) (h : p.Within limits B) :
    (evalConstExpr globals inst (some m) expr p).state.Within limits B := by
  apply EStateM.Result.state_bind (I := Pools.Within limits B)
  · refine hasks.foldlM (fun stack i p hi hasked hp => ?_) h
    refine (allocates_evalConstStep ?_).within hp
    rintro m' ⟨⟩
    exact ⟨hm, hstated i hi, hasked⟩
  · intro stack p' _ hp'
    exact EStateM.Result.state_ofExcept_bind hp' fun _ _ => hp'

/-- What is kept by a part of an instantiation that asks for nothing. -/
abbrev KeepsWithin (limits : ResourceLimits) (B : ℕ) {α : Type} (x : EStateM Trap Pools α) : Prop :=
  Keeps (fun p p' => p.Within limits B → p'.Within limits B) x

theorem KeepsWithin.bind {α β : Type} {x : EStateM Trap Pools α} {f : α → EStateM Trap Pools β}
    (hx : KeepsWithin limits B x) (hf : ∀ a, KeepsWithin limits B (f a)) : KeepsWithin limits B (x >>= f) :=
  Keeps.bind (fun _ _ _ h h' hp => h' (h hp)) hx hf

theorem KeepsWithin.foldlM {α γ : Type} {f : α → γ → EStateM Trap Pools α} (hf : ∀ a c, KeepsWithin limits B (f a c))
    (l : List γ) (a : α) : KeepsWithin limits B (l.foldlM f a) :=
  Keeps.foldlM (fun _ hp => hp) (fun _ _ _ h h' hp => h' (h hp)) hf l a

theorem KeepsWithin.ofExcept {α : Type} (e : Except Trap α) :
    KeepsWithin limits B (MonadExcept.ofExcept e : EStateM Trap Pools α) :=
  Keeps.ofExcept (fun _ hp => hp) e

theorem KeepsWithin.pure {α : Type} (a : α) : KeepsWithin limits B (pure a : EStateM Trap Pools α) := fun _ hp => hp

/-- An offset expression allocates nothing. -/
theorem keepsWithin_evalConstOffset (globals : List Value) (is64 : Bool) (expr : ConstExpr) :
    KeepsWithin limits B (evalConstOffset globals is64 expr) := by
  refine .bind (.bind (.foldlM (fun stack i p hp => ?_) _ _) fun _ => .bind (.ofExcept _) fun _ => .pure _) fun _ => .pure _
  exact (allocates_evalConstStep fun m hm => absurd hm (Option.not_mem_none m)).within hp

theorem keepsWithin_evalData (m : Module) (globals : List Value) : KeepsWithin limits B (evalData m globals) := by
  refine .foldlM (fun active entry => ?_) _ _
  obtain ⟨seg, k⟩ := entry
  dsimp only
  split
  · exact .bind (keepsWithin_evalConstOffset _ _ _) fun _ => .pure _
  · exact .pure _

theorem within_evalGlobals (hm : m.SlotsWithin B) (hasks : m.GlobalsAskWithin B inst globals p)
    (h : p.Within limits B) : (evalGlobals m inst globals p).state.Within limits B := by
  refine FoldMeets.foldlM (fun globals init p hinit hinitAsks hp => ?_) hasks h
  apply EStateM.Result.state_bind (I := Pools.Within limits B)
  · have hmem : init ∈ m.initialisers := List.mem_append_left _ (List.mem_append_left _ hinit)
    exact within_evalConstExpr hm (hm.initialiser init hmem) hinitAsks hp
  · exact fun _ _ _ hp' => hp'

theorem within_allocateTables (hm : m.SlotsWithin B) {ceilings : ResourceLimits} {total : ℕ} {tts : List TableType}
    (htts : ∀ tt ∈ tts, tt ∈ m.tables) (hasks : m.TablesAskWithin B inst globals ceilings total tts p)
    (h : p.Within limits B) : (allocateTables m inst globals ceilings total tts p).state.Within limits B := by
  induction tts generalizing total p with
  | nil => exact h
  | cons tt tts ih =>
    rw [List.forall_mem_cons] at htts
    refine EStateM.Result.state_ofExcept_bind h fun _ hmin => EStateM.Result.state_ofExcept_bind h fun _ hmax => ?_
    rw [ensure_eq_ok, decide_eq_true_eq] at hmin hmax
    obtain ⟨hone, hrest⟩ := hasks hmin hmax
    apply EStateM.Result.state_bind (I := Pools.Within limits B)
    · unfold tableFill
      cases hinit : tt.init with
      | none => exact h
      | some expr =>
        have hmem : expr ∈ m.initialisers :=
          List.mem_append_left _ (List.mem_append_right _ (List.mem_filterMap.mpr ⟨tt, htts.1, hinit⟩))
        exact within_evalConstExpr hm (hm.initialiser expr hmem) (hone expr hinit) h
    · intro fill p' hfill hp'
      apply EStateM.Result.state_bind (I := Pools.Within limits B)
      · exact ih htts.2 (hrest fill p' hfill) hp'
      · exact fun _ _ _ hp'' => hp''

theorem within_evalElement (hm : m.SlotsWithin B) {elem : Element} (helem : elem ∈ m.elements)
    (hasks : m.ElementAsksWithin B inst globals elem p) (h : p.Within limits B) :
    (evalElement m inst globals elem p).state.Within limits B := by
  apply EStateM.Result.state_bind (I := Pools.Within limits B)
  · refine FoldMeets.foldlM (fun vs expr p hexpr hexprAsks hp => ?_) hasks h
    apply EStateM.Result.state_bind (I := Pools.Within limits B)
    · have hmem : expr ∈ m.initialisers := List.mem_append_right _ (List.mem_flatMap.mpr ⟨elem, helem, hexpr⟩)
      exact within_evalConstExpr hm (hm.initialiser expr hmem) hexprAsks hp
    · exact fun _ _ _ hp' => hp'
  · exact fun _ _ _ hp' => hp'

theorem within_evalElements (hm : m.SlotsWithin B) (hasks : m.ElementsAskWithin B inst globals p)
    (h : p.Within limits B) : (evalElements m inst globals p).state.Within limits B := by
  rw [evalElements_eq]
  refine FoldMeets.foldlM (fun acc elem p helem helemAsks hp => ?_) hasks h
  apply EStateM.Result.state_bind (I := Pools.Within limits B)
  · exact within_evalElement hm helem helemAsks hp
  · intro vals p' _ hp'
    split
    · exact KeepsWithin.bind (keepsWithin_evalConstOffset _ _ _) (fun _ => .pure _) _ hp'
    · exact hp'

/-- A segment has a value for each of its functions and expressions. -/
theorem length_evalElement {elem : Element} {vals : List Value} {p' : Pools}
    (h : evalElement m inst globals elem p = .ok vals p') : vals.length = elem.funcs.length + elem.exprs.length := by
  obtain ⟨exprs, p₁, hexprs, h⟩ := estate_bind_eq_ok.mp h
  obtain ⟨rfl, -⟩ := estate_pure_eq_ok.mp h
  have hcount := estate_foldlM_count (μ := List.length) (fun vs ex vs' s s' hstep => ?_) hexprs
  · rw [List.length_append, List.length_map, hcount, List.length_nil, Nat.zero_add]
  · obtain ⟨v, _, -, hpure⟩ := estate_bind_eq_ok.mp hstep
    obtain ⟨rfl, -⟩ := estate_pure_eq_ok.mp hpure
    rw [List.length_append, List.length_singleton]

theorem length_le_of_evalElements (hm : m.SlotsWithin B) {values : List (List Value)} {active : List ActiveSegment}
    {p' : Pools} (h : evalElements m inst globals p = .ok (values, active) p') : ∀ vals ∈ values, vals.length ≤ B := by
  rw [evalElements_eq] at h
  refine estate_foldlM_invariant (J := fun acc => ∀ vals ∈ acc.1, vals.length ≤ B) (fun acc elem acc' s s' helem hacc hstep => ?_)
    nofun h
  obtain ⟨vals, s₁, hvals, hstep⟩ := estate_bind_eq_ok.mp hstep
  have hall : ∀ l ∈ acc.1 ++ [vals], l.length ≤ B := by
    intro l hl
    rcases List.mem_append.mp hl with hl | hl
    · exact hacc l hl
    · obtain rfl := List.mem_singleton.mp hl
      exact (length_evalElement hvals).trans_le (hm.element elem helem)
  split at hstep
  · obtain ⟨offset, s₂, -, hpure⟩ := estate_bind_eq_ok.mp hstep
    obtain ⟨rfl, -⟩ := estate_pure_eq_ok.mp hpure
    exact hall
  · obtain ⟨rfl, -⟩ := estate_pure_eq_ok.mp hstep
    exact hall

/-! ## An instantiation -/

/-- The pools that preparing an instance leaves, however it ends. -/
theorem within_prepare {s : Store} {imports : Imports} (hm : m.SlotsWithin B)
    (hasks : s.InitialisersAskWithin B m imports) (h : s.pools.Within limits B) :
    (prepare s m imports s.pools).state.Within limits B := by
  have hjoined : ({ s.pools with types := (s.pools.types.assign m.toTypeSection).1 } : Pools).Within limits B :=
    ⟨h.limits_eq, h.contents⟩
  refine EStateM.Result.state_ofExcept_bind h fun _ _ => EStateM.Result.state_ofExcept_bind h fun _ _ => ?_
  rw [estate_bind_of_ok (joinTypes_eq _ _)]
  obtain ⟨hglobals, hrest⟩ := hasks
  unfold prepareJoined
  apply EStateM.Result.state_bind (I := Pools.Within limits B)
  · exact hjoined
  rintro _ _ ⟨⟩ hp
  refine EStateM.Result.state_ofExcept_bind hp fun _ _ => EStateM.Result.state_ofExcept_bind hp fun _ _ =>
    EStateM.Result.state_ofExcept_bind hp fun _ _ => EStateM.Result.state_ofExcept_bind hp fun _ _ => ?_
  apply EStateM.Result.state_bind (I := Pools.Within limits B)
  · exact within_evalGlobals hm hglobals hp
  intro globals p₁ hevalGlobals hp₁
  obtain ⟨htables, hrest⟩ := hrest globals p₁ hevalGlobals
  refine EStateM.Result.state_ofExcept_bind hp₁ fun _ _ => EStateM.Result.state_ofExcept_bind hp₁ fun _ _ =>
    EStateM.Result.state_ofExcept_bind hp₁ fun _ _ => EStateM.Result.state_ofExcept_bind hp₁ fun _ _ => ?_
  apply EStateM.Result.state_bind (I := Pools.Within limits B)
  · exact within_allocateTables hm (fun tt htt => List.mem_of_mem_drop htt) htables hp₁
  intro tabs p₂ htabs hp₂
  apply EStateM.Result.state_bind (I := Pools.Within limits B)
  · exact within_evalElements hm (hrest tabs p₂ htabs) hp₂
  intro elems p₃ _ hp₃
  refine KeepsWithin.bind (keepsWithin_evalData m globals) (fun _ => .bind (.ofExcept _) fun _ => .pure _) _ hp₃

/-- A prepared element segment is no longer than the module's. -/
theorem length_le_of_prepare {s : Store} {imports : Imports} {parts : Parts} {p' : Pools} (hm : m.SlotsWithin B)
    (h : prepare s m imports p = .ok parts p') : ∀ vals ∈ parts.elemValues, vals.length ≤ B := by
  obtain ⟨stages⟩ := prepare_stages h
  exact length_le_of_evalElements hm stages.elements

/-- A prepared body has the instructions of its code. -/
theorem Prepared.slotsWithin {s : Store} {imports : Imports} {parts : Parts} (h : Prepared s m imports p parts)
    (hm : m.SlotsWithin B) : ∀ body ∈ parts.funcBodies, ∀ i ∈ body.ir, i.statedSlots ≤ B := by
  intro body hbody
  obtain ⟨k, hk⟩ := List.getElem?_of_mem hbody
  obtain ⟨entry, hentry, hprepared⟩ := exists_getElem?_of_forall₂ (mapM_eq_ok.mp h.bodies).flip hk
  simp only [prepareBody, Except.bind_eq_ok, Except.pure_eq_ok] at hprepared
  obtain ⟨_, -, _, -, rfl⟩ := hprepared
  exact hm.code entry.2 (List.of_mem_zip (List.mem_of_getElem? hentry)).2

theorem keepsWithin_applyElem (maps : IndexMaps) (seg : ActiveSegment) : KeepsWithin limits B (applyElem maps seg) := by
  intro p hp
  apply EStateM.Result.state_bind (I := Pools.Within limits B)
  · exact hp
  rintro _ _ ⟨⟩ hp
  refine EStateM.Result.state_ofExcept_bind hp fun _ _ => EStateM.Result.state_ofExcept_bind hp fun _ _ => ?_
  exact ⟨hp.limits_eq, hp.contents.count, hp.contents.object, hp.contents.segment⟩

theorem keepsWithin_applyData (m : Module) (maps : IndexMaps) (seg : ActiveSegment) :
    KeepsWithin limits B (applyData m maps seg) := by
  intro p hp
  apply EStateM.Result.state_bind (I := Pools.Within limits B)
  · exact hp
  rintro _ _ ⟨⟩ hp
  refine EStateM.Result.state_ofExcept_bind hp fun _ _ => EStateM.Result.state_ofExcept_bind hp fun _ _ => ?_
  exact ⟨hp.limits_eq, hp.contents.count, hp.contents.object, hp.contents.segment⟩

theorem KeepsWithin.forM {γ : Type} {f : γ → EStateM Trap Pools PUnit} (hf : ∀ c, KeepsWithin limits B (f c))
    (l : List γ) : KeepsWithin limits B (l.forM f) :=
  Keeps.forM (fun _ hp => hp) (fun _ _ _ h h' hp => h' (h hp)) hf l

theorem KeepsWithin.onPools {α : Type} {x : EStateM Trap Pools α} (hx : KeepsWithin limits B x) {s : Store}
    (hs : s.pools.Within limits B) : (onPools x s).state.pools.Within limits B := by
  have hpools := hx s.pools hs
  unfold Wasmrt.onPools
  cases h : x s.pools with
  | ok a p | error e p =>
    rw [h] at hpools
    exact hpools

/-- No number of slots that is stated in a store, and no object in it, is above the bound. -/
structure Store.Within (limits : ResourceLimits) (B : ℕ) (s : Store) : Prop where
  code : ∀ d ∈ s.code, d.SlotsWithin B
  pools : s.pools.Within limits B

theorem within_writeSegments (m : Module) (parts : Parts) (maps : IndexMaps) {s : Store} (hs : s.Within limits B) :
    (Store.writeSegments m parts maps s).state.Within limits B := by
  obtain ⟨-, hcode, -⟩ := Store.keeps_writeSegments m parts maps s
  refine ⟨hcode ▸ hs.code, ?_⟩
  apply EStateM.Result.state_bind (I := fun s : Store => s.pools.Within limits B)
  · exact KeepsWithin.onPools (.forM (keepsWithin_applyElem maps) _) hs.pools
  · exact fun _ _ _ hp => KeepsWithin.onPools (.forM (keepsWithin_applyData m maps) _) hp

/-- An instantiation keeps to the bound, however it ends. -/
theorem within_instantiate {s : Store} {imports : Imports} (hm : m.SlotsWithin B)
    (hasks : s.InitialisersAskWithin B m imports) (hs : s.Within limits B) :
    (Store.instantiate m imports s).state.Within limits B := by
  have hprepared := within_prepare hm hasks hs.pools
  rcases Store.instantiate_cases m imports s with ⟨e, p, hprep, heq⟩ | ⟨parts, p, targets, hprep, hparts, -, heq⟩
  · rw [heq]
    rw [hprep] at hprepared
    exact ⟨hs.code, hprepared⟩
  · rw [heq]
    rw [hprep] at hprepared
    have hcommit : (s.commit m parts p targets).Within limits B := by
      refine ⟨?_, hprepared.limits_eq, hprepared.contents.count, hprepared.contents.object, ?_⟩
      · intro d hd
        rcases List.mem_append.mp hd with hd | hd
        · exact hs.code d hd
        · obtain rfl := List.mem_singleton.mp hd
          exact ⟨hm, hparts.slotsWithin hm⟩
      · intro vals hvals
        rcases List.mem_append.mp hvals with hvals | hvals
        · exact hprepared.contents.segment vals hvals
        · exact length_le_of_prepare hm hprep vals hvals
    apply EStateM.Result.state_bind (I := Store.Within limits B)
    · exact within_writeSegments m parts _ hcommit
    · exact fun _ _ _ hs' => hs'

end Evaluations

end Wasmrt
