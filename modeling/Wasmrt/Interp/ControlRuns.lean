import Wasmrt.Interp.ExpressionEnds
import Wasmrt.Interp.Handlers
import Wasmrt.Interp.Histories

/-!
# Structured control in every run

In every state the machine comes to, the labels of each activation are those of the constructs open at its
position, and each was made when its construct was last entered. So a branch goes on where the structure of
the body says, with the operands there were below the construct at that time.

## Main definitions

* `EnteredWith`: how many operands there were below a construct when it was last entered.
* `Env.Prepared`: the bodies are well nested and have their tables.
* `Activation.Placed`: the labels of an activation are those of its open constructs.

## Main results

* `Activation.placed_invariant`: what activations do keeps that.
* `control_structured`: tables, branches and jumps.
-/

namespace Wasmrt

variable {W : Type}

/-! ## What an instruction does to control -/

/-- The operands an opener takes besides those of its block. -/
def Instr.conditions : Instr → ℕ
  | .if_ _ => 1
  | _ => 0

/-- The labels an instruction may branch to. -/
def Instr.branchLabels : Instr → List ℕ
  | .br n | .brIf n | .brOnNull n | .brOnNonNull n | .brOnCast n .. | .brOnCastFail n .. | .brOnCastDescEq n ..
  | .brOnCastDescEqFail n .. => [n]
  | .brTable labels default => default :: labels
  | _ => []

/-- The position after an opener with an operand on top: past it or, if it is an `if` and the operand is 0, by the
tables. -/
inductive EntersAt (body : FuncBody) (pc : ℕ) (i : Instr) (c : Value) : ℕ → Prop
  | inside (h : ∀ bt, i = .if_ bt → asI32 c ≠ 0) : EntersAt body pc i c (pc + 1)
  | toElse {bt : BlockType} (hi : i = .if_ bt) (hc : asI32 c = 0)
      (helse : body.cf.elseOf.getD pc body.ir.length ≠ body.ir.length) :
      EntersAt body pc i c (body.cf.elseOf.getD pc body.ir.length + 1)
  | toEnd {bt : BlockType} (hi : i = .if_ bt) (hc : asI32 c = 0)
      (helse : body.cf.elseOf.getD pc body.ir.length = body.ir.length) :
      EntersAt body pc i c (body.cf.endOf.getD pc 0)

/-- The label an opener makes. -/
def openLabel (m : Module) (body : FuncBody) (pc : ℕ) (bt : BlockType) (kind : FrameKind) (base : ℕ) : Label :=
  if kind = .loop then
    { isLoop := true, arity := blockArity m bt true, target := pc + 1, stackBase := base }
  else {
    isLoop := false, arity := blockArity m bt false, target := body.cf.endOf.getD pc 0 + 1, stackBase := base
    tryTablePc := if kind = .tryTable then some pc else none
    legacyPc := if kind = .tryLegacy then some pc else none }

/-- What an instruction does to its activation, by its kind. -/
inductive FlowOf (m : Module) (frame : CallFrame) (pc : ℕ) (i : Instr) : Flow → Prop
  | next (h : i.isFlat = true) (st : PlainState) : FlowOf m frame pc i (.next st)
  | return_ (h : i = .return_) (st : PlainState) : FlowOf m frame pc i (.jump frame.body.ir.length st)
  | skip (h : i.continues = true) (st : PlainState) : FlowOf m frame pc i (.jump (frame.body.cf.endOf.getD pc 0) st)
  | enter {kind : FrameKind} {bt : BlockType} {base pc' : ℕ} {l : Label} (hopens : i.opens = some kind)
      (hbt : i.blockType = some bt) (st : PlainState)
      (hbase : base + blockArity m bt true = frame.vstack.length - i.conditions)
      (hl : l = openLabel m frame.body pc bt kind base) (hpc : EntersAt frame.body pc i (frame.vstack.headD 0) pc') :
      FlowOf m frame pc i (.enter l pc' st)
  | leave (h : i.closes = true) : FlowOf m frame pc i .leave
  | branch (h : i.isFlat = true) {n : ℕ} (hn : n ∈ i.branchLabels) (st : PlainState) :
      FlowOf m frame pc i (.branch n st)
  | raise (h : i.isFlat = true) (exn : Exception) (st : PlainState) (es : List Event) :
      FlowOf m frame pc i (.raise exn st es)
  | call (h : i.isFlat = true) (inst func params : ℕ) (st : PlainState) :
      FlowOf m frame pc i (.call inst func params st)
  | tailCall (h : i.isFlat = true) (inst func : ℕ) (args : List Value) :
      FlowOf m frame pc i (.tailCall inst func args)

section Flow

variable {d : InstanceData} {frame : CallFrame} {pc inst : ℕ} {st : PlainState} {i : Instr} {fl : Flow} {x : Exec}
  {code : List InstanceData}

/-- The label of a block. -/
theorem blockLabel_eq_ok {m : Module} {body : FuncBody} {bt : BlockType} {t l : Option ℕ} {label : Label}
    (h : blockLabel m body pc bt st t l = .ok label) : ∃ base, base + blockArity m bt true = st.vstack.length ∧
      label = {
        isLoop := false, arity := blockArity m bt false, target := body.cf.endOf.getD pc 0 + 1, stackBase := base
        tryTablePc := t, legacyPc := l } := by
  simp only [blockLabel, PlainState.stackBase, Except.bind_eq_ok, ensure_eq_ok, Except.pure_eq_ok,
    decide_eq_true_eq] at h
  obtain ⟨base, ⟨-, hle, rfl⟩, rfl⟩ := h
  exact ⟨_, Nat.sub_add_cancel hle, rfl⟩

/-- The instructions that open, continue and close constructs. -/
theorem blockFlow_of (h : blockFlow d frame pc (frame.plain x) i = .ok fl) : FlowOf d.module frame pc i fl := by
  cases i with
  | block bt | tryTable bt _ | tryLegacy bt =>
    simp only [blockFlow, Except.bind_eq_ok, Except.pure_eq_ok] at h
    obtain ⟨l, hl, rfl⟩ := h
    obtain ⟨base, hbase, rfl⟩ := blockLabel_eq_ok hl
    exact FlowOf.enter rfl rfl _ (by exact hbase) rfl (.inside fun _ h => by cases h)
  | loop bt =>
    simp only [blockFlow, PlainState.stackBase, Except.bind_eq_ok, ensure_eq_ok, Except.pure_eq_ok,
      decide_eq_true_eq] at h
    obtain ⟨base, ⟨-, hle, rfl⟩, rfl⟩ := h
    exact FlowOf.enter rfl rfl _ (by exact Nat.sub_add_cancel hle) rfl (.inside fun _ h => by cases h)
  | if_ bt =>
    simp only [blockFlow, Except.bind_eq_ok, Except.pure_eq_ok] at h
    obtain ⟨l, hl, rfl⟩ := h
    obtain ⟨base, hbase, rfl⟩ := blockLabel_eq_ok hl
    rw [show (PlainState.popI32 (frame.plain x)).2.vstack.length = frame.vstack.length - 1 from List.length_tail]
      at hbase
    refine FlowOf.enter rfl rfl _ (by exact hbase) rfl ?_
    split_ifs with hc helse
    · exact .inside fun _ _ => hc
    · exact .toElse rfl (not_not.mp hc) helse
    · exact .toEnd rfl (not_not.mp hc) (not_not.mp helse)
  | else_ | catchLegacy _ | catchAll =>
    cases h
    exact .skip rfl _
  | end_ | delegate _ =>
    cases h
    exact .leave rfl
  | _ => cases h

/-- The instructions that raise. -/
theorem raiseFlow_of (hflat : i.isFlat = true) (h : raiseFlow d x frame st i = .ok fl) :
    FlowOf d.module frame pc i fl := by
  unfold raiseFlow at h
  split at h
  · simp only [Except.bind_eq_ok, Except.pure_eq_ok] at h
    obtain ⟨ft, -, p, -, rfl⟩ := h
    exact .raise hflat ..
  · simp only [Except.bind_eq_ok, Except.pure_eq_ok] at h
    obtain ⟨_, -, exn, -, rfl⟩ := h
    exact .raise hflat ..
  · simp only [Except.bind_eq_ok, Except.pure_eq_ok] at h
    obtain ⟨l, -, exn, -, rfl⟩ := h
    exact .raise hflat ..
  · cases h

section Branches

variable {m : Module} {n : ℕ} {st' : PlainState} (p : Prop) [Decidable p]

theorem FlowOf.branch_or_next (hflat : i.isFlat = true) (hn : n ∈ i.branchLabels) :
    FlowOf m frame pc i (if p then .branch n st else .next st') := by
  split_ifs
  · exact .branch hflat hn _
  · exact .next hflat _

theorem FlowOf.next_or_branch (hflat : i.isFlat = true) (hn : n ∈ i.branchLabels) :
    FlowOf m frame pc i (if p then .next st' else .branch n st) := by
  split_ifs
  · exact .next hflat _
  · exact .branch hflat hn _

end Branches

theorem getD_mem_cons {α : Type} (l : List α) (k : ℕ) (a : α) : l.getD k a ∈ a :: l := by
  rw [List.getD_eq_getElem?_getD, List.mem_cons]
  cases hk : l[k]? with
  | none => exact .inl rfl
  | some b => exact .inr (List.mem_of_getElem? hk)

/-- The instructions that branch. -/
theorem branchFlow_of (h : branchFlow inst d x code frame st i = .ok fl) : FlowOf d.module frame pc i fl := by
  cases i with
  | br n =>
    cases h
    exact .branch rfl List.mem_cons_self _
  | brIf n =>
    cases h
    exact .branch_or_next _ rfl List.mem_cons_self
  | brTable labels default =>
    cases h
    refine .branch rfl ?_ _
    split_ifs
    · exact getD_mem_cons labels _ default
    · exact List.mem_cons_self
  | return_ =>
    cases h
    exact .return_ rfl _
  | brOnNull n =>
    cases h
    exact .branch_or_next _ rfl List.mem_cons_self
  | brOnNonNull n =>
    cases h
    exact .next_or_branch _ rfl List.mem_cons_self
  | brOnCast n src dst =>
    simp only [branchFlow, Except.bind_eq_ok, Except.pure_eq_ok] at h
    obtain ⟨v, -, rfl⟩ := h
    exact .branch_or_next _ rfl List.mem_cons_self
  | brOnCastFail n src dst =>
    simp only [branchFlow, Except.bind_eq_ok, Except.pure_eq_ok] at h
    obtain ⟨v, -, rfl⟩ := h
    exact .next_or_branch _ rfl List.mem_cons_self
  | brOnCastDescEq n src dst =>
    simp only [branchFlow, Except.bind_eq_ok, Except.pure_eq_ok] at h
    obtain ⟨_, -, v, -, rfl⟩ := h
    exact .branch_or_next _ rfl List.mem_cons_self
  | brOnCastDescEqFail n src dst =>
    simp only [branchFlow, Except.bind_eq_ok, Except.pure_eq_ok] at h
    obtain ⟨_, -, v, -, rfl⟩ := h
    exact .next_or_branch _ rfl List.mem_cons_self
  | _ => cases h

theorem callFlow_of {callee : ℕ × ℕ × FuncType} (hflat : i.isFlat = true) (h : callFlow callee st = .ok fl) :
    FlowOf d.module frame pc i fl := by
  simp only [callFlow, Except.bind_eq_ok, Except.pure_eq_ok] at h
  obtain ⟨_, -, rfl⟩ := h
  exact .call hflat ..

theorem tailCallFlow_of {callee : ℕ × ℕ × FuncType} (hflat : i.isFlat = true) (h : tailCallFlow callee st = .ok fl) :
    FlowOf d.module frame pc i fl := by
  simp only [tailCallFlow, Except.bind_eq_ok, Except.pure_eq_ok] at h
  obtain ⟨_, -, rfl⟩ := h
  exact .tailCall hflat ..

/-- The instructions that call. -/
theorem invokeFlow_of (h : invokeFlow inst d x code st i = .ok fl) : FlowOf d.module frame pc i fl := by
  cases i with
  | call f | callRef ti | callIndirect ti table =>
    obtain ⟨_, -, h⟩ := Except.bind_eq_ok.mp h
    exact callFlow_of rfl h
  | returnCall f | returnCallRef ti | returnCallIndirect ti table =>
    obtain ⟨_, -, h⟩ := Except.bind_eq_ok.mp h
    exact tailCallFlow_of rfl h
  | _ => cases h

/-- What any instruction does. -/
theorem flow_of {ops : Ops} (h : flow ops inst d x code frame pc i = .ok fl) : FlowOf d.module frame pc i fl := by
  have hplain : i.isFlat = true →
      Flow.next <$> execPlain ops code inst d x.pools.limits (x.isMatch inst d code) (frame.plain x) i = .ok fl →
        FlowOf d.module frame pc i fl := fun hflat h => by
    cases hexec : execPlain ops code inst d x.pools.limits (x.isMatch inst d code) (frame.plain x) i with
    | error t =>
      rw [hexec] at h
      cases h
    | ok st =>
      rw [hexec] at h
      cases h
      exact .next hflat st
  cases i with
  | block _ | loop _ | if_ _ | else_ | tryLegacy _ | catchLegacy _ | catchAll | delegate _ | tryTable _ _ | end_ =>
    exact blockFlow_of (x := x) h
  | throw _ | rethrow _ | throwRef => exact raiseFlow_of (x := x) rfl h
  | br _ | brIf _ | brTable _ _ | return_ | brOnNull _ | brOnNonNull _ | brOnCast _ _ _ | brOnCastFail _ _ _
  | brOnCastDescEq _ _ _ | brOnCastDescEqFail _ _ _ =>
    exact branchFlow_of (show branchFlow inst d x code frame (frame.plain x) _ = .ok fl from h)
  | call _ | callIndirect _ _ | returnCall _ | returnCallIndirect _ _ | callRef _ | returnCallRef _ =>
    exact invokeFlow_of (show invokeFlow inst d x code (frame.plain x) _ = .ok fl from h)
  | _ => exact hplain rfl h

end Flow

/-! ## Constructs that are entered -/

section Entered

variable {m : Module} {body : FuncBody} {pc : ℕ} {nest : List Open} {i : Instr} {E : ℕ → ℕ → Prop}

/-- A construct that is opened is closed. -/
theorem exists_closesAt_of_opens (hir : WellNested body.ir) (hnest : nestAt body.ir pc = some nest)
    (hne : nest ≠ []) (hi : body.ir[pc]? = some i) {kind : FrameKind} (hopens : i.opens = some kind) :
    ∃ e, ClosesAt body.ir e pc :=
  IsOpen.exists_closesAt hir (n := pc + 1) ⟨_, nestAt_succ_of_opens hnest hne hi hopens, by simp⟩

/-- What continues a construct continues one that is closed. -/
theorem exists_continues {ir : List Instr} (hir : WellNested ir) (hi : ir[pc]? = some i) (hcont : i.continues = true) :
    ∃ o e, Continues ir pc o ∧ ClosesAt ir e o := by
  have hlt : pc < ir.length := (List.getElem?_eq_some_iff.mp hi).1
  obtain ⟨after, hafter⟩ := exists_nestAt_of_le (show pc + 1 ≤ ir.length from hlt) hir
  obtain ⟨i', before, hi', hbefore, -, hstep⟩ := nestAt_succ hafter
  obtain rfl := Option.some.inj (hi.symm.trans hi')
  obtain ⟨top, rest, rfl, hkind⟩ : ∃ top rest, before = top :: rest ∧ top.kind ≠ .block := by
    cases hstep with
    | else_ _ heq hkind => exact ⟨_, _, heq, by rw [hkind]; nofun⟩
    | catch_ _ heq hkind => exact ⟨_, _, heq, by rcases hkind with hkind | hkind <;> rw [hkind] <;> nofun⟩
    | opener h => cases i <;> cases hcont <;> cases h
    | closer h => cases i <;> cases hcont <;> cases h
    | flat h => cases i <;> cases hcont <;> cases h
  obtain ⟨o, ho⟩ := exists_opener hbefore hkind
  have htop : topAt ir pc = some o := topAt_eq_some.mpr ⟨top, rest, hbefore, ho⟩
  obtain ⟨e, he⟩ := (isOpen_of_topAt htop).exists_closesAt hir
  exact ⟨o, e, ⟨htop, i, hi, hcont⟩, he⟩

/-- The label that is made is that of the construct. -/
theorem labelOf_openLabel (hcf : body.cf.Exact body.ir) (hi : body.ir[pc]? = some i) {kind part : FrameKind}
    {bt : BlockType} {base e : ℕ} (hopens : i.opens = some kind) (hbt : i.blockType = some bt)
    (he : ClosesAt body.ir e pc) (hE : E pc base) (hpart : part ≠ .catchLegacy) :
    LabelOf m body E ⟨some pc, part⟩ (openLabel m body pc bt kind base) := by
  have hend : body.cf.endOf.getD pc 0 = e := by
    rw [List.getD_eq_getElem?_getD, hcf.ended pc e pc he (.inl rfl), Option.getD_some]
  by_cases hloop : kind = .loop
  · subst hloop
    cases i <;> cases hopens
    obtain rfl := Option.some.inj hbt
    exact .loop hi hE part hpart
  · rw [openLabel, if_neg hloop, hend]
    exact .block hi hbt hopens hloop he hE (by simp [hpart])

/-- Where an opener with an operand on top goes on by the structure of the body: past it or, if it is an `if` and
the operand is 0, past its own `else` or at its end. -/
inductive Enters (ir : List Instr) (pc : ℕ) (i : Instr) (c : Value) : ℕ → Prop
  | inside (h : ∀ bt, i = .if_ bt → asI32 c ≠ 0) : Enters ir pc i c (pc + 1)
  | toElse {bt : BlockType} {p : ℕ} (hi : i = .if_ bt) (hc : asI32 c = 0) (hp : ElseAt ir p pc) :
      Enters ir pc i c (p + 1)
  | toEnd {bt : BlockType} {e : ℕ} (hi : i = .if_ bt) (hc : asI32 c = 0) (hnone : ∀ p, ¬ ElseAt ir p pc)
      (he : ClosesAt ir e pc) : Enters ir pc i c e

/-- The tables lead there. -/
theorem EntersAt.enters (hcf : body.cf.Exact body.ir) (hi : body.ir[pc]? = some i) {e pc' : ℕ} {c : Value}
    (he : ClosesAt body.ir e pc) (h : EntersAt body pc i c pc') : Enters body.ir pc i c pc' := by
  have hlt : pc < body.ir.length := (List.getElem?_eq_some_iff.mp hi).1
  cases h with
  | inside h => exact .inside h
  | toElse hif hc helse =>
    obtain ⟨p, hp⟩ : ∃ p, ElseAt body.ir p pc := by
      by_contra hnone
      have := hcf.noElse pc hlt fun p hp => hnone ⟨p, hp⟩
      rw [List.getD_eq_getElem?_getD, this] at helse
      exact helse rfl
    rw [List.getD_eq_getElem?_getD, hcf.elses pc p hp]
    exact .toElse hif hc hp
  | toEnd hif hc helse =>
    rw [List.getD_eq_getElem?_getD, hcf.ended pc e pc he (.inl rfl)]
    refine .toEnd hif hc (fun p hp => ?_) he
    rw [List.getD_eq_getElem?_getD, hcf.elses pc p hp, Option.getD_some] at helse
    exact absurd (List.getElem?_eq_some_iff.mp hp.2).1 (by omega)

/-- The part of the construct that is entered. -/
theorem Enters.part {c : Value} {pc' : ℕ} {kind : FrameKind} (h : Enters body.ir pc i c pc')
    (hopens : i.opens = some kind) : ∃ part, part ≠ .catchLegacy ∧ (pc' = pc + 1 ∧ part = kind ∨
      ElseAt body.ir (pc' - 1) pc ∧ 0 < pc' ∧ part = .else_ ∨ ClosesAt body.ir pc' pc) := by
  cases h with
  | inside =>
    refine ⟨kind, ?_, .inl ⟨rfl, rfl⟩⟩
    rintro rfl
    cases i <;> cases hopens
  | toElse _ _ hp => exact ⟨.else_, nofun, .inr (.inl ⟨hp, Nat.succ_pos _, rfl⟩)⟩
  | toEnd _ _ _ he => exact ⟨.if_, nofun, .inr (.inr he)⟩

end Entered

/-! ## Activations -/

/-- The construct opened at `o` was last entered with `base` operands below its own. -/
def EnteredWith (m : Module) (ir : List Instr) (h : Executed) (o base : ℕ) : Prop :=
  ∃ i bt operands, ir[o]? = some i ∧ i.blockType = some bt ∧ h.lookup o = some operands ∧
    base + blockArity m bt true = operands.length - i.conditions

/-- Another instruction makes no difference. -/
theorem EnteredWith.cons {m : Module} {ir : List Instr} {h : Executed} {o base pc : ℕ} (ho : EnteredWith m ir h o base)
    (hne : o ≠ pc) (operands : List Value) : EnteredWith m ir ((pc, operands) :: h) o base := by
  obtain ⟨i, bt, operands', hi, hbt, hlookup, hbase⟩ := ho
  refine ⟨i, bt, operands', hi, hbt, ?_, hbase⟩
  rw [List.lookup_cons, beq_false_of_ne hne]
  exact hlookup

/-- The bodies of the instances are well nested and have their tables. -/
def Env.Prepared (env : Env W) : Prop :=
  ∀ d ∈ env.code, ∀ body ∈ d.funcBodies, WellNested body.ir ∧ precomputeControlFlow body.ir = .ok body.cf

/-- The labels of an activation are those of the constructs open at its position. -/
structure Activation.Placed (env : Env W) (d : InstanceData) (h : Executed) (a : Activation) : Prop where
  code : env.code[a.inst]? = some d
  nested : WellNested a.frame.body.ir
  exact : a.frame.body.cf.Exact a.frame.body.ir
  placed : a.frame.Placed d.module (EnteredWith d.module a.frame.body.ir h) a.pc

namespace Activation.Placed

variable {env : Env W} {d : InstanceData} {h : Executed} {a a' : Activation} {i : Instr} {x : Exec} {fl : Flow}

/-- The instruction is recorded. -/
theorem record (ha : a.Placed env d h) (operands : List Value) :
    a.frame.Placed d.module (EnteredWith d.module a.frame.body.ir ((a.pc, operands) :: h)) a.pc :=
  ha.placed.mono fun _ ho _ hbase => hbase.cons (Nat.ne_of_lt ho) operands

/-- A frame with the body of the activation. -/
theorem of_frame (ha : a.Placed env d h) {h' : Executed} {a' : Activation} (hinst : a'.inst = a.inst)
    (hbody : a'.frame.body = a.frame.body)
    (hplaced : a'.frame.Placed d.module (EnteredWith d.module a.frame.body.ir h') a'.pc) : a'.Placed env d h' where
  code := by rw [hinst]; exact ha.code
  nested := by rw [hbody]; exact ha.nested
  exact := by rw [hbody]; exact ha.exact
  placed := by rw [hbody]; exact hplaced

/-- A function body is entered with its own label. -/
theorem start {inst : ℕ} {body : FuncBody} (hcode : env.code[inst]? = some d) (hir : WellNested body.ir)
    (hcf : body.cf.Exact body.ir) (func depth : ℕ) (args : List Value) :
    (Activation.start inst func depth body args).Placed env d [] where
  code := hcode
  nested := hir
  exact := hcf
  placed := .of_forall₂ hir rfl (.cons (.function _) .nil)

/-- An instruction after which the activation goes on. -/
theorem goesTo (ha : a.Placed env d h) (hi : a.frame.body.ir[a.pc]? = some i)
    (hfl : flow env.ops a.inst d x env.code a.frame a.pc i = .ok fl) (hgoes : fl.GoesTo a d.maps.tags x a') :
    a'.Placed env d ((a.pc, a.frame.vstack) :: h) := by
  have hrecord := ha.record a.frame.vstack
  have hof := flow_of hfl
  cases hgoes with
  | next st =>
    cases hof with
    | next hflat => exact ha.of_frame rfl rfl ((hrecord.next ha.nested hi hflat).congr rfl rfl)
  | jump pc st =>
    cases hof with
    | return_ => exact ha.of_frame rfl rfl (.left rfl)
    | skip hcont =>
      obtain ⟨o, e, hpart, hcloses⟩ := exists_continues ha.nested hi hcont
      have hend : a.frame.body.cf.endOf.getD a.pc 0 = e := by
        rw [List.getD_eq_getElem?_getD, ha.exact.ended o e a.pc hcloses (.inr hpart), Option.getD_some]
      rw [hend]
      exact ha.of_frame rfl rfl ((hrecord.skip hpart hcloses).congr rfl rfl)
  | enter l pc st =>
    cases hof with
    | @enter kind bt base _ _ hopens hbt _ hbase hl hpc =>
      subst hl
      obtain ⟨nest, hnest, hne, -⟩ := hrecord.forall₂ hi (by cases i <;> cases hopens <;> rfl)
      obtain ⟨e, he⟩ := exists_closesAt_of_opens ha.nested hnest hne hi hopens
      obtain ⟨part, hpart, hwhere⟩ := (hpc.enters ha.exact hi he).part hopens
      have hE : EnteredWith d.module a.frame.body.ir ((a.pc, a.frame.vstack) :: h) a.pc base :=
        ⟨i, bt, _, hi, hbt, by simp, hbase⟩
      exact ha.of_frame rfl rfl ((hrecord.enter ha.nested hi hopens
        (labelOf_openLabel ha.exact hi hopens hbt he hE hpart) hwhere).congr rfl rfl)
  | leave =>
    cases hof with
    | leave hcloses => exact ha.of_frame rfl rfl (hrecord.leave ha.nested hi hcloses)
  | @branch n st r x' hbranch =>
    cases hof with
    | branch hflat =>
      obtain ⟨nest, hnest, -, hlabels⟩ := hrecord.forall₂ hi (by cases i <;> cases hflat <;> rfl)
      obtain ⟨hbody, hplaced⟩ := CallFrame.Placed.branch (m := d.module)
        (E := EnteredWith d.module a.frame.body.ir ((a.pc, a.frame.vstack) :: h))
        (by exact ha.nested) (by exact hnest) (by exact hlabels) hbranch
      exact ha.of_frame rfl hbody hplaced
  | @raise exn st es r x' hraise =>
    cases hof with
    | raise hflat =>
      obtain ⟨nest, hnest, -, hlabels⟩ := hrecord.forall₂ hi (by cases i <;> cases hflat <;> rfl)
      obtain ⟨hbody, hplaced⟩ := CallFrame.Placed.throwException (m := d.module)
        (E := EnteredWith d.module a.frame.body.ir ((a.pc, a.frame.vstack) :: h))
        (by exact ha.nested) (by exact ha.exact) (by exact hnest) (by exact hlabels) (CallFrame.raise_eq_ok hraise)
      exact ha.of_frame rfl hbody hplaced

end Activation.Placed

/-- What activations do keeps their labels those of their open constructs. One that waits has executed a call. -/
theorem Activation.placed_invariant {env : Env W} (henv : env.Prepared) :
    Activation.Invariant env (fun h a => ∃ d, a.Placed env d h)
      (fun h s => ∃ d i, s.activation.Placed env d h ∧
        s.activation.frame.body.ir[s.activation.pc]? = some i ∧ i.isFlat = true) where
  start := by
    intro inst func d body depth args hcode hbody _
    obtain ⟨hir, hcf⟩ := henv d (List.mem_of_getElem? hcode) body (List.mem_of_getElem? hbody)
    obtain ⟨cf, hcf', hexact⟩ := precompute_exact hir
    obtain rfl := Except.ok.inj (hcf.symm.trans hcf')
    exact ⟨d, .start hcode hir hexact func depth args⟩
  goesTo := by
    rintro h a a' d i x fl ⟨d', ha⟩ hd hi hfl hgoes
    obtain rfl := Option.some.inj (hd.symm.trans ha.code)
    exact ⟨d, ha.goesTo hi hfl hgoes⟩
  suspend := by
    rintro h a d i x inst func params st ⟨d', ha⟩ hd hi hfl
    obtain rfl := Option.some.inj (hd.symm.trans ha.code)
    cases flow_of hfl with
    | call hflat => exact ⟨d, i, ha.of_frame rfl rfl ((ha.record _).congr rfl rfl), hi, hflat⟩
  returned := by
    rintro h s results ⟨d, i, hs, hi, hflat⟩
    exact ⟨d, hs.of_frame rfl rfl ((hs.placed.next hs.nested hi hflat).congr rfl rfl)⟩
  caught := by
    rintro h s t x x' r ⟨d, i, hs, hi, hflat⟩ hcatch
    obtain ⟨nest, hnest, -, hlabels⟩ := hs.placed.forall₂ hi (by cases i <;> cases hflat <;> rfl)
    obtain ⟨exn, -, -, hthrow⟩ := CallFrame.onCallError_eq_ok hcatch
    obtain ⟨hbody, hplaced⟩ := CallFrame.Placed.throwException hs.nested hs.exact hnest hlabels hthrow
    exact ⟨d, hs.of_frame rfl hbody hplaced⟩

/-- So they are in every state the machine comes to. -/
theorem placed_of_traced {env : Env W} (henv : env.Prepared) {c : Config W} {hs : List Executed}
    (h : Config.Traced env c hs) {a : Activation} (hc : c.control = .run a) :
    ∃ hist rest d, hs = hist :: rest ∧ a.Placed env d hist := by
  obtain ⟨hist, rest, rfl, ⟨d, ha⟩, -⟩ := (Activation.placed_invariant henv).of_run h hc
  exact ⟨hist, rest, d, rfl, ha⟩

/-! ## Tables, branches and jumps -/

/-- Control goes where the structure of the body says. A branch goes on at the construct it names, with the operands
this carries on those there were below it when it was entered; an opener goes on inside or, if it is an `if`, at its
own `else` or end; a clause come to in normal flow goes on at the end of its construct, and `return` at that of the
body. -/
def Structured (m : Module) (E : ℕ → ℕ → Prop) (nest : List Open) (a : Activation) (i : Instr) (x : Exec) : Flow → Prop
  | .branch n st => n ∈ i.branchLabels ∧ ∀ r x', (a.goTo st a.pc).frame.branch n x = .ok (r, x') →
      ∃ o arity height, nest[n]? = some o ∧ Continuation m a.frame.body E o r.pc arity height ∧
        arity + height ≤ st.vstack.length ∧
        r.frame.vstack = st.vstack.take arity ++ st.vstack.drop (st.vstack.length - height)
  | .enter _ pc _ => Enters a.frame.body.ir a.pc i (a.frame.vstack.headD 0) pc
  | .jump pc _ => (i = .return_ ∧ pc = a.frame.body.ir.length) ∨
      ∃ o, Continues a.frame.body.ir a.pc o ∧ ClosesAt a.frame.body.ir pc o
  | .leave => i.closes = true
  | _ => i.isFlat = true

theorem Activation.Placed.structured {env : Env W} {d : InstanceData} {h : Executed} {a : Activation} {i : Instr}
    {x : Exec} {fl : Flow} (ha : a.Placed env d h) (hi : a.frame.body.ir[a.pc]? = some i)
    (hfl : flow env.ops a.inst d x env.code a.frame a.pc i = .ok fl) : ∃ nest, nestAt a.frame.body.ir a.pc = some nest ∧
      Structured d.module (EnteredWith d.module a.frame.body.ir h) nest a i x fl := by
  have hlt : a.pc < a.frame.body.ir.length := (List.getElem?_eq_some_iff.mp hi).1
  obtain ⟨nest, hnest, hne⟩ := ha.nested.exists_nestAt hlt
  refine ⟨nest, hnest, ?_⟩
  cases flow_of hfl with
  | next hflat | raise hflat | call hflat | tailCall hflat => exact hflat
  | return_ h => exact .inl ⟨h, rfl⟩
  | skip hcont =>
    obtain ⟨o, e, hpart, hcloses⟩ := exists_continues ha.nested hi hcont
    refine .inr ⟨o, hpart, ?_⟩
    rw [List.getD_eq_getElem?_getD, ha.exact.ended o e a.pc hcloses (.inr hpart)]
    exact hcloses
  | enter hopens hbt st hbase hl hpc =>
    obtain ⟨e, he⟩ := exists_closesAt_of_opens ha.nested hnest hne hi hopens
    exact hpc.enters ha.exact hi he
  | leave h => exact h
  | @branch hflat n hn st =>
    refine ⟨hn, fun r x' hbranch => ?_⟩
    obtain ⟨nest', hnest', -, hlabels⟩ := ha.placed.forall₂ hi (by cases i <;> cases hflat <;> rfl)
    obtain rfl := Option.some.inj (hnest.symm.trans hnest')
    obtain ⟨l, hl, hpc, hle, hframe⟩ := CallFrame.branch_eq_ok hbranch
    obtain ⟨o, ho, hol, -⟩ := exists_open_of_label hlabels hl
    refine ⟨o, l.arity, l.stackBase, ho, ?_, hle, by rw [hframe]; rfl⟩
    rw [hpc]
    exact hol.continuation

/-- For every expression the decoder takes the tables have the end of every construct. If its clauses stand where the
validator admits them, they have all its clauses too, and in every run of such bodies control goes where their
structure says. -/
theorem control_structured :
    (∀ (ir : List Instr) (cf : ControlFlow), endsAtDepth 1 ir = true → precomputeControlFlow ir = .ok cf →
      ∀ (o : ℕ) (i : Instr), ir[o]? = some i → i.opens.isSome = true →
        ∃ e, EndsConstruct ir o e ∧ cf.endOf[o]? = some e) ∧
    (∀ ir : List Instr, WellNested ir →
      endsAtDepth 1 ir = true ∧ ∃ cf, precomputeControlFlow ir = .ok cf ∧ cf.Exact ir) ∧
    ∀ {W : Type} (env : Env W), env.Prepared → ∀ (c : Config W) (hs : List Executed), Config.Traced env c hs →
      ∀ (a : Activation) (d : InstanceData) (i : Instr) (fl : Flow), c.control = .run a →
        env.code[a.inst]? = some d → a.frame.body.ir[a.pc]? = some i →
          flow env.ops a.inst d c.exec env.code a.frame a.pc i = .ok fl →
            ∃ h rest nest, hs = h :: rest ∧ nestAt a.frame.body.ir a.pc = some nest ∧
              Structured d.module (EnteredWith d.module a.frame.body.ir h) nest a i c.exec fl := by
  refine ⟨fun ir cf hends hcf o i hi hopens => endOf_of_endsAtDepth hends hcf hi hopens,
    fun ir hir => ⟨hir.endsAtDepth, precompute_exact hir⟩, ?_⟩
  intro W env henv c hs htraced a d i fl hc hd hi hfl
  obtain ⟨h, rest, d', rfl, ha⟩ := placed_of_traced henv htraced hc
  obtain rfl := Option.some.inj (hd.symm.trans ha.code)
  obtain ⟨nest, hnest, hstructured⟩ := ha.structured hi hfl
  exact ⟨h, rest, nest, rfl, hnest, hstructured⟩

/-- A body that branches out of a block. -/
def branchesOut : FuncBody where
  ty := ⟨[], []⟩
  numLocals := 0
  nullLocals := []
  ir := [.block .empty, .br 0, .end_, .end_]
  cf := ⟨[2, 0, 0, 0], [4, 4, 4, 4], [none, none, none, none]⟩

def branchesOutEnv : Env Unit where
  code := [{ module := {}, typeIds := [], funcBodies := [branchesOut] }]
  ops := .unsupported

theorem prepared_branchesOutEnv : branchesOutEnv.Prepared := by
  intro d hd body hbody
  obtain rfl := List.mem_singleton.mp hd
  obtain rfl := List.mem_singleton.mp hbody
  exact ⟨rfl, rfl⟩

/-- The body is called. -/
def branchesOutCall : Config Unit where
  control := .call 0 0 [] 0
  stack := []
  exec := { runLimits := { maxCallDepth := 8, maxExnBoxes := 8, maxIterations := 0, exnBoxes_le := eight_le_usizeMax } }
  world := ()

/-- The body at its branch. -/
def branchesOutRun : Config Unit := (branchesOutCall.runFor branchesOutEnv 3).2

theorem traced_branchesOutRun : Config.Traced branchesOutEnv branchesOutRun [[(0, [])]] :=
  .step (.step (.step (.start 0 0 [] 0 _ ()) rfl) rfl) rfl

/-- Its branch goes on past the block. -/
theorem branchesOut_structured : ∃ a nest, branchesOutRun.control = .run a ∧ nestAt branchesOut.ir 1 = some nest ∧
    Structured {} (EnteredWith {} branchesOut.ir [(0, [])]) nest a (.br 0) branchesOutRun.exec
      (.branch 0 (a.frame.plain branchesOutRun.exec)) := by
  obtain ⟨h, rest, nest, heq, hnest, hstructured⟩ := control_structured.2.2 branchesOutEnv prepared_branchesOutEnv _ _
    traced_branchesOutRun _ _ (.br 0) _ rfl rfl rfl rfl
  obtain ⟨rfl, -⟩ := List.cons.inj heq
  exact ⟨_, nest, rfl, hnest, hstructured⟩

/-- A handler before a `delegate` is in no table. -/
theorem tables_miss_handler : ¬ ∀ (ir : List Instr) (cf : ControlFlow), endsAtDepth 1 ir = true →
    precomputeControlFlow ir = .ok cf → ∀ o p, CatchAt ir p o →
      ∃ lt, cf.tryInfo[o]? = some (some lt) ∧ clauseAt ir p ∈ lt.handlers := by
  intro h
  obtain ⟨hends, hcatch, hcf⟩ := handler_before_delegate
  obtain ⟨lt, hlt, hmem⟩ := h _ _ hends hcf 0 1 hcatch
  obtain rfl := Option.some.inj (Option.some.inj hlt)
  cases hmem

end Wasmrt
