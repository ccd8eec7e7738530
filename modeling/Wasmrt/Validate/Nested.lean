import Wasmrt.Validate.Leaves
import Wasmrt.Validate.Module

/-!
# Accepted bodies are well nested

The checker of bodies keeps the open constructs as its control frames, each with the locals that were initialised
when its construct was opened. An instruction that opens, closes and continues nothing leaves the frames as they
are, and each of the others changes them as the rules of nesting say. The locals go back to those of the frame
when its construct ends or goes on to its next part.

## Main definitions

* `FuncValidator.frames`: the control frames, but for what is unreachable.
* `Open.Matches`: the frame of an open construct.
* `nextInit`: the locals initialised after an instruction.

## Main results

* `stepInstr_matches`: the rule of an instruction keeps to the rules of nesting.
* `wellNested_of_checkBody`: an accepted body is well nested.
-/

namespace Wasmrt

section Accepted

open MonadExcept (ofExcept)

variable {cx : FuncContext} {α : Type} {s s' : FuncValidator} {u : Unit}

/-! ## Frames -/

/-- A control frame, but for whether the rest of it can be reached. -/
def Frame.shape (f : Frame) : Frame := { f with isUnreachable := false }

/-- The control frames, but for whether the rest of them can be reached. -/
def FuncValidator.frames (s : FuncValidator) : List Frame := s.ctrls.map Frame.shape

instance : Blind FuncValidator.frames where
  vals _ _ := rfl
  unreachable := by
    intro s top rest h vals
    simp only [FuncValidator.frames, h]
    rfl

instance : BlindToInit FuncValidator.frames where
  localInit _ _ := rfl

instance : Blind FuncValidator.localInit where
  vals _ _ := rfl
  unreachable _ _ _ _ _ := rfl

instance (f : Frame) : Leaves FuncValidator.frames (restoreInit f) := ⟨fun _ => rfl⟩

/-- A check that leaves the frames and the locals as they are. -/
theorem leaves_eq {x : Validation α} [hframes : Leaves FuncValidator.frames x] [hinit : Leaves FuncValidator.localInit x]
    {a : α} (h : x s = .ok a s') : s'.frames = s.frames ∧ s'.localInit = s.localInit :=
  ⟨hframes.eq_of_ok h, hinit.eq_of_ok h⟩

theorem popCtrl_eq_ok {top : Frame} (h : popCtrl cx s = .ok top s') :
    s.frames = top.shape :: s'.frames ∧ s'.localInit = s.localInit := by
  obtain ⟨_, _, hget, h⟩ := estate_bind_eq_ok.mp h
  obtain ⟨rfl, rfl⟩ := estate_get_eq_ok.mp hget
  obtain ⟨_, _, hhead, h⟩ := estate_bind_eq_ok.mp h
  obtain ⟨htop, rfl⟩ := ofExcept_eq_ok.mp hhead
  obtain ⟨_, s₁, hpop, h⟩ := estate_bind_eq_ok.mp h
  obtain ⟨_, _, hget, h⟩ := estate_bind_eq_ok.mp h
  obtain ⟨rfl, rfl⟩ := estate_get_eq_ok.mp hget
  obtain ⟨_, _, hheight, h⟩ := estate_bind_eq_ok.mp h
  obtain ⟨-, rfl⟩ := ofExcept_eq_ok.mp hheight
  obtain ⟨_, _, hset, h⟩ := estate_bind_eq_ok.mp h
  obtain rfl := estate_set_eq_ok.mp hset
  obtain ⟨rfl, rfl⟩ := estate_pure_eq_ok.mp h
  obtain ⟨hframes, hinit⟩ := leaves_eq hpop
  obtain ⟨rest, hrest⟩ := List.head?_eq_some_iff.mp (orError_eq_ok.mp htop)
  refine ⟨?_, hinit⟩
  simp only [FuncValidator.frames] at hframes ⊢
  rw [List.map_tail, hframes, hrest]
  rfl

theorem pushCtrl_eq_ok {kind : FrameKind} {start end_ : List ValType} (h : pushCtrl kind start end_ s = .ok u s') :
    s'.localInit = s.localInit ∧ s'.frames =
      { kind, start, end_, height := s.vals.length, initSnapshot := s.localInit } :: s.frames ∧
        s.frames.length < maxCtrlDepth := by
  obtain ⟨_, _, hget, h⟩ := estate_bind_eq_ok.mp h
  obtain ⟨rfl, rfl⟩ := estate_get_eq_ok.mp hget
  obtain ⟨_, _, hcheck, h⟩ := estate_bind_eq_ok.mp h
  obtain ⟨hdepth, rfl⟩ := ofExcept_eq_ok.mp hcheck
  rw [ensure_eq_ok, decide_eq_true_eq] at hdepth
  obtain ⟨_, s₁, hpush, h⟩ := estate_bind_eq_ok.mp h
  obtain rfl := estate_modify_eq_ok.mp h
  obtain ⟨hframes, hinit⟩ := leaves_eq hpush
  refine ⟨hinit, ?_, by rwa [FuncValidator.frames, List.length_map]⟩
  rw [← hframes]
  rfl

/-- What opens a frame with some types, in which the locals are those that were initialised before, if there are not
too many frames. -/
def Pushes (kind : FrameKind) (start end_ : List ValType) (s s' : FuncValidator) : Prop :=
  s'.localInit = s.localInit ∧ ∃ f : Frame, f.kind = kind ∧ f.start = start ∧ f.end_ = end_ ∧
    f.initSnapshot = s.localInit ∧ s'.frames = f :: s.frames ∧ s'.frames.length ≤ maxCtrlDepth

theorem pushes_of_pushCtrl {kind : FrameKind} {start end_ : List ValType}
    (h : pushCtrl kind start end_ s = .ok u s') : Pushes kind start end_ s s' := by
  obtain ⟨hinit, hframes, hdepth⟩ := pushCtrl_eq_ok h
  refine ⟨hinit, _, rfl, rfl, rfl, rfl, hframes, ?_⟩
  rw [hframes, List.length_cons]
  exact hdepth

/-- Before it is opened, the operands may change. -/
theorem Pushes.of_leaves {kind : FrameKind} {start end_ : List ValType} {s₁ : FuncValidator}
    (h : Pushes kind start end_ s₁ s') (hframes : s₁.frames = s.frames) (hinit : s₁.localInit = s.localInit) :
    Pushes kind start end_ s s' := by
  obtain ⟨hinit', f, hkind, hstart, hend, hsnapshot, heq, hdepth⟩ := h
  exact ⟨hinit'.trans hinit, f, hkind, hstart, hend, hsnapshot.trans hinit, by rw [heq, hframes], hdepth⟩

/-- A block is opened after its operands are popped. -/
theorem openBlock_pushes {kind : FrameKind} {bt : BlockType} (h : openBlock cx kind bt s = .ok u s') :
    ∃ sig, blockSig cx bt = .ok sig ∧ Pushes kind sig.pop sig.push s s' := by
  obtain ⟨sig, _, hsig, h⟩ := estate_bind_eq_ok.mp h
  obtain ⟨hsigOk, rfl⟩ := ofExcept_eq_ok.mp hsig
  obtain ⟨_, s₁, hpop, h⟩ := estate_bind_eq_ok.mp h
  obtain ⟨hframes, hinit⟩ := leaves_eq hpop
  exact ⟨sig, hsigOk, (pushes_of_pushCtrl h).of_leaves hframes hinit⟩

theorem tryTable_pushes {bt : BlockType} {catches : List Catch} (h : tryTable cx bt catches s = .ok u s') :
    ∃ sig, blockSig cx bt = .ok sig ∧ Pushes .tryTable sig.pop sig.push s s' := by
  obtain ⟨sig, _, hsig, h⟩ := estate_bind_eq_ok.mp h
  obtain ⟨hsigOk, rfl⟩ := ofExcept_eq_ok.mp hsig
  obtain ⟨_, s₁, hpop, h⟩ := estate_bind_eq_ok.mp h
  obtain ⟨_, s₂, hclauses, h⟩ := estate_bind_eq_ok.mp h
  obtain ⟨hframes, hinit⟩ := leaves_eq hpop
  obtain ⟨hframes', hinit'⟩ := leaves_eq hclauses
  exact ⟨sig, hsigOk, (pushes_of_pushCtrl h).of_leaves (hframes'.trans hframes) (hinit'.trans hinit)⟩

/-- What opens a construct pushes a frame with the types of its block. -/
theorem pushes_of_opens {i : Instr} {kind : FrameKind} (hopens : i.opens = some kind)
    (h : stepInstr cx i s = .ok u s') :
    ∃ bt sig, i.blockType = some bt ∧ blockSig cx bt = .ok sig ∧ Pushes kind sig.pop sig.push s s' := by
  cases i with
  | block bt | loop bt | tryLegacy bt =>
    obtain rfl := Option.some.inj hopens
    obtain ⟨sig, hsig, hpush⟩ := openBlock_pushes h
    exact ⟨bt, sig, rfl, hsig, hpush⟩
  | if_ bt =>
    obtain rfl := Option.some.inj hopens
    obtain ⟨_, s₁, hpop, h⟩ := estate_bind_eq_ok.mp h
    obtain ⟨hframes, hinit⟩ := leaves_eq hpop
    obtain ⟨sig, hsig, hpush⟩ := openBlock_pushes h
    exact ⟨bt, sig, rfl, hsig, hpush.of_leaves hframes hinit⟩
  | tryTable bt catches =>
    obtain rfl := Option.some.inj hopens
    obtain ⟨sig, hsig, hpush⟩ := tryTable_pushes h
    exact ⟨bt, sig, rfl, hsig, hpush⟩
  | _ => cases hopens

theorem labelTypesAt_eq_ok {label : ℕ} {ts : List ValType} (h : labelTypesAt label s = .ok ts s') :
    s' = s ∧ ∃ f, s.frames[label]? = some f ∧ f.labelTypes = ts := by
  obtain ⟨f, s₁, hframe, h⟩ := estate_bind_eq_ok.mp h
  obtain ⟨rfl, rfl⟩ := estate_pure_eq_ok.mp h
  obtain ⟨_, _, hget, hframe⟩ := estate_bind_eq_ok.mp hframe
  obtain ⟨rfl, rfl⟩ := estate_get_eq_ok.mp hget
  obtain ⟨hf, rfl⟩ := ofExcept_eq_ok.mp hframe
  refine ⟨rfl, f.shape, ?_, rfl⟩
  rw [FuncValidator.frames, List.getElem?_map, orError_eq_ok.mp hf]
  rfl

/-- The clauses of a `try_table` are checked against the frames around it. -/
theorem clauses_eq_ok {catches : List Catch}
    (h : (catches.forM fun c => do
      let lt ← labelTypesAt c.label
      ofExcept (checkCatch cx c lt)) s = .ok u s') :
    ∀ c ∈ catches, ∃ f, s.frames[c.label]? = some f ∧ checkCatch cx c f.labelTypes = .ok ⟨⟩ := by
  induction catches with
  | nil => exact nofun
  | cons c catches ih =>
    obtain ⟨_, s₁, hone, hrest⟩ := estate_bind_eq_ok.mp
      (show ((do
        let lt ← labelTypesAt c.label
        ofExcept (checkCatch cx c lt)) >>= fun _ => catches.forM fun c => do
          let lt ← labelTypesAt c.label
          ofExcept (checkCatch cx c lt)) s = _ from h)
    obtain ⟨lt, s₂, hlabel, hcheck⟩ := estate_bind_eq_ok.mp hone
    obtain ⟨rfl, f, hf, hlt⟩ := labelTypesAt_eq_ok hlabel
    obtain ⟨hok, rfl⟩ := ofExcept_eq_ok.mp hcheck
    rw [List.forall_mem_cons]
    exact ⟨⟨f, hf, hlt ▸ hok⟩, ih hrest⟩

theorem tryTable_clauses {bt : BlockType} {catches : List Catch} (h : tryTable cx bt catches s = .ok u s') :
    ∀ c ∈ catches, ∃ f, s.frames[c.label]? = some f ∧ checkCatch cx c f.labelTypes = .ok ⟨⟩ := by
  obtain ⟨sig, _, hsig, h⟩ := estate_bind_eq_ok.mp h
  obtain ⟨-, rfl⟩ := ofExcept_eq_ok.mp hsig
  obtain ⟨_, s₁, hpop, h⟩ := estate_bind_eq_ok.mp h
  obtain ⟨_, s₂, hclauses, -⟩ := estate_bind_eq_ok.mp h
  obtain ⟨hframes, -⟩ := leaves_eq hpop
  rw [← hframes]
  exact clauses_eq_ok hclauses

/-- What goes on to the next part of a construct: a frame with the same results takes the place of its frame, and
the locals are those its construct began with. -/
def MovesOn (top : Frame) (part : FrameKind) (start : List ValType) (s s' : FuncValidator) : Prop :=
  s'.localInit = top.initSnapshot ∧ ∃ rest, ∃ f : Frame, s.frames = top :: rest ∧ f.kind = part ∧ f.start = start ∧
    f.end_ = top.end_ ∧ f.initSnapshot = top.initSnapshot ∧ s'.frames = f :: rest

/-- What ends a construct. -/
def Pops (top : Frame) (s s' : FuncValidator) : Prop :=
  s'.localInit = top.initSnapshot ∧ s.frames = top :: s'.frames

/-- A frame is taken off and, with the locals it began with, another is put in its place. -/
theorem movesOn_of_pushCtrl {top : Frame} {part : FrameKind} {start : List ValType} {s₁ s₂ s₃ : FuncValidator} {v : Unit}
    (hpop : popCtrl cx s = .ok top s₁) (hrestore : restoreInit top s₁ = .ok v s₂) (hframes : s₃.frames = s₂.frames)
    (hinit : s₃.localInit = s₂.localInit) (hpush : pushCtrl part start top.end_ s₃ = .ok u s') :
    MovesOn top.shape part start s s' := by
  obtain ⟨htop, -⟩ := popCtrl_eq_ok hpop
  obtain rfl := estate_modify_eq_ok.mp hrestore
  obtain ⟨hinit', f, hkind, hstart, hend, hsnapshot, heq, -⟩ := pushes_of_pushCtrl hpush
  exact ⟨hinit'.trans hinit, _, f, htop, hkind, hstart, hend, hsnapshot.trans hinit, by rw [heq, hframes]; rfl⟩

/-- A frame is taken off and, with the locals it began with, its results are pushed. -/
theorem pops_of_pushVals {top : Frame} {s₁ s₂ : FuncValidator} {v : Unit} {ts : List ValType}
    (hpop : popCtrl cx s = .ok top s₁) (hrestore : restoreInit top s₁ = .ok v s₂)
    (hpush : pushVals ts s₂ = .ok u s') : Pops top.shape s s' := by
  obtain ⟨htop, -⟩ := popCtrl_eq_ok hpop
  obtain rfl := estate_modify_eq_ok.mp hrestore
  obtain ⟨hframes, hinit⟩ := leaves_eq hpush
  exact ⟨hinit, by rw [htop, hframes]; rfl⟩

theorem else_movesOn (h : else_ cx s = .ok u s') : ∃ top, top.kind = .if_ ∧
    MovesOn top .else_ top.start s s' := by
  obtain ⟨top, s₁, hpop, h⟩ := estate_bind_eq_ok.mp h
  obtain ⟨_, _, hcheck, h⟩ := estate_bind_eq_ok.mp h
  obtain ⟨hkind, rfl⟩ := ofExcept_eq_ok.mp hcheck
  rw [ensure_eq_ok, beq_iff_eq] at hkind
  obtain ⟨_, s₂, hrestore, h⟩ := estate_bind_eq_ok.mp h
  exact ⟨top.shape, hkind, movesOn_of_pushCtrl hpop hrestore rfl rfl h⟩

theorem catchLegacy_movesOn {tag : Option ℕ} (h : catchLegacy cx tag s = .ok u s') :
    ∃ top start, (top.kind = .tryLegacy ∨ top.kind = .catchLegacy) ∧ MovesOn top .catchLegacy start s s' := by
  obtain ⟨top, s₁, hpop, h⟩ := estate_bind_eq_ok.mp h
  obtain ⟨_, _, hcheck, h⟩ := estate_bind_eq_ok.mp h
  obtain ⟨hkind, rfl⟩ := ofExcept_eq_ok.mp hcheck
  rw [ensure_eq_ok, Bool.or_eq_true, beq_iff_eq, beq_iff_eq] at hkind
  obtain ⟨_, s₂, hrestore, h⟩ := estate_bind_eq_ok.mp h
  cases tag with
  | none => exact ⟨top.shape, _, hkind, movesOn_of_pushCtrl hpop hrestore rfl rfl h⟩
  | some t =>
    obtain ⟨ft, s₃, htag, h⟩ := estate_bind_eq_ok.mp h
    obtain ⟨_, s₄, hresults, h⟩ := estate_bind_eq_ok.mp h
    obtain ⟨hframes, hinit⟩ := leaves_eq htag
    obtain ⟨hframes', hinit'⟩ := leaves_eq hresults
    exact ⟨top.shape, _, hkind, movesOn_of_pushCtrl hpop hrestore (hframes'.trans hframes) (hinit'.trans hinit) h⟩

theorem delegate_pops {label : ℕ} (h : delegate cx label s = .ok u s') :
    ∃ top, top.kind = .tryLegacy ∧ Pops top s s' := by
  obtain ⟨top, s₁, hpop, h⟩ := estate_bind_eq_ok.mp h
  obtain ⟨_, _, hcheck, h⟩ := estate_bind_eq_ok.mp h
  obtain ⟨hkind, rfl⟩ := ofExcept_eq_ok.mp hcheck
  rw [ensure_eq_ok, beq_iff_eq] at hkind
  obtain ⟨_, s₂, hlabel, h⟩ := estate_bind_eq_ok.mp h
  obtain ⟨_, s₃, hrestore, h⟩ := estate_bind_eq_ok.mp h
  obtain rfl := estate_modify_eq_ok.mp hrestore
  obtain ⟨htop, -⟩ := popCtrl_eq_ok hpop
  obtain ⟨hframes, -⟩ := leaves_eq hlabel
  obtain ⟨hframes', hinit⟩ := leaves_eq h
  refine ⟨top.shape, hkind, hinit, ?_⟩
  rw [htop, hframes', ← hframes]
  rfl

theorem end_pops (h : end_ cx s = .ok u s') : ∃ top, Pops top s s' := by
  obtain ⟨top, s₁, hpop, h⟩ := estate_bind_eq_ok.mp h
  obtain ⟨_, _, hcheck, h⟩ := estate_bind_eq_ok.mp h
  obtain ⟨-, rfl⟩ := ofExcept_eq_ok.mp hcheck
  obtain ⟨_, s₂, hrestore, h⟩ := estate_bind_eq_ok.mp h
  exact ⟨top.shape, pops_of_pushVals hpop hrestore h⟩

/-! ## Instructions -/

/-- The frame of an open construct: its part, the locals that were initialised when it was opened, and its types. A
handler begins with a payload. -/
structure Open.Matches (cx : FuncContext) (ir : List Instr) (init : Option ℕ → List Bool) (o : Open) (f : Frame) :
    Prop where
  kind : f.kind = o.kind
  snapshot : f.initSnapshot = init o.opener
  function : o.opener = none → f.end_ = cx.results
  typed : ∀ p i bt, o.opener = some p → ir[p]? = some i → i.blockType = some bt → ∃ sig, blockSig cx bt = .ok sig ∧
    f.end_ = sig.push ∧ (o.kind ≠ .catchLegacy → f.start = sig.pop)

/-- The locals initialised after an instruction. -/
def nextInit (init : Option ℕ → List Bool) (nest : List Open) (i : Instr) (locals : List Bool) : List Bool :=
  match i.sets with
  | some x => locals.set x true
  | none => if i.closes || i.continues then (nest.head?).elim [] (init ·.opener) else locals

variable {ir : List Instr}

/-- A construct that is opened has the frame that is pushed. -/
theorem Pushes.matches {init : Option ℕ → List Bool} {nest : List Open} {pc : ℕ} {kind : FrameKind} {i : Instr}
    {bt : BlockType} {sig : Sig} (h : Pushes kind sig.pop sig.push s s')
    (hnest : List.Forall₂ (Open.Matches cx ir init) nest s.frames) (hpc : init (some pc) = s.localInit)
    (hi : ir[pc]? = some i) (hbt : i.blockType = some bt) (hsig : blockSig cx bt = .ok sig) :
    List.Forall₂ (Open.Matches cx ir init) (⟨some pc, kind⟩ :: nest) s'.frames := by
  obtain ⟨-, f, hkind, hstart, hend, hsnapshot, heq, -⟩ := h
  rw [heq]
  refine .cons ⟨hkind, hsnapshot.trans hpc.symm, nofun, fun p i' bt' hp hi' hbt' => ?_⟩ hnest
  obtain rfl := Option.some.inj hp
  obtain rfl := Option.some.inj (hi.symm.trans hi')
  obtain rfl := Option.some.inj (hbt.symm.trans hbt')
  exact ⟨sig, hsig, hend, fun _ => hstart⟩

/-- One that goes on has the frame that takes the place of its own. -/
theorem MovesOn.matches {init : Option ℕ → List Bool} {nest : List Open} {top : Frame} {part : FrameKind}
    {start : List ValType} (h : MovesOn top part start s s')
    (hstart : part ≠ .catchLegacy → start = top.start ∧ top.kind ≠ .catchLegacy)
    (hnest : List.Forall₂ (Open.Matches cx ir init) nest s.frames) :
    ∃ o rest, nest = o :: rest ∧ top.kind = o.kind ∧ s'.localInit = init o.opener ∧
      List.Forall₂ (Open.Matches cx ir init) (⟨o.opener, part⟩ :: rest) s'.frames := by
  obtain ⟨hinit, rest, f, hs, hkind, hf, hend, hsnapshot, hs'⟩ := h
  rw [hs] at hnest
  cases hnest with
  | @cons o _ nest _ ho hrest =>
    refine ⟨o, nest, rfl, ho.kind, hinit.trans ho.snapshot, ?_⟩
    rw [hs']
    refine .cons ⟨hkind, hsnapshot.trans ho.snapshot, fun hnone => hend.trans (ho.function hnone),
      fun p i bt hp hi hbt => ?_⟩ hrest
    obtain ⟨sig, hsig, htop, hparams⟩ := ho.typed p i bt hp hi hbt
    refine ⟨sig, hsig, hend.trans htop, fun hpart => ?_⟩
    obtain ⟨hsame, hnot⟩ := hstart hpart
    rw [hf, hsame, hparams fun h => hnot (ho.kind.trans h)]

theorem Pops.matches {init : Option ℕ → List Bool} {nest : List Open} {top : Frame} (h : Pops top s s')
    (hnest : List.Forall₂ (Open.Matches cx ir init) nest s.frames) : ∃ o rest, nest = o :: rest ∧ top.kind = o.kind ∧
      s'.localInit = init o.opener ∧ List.Forall₂ (Open.Matches cx ir init) rest s'.frames := by
  rw [h.2] at hnest
  cases hnest with
  | @cons o _ nest _ ho hrest => exact ⟨o, nest, rfl, ho.kind, h.1.trans ho.snapshot, hrest⟩

/-- A local that is set is initialised. -/
theorem localInit_localSet {x : ℕ} (h : localSet cx x s = .ok u s') : s'.localInit = s.localInit.set x true := by
  obtain ⟨t, s₁, hlocal, h⟩ := estate_bind_eq_ok.mp h
  obtain ⟨_, s₂, hpop, h⟩ := estate_bind_eq_ok.mp h
  obtain rfl := estate_modify_eq_ok.mp h
  obtain ⟨-, hinit⟩ := leaves_eq hlocal
  obtain ⟨-, hinit'⟩ := leaves_eq hpop
  rw [← hinit, ← hinit']

/-- A flat instruction leaves the frames as they are, and the locals but for the one it sets. -/
theorem stepInstr_flat {i : Instr} (hflat : i.isFlat = true) (h : stepInstr cx i s = .ok u s') :
    s'.frames = s.frames ∧ s'.localInit = (i.sets).elim s.localInit (s.localInit.set · true) := by
  have hframes : Leaves FuncValidator.frames (stepInstr cx i) := Leaves.stepInstr hflat (.inr inferInstance)
  refine ⟨hframes.eq_of_ok h, ?_⟩
  cases hsets : i.sets with
  | none =>
    have hinit : Leaves FuncValidator.localInit (stepInstr cx i) := Leaves.stepInstr hflat (.inl hsets)
    exact hinit.eq_of_ok h
  | some x =>
    cases i with
    | localSet y =>
      obtain rfl := Option.some.inj hsets
      exact localInit_localSet h
    | localTee y =>
      obtain rfl := Option.some.inj hsets
      obtain ⟨_, s₁, hset, h⟩ := estate_bind_eq_ok.mp h
      obtain ⟨t, s₂, hlocal, h⟩ := estate_bind_eq_ok.mp h
      obtain ⟨-, hinit⟩ := leaves_eq hlocal
      obtain ⟨-, hinit'⟩ := leaves_eq h
      rw [hinit', hinit, localInit_localSet hset]
      rfl
    | _ => cases hsets

/-- The rule of an instruction keeps to the rules of nesting. -/
theorem stepInstr_matches {init : Option ℕ → List Bool} {i : Instr} {nest : List Open} {pc : ℕ}
    (hnest : List.Forall₂ (Open.Matches cx ir init) nest s.frames) (hne : nest ≠ []) (hi : ir[pc]? = some i)
    (hpc : init (some pc) = s.localInit) (h : stepInstr cx i s = .ok u s') :
    ∃ nest', nestStep pc i nest = some nest' ∧ List.Forall₂ (Open.Matches cx ir init) nest' s'.frames ∧
      s'.localInit = nextInit init nest i s.localInit := by
  obtain ⟨top, rest, rfl⟩ := List.exists_cons_of_ne_nil hne
  have hopener : ∀ {kind : FrameKind}, i.opens = some kind → ∃ nest', nestStep pc i (top :: rest) = some nest' ∧
      List.Forall₂ (Open.Matches cx ir init) nest' s'.frames ∧
        s'.localInit = nextInit init (top :: rest) i s.localInit := fun hopens => by
    obtain ⟨bt, sig, hbt, hsig, hpush⟩ := pushes_of_opens hopens h
    refine ⟨_, ?_, hpush.matches hnest hpc hi hbt hsig, ?_⟩
    · cases i <;> cases hopens <;> rfl
    · rw [hpush.1]
      cases i <;> cases hopens <;> rfl
  cases i with
  | block bt | loop bt | tryLegacy bt | if_ bt | tryTable bt catches => exact hopener rfl
  | else_ =>
    obtain ⟨f, hkind, hmoves⟩ := else_movesOn h
    obtain ⟨o, rest', heq, ho, hinit, hs'⟩ := hmoves.matches (fun _ => ⟨rfl, by rw [hkind]; nofun⟩) hnest
    obtain ⟨rfl, rfl⟩ := List.cons.inj heq
    exact ⟨_, by rw [nestStep, if_pos (ho.symm.trans hkind)], hs', hinit⟩
  | catchLegacy tag =>
    obtain ⟨f, start, hkind, hmoves⟩ := catchLegacy_movesOn (show catchLegacy cx (some tag) s = _ from h)
    obtain ⟨o, rest', heq, ho, hinit, hs'⟩ := hmoves.matches (absurd rfl) hnest
    obtain ⟨rfl, rfl⟩ := List.cons.inj heq
    exact ⟨_, by rw [nestStep, if_pos (ho ▸ hkind)], hs', hinit⟩
  | catchAll =>
    obtain ⟨f, start, hkind, hmoves⟩ := catchLegacy_movesOn (show catchLegacy cx none s = _ from h)
    obtain ⟨o, rest', heq, ho, hinit, hs'⟩ := hmoves.matches (absurd rfl) hnest
    obtain ⟨rfl, rfl⟩ := List.cons.inj heq
    exact ⟨_, by rw [nestStep, if_pos (ho ▸ hkind)], hs', hinit⟩
  | delegate label =>
    obtain ⟨f, hkind, hpops⟩ := delegate_pops h
    obtain ⟨o, rest', heq, ho, hinit, hs'⟩ := hpops.matches hnest
    obtain ⟨rfl, rfl⟩ := List.cons.inj heq
    exact ⟨_, by rw [nestStep, if_pos (ho.symm.trans hkind)], hs', hinit⟩
  | end_ =>
    obtain ⟨f, hpops⟩ := end_pops h
    obtain ⟨o, rest', heq, ho, hinit, hs'⟩ := hpops.matches hnest
    obtain ⟨rfl, rfl⟩ := List.cons.inj heq
    exact ⟨_, rfl, hs', hinit⟩
  | _ =>
    obtain ⟨hframes, hinit⟩ := stepInstr_flat rfl h
    refine ⟨_, rfl, by rw [hframes]; exact hnest, ?_⟩
    rw [hinit]
    rfl

/-! ## Positions -/

/-- The state of the checker before the instruction at a position. -/
def checkerAt (cx : FuncContext) (ir : List Instr) (s : FuncValidator) : ℕ → Option FuncValidator
  | 0 => some s
  | n + 1 => do
    let t ← checkerAt cx ir s n
    let i ← ir[n]?
    match step cx i t with
    | .ok _ t' => some t'
    | .error _ _ => none

/-- The locals that were initialised when a construct was opened. -/
def initAt (cx : FuncContext) (ir : List Instr) (s : FuncValidator) : Option ℕ → List Bool
  | none => s.localInit
  | some p => (checkerAt cx ir s p).elim [] (·.localInit)

/-- The checker takes a body from the frame of its function to its end. -/
structure Takes (cx : FuncContext) (ir : List Instr) (s : FuncValidator) : Prop where
  entry : ∃ f, s.frames = [f] ∧ f.kind = .block ∧ f.end_ = cx.results ∧ f.initSnapshot = s.localInit
  run : ∃ u s', ir.forM (step cx) s = .ok u s' ∧ s'.ctrls = []

section Positions

variable {n : ℕ} {t t' : FuncValidator} {i : Instr}

theorem checkerAt_succ (h : checkerAt cx ir s (n + 1) = some t') :
    ∃ t i v, checkerAt cx ir s n = some t ∧ ir[n]? = some i ∧ t.ctrls ≠ [] ∧ stepInstr cx i t = .ok v t' := by
  obtain ⟨t, ht, h⟩ := Option.bind_eq_some_iff.mp h
  obtain ⟨i, hi, h⟩ := Option.bind_eq_some_iff.mp h
  cases hstep : step cx i t with
  | error e t₁ =>
    rw [hstep] at h
    cases h
  | ok v t₁ =>
    rw [hstep] at h
    obtain rfl := Option.some.inj h
    obtain ⟨hne, -, hinstr⟩ := step_eq_ok hstep
    exact ⟨t, i, v, ht, hi, hne, hinstr⟩

/-- Inside some frame there is a construct open. -/
theorem nest_ne_nil {nest : List Open} {init : Option ℕ → List Bool}
    (h : List.Forall₂ (Open.Matches cx ir init) nest t.frames) (hne : t.ctrls ≠ []) : nest ≠ [] := by
  rintro rfl
  rw [List.forall₂_nil_left_iff, FuncValidator.frames, List.map_eq_nil_iff] at h
  exact hne h

/-- At each position the frames are those of the constructs open there. -/
theorem Takes.matches (hs : Takes cx ir s) (ht : checkerAt cx ir s n = some t) : ∃ nest,
    nestAt ir n = some nest ∧ List.Forall₂ (Open.Matches cx ir (initAt cx ir s)) nest t.frames := by
  induction n generalizing t with
  | zero =>
    obtain rfl := Option.some.inj ht
    obtain ⟨f, hf, hkind, hend, hsnapshot⟩ := hs.entry
    refine ⟨_, rfl, ?_⟩
    rw [hf]
    refine .cons ⟨hkind, hsnapshot, fun _ => hend, fun p i bt hp => ?_⟩ .nil
    cases hp
  | succ n ih =>
    obtain ⟨t₀, i, v, ht₀, hi, hne, hinstr⟩ := checkerAt_succ ht
    obtain ⟨nest, hnest, hmatches⟩ := ih ht₀
    have hinit : initAt cx ir s (some n) = t₀.localInit := by
      rw [initAt, ht₀]
      rfl
    obtain ⟨nest', hstep, hmatches', -⟩ := stepInstr_matches hmatches (nest_ne_nil hmatches hne) hi hinit hinstr
    exact ⟨nest', by simp [nestAt, hnest, hi, hstep], hmatches'⟩

/-- The locals initialised after an instruction. -/
theorem Takes.localInit_succ (hs : Takes cx ir s) (ht : checkerAt cx ir s (n + 1) = some t') {nest : List Open}
    (hnest : nestAt ir n = some nest) (hi : ir[n]? = some i) :
    t'.localInit = nextInit (initAt cx ir s) nest i (initAt cx ir s (some n)) := by
  obtain ⟨t, i', v, ht, hi', hne, hinstr⟩ := checkerAt_succ ht
  obtain rfl := Option.some.inj (hi.symm.trans hi')
  obtain ⟨nest', hnest', hmatches⟩ := hs.matches ht
  obtain rfl := Option.some.inj (hnest.symm.trans hnest')
  have hpc : initAt cx ir s (some n) = t.localInit := by
    rw [initAt, ht]
    rfl
  obtain ⟨-, -, -, hinit⟩ := stepInstr_matches hmatches (nest_ne_nil hmatches hne) hi hpc hinstr
  rw [hinit, hpc]

/-- The checker comes to every position. -/
theorem Takes.exists_checkerAt (hs : Takes cx ir s) (hn : n ≤ ir.length) : ∃ t, checkerAt cx ir s n = some t ∧
    ∃ u s', (ir.drop n).forM (step cx) t = .ok u s' ∧ s'.ctrls = [] := by
  induction n with
  | zero => exact ⟨s, rfl, hs.run⟩
  | succ n ih =>
    obtain ⟨t, ht, u, s', hrun, hend⟩ := ih (by omega)
    rw [List.drop_eq_getElem_cons hn] at hrun
    obtain ⟨_, t', hone, hrest⟩ := estate_bind_eq_ok.mp
      (show (step cx ir[n] >>= fun _ => (ir.drop (n + 1)).forM (step cx)) t = _ from hrun)
    refine ⟨t', ?_, u, s', hrest, hend⟩
    rw [checkerAt, ht, List.getElem?_eq_getElem hn]
    simp only [Option.bind_eq_bind, Option.bind_some, hone]

/-- No more constructs are open than there may be frames: the innermost was pushed at its opener. -/
theorem Takes.length_le (hs : Takes cx ir s) {nest : List Open} (hnest : nestAt ir n = some nest) :
    nest.length ≤ maxCtrlDepth := by
  match nest with
  | [] => exact Nat.zero_le _
  | top :: rest =>
    cases ho : top.opener with
    | none =>
      rw [(function_of_nestAt (j := 0) hnest rfl ho).2]
      decide
    | some o =>
      obtain ⟨-, hbelow, i, kind, hi, hopens, -⟩ := below_of_nestAt (j := 0) hnest rfl ho
      obtain ⟨t', ht', -⟩ := hs.exists_checkerAt (show o + 1 ≤ ir.length from (List.getElem?_eq_some_iff.mp hi).1)
      obtain ⟨t, i', v, ht, hi', -, hstep⟩ := checkerAt_succ ht'
      obtain rfl := Option.some.inj (hi.symm.trans hi')
      obtain ⟨rest', hrest, hmatches⟩ := hs.matches ht
      obtain rfl := Option.some.inj (hbelow.symm.trans hrest)
      obtain ⟨bt, sig, -, -, -, f, -, -, -, -, heq, hdepth⟩ := pushes_of_opens hopens hstep
      rw [heq, List.length_cons, ← hmatches.length_eq] at hdepth
      exact hdepth

/-- An accepted body is well nested. -/
theorem Takes.wellNested (hs : Takes cx ir s) : WellNested ir := by
  obtain ⟨t, ht, u, s', hrun, hend⟩ := hs.exists_checkerAt le_rfl
  rw [List.drop_length] at hrun
  obtain ⟨-, rfl⟩ := estate_pure_eq_ok.mp hrun
  obtain ⟨nest, hnest, hmatches⟩ := hs.matches ht
  rw [FuncValidator.frames, hend] at hmatches
  cases hmatches
  exact hnest

end Positions

/-- The instructions of a body that is accepted are taken. -/
theorem takes_of_checkBody {ir : List Instr} (hs : s.ctrls = []) (h : checkBody cx ir s = .ok u s') :
    ∃ s₁, Takes cx ir s₁ ∧ s₁.localInit = s.localInit := by
  obtain ⟨_, s₁, hopen, h⟩ := estate_bind_eq_ok.mp h
  obtain ⟨v, s₂, hbody, h⟩ := estate_bind_eq_ok.mp h
  obtain ⟨_, _, hget, h⟩ := estate_bind_eq_ok.mp h
  obtain ⟨rfl, rfl⟩ := estate_get_eq_ok.mp hget
  obtain ⟨hempty, -⟩ := ofExcept_eq_ok.mp h
  rw [ensure_eq_ok] at hempty
  obtain ⟨hinit, f, hkind, -, hend, hsnapshot, hframes, -⟩ := pushes_of_pushCtrl hopen
  have hnone : s.frames = [] := by rw [FuncValidator.frames, hs]; rfl
  refine ⟨s₁, ⟨⟨f, ?_, hkind, hend, hsnapshot.trans hinit.symm⟩, v, s₂, hbody, by simpa using hempty⟩, hinit⟩
  rw [hframes, hnone]

/-- So are those of a function. -/
theorem takes_of_validateFunction {m : Module} {ft : FuncType} {code : Code} {refs : Option (List Bool)}
    {features : Features} (h : validateFunction m ft code refs features = .ok ()) :
    ∃ s, Takes (bodyContext m ft code refs features) code.ir s ∧
      s.localInit = initialLocals ft (localTypes ft code) := by
  rw [validateFunction_eq] at h
  obtain ⟨_, -, h⟩ := Except.bind_eq_ok.mp h
  obtain ⟨_, -, h⟩ := Except.bind_eq_ok.mp h
  split at h
  case h_1 hbody => exact takes_of_checkBody rfl hbody
  case h_2 => cases h

/-- An accepted body is well nested. -/
theorem wellNested_of_checkBody {ir : List Instr} {s s' : FuncValidator} {u : Unit}
    (hs : s.ctrls = []) (h : checkBody cx ir s = .ok u s') : WellNested ir := by
  obtain ⟨s₁, htakes, -⟩ := takes_of_checkBody hs h
  exact htakes.wellNested

end Accepted

end Wasmrt
