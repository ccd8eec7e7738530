import Wasmrt.Interp.ControlRuns

/-!
# Paths through a body

From each instruction control goes on to a few others: to the next one, into or past a construct that
begins, to the end of one that goes on to another part, to where a branch to an open construct leads, or into
a handler of one. A path goes from the beginning of the body along these edges, and every run of the body
is along a path.

## Main definitions

* `Edge`: from an instruction to one that may come next.
* `Path`: the positions passed on the way to one, the last first.

## Main results

* `Activation.path_invariant`: an activation runs along a path.
-/

namespace Wasmrt

/-! ## Edges -/

/-- Where a branch to an open construct goes on. -/
inductive ContinuesAt (ir : List Instr) : Open → ℕ → Prop
  | function (kind : FrameKind) : ContinuesAt ir ⟨none, kind⟩ ir.length
  | loop {o : ℕ} {bt : BlockType} (hi : ir[o]? = some (.loop bt)) (kind : FrameKind) :
      ContinuesAt ir ⟨some o, kind⟩ (o + 1)
  | block {o e : ℕ} {i : Instr} {opened : FrameKind} (hi : ir[o]? = some i) (hopens : i.opens = some opened)
      (hloop : opened ≠ .loop) (he : ClosesAt ir e o) (kind : FrameKind) : ContinuesAt ir ⟨some o, kind⟩ (e + 1)

theorem Continuation.continuesAt {m : Module} {body : FuncBody} {E : ℕ → ℕ → Prop} {o : Open} {pc arity height : ℕ}
    (h : Continuation m body E o pc arity height) : ContinuesAt body.ir o pc := by
  cases h with
  | function kind => exact .function kind
  | loop hi _ kind => exact .loop hi kind
  | block hi _ hopens hloop he _ kind => exact .block hi hopens hloop he kind

/-- Where an exception that an open construct takes goes on: where a clause branches, or in a handler. -/
inductive TakesAt (ir : List Instr) (nest : List Open) : ℕ → Prop
  | branch {o : Open} {pc : ℕ} (ho : o ∈ nest) (h : ContinuesAt ir o pc) : TakesAt ir nest pc
  | handler {o c : ℕ} {kind : FrameKind} (ho : ⟨some o, kind⟩ ∈ nest) (h : CatchAt ir c o) : TakesAt ir nest (c + 1)

/-- From an instruction to one that may come next. Any instruction that is no part of a construct may
branch or raise an exception here. -/
inductive Edge (ir : List Instr) (pc : ℕ) : ℕ → Prop
  | next {i : Instr} (hi : ir[pc]? = some i) (hflat : i.isFlat = true) : Edge ir pc (pc + 1)
  | return_ (hi : ir[pc]? = some .return_) : Edge ir pc ir.length
  | enter {i : Instr} {kind : FrameKind} {c : Value} {pc' : ℕ} (hi : ir[pc]? = some i) (hopens : i.opens = some kind)
      (h : Enters ir pc i c pc') : Edge ir pc pc'
  | skip {o e : ℕ} (h : Continues ir pc o) (he : ClosesAt ir e o) : Edge ir pc e
  | leave {i : Instr} (hi : ir[pc]? = some i) (hcloses : i.closes = true) : Edge ir pc (pc + 1)
  | escape {i : Instr} {nest : List Open} {pc' : ℕ} (hi : ir[pc]? = some i) (hflat : i.isFlat = true)
      (hnest : nestAt ir pc = some nest) (h : TakesAt ir nest pc') : Edge ir pc pc'

/-- The positions passed on the way from the beginning of a body to a position, the last first. -/
inductive Path (ir : List Instr) : List ℕ → ℕ → Prop
  | start : Path ir [] 0
  | step {ps : List ℕ} {pc pc' : ℕ} (h : Path ir ps pc) (hedge : Edge ir pc pc') : Path ir (pc :: ps) pc'

/-! ## Runs -/

namespace CallFrame

variable {m : Module} {E : ℕ → ℕ → Prop} {frame : CallFrame} {n : ℕ} {nest : List Open} {tags : List ℕ}
  {exn : Exception} {x x' : Exec} {r : Resume}

/-- A branch goes where one to an open construct leads. -/
theorem continuesAt_of_branch (h : List.Forall₂ (LabelOf m frame.body E) nest frame.labels)
    (hbranch : frame.branch n x = .ok (r, x')) : ∃ o ∈ nest, ContinuesAt frame.body.ir o r.pc := by
  obtain ⟨l, hl, hpc, -⟩ := branch_eq_ok hbranch
  obtain ⟨o, ho, hol, -⟩ := exists_open_of_label h hl
  rw [hpc]
  exact ⟨o, List.mem_of_getElem? ho, hol.continuation.continuesAt⟩

/-- An exception that is taken goes where an open construct takes it. -/
theorem takesAt_of_throwException (hir : WellNested frame.body.ir) (hcf : frame.body.cf.Exact frame.body.ir) {pc : ℕ}
    (hnest : nestAt frame.body.ir pc = some nest) (h : List.Forall₂ (LabelOf m frame.body E) nest frame.labels)
    (hthrow : frame.throwException tags exn x = .ok (some r) x') : TakesAt frame.body.ir nest r.pc := by
  obtain ⟨k, re, l, o, hk, hl, hre, henter⟩ := throwException_eq_some hir hcf hnest h hthrow
  cases hre with
  | clause hi hfirst =>
    obtain ⟨-, x₁, r', hpc, -, hbranch⟩ := enterClause_eq_ok henter
    rw [hpc]
    obtain ⟨o, ho, hcontinues⟩ := continuesAt_of_branch (m := m) (E := E) (by exact h) hbranch
    exact .branch ho hcontinues
  | @handler o e c bt kind hi hkind he hend hfirst =>
    have hcatch : CatchAt frame.body.ir c o := isCatchOf_iff.mp (List.mem_filter.mp (List.mem_of_find?_eq_some hfirst)).2
    rw [CallFrame.enterHandler, enterLegacy_eq] at henter
    split_ifs at henter
    cases henter
    exact .handler (List.mem_of_getElem? hk) hcatch
  | _ => cases henter

end CallFrame

section Runs

variable {W : Type} {env : Env W} {d : InstanceData} {h : Executed} {a a' : Activation} {i : Instr} {x : Exec} {fl : Flow}

/-- An activation stays in its body, -/
theorem Flow.GoesTo.body {tags : List ℕ} (h : fl.GoesTo a tags x a') : a'.frame.body = a.frame.body := by
  cases h with
  | next st | jump pc st | enter l pc st | leave => rfl
  | branch hbranch =>
    obtain ⟨l, -, -, -, hframe⟩ := CallFrame.branch_eq_ok hbranch
    rw [Activation.resume, hframe]
    rfl
  | raise hraise =>
    obtain ⟨hbody, -⟩ := CallFrame.frame_of_throwException (CallFrame.raise_eq_ok hraise)
    exact hbody

/-- and goes on along an edge. -/
theorem Activation.Placed.edge (ha : a.Placed env d h) (hi : a.frame.body.ir[a.pc]? = some i)
    (hfl : flow env.ops a.inst d x env.code a.frame a.pc i = .ok fl) (hgoes : fl.GoesTo a d.maps.tags x a') :
    Edge a.frame.body.ir a.pc a'.pc := by
  have hof := flow_of hfl
  cases hgoes with
  | next st =>
    cases hof with
    | next hflat => exact .next hi hflat
  | jump pc st =>
    cases hof with
    | return_ h =>
      subst h
      exact .return_ hi
    | skip hcont =>
      obtain ⟨o, e, hpart, hcloses⟩ := exists_continues ha.nested hi hcont
      rw [List.getD_eq_getElem?_getD, ha.exact.ended o e a.pc hcloses (.inr hpart)]
      exact .skip hpart hcloses
  | enter l pc st =>
    cases hof with
    | enter hopens _ _ _ _ hpc =>
      obtain ⟨nest, hnest, hne, -⟩ := ha.placed.forall₂ hi (by cases i <;> cases hopens <;> rfl)
      obtain ⟨e, he⟩ := exists_closesAt_of_opens ha.nested hnest hne hi hopens
      exact .enter hi hopens (hpc.enters ha.exact hi he)
  | leave =>
    cases hof with
    | leave hcloses => exact .leave hi hcloses
  | branch hbranch =>
    cases hof with
    | branch hflat =>
      obtain ⟨nest, hnest, -, hlabels⟩ := ha.placed.forall₂ hi (by cases i <;> cases hflat <;> rfl)
      obtain ⟨o, ho, hcontinues⟩ := CallFrame.continuesAt_of_branch (by exact hlabels) hbranch
      exact .escape hi hflat hnest (.branch ho hcontinues)
  | raise hraise =>
    cases hof with
    | raise hflat =>
      obtain ⟨nest, hnest, -, hlabels⟩ := ha.placed.forall₂ hi (by cases i <;> cases hflat <;> rfl)
      have htakes := CallFrame.takesAt_of_throwException (by exact ha.nested) (by exact ha.exact) (by exact hnest)
        (by exact hlabels) (CallFrame.raise_eq_ok hraise)
      exact .escape hi hflat hnest htakes

/-- So it runs along a path. One that waits is at a call. -/
theorem Activation.path_invariant (henv : env.Prepared) :
    Activation.Invariant env
      (fun h a => (∃ d, a.Placed env d h) ∧ Path a.frame.body.ir (h.map Prod.fst) a.pc)
      (fun h s => (∃ d i, s.activation.Placed env d h ∧
        s.activation.frame.body.ir[s.activation.pc]? = some i ∧ i.isFlat = true) ∧
          ∃ ps, h.map Prod.fst = s.activation.pc :: ps ∧ Path s.activation.frame.body.ir ps s.activation.pc) where
  start depth args hcode hbody himport := ⟨(placed_invariant henv).start depth args hcode hbody himport, .start⟩
  goesTo := by
    rintro h a a' d i x fl ⟨⟨d', ha⟩, hpath⟩ hd hi hfl hgoes
    obtain rfl := Option.some.inj (hd.symm.trans ha.code)
    refine ⟨(placed_invariant henv).goesTo ⟨d, ha⟩ hd hi hfl hgoes, ?_⟩
    rw [hgoes.body]
    exact hpath.step (ha.edge hi hfl hgoes)
  suspend := by
    rintro h a d i x inst func params st ⟨ha, hpath⟩ hd hi hfl
    exact ⟨(placed_invariant henv).suspend ha hd hi hfl, _, rfl, hpath⟩
  returned := by
    rintro h s results ⟨⟨d, i, hs, hi, hflat⟩, ps, hps, hpath⟩
    refine ⟨(placed_invariant henv).returned results ⟨d, i, hs, hi, hflat⟩, ?_⟩
    rw [hps]
    exact hpath.step (.next hi hflat)
  caught := by
    rintro h s t x x' r ⟨⟨d, i, hs, hi, hflat⟩, ps, hps, hpath⟩ hcatch
    refine ⟨(placed_invariant henv).caught ⟨d, i, hs, hi, hflat⟩ hcatch, ?_⟩
    obtain ⟨nest, hnest, -, hlabels⟩ := hs.placed.forall₂ hi (by cases i <;> cases hflat <;> rfl)
    obtain ⟨exn, -, -, hthrow⟩ := CallFrame.onCallError_eq_ok hcatch
    have htakes := CallFrame.takesAt_of_throwException hs.nested hs.exact hnest hlabels hthrow
    have hbody := (CallFrame.frame_of_throwException hthrow).1
    rw [hps, show (s.activation.resume r).frame.body = s.activation.frame.body from hbody]
    exact hpath.step (.escape hi hflat hnest htakes)

end Runs

end Wasmrt
