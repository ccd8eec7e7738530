import Wasmrt.Interp.ClauseTables
import Wasmrt.Interp.Machine

/-!
# The labels of a frame are its open constructs

The interpreter keeps a label for each construct it has entered, and jumps by tables. In a well nested body
its labels are, at every position it comes to, those of the constructs that are open there: a branch to a
label goes to the beginning of a loop or right after the end of any other construct, and cuts the operands to
the height at which the construct was entered.

## Main definitions

* `LabelOf`: the label of an open construct.
* `CallFrame.Placed`: the labels of a frame at a position are those of the constructs open there.
* `Continuation`: where a branch to a construct goes on, and with which operands.

## Main results

* `CallFrame.Placed.next`, `enter`, `leave`, `skip`, `branch`: so they are after every instruction.
-/

namespace Wasmrt

/-! ## Labels -/

/-- The label of an open construct. A branch to a loop takes its parameters and goes to its beginning, a branch
to any other construct takes its results and goes past its end. A legacy `try` has caught an exception
while it is in a handler. `E o base` says that the construct opened at `o` was entered with `base` operands
below its own. -/
inductive LabelOf (m : Module) (body : FuncBody) (E : ℕ → ℕ → Prop) : Open → Label → Prop
  | function (kind : FrameKind) : LabelOf m body E ⟨none, kind⟩
      { isLoop := false, arity := body.ty.results.length, target := body.ir.length, stackBase := 0 }
  | loop {o base : ℕ} {bt : BlockType} (hi : body.ir[o]? = some (.loop bt)) (hbase : E o base)
      (kind : FrameKind) (hkind : kind ≠ .catchLegacy) : LabelOf m body E ⟨some o, kind⟩
      { isLoop := true, arity := blockArity m bt true, target := o + 1, stackBase := base }
  | block {o e base : ℕ} {i : Instr} {bt : BlockType} {opened kind : FrameKind} {caught : Option Exception}
      (hi : body.ir[o]? = some i) (hbt : i.blockType = some bt) (hopens : i.opens = some opened)
      (hloop : opened ≠ .loop) (he : ClosesAt body.ir e o) (hbase : E o base)
      (hcaught : caught.isSome = true ↔ kind = .catchLegacy) : LabelOf m body E ⟨some o, kind⟩ {
        isLoop := false, arity := blockArity m bt false, target := e + 1, stackBase := base
        tryTablePc := if opened = .tryTable then some o else none
        legacyPc := if opened = .tryLegacy then some o else none
        caught }

variable {m : Module} {E : ℕ → ℕ → Prop}

/-- A construct that goes on to another part keeps its label, handlers apart. -/
theorem LabelOf.changePart {body : FuncBody} {o : Option ℕ} {kind kind' : FrameKind} {l : Label}
    (h : LabelOf m body E ⟨o, kind⟩ l) (hkind : kind' = .catchLegacy ↔ kind = .catchLegacy) :
    LabelOf m body E ⟨o, kind'⟩ l := by
  cases h with
  | function => exact .function kind'
  | loop hi hbase _ hne => exact .loop hi hbase kind' fun h => hne (hkind.mp h)
  | block hi hbt hopens hloop he hbase hcaught => exact .block hi hbt hopens hloop he hbase (hcaught.trans hkind.symm)

/-- What is recorded of another construct does not matter. -/
theorem LabelOf.mono {E' : ℕ → ℕ → Prop} {body : FuncBody} {o : Open} {l : Label} (h : LabelOf m body E o l)
    (hE : ∀ p base, o.opener = some p → E p base → E' p base) : LabelOf m body E' o l := by
  cases h with
  | function kind => exact .function kind
  | loop hi hbase kind hkind => exact .loop hi (hE _ _ rfl hbase) kind hkind
  | block hi hbt hopens hloop he hbase hcaught =>
    exact .block hi hbt hopens hloop he (hE _ _ rfl hbase) hcaught

/-! ## Where instructions lead -/

section Nesting

variable {ir : List Instr} {n : ℕ} {nest : List Open}

theorem nestAt_succ_eq {i : Instr} (hnest : nestAt ir n = some nest) (hi : ir[n]? = some i) :
    nestAt ir (n + 1) = nestStep n i nest := by
  simp [nestAt, hnest, hi]

theorem nestAt_succ_of_flat {i : Instr} (hnest : nestAt ir n = some nest) (hne : nest ≠ [])
    (hi : ir[n]? = some i) (hflat : i.isFlat = true) : nestAt ir (n + 1) = some nest := by
  obtain ⟨top, rest, rfl⟩ := List.exists_cons_of_ne_nil hne
  rw [nestAt_succ_eq hnest hi]
  cases i <;> cases hflat <;> rfl

theorem nestAt_succ_of_opens {i : Instr} {kind : FrameKind} (hnest : nestAt ir n = some nest) (hne : nest ≠ [])
    (hi : ir[n]? = some i) (hopens : i.opens = some kind) : nestAt ir (n + 1) = some (⟨some n, kind⟩ :: nest) := by
  obtain ⟨top, rest, rfl⟩ := List.exists_cons_of_ne_nil hne
  rw [nestAt_succ_eq hnest hi]
  cases i <;> cases hopens <;> rfl

theorem le_length_of_nestAt (h : nestAt ir n = some nest) : n ≤ ir.length := by
  cases n with
  | zero => exact Nat.zero_le _
  | succ n =>
    obtain ⟨i, -, hi, -⟩ := nestAt_succ h
    exact (List.getElem?_eq_some_iff.mp hi).1

/-- After the end of a construct there is open what was open where it was opened. -/
theorem ClosesAt.nestAt_succ (hir : WellNested ir) {e o : ℕ} (h : ClosesAt ir e o)
    (hnest : nestAt ir o = some nest) : nestAt ir (e + 1) = some nest := by
  have hlt : e < ir.length := by
    obtain ⟨i, hi, -⟩ := h.2
    exact (List.getElem?_eq_some_iff.mp hi).1
  obtain ⟨after, hafter⟩ := exists_nestAt_of_le (show e + 1 ≤ ir.length from hlt) hir
  rw [hafter, ← h.nestAt_succ_eq hafter, hnest]

/-- Below what is closed or continued at a position there is open what was open where it was opened. -/
theorem exists_nestAt_of_topAt {o : ℕ} (h : topAt ir n = some o) (hnest : nestAt ir o = some nest) :
    ∃ top, nestAt ir n = some (top :: nest) ∧ top.opener = some o := by
  obtain ⟨top, rest, htop, ho⟩ := topAt_eq_some.mp h
  have hbelow := (below_of_nestAt (j := 0) htop rfl ho).2.1
  obtain rfl := Option.some.inj (hbelow.symm.trans hnest)
  exact ⟨top, htop, ho⟩

end Nesting

/-! ## Frames -/

/-- The labels of a frame at a position are those of the constructs open there, unless it is at its end. At the
end of a construct it does not matter any more which part of the construct has ended. -/
inductive CallFrame.Placed (m : Module) (E : ℕ → ℕ → Prop) (frame : CallFrame) (pc : ℕ) : Prop
  | left (h : pc = frame.body.ir.length)
  | inside {top : Open} {rest : List Open} {l : Label} {ls : List Label} {kind : FrameKind}
      (hnest : nestAt frame.body.ir pc = some (top :: rest)) (hlabels : frame.labels = l :: ls)
      (htop : LabelOf m frame.body E ⟨top.opener, kind⟩ l)
      (hkind : kind = top.kind ∨ ∃ i, frame.body.ir[pc]? = some i ∧ i.closes = true)
      (hrest : List.Forall₂ (LabelOf m frame.body E) rest ls)

namespace CallFrame.Placed

variable {frame frame' : CallFrame} {pc : ℕ} {nest : List Open} {i : Instr}

/-- A frame whose labels are those of the constructs open at a position. -/
theorem of_forall₂ (hir : WellNested frame.body.ir) (hnest : nestAt frame.body.ir pc = some nest)
    (h : List.Forall₂ (LabelOf m frame.body E) nest frame.labels) : frame.Placed m E pc := by
  cases hlabels : frame.labels with
  | nil =>
    rw [hlabels, List.forall₂_nil_right_iff] at h
    subst h
    refine .left (Nat.le_antisymm (le_length_of_nestAt hnest) (Nat.not_lt.mp fun hlt => ?_))
    obtain ⟨nest, hnest', hne⟩ := hir.exists_nestAt hlt
    exact hne (Option.some.inj (hnest'.symm.trans hnest))
  | cons l ls =>
    rw [hlabels] at h
    cases h with
    | cons htop hrest => exact .inside hnest hlabels htop (.inl rfl) hrest

/-- The labels before an instruction that closes nothing. -/
theorem forall₂ (h : frame.Placed m E pc) (hi : frame.body.ir[pc]? = some i) (hcloses : i.closes = false) :
    ∃ nest, nestAt frame.body.ir pc = some nest ∧ nest ≠ [] ∧
      List.Forall₂ (LabelOf m frame.body E) nest frame.labels := by
  cases h with
  | left h =>
    subst h
    rw [List.getElem?_eq_none le_rfl] at hi
    cases hi
  | inside hnest hlabels htop hkind hrest =>
    refine ⟨_, hnest, List.cons_ne_nil _ _, ?_⟩
    rw [hlabels]
    refine .cons ?_ hrest
    rcases hkind with rfl | ⟨i', hi', hcloses'⟩
    · exact htop
    · obtain rfl := Option.some.inj (hi.symm.trans hi')
      rw [hcloses] at hcloses'
      cases hcloses'

/-- The operands and the locals do not matter. -/
theorem congr (h : frame.Placed m E pc) (hbody : frame'.body = frame.body) (hlabels : frame'.labels = frame.labels) :
    frame'.Placed m E pc := by
  cases h with
  | left h => exact .left (by rw [hbody]; exact h)
  | inside hnest hlabels' htop hkind hrest =>
    refine .inside (by rw [hbody]; exact hnest) (hlabels.trans hlabels') (by rw [hbody]; exact htop) ?_
      (by rw [hbody]; exact hrest)
    rw [hbody]
    exact hkind

/-- What is recorded of the construct that is opened at the position or later does not matter. -/
theorem mono {E' : ℕ → ℕ → Prop} (h : frame.Placed m E pc) (hE : ∀ o < pc, ∀ base, E o base → E' o base) :
    frame.Placed m E' pc := by
  cases h with
  | left h => exact .left h
  | @inside top rest l ls kind hnest hlabels htop hkind hrest =>
    refine .inside hnest hlabels (htop.mono fun p base hp h => ?_) hkind (List.forall₂_iff_zip.mpr
      ⟨hrest.length_eq, fun {o l} hmem => (List.forall₂_zip hrest hmem).mono fun p base hp h => ?_⟩)
    · exact hE p (below_of_nestAt (j := 0) hnest rfl hp).1 base h
    · have ho : o ∈ top :: rest := List.mem_cons_of_mem _ (List.of_mem_zip hmem).1
      have hopen : IsOpen frame.body.ir pc p := ⟨_, hnest, List.mem_map.mpr ⟨o, ho, hp⟩⟩
      exact hE p hopen.lt base h

/-- Past an instruction that leaves the constructs as they are. -/
theorem next (hir : WellNested frame.body.ir) (h : frame.Placed m E pc) (hi : frame.body.ir[pc]? = some i)
    (hflat : i.isFlat = true) : frame.Placed m E (pc + 1) := by
  obtain ⟨nest, hnest, hne, hlabels⟩ := h.forall₂ hi (by cases i <;> cases hflat <;> rfl)
  exact .of_forall₂ hir (nestAt_succ_of_flat hnest hne hi hflat) hlabels

/-- Past the end of a construct. -/
theorem leave (hir : WellNested frame.body.ir) (h : frame.Placed m E pc) (hi : frame.body.ir[pc]? = some i)
    (hcloses : i.closes = true) : { frame with labels := frame.labels.tail }.Placed m E (pc + 1) := by
  cases h with
  | left h =>
    subst h
    rw [List.getElem?_eq_none le_rfl] at hi
    cases hi
  | @inside top rest l ls kind hnest hlabels htop hkind hrest =>
    have hlt : pc < frame.body.ir.length := (List.getElem?_eq_some_iff.mp hi).1
    obtain ⟨after, hafter⟩ := exists_nestAt_of_le (show pc + 1 ≤ frame.body.ir.length from hlt) hir
    obtain ⟨i', before, hi', hbefore, -, hstep⟩ := nestAt_succ hafter
    obtain rfl := Option.some.inj (hi.symm.trans hi')
    obtain rfl := Option.some.inj (hnest.symm.trans hbefore)
    have hafter' : after = rest := by
      cases hstep with
      | closer _ heq _ => exact (List.cons.inj heq).2.symm
      | opener h => cases i <;> cases hcloses <;> cases h
      | else_ h _ _ =>
        subst h
        cases hcloses
      | catch_ h _ _ => cases i <;> cases hcloses <;> cases h
      | flat h => cases i <;> cases hcloses <;> cases h
    subst hafter'
    refine .of_forall₂ hir hafter ?_
    rw [hlabels]
    exact hrest

/-- Into a construct, at a position where it is the innermost. -/
theorem enter (hir : WellNested frame.body.ir) (h : frame.Placed m E pc) (hi : frame.body.ir[pc]? = some i)
    {kind part : FrameKind} (hopens : i.opens = some kind) {l : Label} {pc' : ℕ}
    (hl : LabelOf m frame.body E ⟨some pc, part⟩ l)
    (hpart : pc' = pc + 1 ∧ part = kind ∨ ElseAt frame.body.ir (pc' - 1) pc ∧ 0 < pc' ∧ part = .else_ ∨
      ClosesAt frame.body.ir pc' pc) :
    { frame with labels := l :: frame.labels }.Placed m E pc' := by
  obtain ⟨nest, hnest, hne, hlabels⟩ := h.forall₂ hi (by cases i <;> cases hopens <;> rfl)
  rcases hpart with ⟨rfl, rfl⟩ | ⟨helse, hpos, rfl⟩ | hcloses
  · exact .of_forall₂ hir (nestAt_succ_of_opens hnest hne hi hopens) (.cons hl hlabels)
  · -- the `else` of the construct has it as its innermost, and goes on to its next part
    obtain ⟨p, rfl⟩ : ∃ p, pc' = p + 1 := ⟨pc' - 1, by omega⟩
    rw [Nat.add_sub_cancel] at helse
    obtain ⟨top, hp, ho⟩ := exists_nestAt_of_topAt helse.1 hnest
    have hplt : p < frame.body.ir.length := (List.getElem?_eq_some_iff.mp helse.2).1
    obtain ⟨after, hafter⟩ := exists_nestAt_of_le (show p + 1 ≤ frame.body.ir.length from hplt) hir
    have hstep := nestAt_succ_eq hp helse.2
    rw [hafter, nestStep, eq_comm, Option.ite_none_right_eq_some] at hstep
    obtain ⟨-, hstep⟩ := hstep
    obtain rfl := Option.some.inj hstep
    rw [ho] at hafter
    exact .of_forall₂ hir hafter (.cons hl hlabels)
  · obtain ⟨top, htop, ho⟩ := exists_nestAt_of_topAt hcloses.1 hnest
    exact .inside htop rfl (ho ▸ hl) (.inr hcloses.2) hlabels

/-- From a clause that is come to in normal flow, to the end of its construct. -/
theorem skip (h : frame.Placed m E pc) {o e : ℕ} (hcont : Continues frame.body.ir pc o)
    (hcloses : ClosesAt frame.body.ir e o) : frame.Placed m E e := by
  obtain ⟨htop, i, hi, hi'⟩ := hcont
  obtain ⟨nest, hnest, -, hlabels⟩ := h.forall₂ hi (by cases i <;> cases hi' <;> rfl)
  obtain ⟨top, rest, hnest', ho⟩ := topAt_eq_some.mp htop
  obtain rfl := Option.some.inj (hnest.symm.trans hnest')
  have hbelow := (below_of_nestAt (j := 0) hnest rfl ho).2.1
  obtain ⟨top', htop', ho'⟩ := exists_nestAt_of_topAt hcloses.1 hbelow
  generalize hls : frame.labels = labels at hlabels
  cases hlabels with
  | cons hl hrest =>
    refine .inside htop' hls (show LabelOf m frame.body E ⟨top'.opener, top.kind⟩ _ from ?_) (.inr hcloses.2) hrest
    rw [ho', ← ho]
    exact hl

end CallFrame.Placed

/-! ## Branches -/

/-- Where a branch to an open construct goes on: at the beginning of a loop with its parameters, past the end of
any other construct with its results, or at the end of the body with the results of the function. Below these
are the operands there were below the construct when it was entered. -/
inductive Continuation (m : Module) (body : FuncBody) (E : ℕ → ℕ → Prop) : Open → (pc arity height : ℕ) → Prop
  | function (kind : FrameKind) :
      Continuation m body E ⟨none, kind⟩ body.ir.length body.ty.results.length 0
  | loop {o base : ℕ} {bt : BlockType} (hi : body.ir[o]? = some (.loop bt)) (hbase : E o base) (kind : FrameKind) :
      Continuation m body E ⟨some o, kind⟩ (o + 1) (blockArity m bt true) base
  | block {o e base : ℕ} {i : Instr} {bt : BlockType} {opened : FrameKind} (hi : body.ir[o]? = some i)
      (hbt : i.blockType = some bt) (hopens : i.opens = some opened) (hloop : opened ≠ .loop)
      (he : ClosesAt body.ir e o) (hbase : E o base) (kind : FrameKind) :
      Continuation m body E ⟨some o, kind⟩ (e + 1) (blockArity m bt false) base

theorem LabelOf.continuation {body : FuncBody} {o : Open} {l : Label} (h : LabelOf m body E o l) :
    Continuation m body E o l.target l.arity l.stackBase := by
  cases h with
  | function kind => exact .function kind
  | loop hi hbase kind => exact .loop hi hbase kind
  | block hi hbt hopens hloop he hbase _ => exact .block hi hbt hopens hloop he hbase _

/-- The label `n` levels out belongs to the construct `n` levels out, and so do the labels around it. -/
theorem exists_open_of_label {R : Open → Label → Prop} {nest : List Open} {labels : List Label}
    (h : List.Forall₂ R nest labels) {n : ℕ} {l : Label} (hl : labels[n]? = some l) :
    ∃ o, nest[n]? = some o ∧ R o l ∧ List.Forall₂ R (nest.drop (n + 1)) (labels.drop (n + 1)) := by
  induction h generalizing n with
  | nil => cases hl
  | cons hol hrest ih =>
    cases n with
    | zero =>
      obtain rfl := Option.some.inj hl
      exact ⟨_, rfl, hol, hrest⟩
    | succ n => exact ih hl

namespace CallFrame

variable {frame : CallFrame} {n : ℕ} {x x' : Exec} {r : Resume}

/-- A branch cuts the operands to the height of its label and puts the values it carries on top. -/
theorem branch_eq_ok (h : frame.branch n x = .ok (r, x')) : ∃ l, frame.labels[n]? = some l ∧
    r.pc = l.target ∧ l.arity + l.stackBase ≤ frame.vstack.length ∧
    r.frame = { frame with
      vstack := frame.vstack.take l.arity ++ frame.vstack.drop (frame.vstack.length - l.stackBase)
      labels := frame.labels.drop (if l.isLoop then n else n + 1) } := by
  simp only [branch, stackBase, Except.bind_eq_ok, orError_eq_ok, ensure_eq_ok, Except.pure_eq_ok,
    decide_eq_true_eq] at h
  obtain ⟨l, hl, base, ⟨-, harity, rfl⟩, -, hbase, h⟩ := h
  refine ⟨l, hl, ?_⟩
  cases hloop : l.isLoop with
  | true =>
    simp only [hloop, if_true, Except.bind_eq_ok, Except.pure_eq_ok, Prod.mk.injEq] at h
    obtain ⟨y, -, rfl, -⟩ := h
    exact ⟨rfl, by omega, rfl⟩
  | false =>
    simp only [hloop, Bool.false_eq_true, if_false, Except.pure_eq_ok, Prod.mk.injEq] at h
    obtain ⟨rfl, -⟩ := h
    exact ⟨rfl, by omega, rfl⟩

/-- After a branch. -/
theorem Placed.branch (hir : WellNested frame.body.ir) {pc : ℕ} {nest : List Open}
    (hnest : nestAt frame.body.ir pc = some nest)
    (h : List.Forall₂ (LabelOf m frame.body E) nest frame.labels) (hbranch : frame.branch n x = .ok (r, x')) :
    r.frame.body = frame.body ∧ r.frame.Placed m E r.pc := by
  obtain ⟨l, hl, hpc, -, hframe⟩ := branch_eq_ok hbranch
  obtain ⟨o, ho, hol, hrest⟩ := exists_open_of_label h hl
  have hbody : r.frame.body = frame.body := by rw [hframe]
  have hdrop : frame.labels.drop n = l :: frame.labels.drop (n + 1) := by
    obtain ⟨hlt, hget⟩ := List.getElem?_eq_some_iff.mp hl
    rw [List.drop_eq_getElem_cons hlt, hget]
  refine ⟨hbody, ?_⟩
  rw [hpc]
  cases hol with
  | function kind => exact .left (by rw [hbody])
  | @loop o base bt hi hbase kind hkind =>
    -- the loop is entered again, and keeps its label
    have hbelow := (below_of_nestAt hnest ho rfl).2.1
    have hlabels : r.frame.labels = frame.labels.drop n := by rw [hframe]; rfl
    have hnext : nestAt frame.body.ir (o + 1) = some (⟨some o, .loop⟩ :: nest.drop (n + 1)) := by
      obtain ⟨i, before, hi', hbefore, hne, -⟩ := nestAt_succ
        (exists_nestAt_of_le (show o + 1 ≤ frame.body.ir.length from (List.getElem?_eq_some_iff.mp hi).1) hir).choose_spec
      obtain rfl := Option.some.inj (hbelow.symm.trans hbefore)
      exact nestAt_succ_of_opens hbelow hne hi rfl
    refine .of_forall₂ (by rwa [hbody]) (by rw [hbody]; exact hnext) ?_
    rw [hlabels, hdrop, hbody]
    exact .cons (.loop hi hbase _ nofun) hrest
  | block hi _ _ _ he _ _ =>
    have hbelow := (below_of_nestAt hnest ho rfl).2.1
    have hlabels : r.frame.labels = frame.labels.drop (n + 1) := by rw [hframe]; rfl
    refine .of_forall₂ (by rwa [hbody]) (by rw [hbody]; exact he.nestAt_succ hir hbelow) ?_
    rw [hlabels, hbody]
    exact hrest

end CallFrame

end Wasmrt
