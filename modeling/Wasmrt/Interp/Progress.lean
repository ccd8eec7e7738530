import Wasmrt.Interp.Budget
import Wasmrt.Interp.LocalInit

/-!
# Progress through a body

An activation that goes on after an instruction is further on in its body, unless a unit of the budget was
taken for a branch to a loop. This holds of branches, of clauses and handlers that take an exception, and
of every jump the control tables give: a forward label is the end of a construct that is open, and a handler
that takes an exception comes after the position that raised it.

## Main results

* `CallFrame.branch_forward`, `CallFrame.throwException_forward`: branches and exceptions.
* `Activation.Placed.forward`: an instruction.
* `Suspended.forward`: a caller that catches an exception.
-/

namespace Wasmrt

/-! ## Open constructs -/

section Open

variable {ir : List Instr} {pc : ℕ} {nest : List Open}

theorem isOpen_of_mem {o : ℕ} {kind : FrameKind} (hnest : nestAt ir pc = some nest) (ho : ⟨some o, kind⟩ ∈ nest) :
    IsOpen ir pc o := ⟨nest, hnest, List.mem_map.mpr ⟨_, ho, rfl⟩⟩

/-- An instruction that is no part of a construct stands before the end of every construct around it. -/
theorem lt_end_of_isOpen {i : Instr} {o e : ℕ} (hi : ir[pc]? = some i) (hcloses : i.closes = false)
    (hopen : IsOpen ir pc o) (he : ClosesAt ir e o) : pc < e := by
  apply lt_of_le_of_ne (he.le_of_isOpen hopen)
  rintro rfl
  -- the construct would be closed by an instruction that closes none
  exact he.not_of hi hcloses

/-- A handler that takes an exception comes after the position that raised it: the `try` is still in its first
part. -/
theorem le_of_reacts_handler {tags : List ℕ} {exn : Exception} {k c : ℕ} {o : Open}
    (hnest : nestAt ir pc = some nest) (hk : nest[k]? = some o) (hre : Reacts ir tags exn o (.handler c)) :
    pc ≤ c := by
  cases hre with
  | @handler o e c bt kind hi hkind he hend hfirst =>
    have hcatch : CatchAt ir c o := isCatchOf_iff.mp (List.mem_filter.mp (List.mem_of_find?_eq_some hfirst)).2
    obtain ⟨-, -, i', opened, hi', hopens, hpart⟩ := below_of_nestAt hnest hk rfl
    obtain rfl := Option.some.inj (hi.symm.trans hi')
    obtain rfl := Option.some.inj hopens
    rcases hpart with rfl | ⟨h, -⟩ | ⟨-, rfl⟩
    · by_contra hlt
      exact not_continues_of_nestAt hnest hk rfl (.inr rfl) (by omega) (continues_iff.mpr (.inr hcatch))
    · cases h
    · exact absurd rfl hkind

end Open

/-! ## Branches and exceptions -/

namespace CallFrame

variable {m : Module} {E : ℕ → ℕ → Prop} {frame : CallFrame} {pc n : ℕ} {nest : List Open} {tags : List ℕ}
  {exn : Exception} {x x' : Exec} {r : Resume} {i : Instr}

/-- A branch takes a unit, or goes forward. -/
theorem branch_forward (hi : frame.body.ir[pc]? = some i) (hcloses : i.closes = false)
    (hnest : nestAt frame.body.ir pc = some nest) (h : List.Forall₂ (LabelOf m frame.body E) nest frame.labels)
    (hbranch : frame.branch n x = .ok (r, x')) : Event.backEdge ∈ r.events ∨ pc < r.pc := by
  obtain ⟨l, hl, hpc, ⟨-, -, hevents, -⟩ | ⟨hloop, -, -, -⟩⟩ := frame.branch_ok hbranch
  · left
    rw [hevents]
    exact List.mem_singleton_self _
  · right
    obtain ⟨o, ho, hol, -⟩ := exists_open_of_label h hl
    rw [hpc]
    cases hol with
    | function kind => exact (List.getElem?_eq_some_iff.mp hi).1
    | loop => cases hloop
    | block hio _ _ _ he _ _ =>
      -- past the end of a construct that is open here
      exact Nat.lt_succ_of_lt (lt_end_of_isOpen hi hcloses (isOpen_of_mem hnest (List.mem_of_getElem? ho)) he)

/-- A clause ends with a branch. -/
theorem enterClause_events {d : ℕ} {l : Label} {c : Catch} (h : frame.enterClause exn d l c x = .ok r x') :
    ∃ x₁ r' es, r.pc = r'.pc ∧ r.events = es ++ r'.events ∧
      { frame with vstack := clauseOperands exn x.exnStore.length c ++ frame.lower l.stackBase }.branch
        (d + 1 + c.label) x₁ = .ok (r', x') := by
  have hout : ∀ {f : CallFrame} {k : ℕ} {es : List Event} {y : Exec}, f.branchOut k es y = .ok r x' →
      ∃ r', r.pc = r'.pc ∧ r.events = es ++ r'.events ∧ f.branch k y = .ok (r', x') := by
    intro f k es y hbranchOut
    unfold branchOut at hbranchOut
    split_ifs at hbranchOut
    rcases hbranch : f.branch k y with t | ⟨r', y'⟩
    · rw [hbranch] at hbranchOut
      cases hbranchOut
    · rw [hbranch] at hbranchOut
      cases hbranchOut
      exact ⟨r', rfl, rfl, rfl⟩
  rw [enterClause_eq] at h
  split_ifs at h
  all_goals
    obtain ⟨r', hpc, hevents, hbranch⟩ := hout h
    exact ⟨_, r', _, hpc, hevents, hbranch⟩

/-- An exception that is taken takes a unit, or goes forward. -/
theorem throwException_forward (hir : WellNested frame.body.ir) (hcf : frame.body.cf.Exact frame.body.ir)
    (hi : frame.body.ir[pc]? = some i) (hcloses : i.closes = false) (hnest : nestAt frame.body.ir pc = some nest)
    (h : List.Forall₂ (LabelOf m frame.body E) nest frame.labels)
    (hthrow : frame.throwException tags exn x = .ok (some r) x') : Event.backEdge ∈ r.events ∨ pc < r.pc := by
  obtain ⟨k, re, l, o, hk, hl, hre, henter⟩ := throwException_eq_some hir hcf hnest h hthrow
  cases re with
  | clause c =>
    obtain ⟨x₁, r', es, hpc, hevents, hbranch⟩ := enterClause_events henter
    rw [hpc, hevents, List.mem_append]
    apply (branch_forward (m := m) (E := E) (by exact hi) hcloses (by exact hnest) (by exact h) hbranch).imp_left
    exact .inr
  | handler c =>
    right
    rw [enterHandler, enterLegacy_eq] at henter
    split_ifs at henter
    cases henter
    exact Nat.lt_succ_of_le (le_of_reacts_handler hnest hk hre)
  | pass | delegate _ => cases henter

end CallFrame

/-! ## Instructions -/

section Steps

variable {W : Type} {env : Env W} {d : InstanceData} {h : Executed} {a a' : Activation} {i : Instr} {fl : Flow}

/-- Where an opener goes on is after it. -/
theorem Enters.lt {ir : List Instr} {pc pc' : ℕ} {c : Value} (h : Enters ir pc i c pc') : pc < pc' := by
  cases h with
  | inside => exact Nat.lt_succ_self pc
  | toElse _ _ hp => exact Nat.lt_succ_of_lt (isOpen_of_topAt hp.1).lt
  | toEnd _ _ _ he => exact (isOpen_of_topAt he.1).lt

/-- A clause come to in normal flow goes on at the end of its construct, which is after it. -/
theorem Continues.lt_end {ir : List Instr} {pc o e : ℕ} (h : Continues ir pc o) (he : ClosesAt ir e o) : pc < e := by
  obtain ⟨htop, i, hi, hcont⟩ := h
  have hcloses : i.closes = false := by
    rcases i <;> first | rfl | cases hcont
  exact lt_end_of_isOpen hi hcloses (isOpen_of_topAt htop) he

theorem Instr.closes_of_isFlat (h : i.isFlat = true) : i.closes = false := by
  simp only [isFlat, Bool.and_eq_true, Bool.not_eq_true'] at h
  exact h.1.2

/-- An instruction after which the activation goes on takes a unit, or the activation is further on. -/
theorem Activation.Placed.forward (ha : a.Placed env d h) {c : Config W} (hi : a.frame.body.ir[a.pc]? = some i)
    (hfl : flow env.ops a.inst d c.exec env.code a.frame a.pc i = .ok fl)
    (hrun : (applyFlow c a d.maps.tags fl).2.control = .run a') :
    Event.backEdge ∈ (applyFlow c a d.maps.tags fl).1 ∨ a.pc < a'.pc := by
  have hof := flow_of hfl
  obtain ⟨hgoes, -⟩ := goesTo_of_applyFlow hrun
  cases hgoes with
  | next st | leave => exact .inr (Nat.lt_succ_self _)
  | jump pc st =>
    right
    cases hof with
    | return_ => exact (List.getElem?_eq_some_iff.mp hi).1
    | skip hcont =>
      obtain ⟨o, e, hpart, hcloses⟩ := exists_continues ha.nested hi hcont
      show a.pc < a.frame.body.cf.endOf.getD a.pc 0
      rw [List.getD_eq_getElem?_getD, ha.exact.ended o e a.pc hcloses (.inr hpart)]
      exact hpart.lt_end hcloses
  | enter l pc st =>
    right
    cases hof with
    | enter hopens _ _ _ _ hpc =>
      obtain ⟨nest, hnest, hne, -⟩ := ha.placed.forall₂ hi (by cases i <;> cases hopens <;> rfl)
      obtain ⟨e, he⟩ := exists_closesAt_of_opens ha.nested hnest hne hi hopens
      exact (hpc.enters ha.exact hi he).lt
  | @branch n st r x' hbranch =>
    cases hof with
    | branch hflat =>
      have hcloses := Instr.closes_of_isFlat hflat
      obtain ⟨nest, hnest, -, hlabels⟩ := ha.placed.forall₂ hi hcloses
      simp only [applyFlow, hbranch]
      exact CallFrame.branch_forward (by exact hi) hcloses (by exact hnest) (by exact hlabels) hbranch
  | @raise exn st es r x' hraise =>
    cases hof with
    | raise hflat =>
      have hcloses := Instr.closes_of_isFlat hflat
      obtain ⟨nest, hnest, -, hlabels⟩ := ha.placed.forall₂ hi hcloses
      have hforward := CallFrame.throwException_forward (by exact ha.nested) (by exact ha.exact) (by exact hi)
        hcloses (by exact hnest) (by exact hlabels) (CallFrame.raise_eq_ok hraise)
      simp only [applyFlow, hraise, Config.andThen, List.mem_append]
      exact hforward.imp_left .inr

/-- So it is with a caller that catches an exception from its call. -/
theorem Suspended.forward {s : Suspended} {t : Trap} {x x' : Exec} {r : Resume} {tags : List ℕ}
    (hs : s.activation.Placed env d h) (hi : s.activation.frame.body.ir[s.activation.pc]? = some i)
    (hflat : i.isFlat = true) (hcatch : s.activation.frame.onCallError tags t x = .ok r x') :
    Event.backEdge ∈ r.events ∨ s.activation.pc < r.pc := by
  have hcloses := Instr.closes_of_isFlat hflat
  obtain ⟨nest, hnest, -, hlabels⟩ := hs.placed.forall₂ hi hcloses
  obtain ⟨exn, -, -, hthrow⟩ := CallFrame.onCallError_eq_ok hcatch
  exact CallFrame.throwException_forward hs.nested hs.exact hi hcloses hnest hlabels hthrow

end Steps

end Wasmrt
