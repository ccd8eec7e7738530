import Wasmrt.Interp.Nesting

/-!
# The control-flow tables of a well nested body

The pass over a body keeps its open blocks on a stack, which is the stack of the open constructs without
the function. So each opener finds its own `end`, an `else` and a handler find the `end` of the construct
they continue, and a legacy `try` finds its own handlers.

## Main definitions

* `ControlFlow.Fits`: the tables say where the constructs of a body end and continue.
* `ScanInv`: what the pass has established before a position.

## Main results

* `ScanInv.step`: one instruction of the pass.
* `ControlFlow.fits_of_precompute`: the tables of a well nested body fit it.
-/

namespace Wasmrt

section Entries

variable {α : Type} {ps : List ℕ} {l : List α} {a : α} {p : ℕ}

/-- The entries at some positions are set to one value. -/
def setAll (l : List α) (ps : List ℕ) (a : α) : List α := ps.foldl (fun l p => l.set p a) l

@[simp] theorem length_setAll : (setAll l ps a).length = l.length := by
  induction ps generalizing l with
  | nil => rfl
  | cons q ps ih => exact (ih (l := l.set q a)).trans List.length_set

theorem getElem?_setAll_of_not_mem (hp : p ∉ ps) : (setAll l ps a)[p]? = l[p]? := by
  induction ps generalizing l with
  | nil => rfl
  | cons q ps ih =>
    rw [List.mem_cons, not_or] at hp
    exact (ih hp.2).trans (List.getElem?_set_ne (Ne.symm hp.1))

theorem getElem?_setAll_of_mem (hp : p ∈ ps) (hlt : p < l.length) : (setAll l ps a)[p]? = some a := by
  induction ps generalizing l with
  | nil => cases hp
  | cons q ps ih =>
    by_cases hmem : p ∈ ps
    · exact ih hmem (by rw [List.length_set]; exact hlt)
    · obtain rfl : p = q := (List.mem_cons.mp hp).resolve_right hmem
      exact (getElem?_setAll_of_not_mem hmem).trans (List.getElem?_set_self hlt)

end Entries

/-- An `else` of the construct opened at `o`. -/
def ElseAt (ir : List Instr) (p o : ℕ) : Prop := topAt ir p = some o ∧ ir[p]? = some .else_

/-- A handler of the legacy `try` opened at `o`. -/
def CatchAt (ir : List Instr) (p o : ℕ) : Prop :=
  topAt ir p = some o ∧ ∃ i, ir[p]? = some i ∧ i.isCatch = true

theorem continues_iff {ir : List Instr} {p o : ℕ} : Continues ir p o ↔ ElseAt ir p o ∨ CatchAt ir p o := by
  constructor
  · rintro ⟨htop, i, hi, hcont⟩
    rw [Instr.continues, Bool.or_eq_true, beq_iff_eq] at hcont
    rcases hcont with hcatch | rfl
    · exact .inr ⟨htop, i, hi, hcatch⟩
    · exact .inl ⟨htop, hi⟩
  · rintro (⟨htop, hi⟩ | ⟨htop, i, hi, hcatch⟩)
    · exact ⟨htop, _, hi, rfl⟩
    · exact ⟨htop, i, hi, by rw [Instr.continues, hcatch]; rfl⟩

/-- What the `end` of a construct ends: its opener and the instructions that continue it. -/
def Belongs (ir : List Instr) (p o : ℕ) : Prop := p = o ∨ Continues ir p o

/-- The tables say where the constructs of a body end and continue. -/
structure ControlFlow.Fits (ir : List Instr) (cf : ControlFlow) : Prop where
  ended : ∀ o e p, ClosesAt ir e o → Belongs ir p o → cf.endOf[p]? = some e
  elses : ∀ o p, cf.elseOf[o]? = some p → p ≠ ir.length → ElseAt ir p o
  tries : ∀ o lt, cf.tryInfo[o]? = some (some lt) → ∀ h ∈ lt.handlers, ∃ c, h.handlerPc = c + 1 ∧ CatchAt ir c o

/-- What the pass has established before a position with these constructs open. -/
structure ScanInv (ir : List Instr) (n : ℕ) (nest : List Open) (st : ControlScan) : Prop where
  endOf_length : st.cf.endOf.length = ir.length
  elseOf_length : st.cf.elseOf.length = ir.length
  stack : st.stack = nest.filterMap Open.opener
  handlers_length : st.handlers.length = st.stack.length
  catchPcs_length : st.catchPcs.length = st.stack.length
  /-- The handlers and the positions collected for an open block are its own, and all of them so far. -/
  handlers : ∀ o hs, (o, hs) ∈ st.stack.zip st.handlers →
    ∀ h ∈ hs, ∃ c, h.handlerPc = c + 1 ∧ CatchAt ir c o
  catches : ∀ o cps, (o, cps) ∈ st.stack.zip st.catchPcs → ∀ c, c ∈ cps ↔ c < n ∧ CatchAt ir c o
  elses : ∀ o ∈ st.stack, ∀ p < n, ElseAt ir p o → st.cf.elseOf[o]? = some p
  elseOf : ∀ o p, st.cf.elseOf[o]? = some p → p ≠ ir.length → ElseAt ir p o
  ended : ∀ o e p, e < n → ClosesAt ir e o → Belongs ir p o → st.cf.endOf[p]? = some e
  tries : ∀ o lt, st.cf.tryInfo[o]? = some (some lt) →
    ∀ h ∈ lt.handlers, ∃ c, h.handlerPc = c + 1 ∧ CatchAt ir c o

section Scan

variable {ir : List Instr} {n : ℕ} {nest : List Open} {st st' : ControlScan}

theorem CatchAt.not_of {c o : ℕ} {i : Instr} (hi : ir[c]? = some i) (h : i.isCatch = false) : ¬ CatchAt ir c o := by
  rintro ⟨-, i', hi', hcatch⟩
  obtain rfl := Option.some.inj (hi.symm.trans hi')
  rw [h] at hcatch
  cases hcatch

theorem ElseAt.not_of {p o : ℕ} {i : Instr} (hi : ir[p]? = some i) (h : i ≠ .else_) : ¬ ElseAt ir p o := by
  rintro ⟨-, hi'⟩
  exact h (Option.some.inj (hi.symm.trans hi'))

theorem ClosesAt.not_of {e o : ℕ} {i : Instr} (hi : ir[e]? = some i) (h : i.closes = false) : ¬ ClosesAt ir e o := by
  rintro ⟨-, i', hi', hcloses⟩
  obtain rfl := Option.some.inj (hi.symm.trans hi')
  rw [h] at hcloses
  cases hcloses

theorem CatchAt.lt_of_lt_succ {c o : ℕ} (h : CatchAt ir c o) (hn : ¬ CatchAt ir n o) (hlt : c < n + 1) : c < n :=
  (Nat.lt_succ_iff.mp hlt).lt_of_ne fun heq => hn (heq ▸ h)

theorem ElseAt.lt_of_lt_succ {p o : ℕ} (h : ElseAt ir p o) (hn : ¬ ElseAt ir n o) (hlt : p < n + 1) : p < n :=
  (Nat.lt_succ_iff.mp hlt).lt_of_ne fun heq => hn (heq ▸ h)

theorem ClosesAt.lt_of_lt_succ {e o : ℕ} (h : ClosesAt ir e o) (hn : ¬ ClosesAt ir n o) (hlt : e < n + 1) : e < n :=
  (Nat.lt_succ_iff.mp hlt).lt_of_ne fun heq => hn (heq ▸ h)

/-- A handler before the next position is one before this position, unless it is here. -/
theorem catchAt_lt_succ {c o : ℕ} (hn : ¬ CatchAt ir n o) :
    c < n + 1 ∧ CatchAt ir c o ↔ c < n ∧ CatchAt ir c o :=
  and_congr_left fun hcatch => ⟨hcatch.lt_of_lt_succ hn, fun hlt => by omega⟩

/-- A flat instruction. -/
theorem ScanInv.flat (h : ScanInv ir n nest st) {i : Instr} (hi : ir[n]? = some i) (hflat : i.isFlat = true) :
    ScanInv ir (n + 1) nest st where
  __ := h
  catches := by
    have hn : ∀ o, ¬ CatchAt ir n o := fun o => CatchAt.not_of hi (by cases i <;> cases hflat <;> rfl)
    intro o cps hmem c
    rw [h.catches o cps hmem c, catchAt_lt_succ (hn o)]
  elses := by
    have hn : ∀ o, ¬ ElseAt ir n o := fun o => ElseAt.not_of hi (by rintro rfl; cases hflat)
    intro o ho p hp helse
    exact h.elses o ho p (helse.lt_of_lt_succ (hn o) hp) helse
  ended := by
    have hn : ∀ o, ¬ ClosesAt ir n o := fun o => ClosesAt.not_of hi (by cases i <;> cases hflat <;> rfl)
    intro o e p he hcloses hp
    exact h.ended o e p (hcloses.lt_of_lt_succ (hn o) he) hcloses hp

/-- A block is opened. -/
theorem ScanInv.opener (h : ScanInv ir n nest st) {i : Instr} {kind : FrameKind} (hi : ir[n]? = some i)
    (hopens : i.opens = some kind) : ScanInv ir (n + 1) (⟨some n, kind⟩ :: nest) (st.opener n) where
  endOf_length := h.endOf_length
  elseOf_length := h.elseOf_length
  stack := by rw [ControlScan.opener, h.stack]; rfl
  handlers_length := congrArg (· + 1) h.handlers_length
  catchPcs_length := congrArg (· + 1) h.catchPcs_length
  handlers := by
    intro o hs hmem
    rcases List.mem_cons.mp hmem with heq | hmem
    · obtain ⟨rfl, rfl⟩ := Prod.mk.inj heq
      rintro _ ⟨⟩
    · exact h.handlers o hs hmem
  catches := by
    have hn : ∀ o, ¬ CatchAt ir n o := fun o => CatchAt.not_of hi (by cases i <;> cases hopens <;> rfl)
    intro o cps hmem c
    rcases List.mem_cons.mp hmem with heq | hmem
    · obtain ⟨rfl, rfl⟩ := Prod.mk.inj heq
      refine ⟨nofun, fun ⟨hlt, hcatch⟩ => ?_⟩
      have := (isOpen_of_topAt hcatch.1).lt
      omega
    · rw [h.catches o cps hmem c, catchAt_lt_succ (hn o)]
  elses := by
    have hn : ∀ o, ¬ ElseAt ir n o := fun o => ElseAt.not_of hi (by rintro rfl; cases hopens)
    intro o ho p hp helse
    rcases List.mem_cons.mp ho with rfl | ho
    · have := (isOpen_of_topAt helse.1).lt
      omega
    · exact h.elses o ho p (helse.lt_of_lt_succ (hn o) hp) helse
  elseOf := h.elseOf
  ended := by
    have hn : ∀ o, ¬ ClosesAt ir n o := fun o => ClosesAt.not_of hi (by cases i <;> cases hopens <;> rfl)
    intro o e p he hcloses hp
    exact h.ended o e p (hcloses.lt_of_lt_succ (hn o) he) hcloses hp
  tries := h.tries

/-- The innermost open block is not among the blocks around it. -/
theorem not_mem_below {top : Open} {rest : List Open} {o : ℕ} (hnest : nestAt ir n = some (top :: rest))
    (ho : top.opener = some o) : o ∉ rest.filterMap Open.opener := by
  intro hmem
  obtain ⟨t, ht, hto⟩ := List.mem_filterMap.mp hmem
  exact absurd (lt_of_mem_below hnest ho (List.mem_map.mpr ⟨t, ht, hto⟩)) (lt_irrefl o)

/-- A construct that is not a plain block is not the function. -/
theorem exists_opener {top : Open} {rest : List Open} (hnest : nestAt ir n = some (top :: rest))
    (hkind : top.kind ≠ .block) : ∃ o, top.opener = some o := by
  cases ho : top.opener with
  | some o => exact ⟨o, rfl⟩
  | none => exact absurd (function_of_nestAt (j := 0) hnest rfl ho).1 hkind

/-- An `if` goes on to its `else`. -/
theorem ScanInv.else_ {top : Open} {rest : List Open} (h : ScanInv ir n (top :: rest) st)
    (hnest : nestAt ir n = some (top :: rest)) (hi : ir[n]? = some .else_) (hkind : top.kind = .if_)
    (hstep : st.else_ n = .ok st') : ScanInv ir (n + 1) (⟨top.opener, .else_⟩ :: rest) st' := by
  obtain ⟨o, ho⟩ := exists_opener hnest (by rw [hkind]; nofun)
  have hstack : st.stack = o :: rest.filterMap Open.opener := by rw [h.stack, List.filterMap_cons_some ho]
  have hn : ElseAt ir n o := ⟨topAt_eq_some.mpr ⟨top, rest, hnest, ho⟩, hi⟩
  have hlt : n < ir.length := (List.getElem?_eq_some_iff.mp hi).1
  have holt : o < n := (isOpen_of_topAt hn.1).lt
  rw [ControlScan.else_, hstack] at hstep
  obtain rfl := Except.ok.inj hstep
  exact {
    endOf_length := h.endOf_length
    elseOf_length := List.length_set.trans h.elseOf_length
    stack := by rw [hstack.symm, h.stack, List.filterMap_cons, List.filterMap_cons]
    handlers_length := hstack ▸ h.handlers_length
    catchPcs_length := hstack ▸ h.catchPcs_length
    handlers := hstack ▸ h.handlers
    catches := by
      rw [← hstack]
      intro o' cps hmem c
      rw [h.catches o' cps hmem c, catchAt_lt_succ (CatchAt.not_of hi rfl)]
    elses := by
      intro o' ho' p hp helse
      rcases List.mem_cons.mp ho' with rfl | ho'
      · have hnew : ¬ p < n := fun hp =>
          not_continues_of_nestAt (j := 0) hnest rfl ho (.inl hkind) hp (continues_iff.mpr (.inl helse))
        obtain rfl : p = n := by omega
        exact List.getElem?_set_self (by rw [h.elseOf_length]; omega)
      · have hne : o ≠ o' := by
          rintro rfl
          exact not_mem_below hnest ho ho'
        have hp : p < n := helse.lt_of_lt_succ (fun helse' =>
          hne (Option.some.inj (hn.1.symm.trans helse'.1))) hp
        exact (List.getElem?_set_ne hne).trans
          (h.elses o' (hstack ▸ List.mem_cons_of_mem _ ho') p hp helse)
    elseOf := by
      intro o' p hp hne
      by_cases heq : o = o'
      · subst heq
        rw [List.getElem?_set_self (by rw [h.elseOf_length]; omega)] at hp
        obtain rfl := Option.some.inj hp
        exact hn
      · rw [List.getElem?_set_ne heq] at hp
        exact h.elseOf o' p hp hne
    ended := by
      intro o' e p he hcloses hp
      exact h.ended o' e p (hcloses.lt_of_lt_succ (ClosesAt.not_of hi rfl) he) hcloses hp
    tries := h.tries }

/-- A legacy `try` goes on to a handler. -/
theorem ScanInv.catch_ {top : Open} {rest : List Open} (h : ScanInv ir n (top :: rest) st) {i : Instr}
    (hnest : nestAt ir n = some (top :: rest)) (hi : ir[n]? = some i) (hcatch : i.isCatch = true)
    (hkind : top.kind = .tryLegacy ∨ top.kind = .catchLegacy) {tag : Option ℕ}
    (hstep : st.catch_ tag n = .ok st') : ScanInv ir (n + 1) (⟨top.opener, .catchLegacy⟩ :: rest) st' := by
  obtain ⟨o, ho⟩ := exists_opener hnest (by rintro heq; rw [heq] at hkind; rcases hkind with h | h <;> cases h)
  have hstack : st.stack = o :: rest.filterMap Open.opener := by rw [h.stack, List.filterMap_cons_some ho]
  have hn : CatchAt ir n o := ⟨topAt_eq_some.mpr ⟨top, rest, hnest, ho⟩, i, hi, hcatch⟩
  obtain ⟨hs, handlers, hhandlers⟩ := List.exists_cons_of_length_pos
    (show 0 < st.handlers.length by rw [h.handlers_length, hstack]; exact Nat.succ_pos _)
  obtain ⟨cps, catchPcs, hcatchPcs⟩ := List.exists_cons_of_length_pos
    (show 0 < st.catchPcs.length by rw [h.catchPcs_length, hstack]; exact Nat.succ_pos _)
  have hlen := h.handlers_length
  have hlen' := h.catchPcs_length
  have hzip := h.handlers
  have hzip' := h.catches
  rw [hstack, hhandlers] at hlen hzip
  rw [hstack, hcatchPcs] at hlen' hzip'
  rw [ControlScan.catch_, hhandlers, hcatchPcs] at hstep
  obtain rfl := Except.ok.inj hstep
  have hother : ∀ {o'}, o' ∈ rest.filterMap Open.opener → ¬ CatchAt ir n o' := fun ho' hcatch' => by
    obtain rfl := Option.some.inj (hn.1.symm.trans hcatch'.1)
    exact not_mem_below hnest ho ho'
  exact {
    endOf_length := h.endOf_length
    elseOf_length := h.elseOf_length
    stack := by rw [h.stack, List.filterMap_cons, List.filterMap_cons]
    handlers_length := by rw [hstack]; exact hlen
    catchPcs_length := by rw [hstack]; exact hlen'
    handlers := by
      rw [hstack]
      intro o' hs' hmem
      rcases List.mem_cons.mp hmem with heq | hmem
      · obtain ⟨rfl, rfl⟩ := Prod.mk.inj heq
        intro h' hh'
        rcases List.mem_append.mp hh' with hh' | hh'
        · exact hzip _ _ List.mem_cons_self h' hh'
        · obtain rfl := List.mem_singleton.mp hh'
          exact ⟨n, rfl, hn⟩
      · exact hzip o' hs' (List.mem_cons_of_mem _ hmem)
    catches := by
      rw [hstack]
      intro o' cps' hmem c
      rcases List.mem_cons.mp hmem with heq | hmem
      · obtain ⟨rfl, rfl⟩ := Prod.mk.inj heq
        rw [List.mem_append, List.mem_singleton, hzip' _ _ List.mem_cons_self c]
        constructor
        · rintro (⟨hlt, hc⟩ | rfl)
          · exact ⟨by omega, hc⟩
          · exact ⟨by omega, hn⟩
        · rintro ⟨hlt, hc⟩
          rcases Nat.lt_succ_iff_lt_or_eq.mp hlt with hlt | rfl
          · exact .inl ⟨hlt, hc⟩
          · exact .inr rfl
      · rw [hzip' o' cps' (List.mem_cons_of_mem _ hmem) c, catchAt_lt_succ (hother (List.of_mem_zip hmem).1)]
    elses := by
      have hne : ∀ o, ¬ ElseAt ir n o := fun o => ElseAt.not_of hi (by rintro rfl; cases hcatch)
      intro o' ho' p hp helse
      exact h.elses o' ho' p (helse.lt_of_lt_succ (hne o') hp) helse
    elseOf := h.elseOf
    ended := by
      have hne : ∀ o, ¬ ClosesAt ir n o := fun o => ClosesAt.not_of hi (by cases i <;> cases hcatch <;> rfl)
      intro o' e p he hcloses hp
      exact h.ended o' e p (hcloses.lt_of_lt_succ (hne o') he) hcloses hp
    tries := h.tries }

/-- An instruction belongs to one construct. -/
theorem Belongs.unique {p o o' : ℕ} {m m' : ℕ} (h : Belongs ir p o) (h' : Belongs ir p o') (ho : IsOpen ir m o)
    (ho' : IsOpen ir m' o') : o = o' := by
  have hopener : ∀ {q : ℕ}, Continues ir p q → ∀ {m : ℕ}, ¬ IsOpen ir m p := fun hcont _ hopen => by
    obtain ⟨-, i, hi, hcont⟩ := hcont
    obtain ⟨i', kind, hi', hopens⟩ := hopen.opened
    obtain rfl := Option.some.inj (hi.symm.trans hi')
    cases i <;> cases hcont <;> cases hopens
  rcases h with rfl | h <;> rcases h' with rfl | h'
  · rfl
  · exact absurd ho (hopener h')
  · exact absurd ho' (hopener h)
  · exact Option.some.inj (h.1.symm.trans h'.1)

/-- The innermost open block is closed: the entries of what belongs to it are set, and no others. -/
theorem ScanInv.close {top : Open} {rest : List Open} (h : ScanInv ir n (top :: rest) st) {i : Instr} {o : ℕ}
    (hi : ir[n]? = some i) (hcloses : i.closes = true) (htop : topAt ir n = some o) (ho : top.opener = some o)
    {endOf : List ℕ} {tryInfo : List (Option LegacyTry)} (hlen : endOf.length = ir.length)
    (hset : ∀ p, Belongs ir p o → endOf[p]? = some n)
    (hkeep : ∀ p, ¬ Belongs ir p o → endOf[p]? = st.cf.endOf[p]?)
    (htries : ∀ o' lt, tryInfo[o']? = some (some lt) →
      st.cf.tryInfo[o']? = some (some lt) ∨ ∀ h ∈ lt.handlers, ∃ c, h.handlerPc = c + 1 ∧ CatchAt ir c o') :
    ScanInv ir (n + 1) rest {
      cf := { st.cf with endOf, tryInfo }, stack := st.stack.tail, handlers := st.handlers.tail
      catchPcs := st.catchPcs.tail } := by
  have hstack : st.stack = o :: rest.filterMap Open.opener := by rw [h.stack, List.filterMap_cons_some ho]
  have hclose : ClosesAt ir n o := ⟨htop, i, hi, hcloses⟩
  have htail : ∀ {α : Type} {l : List α} {q : ℕ × α}, q ∈ st.stack.tail.zip l.tail → q ∈ st.stack.zip l :=
    fun {_ l _} hq => by
      rw [← List.tail_zip] at hq
      exact List.mem_of_mem_tail hq
  exact {
    endOf_length := hlen
    elseOf_length := h.elseOf_length
    stack := by rw [hstack]; rfl
    handlers_length := by rw [List.length_tail, List.length_tail, h.handlers_length]
    catchPcs_length := by rw [List.length_tail, List.length_tail, h.catchPcs_length]
    handlers := fun o' hs hmem => h.handlers o' hs (htail hmem)
    catches := by
      have hn : ∀ o, ¬ CatchAt ir n o := fun o => CatchAt.not_of hi (by cases i <;> cases hcloses <;> rfl)
      intro o' cps hmem c
      rw [h.catches o' cps (htail hmem) c, catchAt_lt_succ (hn o')]
    elses := by
      have hn : ∀ o, ¬ ElseAt ir n o := fun o => ElseAt.not_of hi (by rintro rfl; cases hcloses)
      intro o' ho' p hp helse
      exact h.elses o' (List.mem_of_mem_tail ho') p (helse.lt_of_lt_succ (hn o') hp) helse
    elseOf := h.elseOf
    ended := by
      intro o' e p he hcloses' hp
      by_cases hbelongs : Belongs ir p o
      · obtain rfl := hbelongs.unique hp (isOpen_of_topAt htop) (isOpen_of_topAt hcloses'.1)
        rw [hset p hbelongs, hclose.unique hcloses']
      · have hne : e ≠ n := by
          rintro rfl
          obtain rfl := Option.some.inj (htop.symm.trans hcloses'.1)
          exact hbelongs hp
        rw [hkeep p hbelongs]
        exact h.ended o' e p (by omega) hcloses' hp
    tries := by
      intro o' lt hlt
      rcases htries o' lt hlt with hold | hnew
      · exact h.tries o' lt hold
      · exact hnew }

/-- A `delegate` closes a legacy `try` that has no handlers. -/
theorem ScanInv.delegate {top : Open} {rest : List Open} (h : ScanInv ir n (top :: rest) st) {label : ℕ}
    (hnest : nestAt ir n = some (top :: rest)) (hi : ir[n]? = some (.delegate label))
    (hkind : top.kind = .tryLegacy) (hstep : st.delegate label n = .ok st') : ScanInv ir (n + 1) rest st' := by
  obtain ⟨o, ho⟩ := exists_opener hnest (by rw [hkind]; nofun)
  have htop : topAt ir n = some o := topAt_eq_some.mpr ⟨top, rest, hnest, ho⟩
  have hclose : ClosesAt ir n o := ⟨htop, _, hi, rfl⟩
  have hstack : st.stack = o :: rest.filterMap Open.opener := by rw [h.stack, List.filterMap_cons_some ho]
  have holt : o < ir.length := (isOpen_of_topAt htop).lt.trans (List.getElem?_eq_some_iff.mp hi).1
  have hfresh : ∀ p, ¬ Continues ir p o := fun p hp => by
    rcases lt_trichotomy p n with hlt | rfl | hlt
    · exact not_continues_of_nestAt (j := 0) hnest rfl ho (.inr hkind) hlt hp
    · obtain ⟨-, i, hi', hcont⟩ := hp
      obtain rfl := Option.some.inj (hi.symm.trans hi')
      cases hcont
    · have := hclose.le_of_isOpen (isOpen_of_topAt hp.1)
      omega
  rw [ControlScan.delegate, hstack] at hstep
  obtain rfl := Except.ok.inj hstep
  have hrest : ScanInv ir (n + 1) rest {
      cf := { st.cf with
        endOf := st.cf.endOf.set o n, tryInfo := st.cf.tryInfo.set o (some ⟨[], some label⟩) }
      stack := st.stack.tail, handlers := st.handlers.tail, catchPcs := st.catchPcs.tail } :=
    h.close hi rfl htop ho (List.length_set.trans h.endOf_length)
    (fun p hp => by
      obtain rfl := hp.resolve_right (hfresh p)
      exact List.getElem?_set_self (by rw [h.endOf_length]; exact holt))
    (fun p hp => List.getElem?_set_ne fun heq => hp (.inl heq.symm))
    (fun o' lt hlt => by
      by_cases heq : o = o'
      · subst heq
        have hlen : o < st.cf.tryInfo.length := by
          by_contra hge
          rw [List.set_eq_of_length_le (not_lt.mp hge), List.getElem?_eq_none (not_lt.mp hge)] at hlt
          cases hlt
        rw [List.getElem?_set_self hlen] at hlt
        obtain rfl := Option.some.inj (Option.some.inj hlt)
        exact .inr nofun
      · exact .inl ((List.getElem?_set_ne heq).symm.trans hlt))
  rwa [hstack] at hrest

/-- The entries that the `end` of the block opened at `o` sets. -/
def endSet (ir : List Instr) (cf : ControlFlow) (o : ℕ) (cps : List ℕ) : List ℕ :=
  o :: ((if cf.elseOf.getD o ir.length ≠ ir.length then [cf.elseOf.getD o ir.length] else []) ++
    if ir[o]? matches some (.tryLegacy _) then cps else [])

/-- The table of legacy handlers after the `end` of the block opened at `o`. -/
def endTries (ir : List Instr) (cf : ControlFlow) (o : ℕ) (hs : List LegacyCatch) : List (Option LegacyTry) :=
  if ir[o]? matches some (.tryLegacy _) then cf.tryInfo.set o (some ⟨hs, none⟩) else cf.tryInfo

/-- An `end` in terms of the entries it sets. -/
theorem ControlScan.end_eq {o : ℕ} {stack : List ℕ} (hstack : st.stack = o :: stack) :
    st.end_ ir n = {
      cf := { st.cf with
        endOf := setAll st.cf.endOf (endSet ir st.cf o (st.catchPcs.headD [])) n
        tryInfo := endTries ir st.cf o (st.handlers.headD []) }
      stack := st.stack.tail, handlers := st.handlers.tail, catchPcs := st.catchPcs.tail } := by
  by_cases htry : ir[o]? matches some (.tryLegacy _)
  · by_cases helse : st.cf.elseOf.getD o ir.length = ir.length <;>
      simp only [ControlScan.end_, hstack, endSet, endTries, setAll, helse, ne_eq, not_true_eq_false,
        not_false_eq_true, if_true, if_false, List.foldl_cons, List.foldl_append, List.foldl_nil, List.tail_cons] <;>
      split_ifs <;> first | rfl | exact absurd htry (by assumption)
  · by_cases helse : st.cf.elseOf.getD o ir.length = ir.length <;>
      simp only [ControlScan.end_, hstack, endSet, endTries, setAll, helse, ne_eq, not_true_eq_false,
        not_false_eq_true, if_true, if_false, List.foldl_cons, List.foldl_append, List.foldl_nil, List.tail_cons] <;>
      split_ifs <;> first | rfl | exact absurd (by assumption) htry

/-- What the `end` of a block sets is what belongs to it. -/
theorem ScanInv.mem_endSet {top : Open} {rest : List Open} (h : ScanInv ir n (top :: rest) st)
    (hnest : nestAt ir n = some (top :: rest)) {o : ℕ} (ho : top.opener = some o) {cps : List ℕ}
    (hcps : (o, cps) ∈ st.stack.zip st.catchPcs) (hbefore : ∀ {p}, Continues ir p o → p < n)
    (hn : n < ir.length) (p : ℕ) : p ∈ endSet ir st.cf o cps ↔ Belongs ir p o := by
  have hstack : o ∈ st.stack := (List.of_mem_zip hcps).1
  have holt : o < n := (isOpen_of_topAt (topAt_eq_some.mpr ⟨top, rest, hnest, ho⟩)).lt
  have hget : st.cf.elseOf[o]? = some (st.cf.elseOf.getD o ir.length) := by
    rw [List.getD_eq_getElem?_getD, List.getElem?_eq_getElem (by rw [h.elseOf_length]; omega), Option.getD_some]
  simp only [endSet, Belongs, List.mem_cons, List.mem_append, continues_iff]
  refine or_congr_right (or_congr ?_ ?_)
  · split_ifs with hne
    · rw [List.mem_singleton]
      constructor
      · rintro rfl
        exact h.elseOf o _ hget hne
      · intro hp
        have hset := h.elses o hstack p (hbefore (continues_iff.mpr (.inl hp))) hp
        exact Option.some.inj (hset.symm.trans hget)
    · refine ⟨nofun, fun hp => ?_⟩
      have hpn := hbefore (continues_iff.mpr (.inl hp))
      have hset := Option.some.inj ((h.elses o hstack p hpn hp).symm.trans hget)
      omega
  · split_ifs with htry
    · rw [h.catches o cps hcps p]
      exact ⟨And.right, fun hp => ⟨hbefore (continues_iff.mpr (.inr hp)), hp⟩⟩
    · refine ⟨nofun, fun hp => absurd ?_ htry⟩
      have hcont : Continues ir p o := continues_iff.mpr (.inr hp)
      obtain ⟨after, hafter⟩ := exists_nestAt_of_le (hbefore hcont) hnest
      rcases hcont.opener hafter with ⟨helse, -⟩ | ⟨-, bt, hbt⟩
      · obtain ⟨i, hi, hcatch⟩ := hp.2
        obtain rfl := Option.some.inj (helse.symm.trans hi)
        cases hcatch
      · rw [hbt]

/-- The `end` of a block. -/
theorem ScanInv.end_ {top : Open} {rest : List Open} (h : ScanInv ir n (top :: rest) st)
    (hnest : nestAt ir n = some (top :: rest)) (hi : ir[n]? = some .end_) {o : ℕ} (ho : top.opener = some o) :
    ScanInv ir (n + 1) rest (st.end_ ir n) := by
  have htop : topAt ir n = some o := topAt_eq_some.mpr ⟨top, rest, hnest, ho⟩
  have hclose : ClosesAt ir n o := ⟨htop, _, hi, rfl⟩
  have hstack : st.stack = o :: rest.filterMap Open.opener := by rw [h.stack, List.filterMap_cons_some ho]
  have hlt : n < ir.length := (List.getElem?_eq_some_iff.mp hi).1
  have hbefore : ∀ {p}, Continues ir p o → p < n := fun {p} hp => by
    refine (hclose.le_of_isOpen (isOpen_of_topAt hp.1)).lt_of_ne ?_
    rintro rfl
    obtain ⟨-, i, hi', hcont⟩ := hp
    obtain rfl := Option.some.inj (hi.symm.trans hi')
    cases hcont
  obtain ⟨hs, handlers, hhandlers⟩ := List.exists_cons_of_length_pos
    (show 0 < st.handlers.length by rw [h.handlers_length, hstack]; exact Nat.succ_pos _)
  obtain ⟨cps, catchPcs, hcatchPcs⟩ := List.exists_cons_of_length_pos
    (show 0 < st.catchPcs.length by rw [h.catchPcs_length, hstack]; exact Nat.succ_pos _)
  have hzip : (o, cps) ∈ st.stack.zip st.catchPcs := by
    rw [hstack, hcatchPcs]
    exact List.mem_cons_self
  have hmem := h.mem_endSet hnest ho hzip hbefore hlt
  rw [ControlScan.end_eq hstack, hhandlers, hcatchPcs, List.headD_cons, List.headD_cons, ← hhandlers, ← hcatchPcs]
  refine h.close hi rfl htop ho (length_setAll.trans h.endOf_length) ?_ ?_ ?_
  · intro p hp
    apply getElem?_setAll_of_mem ((hmem p).mpr hp)
    rw [h.endOf_length]
    rcases hp with rfl | hp
    · exact (isOpen_of_topAt htop).lt.trans hlt
    · exact (hbefore hp).trans hlt
  · exact fun p hp => getElem?_setAll_of_not_mem fun hp' => hp ((hmem p).mp hp')
  · intro o' lt hlt
    rw [endTries] at hlt
    split_ifs at hlt
    · by_cases heq : o = o'
      · subst heq
        rw [List.getElem?_set, if_pos rfl] at hlt
        split_ifs at hlt
        · obtain rfl := Option.some.inj (Option.some.inj hlt)
          exact .inr (h.handlers o hs (by rw [hstack, hhandlers]; exact List.mem_cons_self))
      · exact .inl ((List.getElem?_set_ne heq).symm.trans hlt)
    · exact .inl hlt

/-- The `end` of the function leaves the tables as they are. -/
theorem ScanInv.endBody {top : Open} {rest : List Open} (h : ScanInv ir n (top :: rest) st)
    (hnest : nestAt ir n = some (top :: rest)) (ho : top.opener = none) : ScanInv ir (n + 1) rest (st.end_ ir n) := by
  have hrest : rest = [] := List.length_eq_zero_iff.mp (Nat.succ.inj (function_of_nestAt (j := 0) hnest rfl ho).2)
  subst hrest
  have hstack : st.stack = [] := by rw [h.stack, List.filterMap_cons_none ho]; rfl
  have hend : st.end_ ir n = st := by rw [ControlScan.end_, hstack]
  rw [hend]
  exact { h with
    stack := hstack
    catches := fun o cps hmem => by rw [hstack] at hmem; cases hmem
    elses := fun o ho => by rw [hstack] at ho; cases ho
    ended := by
      intro o e p he hcloses hp
      refine h.ended o e p (hcloses.lt_of_lt_succ (fun hcloses' => ?_) he) hcloses hp
      obtain ⟨top', rest', hnest', ho'⟩ := topAt_eq_some.mp hcloses'.1
      obtain ⟨rfl, -⟩ := List.cons.inj (Option.some.inj (hnest.symm.trans hnest'))
      rw [ho] at ho'
      cases ho' }

/-- One instruction of the pass. -/
theorem ScanInv.step (h : ScanInv ir n nest st) {i : Instr} {nest' : List Open}
    (hnest : nestAt ir n = some nest) (hi : ir[n]? = some i) (hnext : NestStep n i nest nest')
    (hstep : st.step ir (i, n) = .ok st') : ScanInv ir (n + 1) nest' st' := by
  cases hnext with
  | opener hopens =>
    have hst : st.step ir (i, n) = .ok (st.opener n) := by cases i <;> cases hopens <;> rfl
    obtain rfl := Except.ok.inj (hst.symm.trans hstep)
    exact h.opener hi hopens
  | flat hflat =>
    have hst : st.step ir (i, n) = .ok st := by cases i <;> cases hflat <;> rfl
    obtain rfl := Except.ok.inj (hst.symm.trans hstep)
    exact h.flat hi hflat
  | else_ helse heq hkind =>
    subst helse heq
    exact h.else_ hnest hi hkind hstep
  | catch_ hcatch heq hkind =>
    subst heq
    have htag : ∃ tag, st.step ir (i, n) = st.catch_ tag n := by
      cases i <;> cases hcatch
      · exact ⟨_, rfl⟩
      · exact ⟨none, rfl⟩
    obtain ⟨tag, hst⟩ := htag
    exact h.catch_ hnest hi hcatch hkind (hst.symm.trans hstep)
  | @closer top _ hcloses heq hdelegate =>
    subst heq
    cases i with
    | delegate label => exact h.delegate hnest hi (hdelegate label rfl) hstep
    | end_ =>
      obtain rfl := Except.ok.inj hstep
      cases ho : top.opener with
      | some o => exact h.end_ hnest hi ho
      | none => exact h.endBody hnest ho
    | _ => cases hcloses

/-- The rest of the pass. -/
theorem ScanInv.run (hir : WellNested ir) (h : ScanInv ir n nest st) (hnest : nestAt ir n = some nest)
    (hn : n ≤ ir.length) (hrun : ((ir.drop n).zipIdx n).foldlM (ControlScan.step ir) st = .ok st') :
    ScanInv ir ir.length [] st' := by
  induction hk : ir.length - n generalizing n nest st with
  | zero =>
    obtain rfl : n = ir.length := by omega
    rw [List.drop_length] at hrun
    obtain rfl := Except.ok.inj hrun
    obtain rfl := Option.some.inj (hnest.symm.trans hir)
    exact h
  | succ k ih =>
    have hlt : n < ir.length := by omega
    rw [List.drop_eq_getElem_cons hlt, List.zipIdx_cons, List.foldlM_cons] at hrun
    obtain ⟨st₁, hone, hrest⟩ := Except.bind_eq_ok.mp hrun
    obtain ⟨after, hafter⟩ := exists_nestAt_of_le (show n + 1 ≤ ir.length from hlt) hir
    obtain ⟨i, before, hi, hbefore, -, hstep⟩ := nestAt_succ hafter
    obtain rfl := Option.some.inj (hnest.symm.trans hbefore)
    obtain rfl : ir[n] = i := Option.some.inj ((List.getElem?_eq_getElem hlt).symm.trans hi)
    exact ih (h.step hnest hi hstep hone) hafter hlt hrest (by omega)

/-- The pass before the first instruction. -/
def ControlScan.start (ir : List Instr) : ControlScan where
  cf := ⟨List.replicate ir.length 0, List.replicate ir.length ir.length, List.replicate ir.length none⟩
  stack := []
  handlers := []
  catchPcs := []

theorem ScanInv.start (ir : List Instr) : ScanInv ir 0 [⟨none, .block⟩] (.start ir) where
  endOf_length := List.length_replicate
  elseOf_length := List.length_replicate
  stack := rfl
  handlers_length := rfl
  catchPcs_length := rfl
  handlers := nofun
  catches := nofun
  elses := nofun
  elseOf := by
    intro o p hp hne
    rw [ControlScan.start, List.getElem?_replicate, Option.ite_none_right_eq_some] at hp
    exact absurd (Option.some.inj hp.2).symm hne
  ended := fun o e p he => by omega
  tries := by
    intro o lt hlt
    rw [ControlScan.start, List.getElem?_replicate, Option.ite_none_right_eq_some] at hlt
    cases hlt.2

/-- The tables of a well nested body fit it. -/
theorem ControlFlow.fits_of_precompute (hir : WellNested ir) {cf : ControlFlow}
    (h : precomputeControlFlow ir = .ok cf) : cf.Fits ir := by
  obtain ⟨st, hrun, h⟩ := Except.bind_eq_ok.mp h
  obtain rfl := Except.ok.inj h
  have hend := (ScanInv.start ir).run hir rfl (Nat.zero_le _) hrun
  exact {
    ended := by
      intro o e p hcloses hp
      have he : e < ir.length := by
        obtain ⟨-, i, hi, -⟩ := hcloses
        exact (List.getElem?_eq_some_iff.mp hi).1
      exact hend.ended o e p he hcloses hp
    elses := hend.elseOf
    tries := hend.tries }

end Scan

end Wasmrt
