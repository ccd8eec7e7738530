import Wasmrt.Interp.ControlFlow
import Wasmrt.Validate.Function

/-!
# How the constructs of a body nest

Before each instruction of a body some constructs are open. An opener adds one, an `end` or a `delegate`
closes the innermost, and an `else` or a legacy `catch` moves it to its next part. The function itself
is the outermost; after its `end` nothing is open, and no instruction follows.

## Main definitions

* `Open`, `nestStep`, `nestAt`: the constructs open before an instruction, innermost first.
* `WellNested`: the rules are kept to the end, and everything is closed there.

## Main results

* `below_of_nestAt`: below an open construct is what was open where it was opened.
* `IsOpen.exists_closesAt`, `ClosesAt.unique`: what is opened is closed, at one position.
-/

namespace Wasmrt

/-! ## Openers and closers -/

namespace Instr

/-- What an instruction opens. -/
def opens : Instr → Option FrameKind
  | .block _ => some .block
  | .loop _ => some .loop
  | .if_ _ => some .if_
  | .tryTable .. => some .tryTable
  | .tryLegacy _ => some .tryLegacy
  | _ => none

/-- The block type of what an instruction opens. -/
def blockType : Instr → Option BlockType
  | .block bt | .loop bt | .if_ bt | .tryLegacy bt | .tryTable bt _ => some bt
  | _ => none

theorem exists_blockType {i : Instr} {kind : FrameKind} (h : i.opens = some kind) : ∃ bt, i.blockType = some bt := by
  cases i <;> cases h <;> exact ⟨_, rfl⟩

/-- Does an instruction close the innermost construct? -/
def closes : Instr → Bool
  | .end_ | .delegate _ => true
  | _ => false

/-- Does an instruction begin a handler of a legacy `try`? -/
def isCatch : Instr → Bool
  | .catchLegacy _ | .catchAll => true
  | _ => false

/-- Does an instruction begin the next part of the innermost construct? -/
def continues (i : Instr) : Bool := i.isCatch || i == .else_

/-- Does an instruction leave the open constructs as they are? -/
def isFlat (i : Instr) : Bool := i.opens.isNone && !i.closes && !i.continues

end Instr

/-- An open construct: the position of its opener, none for the function, and the part it is in. -/
structure Open where
  opener : Option ℕ
  kind : FrameKind
  deriving DecidableEq, Repr

/-- The constructs open after an instruction. -/
def nestStep (pc : ℕ) (i : Instr) : List Open → Option (List Open)
  | [] => none
  | top :: rest =>
    match i with
    | .else_ => if top.kind = .if_ then some (⟨top.opener, .else_⟩ :: rest) else none
    | .catchLegacy _ | .catchAll =>
      if top.kind = .tryLegacy ∨ top.kind = .catchLegacy then
        some (⟨top.opener, .catchLegacy⟩ :: rest)
      else none
    | .delegate _ => if top.kind = .tryLegacy then some rest else none
    | .end_ => some rest
    | i =>
      match i.opens with
      | some kind => some (⟨some pc, kind⟩ :: top :: rest)
      | none => some (top :: rest)

/-- The constructs open before the instruction at a position; `none` where the rules are broken. -/
def nestAt (ir : List Instr) : ℕ → Option (List Open)
  | 0 => some [⟨none, .block⟩]
  | n + 1 => do
    let nest ← nestAt ir n
    let i ← ir[n]?
    nestStep n i nest

/-- The rules are kept up to the end of the body, and everything is closed there. -/
def WellNested (ir : List Instr) : Prop := nestAt ir ir.length = some []

/-! ## One instruction -/

/-- How an instruction changes the open constructs. -/
inductive NestStep (pc : ℕ) (i : Instr) (nest : List Open) : List Open → Prop
  | opener {kind : FrameKind} (h : i.opens = some kind) : NestStep pc i nest (⟨some pc, kind⟩ :: nest)
  | closer {top : Open} {rest : List Open} (h : i.closes = true) (hnest : nest = top :: rest)
      (hdelegate : ∀ label, i = .delegate label → top.kind = .tryLegacy) : NestStep pc i nest rest
  | else_ {top : Open} {rest : List Open} (h : i = .else_) (hnest : nest = top :: rest)
      (hkind : top.kind = .if_) : NestStep pc i nest (⟨top.opener, .else_⟩ :: rest)
  | catch_ {top : Open} {rest : List Open} (h : i.isCatch = true) (hnest : nest = top :: rest)
      (hkind : top.kind = .tryLegacy ∨ top.kind = .catchLegacy) :
      NestStep pc i nest (⟨top.opener, .catchLegacy⟩ :: rest)
  | flat (h : i.isFlat = true) : NestStep pc i nest nest

theorem nestStep_cases {pc : ℕ} {i : Instr} {nest nest' : List Open}
    (h : nestStep pc i nest = some nest') : nest ≠ [] ∧ NestStep pc i nest nest' := by
  cases nest with
  | nil => cases h
  | cons top rest =>
    refine ⟨List.cons_ne_nil _ _, ?_⟩
    cases i with
    | block _ | loop _ | if_ _ | tryTable _ _ | tryLegacy _ =>
      obtain rfl := Option.some.inj h
      exact .opener rfl
    | else_ =>
      rw [nestStep, Option.ite_none_right_eq_some] at h
      obtain ⟨hkind, h⟩ := h
      obtain rfl := Option.some.inj h
      exact .else_ rfl rfl hkind
    | catchLegacy _ | catchAll =>
      rw [nestStep, Option.ite_none_right_eq_some] at h
      obtain ⟨hkind, h⟩ := h
      obtain rfl := Option.some.inj h
      exact .catch_ rfl rfl hkind
    | delegate _ =>
      rw [nestStep, Option.ite_none_right_eq_some] at h
      obtain ⟨hkind, h⟩ := h
      obtain rfl := Option.some.inj h
      exact .closer rfl rfl fun _ _ => hkind
    | end_ =>
      obtain rfl := Option.some.inj h
      exact .closer rfl rfl nofun
    | _ =>
      obtain rfl := Option.some.inj h
      exact .flat rfl

/-! ## Positions -/

section Positions

variable {ir : List Instr} {n : ℕ} {nest : List Open}

/-- The rules are kept by the instruction before a position, too. -/
theorem nestAt_succ (h : nestAt ir (n + 1) = some nest) :
    ∃ i before, ir[n]? = some i ∧ nestAt ir n = some before ∧ before ≠ [] ∧ NestStep n i before nest := by
  simp only [nestAt, Option.bind_eq_bind, Option.bind_eq_some_iff] at h
  obtain ⟨before, hbefore, i, hi, hstep⟩ := h
  obtain ⟨hne, hstep⟩ := nestStep_cases hstep
  exact ⟨i, before, hi, hbefore, hne, hstep⟩

theorem exists_nestAt_of_le {m : ℕ} (hle : n ≤ m) (h : nestAt ir m = some nest) :
    ∃ before, nestAt ir n = some before := by
  induction m, hle using Nat.le_induction generalizing nest with
  | base => exact ⟨nest, h⟩
  | succ m _ ih =>
    obtain ⟨i, before, -, hbefore, -, -⟩ := nestAt_succ h
    exact ih hbefore

/-- Before each instruction of a well nested body something is open. -/
theorem WellNested.exists_nestAt (h : WellNested ir) (hn : n < ir.length) :
    ∃ nest, nestAt ir n = some nest ∧ nest ≠ [] := by
  obtain ⟨after, hafter⟩ := exists_nestAt_of_le (show n + 1 ≤ ir.length from hn) h
  obtain ⟨i, nest, -, hnest, hne, -⟩ := nestAt_succ hafter
  exact ⟨nest, hnest, hne⟩

/-- The parts of a construct: the one its opener begins, the `else` of an `if`, the handlers of a legacy
`try`. -/
def FrameKind.PartOf (part kind : FrameKind) : Prop :=
  part = kind ∨ (kind = .if_ ∧ part = .else_) ∨ (kind = .tryLegacy ∧ part = .catchLegacy)

/-- Below an open construct is what was open where it was opened. -/
theorem below_of_nestAt (h : nestAt ir n = some nest) {j o : ℕ} {top : Open} (htop : nest[j]? = some top)
    (ho : top.opener = some o) : o < n ∧ nestAt ir o = some (nest.drop (j + 1)) ∧
      ∃ i kind, ir[o]? = some i ∧ i.opens = some kind ∧ top.kind.PartOf kind := by
  induction n generalizing nest j top with
  | zero =>
    obtain rfl := Option.some.inj h
    cases j with
    | zero =>
      obtain rfl := Option.some.inj htop
      cases ho
    | succ j => cases htop
  | succ n ih =>
    obtain ⟨i, before, hi, hbefore, -, hstep⟩ := nestAt_succ h
    have hlater : ∀ {k : ℕ} {t : Open} (hk : before[k]? = some t) (hto : t.opener = some o),
        o < n + 1 ∧ nestAt ir o = some (before.drop (k + 1)) ∧
          ∃ i kind, ir[o]? = some i ∧ i.opens = some kind ∧ t.kind.PartOf kind := fun hk hto => by
      obtain ⟨hlt, hrest⟩ := ih hbefore hk hto
      exact ⟨by omega, hrest⟩
    cases hstep with
    | opener hopens =>
      cases j with
      | zero =>
        obtain rfl := Option.some.inj htop
        obtain rfl := Option.some.inj ho
        exact ⟨by omega, hbefore, i, _, hi, hopens, .inl rfl⟩
      | succ j => exact hlater htop ho
    | closer _ hnest _ =>
      subst hnest
      exact hlater (k := j + 1) htop ho
    | else_ _ hnest hkind =>
      subst hnest
      cases j with
      | zero =>
        obtain rfl := Option.some.inj htop
        obtain ⟨hlt, hdrop, i', kind, hi', hopens, hpart⟩ := hlater (k := 0) rfl ho
        refine ⟨hlt, hdrop, i', kind, hi', hopens, ?_⟩
        rw [hkind] at hpart
        rcases hpart with rfl | ⟨-, h⟩ | ⟨-, h⟩
        · exact .inr (.inl ⟨rfl, rfl⟩)
        · cases h
        · cases h
      | succ j => exact hlater (k := j + 1) htop ho
    | catch_ _ hnest hkind =>
      subst hnest
      cases j with
      | zero =>
        obtain rfl := Option.some.inj htop
        obtain ⟨hlt, hdrop, i', kind, hi', hopens, hpart⟩ := hlater (k := 0) rfl ho
        refine ⟨hlt, hdrop, i', kind, hi', hopens, ?_⟩
        rcases hkind with hkind | hkind <;> rw [hkind] at hpart <;> rcases hpart with rfl | ⟨-, h⟩ | ⟨rfl, h⟩
        · exact .inr (.inr ⟨rfl, rfl⟩)
        · cases h
        · cases h
        · exact .inl rfl
        · cases h
        · exact .inr (.inr ⟨rfl, rfl⟩)
      | succ j => exact hlater (k := j + 1) htop ho
    | flat _ => exact hlater htop ho

/-- The construct opened at `o` is open before a position. -/
def IsOpen (ir : List Instr) (n o : ℕ) : Prop :=
  ∃ nest, nestAt ir n = some nest ∧ some o ∈ nest.map Open.opener

/-- Where the innermost construct open before a position was opened. -/
def topAt (ir : List Instr) (n : ℕ) : Option ℕ := ((nestAt ir n).bind List.head?).bind Open.opener

theorem topAt_eq_some {o : ℕ} : topAt ir n = some o ↔
    ∃ top rest, nestAt ir n = some (top :: rest) ∧ top.opener = some o := by
  simp only [topAt, Option.bind_eq_some_iff, List.head?_eq_some_iff]
  constructor
  · rintro ⟨top, ⟨nest, hnest, rest, rfl⟩, ho⟩
    exact ⟨top, rest, hnest, ho⟩
  · rintro ⟨top, rest, hnest, ho⟩
    exact ⟨top, ⟨_, hnest, rest, rfl⟩, ho⟩

theorem isOpen_of_topAt {o : ℕ} (h : topAt ir n = some o) : IsOpen ir n o := by
  obtain ⟨top, rest, hnest, ho⟩ := topAt_eq_some.mp h
  exact ⟨_, hnest, by simp [ho]⟩

theorem IsOpen.lt {o : ℕ} (h : IsOpen ir n o) : o < n := by
  obtain ⟨nest, hnest, hmem⟩ := h
  obtain ⟨top, hmem, ho⟩ := List.mem_map.mp hmem
  obtain ⟨j, hj, rfl⟩ := List.mem_iff_getElem.mp hmem
  exact (below_of_nestAt hnest (List.getElem?_eq_getElem hj) ho).1

/-- What is around the innermost construct was opened before it. -/
theorem lt_of_mem_below {top : Open} {rest : List Open} {o o' : ℕ} (h : nestAt ir n = some (top :: rest))
    (ho : top.opener = some o) (ho' : some o' ∈ rest.map Open.opener) : o' < o := by
  have hbelow := (below_of_nestAt (j := 0) h rfl ho).2.1
  have hopen : IsOpen ir o o' := ⟨rest, hbelow, ho'⟩
  exact hopen.lt

/-- The innermost construct was opened last. -/
theorem IsOpen.le_of_topAt {o o' : ℕ} (h : IsOpen ir n o') (htop : topAt ir n = some o) : o' ≤ o := by
  obtain ⟨top, rest, hnest, ho⟩ := topAt_eq_some.mp htop
  obtain ⟨nest, hnest', hmem⟩ := h
  obtain rfl := Option.some.inj (hnest.symm.trans hnest')
  rw [List.map_cons, List.mem_cons, ho] at hmem
  rcases hmem with hmem | hmem
  · rw [Option.some.inj hmem]
  · exact (lt_of_mem_below hnest ho hmem).le

/-- An open construct has its opener. -/
theorem IsOpen.opened {o : ℕ} (h : IsOpen ir n o) : ∃ i kind, ir[o]? = some i ∧ i.opens = some kind := by
  obtain ⟨nest, hnest, hmem⟩ := h
  obtain ⟨top, hmem, ho⟩ := List.mem_map.mp hmem
  obtain ⟨j, hj, rfl⟩ := List.mem_iff_getElem.mp hmem
  obtain ⟨-, -, i, kind, hi, hopens, -⟩ := below_of_nestAt hnest (List.getElem?_eq_getElem hj) ho
  exact ⟨i, kind, hi, hopens⟩

/-- A construct that is not open any more is not opened again. -/
theorem IsOpen.of_later {o m : ℕ} (hm : IsOpen ir m o) (hn : o < n) (hle : n ≤ m) : IsOpen ir n o := by
  induction m, hle using Nat.le_induction with
  | base => exact hm
  | succ m hle ih =>
    apply ih
    obtain ⟨nest, hnest, hmem⟩ := hm
    obtain ⟨i, before, -, hbefore, -, hstep⟩ := nestAt_succ hnest
    refine ⟨before, hbefore, ?_⟩
    cases hstep with
    | opener _ =>
      rw [List.map_cons, List.mem_cons] at hmem
      rcases hmem with hmem | hmem
      · have := Option.some.inj hmem
        omega
      · exact hmem
    | closer _ hbefore _ =>
      subst hbefore
      exact List.mem_cons_of_mem _ hmem
    | else_ _ hbefore _ | catch_ _ hbefore _ =>
      subst hbefore
      exact hmem
    | flat _ => exact hmem

/-- The instruction at a position closes the construct opened at `o`. -/
def ClosesAt (ir : List Instr) (e o : ℕ) : Prop :=
  topAt ir e = some o ∧ ∃ i, ir[e]? = some i ∧ i.closes = true

/-- Once it is closed, what was open before it is open again. -/
theorem ClosesAt.nestAt_succ_eq {e o : ℕ} (h : ClosesAt ir e o) (hnest : nestAt ir (e + 1) = some nest) :
    nestAt ir o = some nest := by
  obtain ⟨htop, i, hi, hcloses⟩ := h
  obtain ⟨top, rest, htop, ho⟩ := topAt_eq_some.mp htop
  obtain ⟨i', before, hi', hbefore, -, hstep⟩ := nestAt_succ hnest
  obtain rfl := Option.some.inj (hi.symm.trans hi')
  obtain rfl := Option.some.inj (htop.symm.trans hbefore)
  have hbelow := (below_of_nestAt (j := 0) htop rfl ho).2.1
  cases hstep with
  | closer _ heq _ =>
    obtain ⟨rfl, rfl⟩ := List.cons.inj heq
    exact hbelow
  | opener h => cases i <;> cases hcloses <;> cases h
  | else_ h _ _ =>
    subst h
    cases hcloses
  | catch_ h _ _ => cases i <;> cases hcloses <;> cases h
  | flat h => cases i <;> cases hcloses <;> cases h

/-- A construct is not open once it is closed. -/
theorem ClosesAt.le_of_isOpen {e o : ℕ} (h : ClosesAt ir e o) {m : ℕ} (hm : IsOpen ir m o) : m ≤ e := by
  by_contra hlt
  have hopen := hm.of_later (n := e + 1) (by have := (isOpen_of_topAt h.1).lt; omega) (by omega)
  obtain ⟨nest, hnest, hmem⟩ := hopen
  have hbelow : IsOpen ir o o := ⟨nest, h.nestAt_succ_eq hnest, hmem⟩
  exact absurd hbelow.lt (lt_irrefl o)

/-- A construct is closed at one position. -/
theorem ClosesAt.unique {e e' o : ℕ} (h : ClosesAt ir e o) (h' : ClosesAt ir e' o) : e = e' :=
  le_antisymm (h'.le_of_isOpen (isOpen_of_topAt h.1)) (h.le_of_isOpen (isOpen_of_topAt h'.1))

/-- Nothing is open below the function, and it has no other parts. -/
theorem function_of_nestAt (h : nestAt ir n = some nest) {j : ℕ} {top : Open} (htop : nest[j]? = some top)
    (ho : top.opener = none) : top.kind = .block ∧ nest.length = j + 1 := by
  induction n generalizing nest j top with
  | zero =>
    obtain rfl := Option.some.inj h
    cases j with
    | zero =>
      obtain rfl := Option.some.inj htop
      exact ⟨rfl, rfl⟩
    | succ j => cases htop
  | succ n ih =>
    obtain ⟨i, before, -, hbefore, -, hstep⟩ := nestAt_succ h
    cases hstep with
    | opener _ =>
      cases j with
      | zero =>
        obtain rfl := Option.some.inj htop
        cases ho
      | succ j => exact ⟨(ih hbefore htop ho).1, congrArg (· + 1) (ih hbefore htop ho).2⟩
    | closer _ heq _ =>
      subst heq
      obtain ⟨hkind, hlen⟩ := ih (j := j + 1) hbefore htop ho
      exact ⟨hkind, Nat.succ.inj hlen⟩
    | else_ _ heq hkind =>
      subst heq
      cases j with
      | zero =>
        obtain rfl := Option.some.inj htop
        rw [(ih (j := 0) hbefore rfl ho).1] at hkind
        cases hkind
      | succ j => exact ih (j := j + 1) hbefore htop ho
    | catch_ _ heq hkind =>
      subst heq
      cases j with
      | zero =>
        obtain rfl := Option.some.inj htop
        rw [(ih (j := 0) hbefore rfl ho).1] at hkind
        rcases hkind with hkind | hkind <;> cases hkind
      | succ j => exact ih (j := j + 1) hbefore htop ho
    | flat _ => exact ih hbefore htop ho

/-- The instruction at a position begins the next part of the construct opened at `o`. -/
def Continues (ir : List Instr) (p o : ℕ) : Prop :=
  topAt ir p = some o ∧ ∃ i, ir[p]? = some i ∧ i.continues = true

theorem Continues.lt {p o : ℕ} (h : Continues ir p o) : o < p := (isOpen_of_topAt h.1).lt

/-- Only an `if` has an `else`, and only a legacy `try` has handlers. -/
theorem Continues.opener {p o : ℕ} (h : Continues ir p o) (hnext : nestAt ir (p + 1) = some nest) :
    (ir[p]? = some .else_ ∧ ∃ bt, ir[o]? = some (.if_ bt)) ∨
      (∃ i, ir[p]? = some i ∧ i.isCatch = true) ∧ ∃ bt, ir[o]? = some (.tryLegacy bt) := by
  obtain ⟨htop, i, hi, hcont⟩ := h
  obtain ⟨top, rest, hnest, ho⟩ := topAt_eq_some.mp htop
  obtain ⟨i', before, hi', hbefore, -, hstep⟩ := nestAt_succ hnext
  obtain rfl := Option.some.inj (hi.symm.trans hi')
  obtain rfl := Option.some.inj (hnest.symm.trans hbefore)
  obtain ⟨-, -, io, kind, hio, hopens, hpart⟩ := below_of_nestAt (j := 0) hnest rfl ho
  cases hstep with
  | else_ helse heq hkind =>
    obtain ⟨rfl, -⟩ := List.cons.inj heq
    subst helse
    refine .inl ⟨hi, ?_⟩
    rw [hkind] at hpart
    rcases hpart with rfl | ⟨-, h⟩ | ⟨-, h⟩
    · cases io <;> cases hopens
      exact ⟨_, hio⟩
    · cases h
    · cases h
  | catch_ hcatch heq hkind =>
    obtain ⟨rfl, -⟩ := List.cons.inj heq
    refine .inr ⟨⟨i, hi, hcatch⟩, ?_⟩
    have htry : kind = .tryLegacy := by
      rcases hpart with hpart | ⟨-, hpart⟩ | ⟨hkind', -⟩
      · rcases hkind with hkind | hkind
        · exact hpart.symm.trans hkind
        · rw [hpart] at hkind
          subst hkind
          cases io <;> cases hopens
      · rw [hpart] at hkind
        rcases hkind with hkind | hkind <;> cases hkind
      · exact hkind'
    subst htry
    cases io <;> cases hopens
    exact ⟨_, hio⟩
  | opener h => cases i <;> cases hcont <;> cases h
  | closer h => cases i <;> cases hcont <;> cases h
  | flat h => cases i <;> cases hcont <;> cases h

/-- A construct in its first part, of those that have more, has not been continued. -/
theorem not_continues_of_nestAt (h : nestAt ir n = some nest) {j o p : ℕ} {top : Open}
    (htop : nest[j]? = some top) (ho : top.opener = some o) (hkind : top.kind = .if_ ∨ top.kind = .tryLegacy)
    (hp : p < n) : ¬ Continues ir p o := by
  induction n generalizing nest j top with
  | zero => omega
  | succ n ih =>
    rintro ⟨htopAt, i', hi', hcont⟩
    obtain ⟨i, before, hi, hbefore, -, hstep⟩ := nestAt_succ h
    have hold : ∀ {k : ℕ} {t : Open} (hk : before[k]? = some t) (hto : t.opener = some o)
        (hkt : t.kind = .if_ ∨ t.kind = .tryLegacy), p = n := fun hk hto hkt => by
      by_contra hne
      exact ih hbefore hk hto hkt (by omega) ⟨htopAt, i', hi', hcont⟩
    cases hstep with
    | opener hopens =>
      cases j with
      | zero =>
        obtain rfl := Option.some.inj htop
        obtain rfl := Option.some.inj ho
        have := (isOpen_of_topAt htopAt).lt
        omega
      | succ j =>
        obtain rfl := hold htop ho hkind
        obtain rfl := Option.some.inj (hi.symm.trans hi')
        cases i <;> cases hcont <;> cases hopens
    | closer hcloses heq _ =>
      subst heq
      obtain rfl := hold (k := j + 1) htop ho hkind
      obtain rfl := Option.some.inj (hi.symm.trans hi')
      cases i <;> cases hcont <;> cases hcloses
    | else_ _ heq _ | catch_ _ heq _ =>
      subst heq
      cases j with
      | zero =>
        obtain rfl := Option.some.inj htop
        rcases hkind with hkind | hkind <;> cases hkind
      | succ j =>
        obtain rfl := hold (k := j + 1) htop ho hkind
        -- the construct continued here is the innermost one, and this one is around it
        obtain ⟨t, rest, hnest, hto⟩ := topAt_eq_some.mp htopAt
        obtain ⟨rfl, rfl⟩ := List.cons.inj (Option.some.inj (hbefore.symm.trans hnest))
        have hmem := List.mem_map.mpr ⟨top, List.mem_of_getElem? (i := j) (by simpa using htop), ho⟩
        exact absurd (lt_of_mem_below hbefore hto hmem) (lt_irrefl o)
    | flat hflat =>
      obtain rfl := hold htop ho hkind
      obtain rfl := Option.some.inj (hi.symm.trans hi')
      cases i <;> cases hcont <;> cases hflat

/-- In a well nested body what is opened is closed. -/
theorem IsOpen.exists_closesAt (h : WellNested ir) {o : ℕ} (hopen : IsOpen ir n o) : ∃ e, ClosesAt ir e o := by
  have hle : n ≤ ir.length := by
    obtain ⟨nest, hnest, -⟩ := hopen
    cases n with
    | zero => omega
    | succ n =>
      obtain ⟨i, -, hi, -⟩ := nestAt_succ hnest
      exact (List.getElem?_eq_some_iff.mp hi).1
  induction hk : ir.length - n generalizing n with
  | zero =>
    obtain rfl : n = ir.length := by omega
    obtain ⟨nest, hnest, hmem⟩ := hopen
    obtain rfl := Option.some.inj (hnest.symm.trans h)
    cases hmem
  | succ k ih =>
    obtain ⟨nest, hnest, hmem⟩ := hopen
    obtain ⟨after, hafter⟩ := exists_nestAt_of_le (show n + 1 ≤ ir.length by omega) h
    obtain ⟨i, before, hi, hbefore, -, hstep⟩ := nestAt_succ hafter
    obtain rfl := Option.some.inj (hnest.symm.trans hbefore)
    have hlater : some o ∈ after.map Open.opener → ∃ e, ClosesAt ir e o := fun hmem =>
      ih ⟨after, hafter, hmem⟩ (by omega) (by omega)
    cases hstep with
    | opener _ => exact hlater (List.mem_cons_of_mem _ hmem)
    | closer hcloses heq _ =>
      subst heq
      rw [List.map_cons, List.mem_cons] at hmem
      rcases hmem with ho | hmem
      · exact ⟨n, topAt_eq_some.mpr ⟨_, _, hnest, ho.symm⟩, i, hi, hcloses⟩
      · exact hlater hmem
    | else_ _ heq _ | catch_ _ heq _ =>
      subst heq
      exact hlater hmem
    | flat _ => exact hlater hmem

end Positions

end Wasmrt
