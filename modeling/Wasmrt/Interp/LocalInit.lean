import Wasmrt.Interp.Locals
import Wasmrt.Validate.Nested

/-!
# Locals are set before they are read

The checker keeps one vector of the locals that are initialised, and goes back to what it was at the opener of
a construct when this ends or goes on to its next part. On every path to a position each local of the vector
there has been initialised from the beginning or set on the path. So a declared local without a default is set
before it is read, and what the interpreter reads is what the local was last set to.

## Main definitions

* `SetAlong`: the locals of a vector have been set on a path.
* `InitSound`: they have, at a position and at the openers of the constructs around it.
* `Env.Accepted`: the bodies of the instances are those of modules that are accepted.

## Main results

* `Takes.initSound`: so it is on every path.
* `locals_set_before_read`: reads on paths, and in runs.
-/

namespace Wasmrt

/-! ## Paths -/

/-- Every local of a vector was initialised at the beginning, or has been set at one of the positions. -/
def SetAlong (ir : List Instr) (start : List Bool) (ps : List ℕ) (locals : List Bool) : Prop :=
  ∀ y : ℕ, locals[y]? = some true → start[y]? = some true ∨ ∃ p ∈ ps, (ir[p]?).bind Instr.sets = some y

theorem SetAlong.cons {ir : List Instr} {start locals : List Bool} {ps : List ℕ} (h : SetAlong ir start ps locals)
    (p : ℕ) : SetAlong ir start (p :: ps) locals := fun y hy =>
  (h y hy).imp_right fun ⟨q, hq, hsets⟩ => ⟨q, List.mem_cons_of_mem _ hq, hsets⟩

/-- The vector at a position and those at the openers of the constructs around it have been set on a path. At
an `end` the vector before it does not count any more. -/
structure InitSound (cx : FuncContext) (ir : List Instr) (s : FuncValidator) (ps : List ℕ) (pc : ℕ) : Prop where
  here : ∀ i, ir[pc]? = some i → i.closes = false → SetAlong ir s.localInit ps (initAt cx ir s (some pc))
  around : ∃ nest, nestAt ir pc = some nest ∧ ∀ o ∈ nest, SetAlong ir s.localInit ps (initAt cx ir s o.opener)

namespace Takes

variable {cx : FuncContext} {ir : List Instr} {s : FuncValidator} {n : ℕ} {i : Instr} {nest : List Open}

/-- The vector after an instruction. -/
theorem initAt_succ (hs : Takes cx ir s) (hnest : nestAt ir n = some nest) (hi : ir[n]? = some i) :
    initAt cx ir s (some (n + 1)) = nextInit (initAt cx ir s) nest i (initAt cx ir s (some n)) := by
  have hlt : n < ir.length := (List.getElem?_eq_some_iff.mp hi).1
  obtain ⟨t, ht, -⟩ := hs.exists_checkerAt (show n + 1 ≤ ir.length from hlt)
  rw [← hs.localInit_succ ht hnest hi, initAt, ht]
  rfl

/-- When a construct ends or goes on to its next part the vector is the one at its opener. -/
theorem initAt_succ_of_part {top : Open} {rest : List Open} (hs : Takes cx ir s)
    (hnest : nestAt ir n = some (top :: rest)) (hi : ir[n]? = some i) (hpart : (i.closes || i.continues) = true) :
    initAt cx ir s (some (n + 1)) = initAt cx ir s top.opener := by
  rw [hs.initAt_succ hnest hi, nextInit, hpart]
  cases i <;> cases hpart <;> rfl

variable {ps : List ℕ}

/-- Inside a construct. -/
theorem initSound_of_opens (hs : Takes cx ir s) {kind : FrameKind} (hi : ir[n]? = some i) (hopens : i.opens = some kind)
    (hnest : nestAt ir n = some nest) (hhere : SetAlong ir s.localInit ps (initAt cx ir s (some n)))
    (haround : ∀ o ∈ nest, SetAlong ir s.localInit ps (initAt cx ir s o.opener)) :
    InitSound cx ir s ps (n + 1) where
  here _ _ _ := by
    rw [hs.initAt_succ hnest hi]
    cases i <;> cases hopens <;> exact hhere
  around := by
    obtain ⟨nest', hnest', hne⟩ := hs.wellNested.exists_nestAt (List.getElem?_eq_some_iff.mp hi).1
    obtain rfl := Option.some.inj (hnest.symm.trans hnest')
    refine ⟨_, nestAt_succ_of_opens hnest hne hi hopens, ?_⟩
    rw [List.forall_mem_cons]
    exact ⟨hhere, haround⟩

/-- After the end of a construct, or in its next part. -/
theorem initSound_of_part {top : Open} {rest : List Open} (hs : Takes cx ir s)
    (hnest : nestAt ir n = some (top :: rest)) (hi : ir[n]? = some i) (hpart : (i.closes || i.continues) = true)
    (htop : SetAlong ir s.localInit ps (initAt cx ir s top.opener))
    (hrest : ∀ o ∈ rest, SetAlong ir s.localInit ps (initAt cx ir s o.opener)) : InitSound cx ir s ps (n + 1) where
  here _ _ _ := by
    rw [hs.initAt_succ_of_part hnest hi hpart]
    exact htop
  around := by
    have hlt : n < ir.length := (List.getElem?_eq_some_iff.mp hi).1
    obtain ⟨after, hafter⟩ := exists_nestAt_of_le (show n + 1 ≤ ir.length from hlt) hs.wellNested
    refine ⟨after, hafter, ?_⟩
    obtain ⟨i', before, hi', hbefore, -, hstep⟩ := nestAt_succ hafter
    obtain rfl := Option.some.inj (hi.symm.trans hi')
    obtain rfl := Option.some.inj (hnest.symm.trans hbefore)
    cases hstep with
    | closer _ heq _ =>
      obtain ⟨rfl, rfl⟩ := List.cons.inj heq
      exact hrest
    | else_ _ heq _ | catch_ _ heq _ =>
      obtain ⟨rfl, rfl⟩ := List.cons.inj heq
      rw [List.forall_mem_cons]
      exact ⟨htop, hrest⟩
    | opener h => cases i <;> cases hpart <;> cases h
    | flat h => cases i <;> cases hpart <;> cases h

/-- At the end of a construct. -/
theorem initSound_of_closesAt {e o : ℕ} (he : ClosesAt ir e o) (hnest : nestAt ir o = some nest)
    (htop : SetAlong ir s.localInit ps (initAt cx ir s (some o)))
    (haround : ∀ o ∈ nest, SetAlong ir s.localInit ps (initAt cx ir s o.opener)) : InitSound cx ir s ps e where
  here i hi hnot := by
    obtain ⟨i', hi', hcloses⟩ := he.2
    obtain rfl := Option.some.inj (hi.symm.trans hi')
    rw [hnot] at hcloses
    cases hcloses
  around := by
    obtain ⟨top, htop', ho⟩ := exists_nestAt_of_topAt he.1 hnest
    refine ⟨_, htop', ?_⟩
    rw [List.forall_mem_cons, ho]
    exact ⟨htop, haround⟩

/-- A position after an instruction that ends or continues a construct open around. -/
theorem initSound_of_topAt (hs : Takes cx ir s) {o : ℕ} (htopAt : topAt ir n = some o) (hi : ir[n]? = some i)
    (hpart : (i.closes || i.continues) = true) (hnest : nestAt ir o = some nest)
    (htop : SetAlong ir s.localInit ps (initAt cx ir s (some o)))
    (haround : ∀ o ∈ nest, SetAlong ir s.localInit ps (initAt cx ir s o.opener)) :
    InitSound cx ir s ps (n + 1) := by
  obtain ⟨top, htop', ho⟩ := exists_nestAt_of_topAt htopAt hnest
  exact hs.initSound_of_part htop' hi hpart (by rwa [ho]) haround

/-- At the end of the body. -/
theorem initSound_length (hs : Takes cx ir s) : InitSound cx ir s ps ir.length where
  here i hi _ := by
    rw [List.getElem?_eq_none le_rfl] at hi
    cases hi
  around := ⟨[], hs.wellNested, nofun⟩

/-- Where a branch to an open construct leads, or an exception that one takes. -/
theorem initSound_of_takesAt (hs : Takes cx ir s) {pc pc' : ℕ} (hnest : nestAt ir pc = some nest)
    (haround : ∀ o ∈ nest, SetAlong ir s.localInit ps (initAt cx ir s o.opener)) (h : TakesAt ir nest pc') :
    InitSound cx ir s ps pc' := by
  have hbelow : ∀ {o : ℕ} {kind : FrameKind}, ⟨some o, kind⟩ ∈ nest → ∃ outer, nestAt ir o = some outer ∧
      ∀ o ∈ outer, SetAlong ir s.localInit ps (initAt cx ir s o.opener) := fun {o kind} hmem => by
    obtain ⟨j, hj, hget⟩ := List.mem_iff_getElem.mp hmem
    have hget : nest[j]? = some ⟨some o, kind⟩ := by rw [List.getElem?_eq_getElem hj, hget]
    obtain ⟨-, houter, -⟩ := below_of_nestAt hnest hget rfl
    exact ⟨_, houter, fun o ho => haround o (List.mem_of_mem_drop ho)⟩
  cases h with
  | branch ho h =>
    cases h with
    | function kind => exact hs.initSound_length
    | loop hi kind =>
      obtain ⟨outer, houter, hrest⟩ := hbelow ho
      exact hs.initSound_of_opens hi rfl houter (haround _ ho) hrest
    | block hi hopens hloop he kind =>
      obtain ⟨outer, houter, hrest⟩ := hbelow ho
      obtain ⟨i, hi, hcloses⟩ := he.2
      exact hs.initSound_of_topAt he.1 hi (by rw [hcloses]; rfl) houter (haround _ ho) hrest
  | handler ho hcatch =>
    obtain ⟨outer, houter, hrest⟩ := hbelow ho
    obtain ⟨htop, i, hi, hcatch⟩ := hcatch
    exact hs.initSound_of_topAt htop hi (by rw [Instr.continues, hcatch, Bool.true_or, Bool.or_true]) houter
      (haround _ ho) hrest

/-- An edge. -/
theorem initSound_step (hs : Takes cx ir s) {pc pc' : ℕ} (h : InitSound cx ir s ps pc) (hedge : Edge ir pc pc') :
    InitSound cx ir s (pc :: ps) pc' := by
  obtain ⟨nest, hnest, haround⟩ := h.around
  replace haround := fun o ho => (haround o ho).cons pc
  have hhere := fun i hi hnot => (h.here i hi hnot).cons pc
  cases hedge with
  | @next i hi hflat =>
    obtain ⟨nest', hnest', hne⟩ := hs.wellNested.exists_nestAt (List.getElem?_eq_some_iff.mp hi).1
    obtain rfl := Option.some.inj (hnest.symm.trans hnest')
    refine ⟨fun _ _ _ => ?_, nest, nestAt_succ_of_flat hnest hne hi hflat, haround⟩
    replace hhere := hhere i hi (by cases i <;> cases hflat <;> rfl)
    rw [hs.initAt_succ hnest hi, nextInit]
    cases hsets : i.sets with
    | none =>
      have hpart : (i.closes || i.continues) = false := by cases i <;> cases hflat <;> rfl
      simp only [hpart]
      exact hhere
    | some z =>
      intro y hy
      by_cases hyz : z = y
      · subst hyz
        exact .inr ⟨pc, List.mem_cons_self, by rw [hi]; exact hsets⟩
      · exact hhere y (by rwa [List.getElem?_set_ne hyz] at hy)
  | return_ _ => exact hs.initSound_length
  | @enter i kind c _ hi hopens hen =>
    replace hhere := hhere i hi (by cases i <;> cases hopens <;> rfl)
    cases hen with
    | inside _ => exact hs.initSound_of_opens hi hopens hnest hhere haround
    | toElse _ _ hp => exact hs.initSound_of_topAt hp.1 hp.2 rfl hnest hhere haround
    | toEnd _ _ _ he => exact initSound_of_closesAt he hnest hhere haround
  | @skip o _ hpart he =>
    obtain ⟨top, rest, hnest', ho⟩ := topAt_eq_some.mp hpart.1
    obtain rfl := Option.some.inj (hnest.symm.trans hnest')
    have hbelow := (below_of_nestAt (j := 0) hnest rfl ho).2.1
    rw [List.forall_mem_cons, ho] at haround
    exact initSound_of_closesAt he hbelow haround.1 haround.2
  | leave hi hcloses =>
    obtain ⟨nest', hnest', hne⟩ := hs.wellNested.exists_nestAt (List.getElem?_eq_some_iff.mp hi).1
    obtain rfl := Option.some.inj (hnest.symm.trans hnest')
    obtain ⟨top, rest, rfl⟩ := List.exists_cons_of_ne_nil hne
    rw [List.forall_mem_cons] at haround
    exact hs.initSound_of_part hnest hi (by rw [hcloses]; rfl) haround.1 haround.2
  | escape hi hflat hnest' h =>
    obtain rfl := Option.some.inj (hnest.symm.trans hnest')
    exact hs.initSound_of_takesAt hnest haround h

/-- On every path the vectors have been set. -/
theorem initSound (hs : Takes cx ir s) {pc : ℕ} (h : Path ir ps pc) : InitSound cx ir s ps pc := by
  induction h with
  | start =>
    refine ⟨fun _ _ _ _ hy => .inl hy, _, rfl, ?_⟩
    rw [List.forall_mem_singleton]
    exact fun _ hy => .inl hy
  | step _ hedge ih => exact hs.initSound_step ih hedge

end Takes

/-! ## Reads -/

/-- What the rule of `local.get` checks. -/
theorem localGet_eq_ok {cx : FuncContext} {y : ℕ} {s s' : FuncValidator} {u : Unit} (h : localGet cx y s = .ok u s') :
    ∃ t, cx.locals[y]? = some t ∧ (t.isNonNullRef = true → s.localInit[y]? = some true) := by
  obtain ⟨t, _, hlocal, h⟩ := estate_bind_eq_ok.mp h
  obtain ⟨ht, rfl⟩ := ofExcept_eq_ok.mp hlocal
  obtain ⟨_, _, hget, h⟩ := estate_bind_eq_ok.mp h
  obtain ⟨rfl, rfl⟩ := estate_get_eq_ok.mp hget
  obtain ⟨_, _, hinit, -⟩ := estate_bind_eq_ok.mp h
  obtain ⟨hinit, -⟩ := ofExcept_eq_ok.mp hinit
  refine ⟨t, orError_eq_ok.mp ht, fun hnonNull => ?_⟩
  rw [ensure_eq_ok, hnonNull] at hinit
  cases hy : s.localInit[y]? with
  | none =>
    rw [hy] at hinit
    cases hinit
  | some b =>
    rw [hy] at hinit
    exact congrArg some hinit

/-- A local without a default that is read has been set on the path, unless it was initialised from the
beginning. -/
theorem Takes.set_of_localGet {cx : FuncContext} {ir : List Instr} {s : FuncValidator} (hs : Takes cx ir s)
    {ps : List ℕ} {pc y : ℕ} (h : Path ir ps pc) (hi : ir[pc]? = some (.localGet y)) {t : ValType}
    (ht : cx.locals[y]? = some t) (hnonNull : t.isNonNullRef = true) (hstart : s.localInit[y]? ≠ some true) :
    ∃ p ∈ ps, (ir[p]?).bind Instr.sets = some y := by
  have hlt : pc < ir.length := (List.getElem?_eq_some_iff.mp hi).1
  obtain ⟨t', ht', -⟩ := hs.exists_checkerAt (show pc + 1 ≤ ir.length from hlt)
  obtain ⟨s', i, v, hs', hi', -, hstep⟩ := checkerAt_succ ht'
  obtain rfl := Option.some.inj (hi.symm.trans hi')
  obtain ⟨t'', ht'', hinit⟩ := localGet_eq_ok hstep
  obtain rfl := Option.some.inj (ht.symm.trans ht'')
  have hhere := (hs.initSound h).here _ hi rfl y
  rw [initAt, hs'] at hhere
  exact (hhere (hinit hnonNull)).resolve_left hstart

/-- A declared local without a default is not initialised at the beginning. -/
theorem initialLocals_of_nonNull {ft : FuncType} {locals : List ValType} {y : ℕ} {t : ValType}
    (hy : ft.params.length ≤ y) (ht : locals[y]? = some t) (hnonNull : t.isNonNullRef = true) :
    (initialLocals ft locals)[y]? ≠ some true := by
  rw [initialLocals, List.getElem?_mapIdx, ht, Option.map_some, hnonNull, decide_eq_false (not_lt.mpr hy)]
  nofun

/-- The instructions that set a local. -/
theorem Instr.sets_eq_some {i : Option Instr} {y : ℕ} (h : i.bind Instr.sets = some y) :
    i = some (.localSet y) ∨ i = some (.localTee y) := by
  obtain ⟨i, rfl, hsets⟩ := Option.bind_eq_some_iff.mp h
  cases i with
  | localSet z =>
    obtain rfl := Option.some.inj hsets
    exact .inl rfl
  | localTee z =>
    obtain rfl := Option.some.inj hsets
    exact .inr rfl
  | _ => cases hsets

/-- A read pushes what the local holds. -/
theorem flow_localGet {ops : Ops} {inst : ℕ} {d : InstanceData} {x : Exec} {code : List InstanceData}
    {frame : CallFrame} {pc y : ℕ} {v : Value} (h : frame.locals[y]? = some v) :
    flow ops inst d x code frame pc (.localGet y) = .ok (.next ((frame.plain x).push v)) := by
  have hexec : execVariable d (frame.plain x) (.localGet y) = .ok ((frame.plain x).push v) := by
    rw [execVariable, show (frame.plain x).locals[y]? = some v from h]
    rfl
  rw [show flow ops inst d x code frame pc (.localGet y) =
    Flow.next <$> execVariable d (frame.plain x) (.localGet y) from rfl, hexec]
  rfl

/-! ## Functions in runs -/

/-- The instances are those of accepted modules, with their functions prepared. -/
def Env.Accepted {W : Type} (env : Env W) : Prop :=
  ∀ d ∈ env.code, (∃ exprLen features, validateWithFeatures d.module exprLen features = .ok ()) ∧
    (d.module.functions.zip d.module.code).mapM (fun e => prepareBody d.module.toTypeSection e.1 e.2) =
      .ok d.funcBodies

/-- The function `func` of an instance has the type `ft` and the code `code`. -/
def InstanceData.Defines (d : InstanceData) (func : ℕ) (ft : FuncType) (code : Code) : Prop :=
  ¬ func < d.module.importedFuncCount ∧ ∃ ti, d.module.functions[func - d.module.importedFuncCount]? = some ti ∧
    d.module.funcSig ti = some ft ∧ d.module.code[func - d.module.importedFuncCount]? = some code

section Runs

variable {W : Type} {env : Env W}

/-- A prepared body of an accepted module is that of a function it accepts. -/
theorem Env.Accepted.body (henv : env.Accepted) {d : InstanceData} (hd : d ∈ env.code) {k : ℕ} {body : FuncBody}
    (hbody : d.funcBodies[k]? = some body) : ∃ ti ft code refs features, d.module.functions[k]? = some ti ∧
      d.module.funcSig ti = some ft ∧ d.module.code[k]? = some code ∧ code.ir = body.ir ∧ ft = body.ty ∧
        validateFunction d.module ft code refs features = .ok () ∧ precomputeControlFlow body.ir = .ok body.cf := by
  obtain ⟨⟨exprLen, features, hvalid⟩, hbodies⟩ := henv d hd
  have hforall := mapM_eq_ok.mp hbodies
  obtain ⟨hk, rfl⟩ := List.getElem?_eq_some_iff.mp hbody
  have hk' : k < (d.module.functions.zip d.module.code).length := by rw [hforall.length_eq]; exact hk
  have hprepared := hforall.get hk' hk
  simp only [List.get_eq_getElem] at hprepared
  set e := (d.module.functions.zip d.module.code)[k] with he
  have hget : (d.module.functions.zip d.module.code)[k]? = some e := List.getElem?_eq_getElem hk'
  obtain ⟨hti, hcode⟩ := List.getElem?_zip_eq_some.mp hget
  simp only [prepareBody, Except.bind_eq_ok, orError_eq_ok, Except.pure_eq_ok] at hprepared
  obtain ⟨ft, hft, cf, hcf, hprepared⟩ := hprepared
  iterate 6 obtain ⟨_, -, hvalid⟩ := Except.bind_eq_ok.mp hvalid
  obtain ⟨ft', hft', hfunction⟩ := Except.bind_eq_ok.mp (forM_eq_ok.mp hvalid e (List.mem_of_getElem? hget))
  obtain rfl := Option.some.inj (hft.symm.trans (orError_eq_ok.mp hft'))
  refine ⟨e.1, ft, e.2, _, features, hti, hft, hcode, by rw [← hprepared], by rw [← hprepared], hfunction, ?_⟩
  rw [← hprepared]
  exact hcf

theorem Env.Accepted.prepared (henv : env.Accepted) : env.Prepared := by
  intro d hd body hbody
  obtain ⟨k, hk⟩ := List.getElem?_of_mem hbody
  obtain ⟨ti, ft, code, refs, features, -, -, -, hir, -, hvalid, hcf⟩ := henv.body hd hk
  obtain ⟨s, hs, -⟩ := takes_of_validateFunction hvalid
  rw [hir] at hs
  exact ⟨hs.wellNested, hcf⟩

/-- An activation runs the body of its function. -/
def Activation.RunsBody (env : Env W) (a : Activation) : Prop :=
  ∃ d, env.code[a.inst]? = some d ∧ ¬ a.func < d.module.importedFuncCount ∧
    d.funcBodies[a.func - d.module.importedFuncCount]? = some a.frame.body

theorem Flow.GoesTo.runsBody {a a' : Activation} {tags : List ℕ} {x : Exec} {fl : Flow} (h : fl.GoesTo a tags x a')
    (ha : a.RunsBody env) : a'.RunsBody env := by
  have hbody := h.body
  obtain ⟨d, hd, hfunc, hget⟩ := ha
  rw [← hbody] at hget
  cases h <;> exact ⟨d, hd, hfunc, hget⟩

theorem Activation.body_invariant (env : Env W) :
    Activation.Invariant env (fun _ a => a.RunsBody env) (fun _ s => s.activation.RunsBody env) where
  start _ _ hcode hbody himport := ⟨_, hcode, himport, hbody⟩
  goesTo ha _ _ _ hgoes := hgoes.runsBody ha
  suspend ha _ _ _ := ha
  returned _ hs := hs
  caught := by
    rintro h s t x x' r ⟨d, hd, hfunc, hget⟩ hcatch
    obtain ⟨exn, -, -, hthrow⟩ := CallFrame.onCallError_eq_ok hcatch
    obtain ⟨hbody, -⟩ := CallFrame.frame_of_throwException hthrow
    rw [← hbody] at hget
    exact ⟨d, hd, hfunc, hget⟩

/-- In a body that is accepted a declared local without a default is set on every path on which it is read. In a
run of accepted modules what is read of such a local is what the activation has last set it to. -/
theorem locals_set_before_read :
    (∀ (m : Module) (ft : FuncType) (code : Code) (refs : Option (List Bool)) (features : Features),
      validateFunction m ft code refs features = .ok () → ∀ (ps : List ℕ) (pc : ℕ), Path code.ir ps pc →
        ∀ (y : ℕ) (t : ValType), code.ir[pc]? = some (.localGet y) → ft.params.length ≤ y →
          (localTypes ft code)[y]? = some t → t.isNonNullRef = true →
            ∃ p ∈ ps, code.ir[p]? = some (.localSet y) ∨ code.ir[p]? = some (.localTee y)) ∧
    ∀ {W : Type} (env : Env W), env.Accepted → ∀ (c : Config W) (hs : List Executed), Config.Traced env c hs →
      ∀ (a : Activation) (d : InstanceData) (ft : FuncType) (code : Code) (y : ℕ) (t : ValType), c.control = .run a →
        env.code[a.inst]? = some d → d.Defines a.func ft code → a.frame.body.ir[a.pc]? = some (.localGet y) →
          ft.params.length ≤ y → (localTypes ft code)[y]? = some t → t.isNonNullRef = true →
            ∃ h rest v, hs = h :: rest ∧ h.lastSet a.frame.body.ir y = some v ∧
              flow env.ops a.inst d c.exec env.code a.frame a.pc (.localGet y) =
                .ok (.next ((a.frame.plain c.exec).push v)) := by
  have hpaths : ∀ (m : Module) (ft : FuncType) (code : Code) (refs : Option (List Bool)) (features : Features),
      validateFunction m ft code refs features = .ok () → ∀ (ps : List ℕ) (pc : ℕ), Path code.ir ps pc →
        ∀ (y : ℕ) (t : ValType), code.ir[pc]? = some (.localGet y) → ft.params.length ≤ y →
          (localTypes ft code)[y]? = some t → t.isNonNullRef = true →
            ∃ p ∈ ps, (code.ir[p]?).bind Instr.sets = some y := by
    intro m ft code refs features hvalid ps pc hpath y t hi hy ht hnonNull
    obtain ⟨s, hs, hstart⟩ := takes_of_validateFunction hvalid
    apply hs.set_of_localGet hpath hi ht hnonNull
    rw [hstart]
    exact initialLocals_of_nonNull hy ht hnonNull
  constructor
  · intro m ft code refs features hvalid ps pc hpath y t hi hy ht hnonNull
    obtain ⟨p, hp, hsets⟩ := hpaths m ft code refs features hvalid ps pc hpath y t hi hy ht hnonNull
    exact ⟨p, hp, Instr.sets_eq_some hsets⟩
  · intro W env henv c hs htraced a d ft code y t hc hd ⟨_, ti, hti, hft, hcode⟩ hi hy ht hnonNull
    obtain ⟨h, rest, rfl, ⟨-, hpath⟩, -⟩ := (Activation.path_invariant henv.prepared).of_run htraced hc
    obtain ⟨_, _, heq, ⟨d', hd', -, hbody⟩, -⟩ := (Activation.body_invariant env).of_run htraced hc
    obtain ⟨_, _, heq', hlocals, -⟩ := (Activation.locals_invariant env).of_run htraced hc
    obtain ⟨rfl, rfl⟩ := List.cons.inj heq'
    obtain rfl := Option.some.inj (hd.symm.trans hd')
    obtain ⟨ti', ft', code', refs, features, hti', hft', hcode', hir, -, hvalid, -⟩ :=
      henv.body (List.mem_of_getElem? hd) hbody
    obtain rfl := Option.some.inj (hti.symm.trans hti')
    obtain rfl := Option.some.inj (hft.symm.trans hft')
    obtain rfl := Option.some.inj (hcode.symm.trans hcode')
    obtain ⟨p, hp, hsets⟩ := hpaths _ _ _ _ _ hvalid _ _ (hir ▸ hpath) y t (hir ▸ hi) hy ht hnonNull
    obtain ⟨v, hv⟩ := Executed.exists_lastSet hp (hir ▸ hsets)
    exact ⟨h, rest, v, rfl, hv, flow_localGet (hlocals y v hv)⟩

end Runs

/-- A body that moves its argument, a reference that is not null, to a local and reads it there. -/
def movesRef : Code where
  locals := [⟨1, .ref .func false⟩]
  ir := [.localGet 0, .localSet 1, .localGet 1, .drop, .end_]

def movesRefType : FuncType := ⟨[.ref .func false], []⟩

def movesRefModule : Module :=
  { decoded [[⟨true, none, {}, .func [.ref false .func] []⟩]] with functions := [0], code := [movesRef] }

def movesRefEnv : Env Unit where
  code := [{
    module := movesRefModule, typeIds := []
    funcBodies := [⟨movesRefType, 2, [1], movesRef.ir, ⟨[0, 0, 0, 0, 0], [5, 5, 5, 5, 5], [none, none, none, none, none]⟩⟩] }]
  ops := .unsupported

theorem accepted_movesRefEnv : movesRefEnv.Accepted := by
  intro d hd
  obtain rfl := List.mem_singleton.mp hd
  exact ⟨⟨List.length, .all, by decide⟩, by decide⟩

/-- The body is called with the reference 7. -/
def movesRefCall : Config Unit where
  control := .call 0 0 [7] 0
  stack := []
  exec := { runLimits := { maxCallDepth := 8, maxExnBoxes := 8, maxIterations := 0, exnBoxes_le := eight_le_usizeMax } }
  world := ()

/-- The body at the read of its local. -/
def movesRefRun : Config Unit := (movesRefCall.runFor movesRefEnv 4).2

theorem traced_movesRefRun : Config.Traced movesRefEnv movesRefRun [[(1, [7]), (0, [])]] := by
  have hcall : Config.Traced movesRefEnv movesRefCall [] := .start 0 0 [7] 0 _ ()
  have hfound : Config.Traced movesRefEnv (movesRefCall.runFor movesRefEnv 1).2 [] := hcall.step rfl
  have hbegun : Config.Traced movesRefEnv (movesRefCall.runFor movesRefEnv 2).2 [[]] := hfound.step rfl
  have hget : Config.Traced movesRefEnv (movesRefCall.runFor movesRefEnv 3).2 [[(0, [])]] := hbegun.step rfl
  exact hget.step rfl

/-- Its local is set before it is read, and it reads the reference. -/
theorem movesRef_set_before_read :
    (∃ p ∈ [1, 0], movesRef.ir[p]? = some (.localSet 1) ∨ movesRef.ir[p]? = some (.localTee 1)) ∧
      ∃ h v, [[(1, [(7 : Value)]), (0, [])]] = [h] ∧ Executed.lastSet movesRef.ir 1 h = some v := by
  have hpath : Path movesRef.ir [1, 0] 2 := (Path.start.step (.next rfl rfl)).step (.next rfl rfl)
  have hvalid : validateFunction movesRefModule movesRefType movesRef none .all = .ok () := by decide
  refine ⟨locals_set_before_read.1 _ _ _ _ _ hvalid _ _ hpath 1 (.ref .func false) rfl le_rfl rfl rfl, ?_⟩
  obtain ⟨h, rest, v, heq, hset, -⟩ := locals_set_before_read.2 movesRefEnv accepted_movesRefEnv _ _ traced_movesRefRun
    _ _ movesRefType movesRef 1 (.ref .func false) rfl rfl ⟨nofun, 0, rfl, rfl, rfl⟩ rfl le_rfl rfl rfl
  obtain ⟨rfl, -⟩ := List.cons.inj heq
  exact ⟨_, v, rfl, hset⟩

end Wasmrt
