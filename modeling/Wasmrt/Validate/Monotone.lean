import Wasmrt.Validate.Module
import Wasmrt.Validate.Subtyping

/-!
# Validation accepts more with more proposals

Accepted proposals are asked for in two ways. A gate refuses a construct of a proposal that is not
accepted, and so passes more as more are accepted. And the rule of the casting branches is another one
with custom descriptors, two types of one hierarchy in place of a downcast; it admits every downcast,
since a subtype is in the hierarchy of its supertype.

## Main definitions

* `Features.Le`: every proposal of one set is in another.

## Main results

* `simulates_step`: the checker of bodies accepts every instruction it accepted with fewer proposals.
* `validateWithFeatures_mono`: a module that validates does so with more proposals.
-/

namespace Wasmrt

open MonadExcept (ofExcept)

/-- Every proposal of one set is in another. -/
def Features.Le (F F' : Features) : Prop := ∀ ⦃f : Feature⦄, F.has f = true → F'.has f = true

variable {F F' : Features}

/-! ## A downcast stays in its hierarchy -/

section Downcasts

variable {ts : TypeSection}

/-- The type of a stated reference type is in the section. -/
theorem inSection_of_refTypeValType {rt : RefType} {v : ValType} (hfit : rt.heap.Fits)
    (h : refTypeValType ts rt = .ok v) : v.InSection ts := by
  obtain ⟨n, heap⟩ := rt
  cases heap with
  | concrete t | exact t =>
    simp only [refTypeValType, Except.bind_eq_ok, orError_eq_ok, Except.pure_eq_ok] at h
    obtain ⟨ct, hct, rfl⟩ := h
    have hindex := ValType.concreteIndex_concreteRef n ct.kind hfit
    show (ts.compTypes[(ValType.concreteRef n ct.kind t).concreteIndex]?).map CompType.kind = some ct.kind
    rw [hindex, hct, Option.map_some]
  | _ =>
    simp only [refTypeValType, TypeSection.refHead, orError, Except.bind_eq_ok,
      Except.pure_eq_ok] at h
    obtain ⟨_, -, rfl⟩ := h
    trivial

/-- The bottom of a hierarchy is in it, and so are the heads of its families. -/
theorem CompKind.top_bottom (k : CompKind) : k.bottom.top = k.head.top :=
  RefHeap.top_eq_of_isSubtypeOf k.bottom_isSubtypeOf_head

/-- A subtype is in the hierarchy of its supertype. -/
theorem top_eq_of_subtypeOf (hts : ts.WellFormed) (hchecked : checkDeclaredSubtyping ts = .ok ())
    {a b : ValType} (ha : a.InSection ts) (hb : b.InSection ts) (h : subtypeOf ts a b = true) :
    a.refHeap.top = b.refHeap.top := by
  cases (subtypeOf_iff_below hts).mp h with
  | numeric _ => rfl
  | head hh _ | ofConcrete hh _ => exact RefHeap.top_eq_of_isSubtypeOf hh
  | @bottom _ _ _ k _ _ => exact k.top_bottom
  | declared hij _ => rw [ValType.refHeap, ValType.refHeap, kind_eq_of_declaredBelow hts hchecked hij ha hb]
  | exact hij _ =>
    rw [ValType.refHeap, ValType.refHeap, kind_eq_of_declaredBelow hts hchecked (.of_key_eq hij) ha hb]

end Downcasts

/-! ## Gates -/

theorem gate_mono (hle : F.Le F') (f : Option Feature) : AcceptedBy (gate f F) (gate f F') := by
  intro u h
  rw [gate_eq_ok] at h ⊢
  exact fun x hx => hle (h x hx)

theorem gateValType_mono (hle : F.Le F') (v : ValType) :
    AcceptedBy (gateValType v F) (gateValType v F') :=
  gate_mono hle _

theorem gateInstr_mono (hle : F.Le F') (i : Instr) : AcceptedBy (gateInstr i F) (gateInstr i F') := by
  refine (gate_mono hle _).bind fun _ _ => ?_
  cases i with
  | simd s => exact gate_mono hle _
  | _ => exact .refl _

/-- The set of all proposals is the largest. -/
theorem Features.eq_all_of_le (hle : Features.all.Le F) : F = .all := by
  obtain ⟨⟩ := F
  simp only [all, const, mk.injEq]
  have h := fun f => hle (has_all f)
  exact ⟨h .signExtension, h .saturatingFloatToInt, h .multiValue, h .referenceTypes, h .bulkMemory,
    h .extendedConst, h .simd, h .relaxedSimd, h .threads, h .multiMemory, h .memory64,
    h .functionReferences, h .gc, h .exceptions, h .tailCall, h .wideArithmetic, h .customPageSizes,
    h .customDescriptors⟩

/-! ## Function bodies -/

section Bodies

variable (cx : FuncContext)

/-- The checker with other proposals accepted. -/
def FuncContext.withFeatures (F : Features) : FuncContext := { cx with features := F }

variable {cx}

theorem resolveValueType_mono (hle : cx.features.Le F') (bt : BlockType) :
    AcceptedBy (resolveValueType cx bt) (resolveValueType (cx.withFeatures F') bt) := by
  cases bt <;>
    exact (AcceptedBy.refl _).bind fun t _ => (gateValType_mono hle t).bind fun _ _ => .refl _

theorem blockSig_mono (hle : cx.features.Le F') (bt : BlockType) :
    AcceptedBy (blockSig cx bt) (blockSig (cx.withFeatures F') bt) := by
  cases bt with
  | empty => exact .refl _
  | typeIndex i =>
    refine (AcceptedBy.refl _).bind fun ft _ => ?_
    by_cases hmulti : (!ft.params.isEmpty || 1 < ft.results.length) = true
    · simp only [hmulti, if_true]
      exact (gate_mono hle _).bind fun _ _ => .refl _
    · simp only [hmulti]
      exact .refl _
  | _ => exact (resolveValueType_mono hle _).bind fun _ _ => .refl _

theorem simulates_openBlock (hle : cx.features.Le F') (kind : FrameKind) (bt : BlockType) :
    Simulates Eq Eq (openBlock cx kind bt) (openBlock (cx.withFeatures F') kind bt) := by
  refine (Simulates.ofExcept (blockSig_mono hle bt)).bind ?_
  rintro s _ rfl
  exact .refl _

theorem simulates_tryTable (hle : cx.features.Le F') (bt : BlockType) (catches : List Catch) :
    Simulates Eq Eq (tryTable cx bt catches) (tryTable (cx.withFeatures F') bt catches) := by
  refine (Simulates.ofExcept (blockSig_mono hle bt)).bind ?_
  rintro s _ rfl
  exact .refl _

theorem simulates_selectT (hle : cx.features.Le F') (types : List BlockType) :
    Simulates Eq Eq (selectT cx types) (selectT (cx.withFeatures F') types) := by
  match types with
  | [bt] =>
    refine (Simulates.ofExcept (resolveValueType_mono hle bt)).bind ?_
    rintro t _ rfl
    exact .refl _
  | [] | _ :: _ :: _ => exact .refl _

/-- A downcast is a cast between two types of one hierarchy. -/
theorem simulates_brOnCast (hle : cx.features.Le F') (hts : cx.module.toTypeSection.WellFormed)
    (hchecked : checkDeclaredSubtyping cx.module.toTypeSection = .ok ()) (onMatch desc : Bool)
    (label : ℕ) {src dst : RefType} (hsrc : src.heap.Fits) (hdst : dst.heap.Fits) :
    Simulates Eq Eq (brOnCast cx onMatch desc label src dst)
      (brOnCast (cx.withFeatures F') onMatch desc label src dst) := by
  cases desc with
  | true =>
    -- the branches that compare descriptors have the relaxed rule always
    simp only [brOnCast, Bool.or_true]
    exact .refl _
  | false =>
    refine (Simulates.ofExcept_passed fun _ h => h).bind ?_
    rintro s _ ⟨rfl, hs⟩
    refine (Simulates.ofExcept_passed fun _ h => h).bind ?_
    rintro d _ ⟨rfl, hd⟩
    refine Simulates.bind (Simulates.ofExcept fun _ h => ?_) fun _ _ _ => .refl _
    rw [ensure_eq_ok, Bool.or_false] at h ⊢
    cases hF : cx.features.has .customDescriptors with
    | true => 
      rw [hF] at h
      show (if F'.has .customDescriptors = true then _ else _) = true
      rwa [hle hF]
    | false =>
      rw [hF] at h
      have htop := top_eq_of_subtypeOf hts hchecked (inSection_of_refTypeValType hdst hd)
        (inSection_of_refTypeValType hsrc hs) h
      split
      · rw [beq_iff_eq]
        exact htop
      · exact h

theorem simulates_stepInstr (hle : cx.features.Le F') (hts : cx.module.toTypeSection.WellFormed)
    (hchecked : checkDeclaredSubtyping cx.module.toTypeSection = .ok ()) {i : Instr}
    (hfits : ∀ rt ∈ i.castTypes, rt.heap.Fits) :
    Simulates Eq Eq (stepInstr cx i) (stepInstr (cx.withFeatures F') i) := by
  cases i with
  | block bt | loop bt | tryLegacy bt => exact simulates_openBlock hle _ bt
  | if_ bt =>
    refine Simulates.bind (.refl _) ?_
    rintro _ _ rfl
    exact simulates_openBlock hle .if_ bt
  | tryTable bt catches => exact simulates_tryTable hle bt catches
  | selectT types => exact simulates_selectT hle types
  | refNull ht =>
    refine Simulates.bind (.refl _) ?_
    rintro t _ rfl
    refine (Simulates.ofExcept (gateValType_mono hle t)).bind ?_
    rintro _ _ rfl
    exact .refl _
  | brOnCast label src dst =>
    exact simulates_brOnCast hle hts hchecked true false label (hfits src (by simp [Instr.castTypes]))
      (hfits dst (by simp [Instr.castTypes]))
  | brOnCastFail label src dst =>
    exact simulates_brOnCast hle hts hchecked false false label
      (hfits src (by simp [Instr.castTypes])) (hfits dst (by simp [Instr.castTypes]))
  | brOnCastDescEq label src dst =>
    exact simulates_brOnCast hle hts hchecked true true label (hfits src (by simp [Instr.castTypes]))
      (hfits dst (by simp [Instr.castTypes]))
  | brOnCastDescEqFail label src dst =>
    exact simulates_brOnCast hle hts hchecked false true label
      (hfits src (by simp [Instr.castTypes])) (hfits dst (by simp [Instr.castTypes]))
  | _ => exact .refl _

/-- The checker of bodies accepts every instruction it accepted with fewer proposals. -/
theorem simulates_step (hle : cx.features.Le F') (hts : cx.module.toTypeSection.WellFormed)
    (hchecked : checkDeclaredSubtyping cx.module.toTypeSection = .ok ()) {i : Instr}
    (hfits : ∀ rt ∈ i.castTypes, rt.heap.Fits) :
    Simulates Eq Eq (step cx i) (step (cx.withFeatures F') i) := by
  have hrest := simulates_stepInstr hle hts hchecked hfits
  refine Simulates.bind (.refl _) ?_
  rintro s _ rfl
  refine Simulates.bind (.refl _) ?_
  rintro _ _ rfl
  by_cases hall : cx.features = .all
  · -- nothing is gated on either side
    have hall' : (cx.withFeatures F').features = .all := Features.eq_all_of_le (hall ▸ hle)
    rw [if_neg (not_not.mpr hall), if_neg (not_not.mpr hall')]
    exact hrest
  · rw [if_pos hall]
    by_cases hall' : (cx.withFeatures F').features = .all
    · rw [if_neg (not_not.mpr hall')]
      exact .of_check fun _ _ => hrest
    · rw [if_pos hall']
      exact (Simulates.ofExcept (gateInstr_mono hle i)).bind fun _ _ _ => hrest

end Bodies

/-- A body is accepted with more proposals. -/
theorem validateFunction_mono (hle : F.Le F') {m : Module} (hts : m.toTypeSection.WellFormed)
    (hchecked : checkDeclaredSubtyping m.toTypeSection = .ok ()) (ft : FuncType) {code : Code}
    (hfits : ∀ i ∈ code.ir, ∀ rt ∈ i.castTypes, rt.heap.Fits) (refs : Option (List Bool)) :
    AcceptedBy (validateFunction m ft code refs F) (validateFunction m ft code refs F') := by
  rw [validateFunction_eq, validateFunction_eq]
  refine (AcceptedBy.refl _).bind fun _ _ => ?_
  refine AcceptedBy.bind (.forM fun l _ => gateValType_mono hle l.ty) fun _ _ => ?_
  have hstep : ∀ i ∈ code.ir, Simulates Eq Eq (step (bodyContext m ft code refs F) i)
      (step ((bodyContext m ft code refs F).withFeatures F') i) := fun i hi =>
    simulates_step hle hts hchecked (hfits i hi)
  have hsim : Simulates Eq Eq (checkBody (bodyContext m ft code refs F) code.ir)
      (checkBody (bodyContext m ft code refs F') code.ir) := by
    refine Simulates.bind (.refl _) fun _ _ _ => ?_
    exact Simulates.bind (.forM hstep) fun _ _ _ => .refl _
  intro _ h
  split at h
  · next hbody => rw [hsim.eq_ok hbody, h]
  · cases h

/-! ## Constant expressions -/

section ConstExprs

variable {cc : ConstContext}

/-- The checker with other proposals accepted. -/
def ConstContext.withFeatures (cc : ConstContext) (F : Features) : ConstContext :=
  { cc with features := F }

/-- A gate before a check that reads no proposals. -/
theorem simulates_constGate (hle : cc.features.Le F') (f : Option Feature) {α : Type}
    {x y : ConstCheck α} (h : Simulates Eq Eq x y) :
    Simulates Eq Eq (ofExcept (gate f cc.features) >>= fun _ => x)
      (ofExcept (gate f F') >>= fun _ => y) :=
  (Simulates.ofExcept (gate_mono hle f)).bind fun _ _ _ => h

theorem simulates_constStep (hle : cc.features.Le F') (i : Instr) :
    Simulates Eq Eq (constStep cc i) (constStep (cc.withFeatures F') i) := by
  cases i with
  | refNull ht =>
    refine simulates_constGate hle _ ?_
    refine Simulates.bind (.refl _) ?_
    rintro t _ rfl
    exact (Simulates.ofExcept (gateValType_mono hle t)).bind fun _ _ _ => .refl _
  | refFunc _ | structNew _ | structNewDefault _ | structNewDesc _ | structNewDefaultDesc _ | arrayNew _
  | arrayNewDefault _ | arrayNewFixed _ _ | anyConvertExtern | externConvertAny | refI31 | simd _ =>
    exact simulates_constGate hle _ (.refl _)
  | iBin w op =>
    cases op with
    | add | sub | mul => exact simulates_constGate hle _ (.refl _)
    | _ => exact .refl _
  | _ => first | exact .refl _ | exact simulates_constGate hle _ (.refl _)

end ConstExprs

/-- A constant expression is accepted with more proposals. -/
theorem validateConstExpr_mono (hle : F.Le F') (m : Module) (expr : ConstExpr) (byteLen : ℕ)
    (expected : ValType) (selfIndex : ℕ) (refs : Option (List Bool)) :
    AcceptedBy (validateConstExpr m expr byteLen expected selfIndex refs F)
      (validateConstExpr m expr byteLen expected selfIndex refs F') := by
  let cc : ConstContext := ⟨m, F, selfIndex, byteLen⟩
  have hstep : ∀ i, Simulates Eq Eq (constStep cc i) (constStep (cc.withFeatures F') i) :=
    simulates_constStep hle
  have hsim : Simulates Eq Eq (expr.forM (constStep cc)) (expr.forM (constStep (cc.withFeatures F'))) :=
    .forM fun i _ => hstep i
  intro _ h
  unfold validateConstExpr at h ⊢
  split at h
  · next hrun =>
    rw [show ConstContext.mk m F' selfIndex byteLen = cc.withFeatures F' from rfl, hsim.eq_ok hrun]
    exact h
  · cases h

/-! ## Declarations -/

/-- A gate that a condition guards, before further checks. -/
theorem gate_guarded_mono (hle : F.Le F') {P : Prop} {inst : Decidable P} (f : Option Feature)
    {α : Type} {x x' : ValidateResult α} (h : AcceptedBy x x') :
    AcceptedBy (if P then gate f F >>= fun _ => x else x) (if P then gate f F' >>= fun _ => x' else x') :=
  .ite ((gate_mono hle f).bind fun _ _ => h) h

/-- A gate that a condition guards, the last of the checks. -/
theorem gate_last_mono (hle : F.Le F') {P : Prop} {inst : Decidable P} (f : Option Feature) :
    AcceptedBy (if P then gate f F else pure ()) (if P then gate f F' else pure ()) :=
  .ite (gate_mono hle f) (.refl _)

theorem gateCompType_mono (hle : F.Le F') (ct : CompType) :
    AcceptedBy (gateCompType ct F) (gateCompType ct F') := by
  have htypes : AcceptedBy (ct.valTypes.forM fun t => gateValType t F)
      (ct.valTypes.forM fun t => gateValType t F') := .forM fun t _ => gateValType_mono hle t
  cases ct with
  | func ft => exact gate_guarded_mono hle _ htypes
  | struct _ | array _ => exact (gate_mono hle _).bind fun _ _ => htypes

theorem gateMemoryType_mono (hle : F.Le F') (mt : MemoryType) :
    AcceptedBy (gateMemoryType mt F) (gateMemoryType mt F') :=
  gate_guarded_mono hle _ (gate_guarded_mono hle _ (gate_last_mono hle _))

theorem gateTableType_mono (hle : F.Le F') (tt : TableType) :
    AcceptedBy (gateTableType tt F) (gateTableType tt F') :=
  (gate_mono hle _).bind fun _ _ => gate_guarded_mono hle _ (gate_last_mono hle _)

theorem gateElement_mono (hle : F.Le F') (elem : Element) :
    AcceptedBy (gateElement elem F) (gateElement elem F') :=
  gate_guarded_mono hle _ (gate_guarded_mono hle _ (gate_mono hle _))

theorem checkModuleFeatures_mono (hle : F.Le F') (m : Module) :
    AcceptedBy (checkModuleFeatures m F) (checkModuleFeatures m F') := by
  unfold checkModuleFeatures
  by_cases hall' : F' = .all
  · rw [if_pos hall']
    exact fun _ _ => rfl
  have hall : F ≠ .all := fun h => hall' (Features.eq_all_of_le (h ▸ hle))
  rw [if_neg hall, if_neg hall']
  refine AcceptedBy.bind (.forM fun p _ => gate_guarded_mono hle _ (gateCompType_mono hle p.1))
    fun _ _ => gate_guarded_mono hle _ ?_
  refine AcceptedBy.bind (.forM fun mt _ => gateMemoryType_mono hle mt) fun _ _ =>
    gate_guarded_mono hle _ (gate_guarded_mono hle _ (gate_guarded_mono hle _ ?_))
  refine AcceptedBy.bind (.forM fun tt _ => gateTableType_mono hle tt) fun _ _ => ?_
  refine AcceptedBy.bind (.forM fun g _ => gateValType_mono hle g.content) fun _ _ =>
    gate_guarded_mono hle _ ?_
  refine AcceptedBy.bind (.forM fun imp _ => gate_last_mono hle _) fun _ _ => ?_
  refine AcceptedBy.bind (.forM fun seg _ => gate_last_mono hle _) fun _ _ => ?_
  exact .forM fun elem _ => gateElement_mono hle elem

section Declarations

variable (m : Module) (exprLen : ConstExpr → ℕ)

theorem validateDeclaring_mono (hle : F.Le F') (expected : ValType) (selfIndex : ℕ) (refs : List Bool)
    (expr : ConstExpr) :
    AcceptedBy (validateDeclaring m exprLen F expected selfIndex refs expr)
      (validateDeclaring m exprLen F' expected selfIndex refs expr) :=
  (validateConstExpr_mono hle ..).bind fun _ _ => .refl _

theorem validateOffset_mono (hle : F.Le F') (is64 : Bool) (expr : ConstExpr) :
    AcceptedBy (validateOffset m exprLen F is64 expr) (validateOffset m exprLen F' is64 expr) :=
  (validateConstExpr_mono hle ..).bind fun _ _ => .refl _

theorem validateElement_mono (hle : F.Le F') (refs : List Bool) (elem : Element) :
    AcceptedBy (validateElement m exprLen F refs elem) (validateElement m exprLen F' refs elem) := by
  refine (AcceptedBy.refl _).bind fun _ _ => ?_
  refine AcceptedBy.bind (.foldlM (fun refs expr => validateDeclaring_mono m exprLen hle _ _ refs expr)
    _ _) fun refs' _ => ?_
  refine .ite ?_ (.refl _)
  refine (AcceptedBy.refl _).bind fun _ _ => ?_
  refine (AcceptedBy.refl _).bind fun _ _ => ?_
  exact (validateOffset_mono m exprLen hle _ _).bind fun _ _ => .refl _

theorem validateData_mono (hle : F.Le F') (seg : DataSegment) :
    AcceptedBy (validateData m exprLen F seg) (validateData m exprLen F' seg) :=
  .ite ((AcceptedBy.refl _).bind fun _ _ => validateOffset_mono m exprLen hle _ _) (.refl _)

theorem validateTable_mono (hle : F.Le F') (refs : List Bool) (tt : TableType) :
    AcceptedBy (validateTable m exprLen F refs tt) (validateTable m exprLen F' refs tt) := by
  refine (AcceptedBy.refl _).bind fun _ _ => ?_
  refine (AcceptedBy.refl _).bind fun _ _ => ?_
  refine (AcceptedBy.refl _).bind fun _ _ => ?_
  split
  · exact validateDeclaring_mono m exprLen hle _ _ _ _
  · exact .refl _

theorem validateDeclarations_mono (hle : F.Le F') :
    AcceptedBy (validateDeclarations m exprLen F) (validateDeclarations m exprLen F') := by
  have hglobal : ∀ refs entry, AcceptedBy (validateGlobalInit m exprLen F refs entry)
      (validateGlobalInit m exprLen F' refs entry) := fun refs entry =>
    (AcceptedBy.refl _).bind fun g _ => validateDeclaring_mono m exprLen hle _ _ _ _
  refine (AcceptedBy.foldlM hglobal _ _).bind fun refs _ => ?_
  refine (AcceptedBy.foldlM (validateElement_mono m exprLen hle) _ _).bind fun refs _ => ?_
  refine AcceptedBy.bind (.forM fun seg _ => validateData_mono m exprLen hle seg) fun _ _ => ?_
  refine (AcceptedBy.refl _).bind fun _ _ => ?_
  exact (AcceptedBy.foldlM (validateTable_mono m exprLen hle) _ _).bind fun _ _ => .refl _

end Declarations

/-- A decoded module that validates does so with more proposals. -/
theorem validateWithFeatures_mono {m : Module} (hm : m.Decoded) (exprLen : ConstExpr → ℕ)
    (hle : F.Le F') (h : validateWithFeatures m exprLen F = .ok ()) :
    validateWithFeatures m exprLen F' = .ok () := by
  suffices hacc : AcceptedBy (validateWithFeatures m exprLen F) (validateWithFeatures m exprLen F') from
    hacc h
  refine (AcceptedBy.refl _).bind fun _ _ => ?_
  refine (checkModuleFeatures_mono hle m).bind fun _ _ => ?_
  refine (AcceptedBy.refl _).bind fun _ hscope => ?_
  refine (AcceptedBy.refl _).bind fun _ hlinks => ?_
  refine (AcceptedBy.refl _).bind fun _ hchecked => ?_
  refine (validateDeclarations_mono m exprLen hle).bind fun refs _ => ?_
  refine .forM fun entry hentry => (AcceptedBy.refl _).bind fun ft _ => ?_
  exact validateFunction_mono hle (hm.wellFormed hscope hlinks) hchecked ft
    (hm.fits _ (List.of_mem_zip hentry).2) _

/-- The types of a function from a reference, and of a block that leaves a struct. -/
def fromAnyref : TypeSection := decoded [[⟨true, none, {}, .func [.ref true .any] []⟩]]

/-- A function that branches where its argument is a struct. -/
def downcasts : Module :=
  { fromAnyref with
    functions := [0]
    code := [⟨[], [.block (.value (.ref .struct true)), .localGet 0,
      .brOnCast 0 ⟨true, .any⟩ ⟨true, .struct⟩, .unreachable, .end_, .drop, .end_]⟩] }

theorem decoded_downcasts : downcasts.Decoded where
  types := ⟨[[⟨true, none, {}, .func [.ref true .any] []⟩]], by decide, by decide, rfl⟩
  fits := by simp [downcasts, Instr.castTypes, HeapType.Fits]

/-- Its downcast validates as a cast within a hierarchy. -/
theorem validate_downcasts :
    validateWithFeatures downcasts List.length .standard = .ok () ∧
      validateWithFeatures downcasts List.length .all = .ok () :=
  ⟨by decide, validateWithFeatures_mono (F := .standard) decoded_downcasts _
    (fun f _ => Features.has_all f) (by decide)⟩

end Wasmrt
