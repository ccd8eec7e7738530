import Wasmrt.Cli.HostFlags

/-!
# Runs of host flags

A run of flags ends at the marker `--` or at the first token that cannot be a flag. What is read from it depends on the
run alone, and two runs that are read one after the other add up.

## Main definitions

* `splitRun`, `Scan`: a run of flags with their values, and what is left.
* `Reads`: a run that is read to its end, flag by flag.
* `HostFlags.andThen`: what the flags of a run add to those before them.

## Main results

* `Scan.takeDirFlags_eq`: what follows a run of flags has no part in it.
* `merge_reads`: flags after the path say what they would say before it.
-/

namespace Wasmrt

/-! ## Runs of flags -/

/-- The tokens that no run of flags can end at, and that are no flags either: an unknown flag is refused. -/
def isRefused (guestFollows : Bool) (a : String) : Bool :=
  a ≠ "--" && (startsWith ['-', '-'] a || isFlag a && !guestFollows)

/-- A run of flags with their values, and what is left. -/
def splitRun (guestFollows : Bool) : List String → List String × List String
  | [] => ([], [])
  | a :: rest =>
    match HostFlag.ofToken a with
    | some flag =>
      if flag.takesValue then
        match rest with
        | [] => ([a], [])
        | v :: rest' => (a :: v :: (splitRun guestFollows rest').1, (splitRun guestFollows rest').2)
      else (a :: (splitRun guestFollows rest).1, (splitRun guestFollows rest).2)
    | none =>
      if isRefused guestFollows a then (a :: (splitRun guestFollows rest).1, (splitRun guestFollows rest).2)
      else ([], a :: rest)

/-- The flags of a run. -/
def flagsIn : List String → List HostFlag
  | [] => []
  | a :: rest =>
    match HostFlag.ofToken a with
    | some flag =>
      if flag.takesValue then
        match rest with
        | [] => [flag]
        | _ :: rest' => flag :: flagsIn rest'
      else flag :: flagsIn rest
    | none => flagsIn rest

/-- A token at which a run ends. -/
def EndsRun (guestFollows : Bool) (a : String) : Prop :=
  HostFlag.ofToken a = none ∧ isRefused guestFollows a = false

section Step

variable {guestFollows : Bool} {hf : HostFlags} {flag : HostFlag} {a v : String} {rest : List String}

theorem takeDirFlags_flag (ha : HostFlag.ofToken a = some flag) :
    takeDirFlags guestFollows hf (a :: rest) =
      if flag = .features ∧ guestFollows = true then .error .featuresAfterPath
      else if flag.takesValue = true then
        match rest with
        | [] => .error (.needsValue a)
        | v :: rest' => flag.apply a v hf >>= fun hf' => takeDirFlags guestFollows hf' rest'
      else takeDirFlags guestFollows (flag.set hf) rest := by
  rw [takeDirFlags, ha]
  rfl

theorem takeDirFlags_other (ha : HostFlag.ofToken a = none) :
    takeDirFlags guestFollows hf (a :: rest) =
      if a = "--" then .ok (hf, a :: rest)
      else if startsWith ['-', '-'] a = true then .error (.unknownFlag a true)
      else if (isFlag a && !guestFollows) = true then .error (.unknownFlag a false)
      else .ok (hf, a :: rest) := by
  rw [takeDirFlags, ha]
  rfl

theorem takeDirFlags_bare (ha : HostFlag.ofToken a = some flag) (hvalue : flag.takesValue = false) :
    takeDirFlags guestFollows hf (a :: rest) = takeDirFlags guestFollows (flag.set hf) rest := by
  have hfeatures : flag ≠ .features := fun h => by rw [h] at hvalue; cases hvalue
  rw [takeDirFlags_flag ha, if_neg fun h => hfeatures h.1, hvalue]
  rfl

theorem takeDirFlags_valued (ha : HostFlag.ofToken a = some flag) (hvalue : flag.takesValue = true)
    (hallowed : ¬(flag = .features ∧ guestFollows = true)) :
    takeDirFlags guestFollows hf (a :: v :: rest) =
      flag.apply a v hf >>= fun hf' => takeDirFlags guestFollows hf' rest := by
  rw [takeDirFlags_flag ha, if_neg hallowed, if_pos hvalue]

theorem takeDirFlags_missing (ha : HostFlag.ofToken a = some flag) (hvalue : flag.takesValue = true) :
    ∃ e, ∀ hf, takeDirFlags guestFollows hf [a] = .error e := by
  by_cases hallowed : flag = .features ∧ guestFollows = true
  · exact ⟨.featuresAfterPath, fun hf => by rw [takeDirFlags_flag ha, if_pos hallowed]⟩
  · exact ⟨.needsValue a, fun hf => by rw [takeDirFlags_flag ha, if_neg hallowed, if_pos hvalue]⟩

/-- `--features` is refused after the path, whatever follows. -/
theorem takeDirFlags_features (ha : HostFlag.ofToken a = some .features) :
    takeDirFlags true hf (a :: rest) = .error .featuresAfterPath := by
  rw [takeDirFlags_flag ha, if_pos ⟨rfl, rfl⟩]

/-- An unknown flag is refused, whatever follows. -/
theorem takeDirFlags_refused (ha : HostFlag.ofToken a = none) (hrefused : isRefused guestFollows a = true) :
    ∃ e, ∀ hf rest, takeDirFlags guestFollows hf (a :: rest) = .error e := by
  rw [isRefused, Bool.and_eq_true, decide_eq_true_eq] at hrefused
  by_cases hdashes : startsWith ['-', '-'] a = true
  · refine ⟨.unknownFlag a true, fun hf rest => ?_⟩
    rw [takeDirFlags_other ha, if_neg hrefused.1, if_pos hdashes]
  · refine ⟨.unknownFlag a false, fun hf rest => ?_⟩
    have hflag : (isFlag a && !guestFollows) = true := by simpa [hdashes] using hrefused.2
    rw [takeDirFlags_other ha, if_neg hrefused.1, if_neg hdashes, if_pos hflag]

theorem takeDirFlags_end (ha : EndsRun guestFollows a) :
    takeDirFlags guestFollows hf (a :: rest) = .ok (hf, a :: rest) := by
  obtain ⟨htoken, hrefused⟩ := ha
  rw [takeDirFlags_other htoken]
  by_cases hmarker : a = "--"
  · exact if_pos hmarker
  · rw [isRefused, decide_eq_true hmarker, Bool.true_and, Bool.or_eq_false_iff] at hrefused
    simp only [hmarker, if_false, hrefused]
    rfl

end Step

/-! ### What a run reads -/

/-- How arguments fall into a run of flags and what is left. -/
inductive Scan (guestFollows : Bool) : List String → List String → List String → Prop
  | nil : Scan guestFollows [] [] []
  | bare {a : String} {flag : HostFlag} {rest run tail : List String} (ha : HostFlag.ofToken a = some flag)
      (hvalue : flag.takesValue = false) (hrest : Scan guestFollows rest run tail) :
      Scan guestFollows (a :: rest) (a :: run) tail
  | valued {a v : String} {flag : HostFlag} {rest run tail : List String} (ha : HostFlag.ofToken a = some flag)
      (hvalue : flag.takesValue = true) (hrest : Scan guestFollows rest run tail) :
      Scan guestFollows (a :: v :: rest) (a :: v :: run) tail
  | missing {a : String} {flag : HostFlag} (ha : HostFlag.ofToken a = some flag) (hvalue : flag.takesValue = true) :
      Scan guestFollows [a] [a] []
  | refused {a : String} {rest run tail : List String} (ha : HostFlag.ofToken a = none)
      (hrefused : isRefused guestFollows a = true) (hrest : Scan guestFollows rest run tail) :
      Scan guestFollows (a :: rest) (a :: run) tail
  | ends {a : String} {rest : List String} (ha : EndsRun guestFollows a) : Scan guestFollows (a :: rest) [] (a :: rest)

theorem scan_splitRun (guestFollows : Bool) (args : List String) :
    Scan guestFollows args (splitRun guestFollows args).1 (splitRun guestFollows args).2 := by
  fun_induction splitRun guestFollows args with
  | case1 => exact .nil
  | case2 a flag ha hvalue => exact .missing ha hvalue
  | case3 a flag ha hvalue v rest ih => exact .valued ha hvalue ih
  | case4 a rest flag ha hvalue ih => exact .bare ha (by simpa using hvalue) ih
  | case5 a rest ha hrefused ih => exact .refused ha hrefused ih
  | case6 a rest ha hrefused => exact .ends ⟨ha, by simpa using hrefused⟩

namespace Scan

variable {guestFollows : Bool} {args run tail : List String}

/-- A run and what is left make up the arguments. -/
theorem append (h : Scan guestFollows args run tail) : run ++ tail = args := by
  induction h with
  | nil => rfl
  | bare _ _ _ ih => rw [List.cons_append, ih]
  | valued _ _ _ ih => rw [List.cons_append, List.cons_append, ih]
  | missing => rfl
  | refused _ _ _ ih => rw [List.cons_append, ih]
  | ends => rfl

/-- What is left begins with a token at which a run ends. -/
theorem endsRun (h : Scan guestFollows args run tail) : ∀ a ∈ tail.head?, EndsRun guestFollows a := by
  induction h with
  | nil | missing => simp
  | bare _ _ _ ih | valued _ _ _ ih | refused _ _ _ ih => exact ih
  | ends ha => simpa using ha

/-- What is left of the run alone is nothing. -/
theorem run_alone (h : Scan guestFollows args run tail) : Scan guestFollows run run [] := by
  induction h with
  | nil => exact .nil
  | bare ha hvalue _ ih => exact .bare ha hvalue ih
  | valued ha hvalue _ ih => exact .valued ha hvalue ih
  | missing ha hvalue => exact .missing ha hvalue
  | refused ha hrefused _ ih => exact .refused ha hrefused ih
  | ends => exact .nil

/-- A run that something follows may be followed by something else. -/
theorem replace (h : Scan guestFollows args run tail) (htail : tail ≠ []) {tail' : List String}
    (hends : ∀ a ∈ tail'.head?, EndsRun guestFollows a) : Scan guestFollows (run ++ tail') run tail' := by
  induction h with
  | nil | missing => exact absurd rfl htail
  | bare ha hvalue _ ih => exact .bare ha hvalue (ih htail)
  | valued ha hvalue _ ih => exact .valued ha hvalue (ih htail)
  | refused ha hrefused _ ih => exact .refused ha hrefused (ih htail)
  | ends =>
    cases tail' with
    | nil => exact .nil
    | cons a rest => exact .ends (hends a rfl)

/-- There is one way to take arguments apart. -/
theorem splitRun_eq (h : Scan guestFollows args run tail) : splitRun guestFollows args = (run, tail) := by
  induction h with
  | nil => rfl
  | bare ha hvalue _ ih =>
    rw [splitRun.eq_def]
    simp [ha, hvalue, ih]
  | valued ha hvalue _ ih =>
    rw [splitRun.eq_def]
    simp [ha, hvalue, ih]
  | missing ha hvalue =>
    rw [splitRun.eq_def]
    simp [ha, hvalue]
  | refused ha hrefused _ ih =>
    rw [splitRun.eq_def]
    simp [ha, hrefused, ih]
  | ends ha =>
    rw [splitRun.eq_def]
    simp [ha.1, ha.2]

/-- What follows a run of flags has no part in it. -/
theorem takeDirFlags_eq (h : Scan guestFollows args run tail) (hf : HostFlags) :
    takeDirFlags guestFollows hf args = (takeDirFlags guestFollows hf run).map fun r => (r.1, tail) := by
  induction h generalizing hf with
  | nil => rfl
  | bare ha hvalue _ ih => rw [takeDirFlags_bare ha hvalue, takeDirFlags_bare ha hvalue, ih]
  | @valued a v flag rest run tail ha hvalue hrest ih =>
    by_cases hallowed : flag = .features ∧ guestFollows = true
    · obtain ⟨rfl, rfl⟩ := hallowed
      rw [takeDirFlags_features ha, takeDirFlags_features ha]
      rfl
    · rw [takeDirFlags_valued ha hvalue hallowed, takeDirFlags_valued ha hvalue hallowed, funext ih]
      cases flag.apply a v hf <;> rfl
  | missing ha hvalue =>
    obtain ⟨e, he⟩ := takeDirFlags_missing ha hvalue
    rw [he]
    rfl
  | refused ha hrefused _ ih =>
    obtain ⟨e, he⟩ := takeDirFlags_refused ha hrefused
    rw [he, he]
    rfl
  | ends ha => exact takeDirFlags_end ha

end Scan

/-! ### Flags that are read in two runs -/

namespace HostFlags

/-- A policy raised by another one. -/
def raise : Option Mode → Option Mode → Option Mode
  | some x, some y => some (stricter x y)
  | x, y => x.or y

/-- The flags `a` with those of `b` after them in the same run: of two values the last one counts. -/
def andThen (a b : HostFlags) : HostFlags where
  preopens := a.preopens ++ b.preopens
  allowSymlink := a.allowSymlink || b.allowSymlink
  env := a.env ++ b.env
  maxMemory := b.maxMemory.or a.maxMemory
  maxTableElems := b.maxTableElems.or a.maxTableElems
  maxIterations := b.maxIterations.or a.maxIterations
  features := b.features.or a.features
  verify := {
    pins := b.verify.pins.or a.verify.pins
    verify := raise a.verify.verify b.verify.verify
    optOut := a.verify.optOut || b.verify.optOut }

theorem raise_assoc (x y z : Option Mode) : raise (raise x y) z = raise x (raise y z) := by
  cases x <;> cases y <;> cases z <;> try rfl
  rename_i x y z
  cases x <;> cases y <;> cases z <;> rfl

theorem raise_none (x : Option Mode) : raise x none = x := by
  cases x <;> rfl

theorem andThen_assoc (a b c : HostFlags) : (a.andThen b).andThen c = a.andThen (b.andThen c) := by
  simp [andThen, raise_assoc, Option.or_assoc, Bool.or_assoc]

theorem andThen_empty (a : HostFlags) : a.andThen {} = a := by
  simp [andThen, raise_none]

theorem merge_empty (a : HostFlags) : a.merge {} = a := by
  obtain ⟨_, _, _, _, _, _, _, ⟨_, verify, _⟩⟩ := a
  cases verify <;> simp [merge]

/-- Does a run carry a flag of which one value counts? -/
def carries (hf : HostFlags) : HostFlag → Bool
  | .maxMemory => hf.maxMemory.isSome
  | .maxTableElems => hf.maxTableElems.isSome
  | .maxIterations => hf.maxIterations.isSome
  | .pins => hf.verify.pins.isSome
  | _ => false

theorem or_comm_of_not_both {α : Type*} {x y : Option α} (h : ¬(x.isSome = true ∧ y.isSome = true)) :
    x.or y = y.or x := by
  cases x <;> cases y <;> simp_all

/-- The runs before and after the path are merged as if they were one, unless both carry a flag of which one value
counts. -/
theorem merge_eq_andThen {a b : HostFlags} (hfeatures : b.features = none)
    (hsingle : ∀ flag, ¬(a.carries flag = true ∧ b.carries flag = true)) : a.merge b = a.andThen b := by
  have hmem : a.maxMemory.or b.maxMemory = b.maxMemory.or a.maxMemory := or_comm_of_not_both (hsingle .maxMemory)
  have htable : a.maxTableElems.or b.maxTableElems = b.maxTableElems.or a.maxTableElems :=
    or_comm_of_not_both (hsingle .maxTableElems)
  have hiter : a.maxIterations.or b.maxIterations = b.maxIterations.or a.maxIterations :=
    or_comm_of_not_both (hsingle .maxIterations)
  have hpins : a.verify.pins.or b.verify.pins = b.verify.pins.or a.verify.pins := or_comm_of_not_both (hsingle .pins)
  simp only [merge, andThen, hmem, htable, hiter, hpins, hfeatures, Option.or_none, Option.none_or]
  rfl

end HostFlags

namespace HostFlag

/-- A flag adds to what has been read what it says on its own. -/
theorem set_eq_andThen (flag : HostFlag) (hf : HostFlags) : flag.set hf = hf.andThen (flag.set {}) := by
  cases flag <;> simp [set, HostFlags.andThen, HostFlags.raise_none]

theorem apply_eq_andThen (flag : HostFlag) (a v : String) (hf : HostFlags) :
    flag.apply a v hf = (flag.apply a v {}).map hf.andThen := by
  have hadd : ∀ ro, addPreopen v ro hf = hf.andThen (addPreopen v ro {}) := fun ro => by
    simp [addPreopen, HostFlags.andThen, HostFlags.raise_none]
  have hmap : ∀ {β : Type} (x : Except CliError β) (f g : β → HostFlags), (∀ y, f y = hf.andThen (g y)) →
      f <$> x = (g <$> x).map hf.andThen := by
    intro β x f g hfg
    cases x with
    | error e => rfl
    | ok y => exact congrArg Except.ok (hfg y)
  cases flag with
  | features | env | maxIterations | maxMemory | maxTableElems =>
    exact hmap _ _ _ fun y => by simp [HostFlags.andThen, HostFlags.raise_none]
  | verify =>
    refine hmap _ _ _ fun m => ?_
    cases hverify : hf.verify.verify <;> simp [HostFlags.andThen, HostFlags.raise, hverify]
  | pins => exact congrArg Except.ok (by simp [HostFlags.andThen, HostFlags.raise_none])
  | dir => exact congrArg Except.ok (hadd false)
  | roDir => exact congrArg Except.ok (hadd true)
  | allowSymlink | optOut => exact congrArg Except.ok (HostFlags.andThen_empty hf).symm

/-- A flag sets its own value and no other, and only `--features` selects the language. -/
theorem apply_frame {flag : HostFlag} {a v : String} {hf hf' : HostFlags} (h : flag.apply a v hf = .ok hf') :
    (∀ other, hf'.carries other = true → hf.carries other = true ∨ other = flag) ∧
      (flag ≠ .features → hf'.features = hf.features) := by
  cases flag with
  | features | env | maxIterations | maxMemory | maxTableElems | verify =>
    obtain ⟨y, -, rfl⟩ := Except.map_eq_ok.mp h
    refine ⟨fun other hother => ?_, fun hflag => ?_⟩
    · cases other <;> first | exact .inr rfl | exact .inl hother
    · first | rfl | exact absurd rfl hflag
  | pins | dir | roDir | allowSymlink | optOut =>
    obtain rfl := Except.ok.inj h
    refine ⟨fun other hother => ?_, fun _ => rfl⟩
    cases other <;> first | exact .inr rfl | exact .inl hother

theorem carries_set {flag other : HostFlag} {hf : HostFlags} (hcarries : (flag.set hf).carries other = true) :
    hf.carries other = true := by
  cases flag <;> exact hcarries

end HostFlag

namespace Scan

variable {guestFollows : Bool} {args run tail : List String} {hf f : HostFlags}

/-- What a run adds to what has been read. -/
theorem takeDirFlags_andThen (h : Scan guestFollows args run tail) (hf : HostFlags) :
    takeDirFlags guestFollows hf args = (takeDirFlags guestFollows {} args).map fun r => (hf.andThen r.1, r.2) := by
  induction h generalizing hf with
  | nil => exact congrArg (fun f => Except.ok (f, [])) (HostFlags.andThen_empty hf).symm
  | bare ha hvalue _ ih =>
    rw [takeDirFlags_bare ha hvalue, takeDirFlags_bare ha hvalue, ih, ih (HostFlag.set _ {}), HostFlag.set_eq_andThen]
    cases takeDirFlags guestFollows {} _ with
    | error e => rfl
    | ok r => exact congrArg (fun f => Except.ok (f, r.2)) (HostFlags.andThen_assoc _ _ _)
  | @valued a v flag rest run tail ha hvalue hrest ih =>
    by_cases hallowed : flag = .features ∧ guestFollows = true
    · obtain ⟨rfl, rfl⟩ := hallowed
      rw [takeDirFlags_features ha, takeDirFlags_features ha]
      rfl
    · rw [takeDirFlags_valued ha hvalue hallowed, takeDirFlags_valued ha hvalue hallowed,
        HostFlag.apply_eq_andThen flag a v hf]
      cases flag.apply a v {} with
      | error e => rfl
      | ok g =>
        change takeDirFlags guestFollows (hf.andThen g) rest = (takeDirFlags guestFollows g rest).map _
        rw [ih, ih g]
        cases takeDirFlags guestFollows {} rest with
        | error e => rfl
        | ok r => exact congrArg (fun f => Except.ok (f, r.2)) (HostFlags.andThen_assoc _ _ _)
  | missing ha hvalue =>
    obtain ⟨e, he⟩ := takeDirFlags_missing ha hvalue
    rw [he, he]
    rfl
  | refused ha hrefused _ ih =>
    obtain ⟨e, he⟩ := takeDirFlags_refused ha hrefused
    rw [he, he]
    rfl
  | ends ha =>
    rw [takeDirFlags_end ha, takeDirFlags_end ha]
    exact congrArg (fun f => Except.ok (f, _)) (HostFlags.andThen_empty hf).symm

end Scan

/-- A run that is read to its end, flag by flag. -/
inductive Reads (guestFollows : Bool) : HostFlags → List String → HostFlags → Prop
  | nil {hf : HostFlags} : Reads guestFollows hf [] hf
  | bare {hf f : HostFlags} {a : String} {flag : HostFlag} {rest : List String} (ha : HostFlag.ofToken a = some flag)
      (hvalue : flag.takesValue = false) (hrest : Reads guestFollows (flag.set hf) rest f) :
      Reads guestFollows hf (a :: rest) f
  | valued {hf g f : HostFlags} {a v : String} {flag : HostFlag} {rest : List String}
      (ha : HostFlag.ofToken a = some flag) (hvalue : flag.takesValue = true)
      (hallowed : ¬(flag = .features ∧ guestFollows = true)) (hg : flag.apply a v hf = .ok g)
      (hrest : Reads guestFollows g rest f) : Reads guestFollows hf (a :: v :: rest) f

theorem Scan.reads {guestFollows : Bool} {args run tail : List String} {hf f : HostFlags}
    (h : Scan guestFollows args run tail) (hread : takeDirFlags guestFollows hf args = .ok (f, [])) :
    Reads guestFollows hf args f := by
  induction h generalizing hf with
  | nil =>
    cases hread
    exact .nil
  | bare ha hvalue _ ih =>
    rw [takeDirFlags_bare ha hvalue] at hread
    exact .bare ha hvalue (ih hread)
  | @valued a v flag rest run tail ha hvalue hrest ih =>
    by_cases hallowed : flag = .features ∧ guestFollows = true
    · obtain ⟨rfl, rfl⟩ := hallowed
      rw [takeDirFlags_features ha] at hread
      cases hread
    · rw [takeDirFlags_valued ha hvalue hallowed, Except.bind_eq_ok] at hread
      obtain ⟨g, hg, hread⟩ := hread
      exact .valued ha hvalue hallowed hg (ih hread)
  | missing ha hvalue =>
    obtain ⟨e, he⟩ := takeDirFlags_missing ha hvalue
    rw [he] at hread
    cases hread
  | refused ha hrefused _ ih =>
    obtain ⟨e, he⟩ := takeDirFlags_refused ha hrefused
    rw [he] at hread
    cases hread
  | ends ha =>
    rw [takeDirFlags_end ha] at hread
    cases hread

/-- A run that is read on its own is read to its end. -/
theorem Scan.reads_run {guestFollows : Bool} {args run tail t : List String} {hf f : HostFlags}
    (h : Scan guestFollows args run tail) (hread : takeDirFlags guestFollows hf run = .ok (f, t)) :
    Reads guestFollows hf run f := by
  obtain ⟨r, -, hr⟩ := Except.map_eq_ok.mp ((h.run_alone.takeDirFlags_eq hf).symm.trans hread)
  obtain ⟨-, rfl⟩ := Prod.mk.inj hr
  exact h.run_alone.reads hread

/-- Arguments that begin where a run ends carry no flag. -/
theorem takeDirFlags_of_endsRun {guestFollows : Bool} {hf : HostFlags} {tail : List String}
    (h : ∀ a ∈ tail.head?, EndsRun guestFollows a) : takeDirFlags guestFollows hf tail = .ok (hf, tail) := by
  cases tail with
  | nil => rfl
  | cons a rest => exact takeDirFlags_end (h a rfl)

namespace Reads

variable {guestFollows : Bool} {hf f : HostFlags} {args : List String}

/-- After a run that is read to its end, more arguments are read from there. -/
theorem append (h : Reads guestFollows hf args f) (more : List String) :
    takeDirFlags guestFollows hf (args ++ more) = takeDirFlags guestFollows f more := by
  induction h with
  | nil => rfl
  | bare ha hvalue _ ih => rw [List.cons_append, takeDirFlags_bare ha hvalue, ih]
  | valued ha hvalue hallowed hg _ ih =>
    rw [List.cons_append, List.cons_append, takeDirFlags_valued ha hvalue hallowed, hg]
    exact ih

/-- A run that is read after the path is read before it as well. -/
theorem before (h : Reads true hf args f) : Reads false hf args f := by
  induction h with
  | nil => exact .nil
  | bare ha hvalue _ ih => exact .bare ha hvalue ih
  | valued ha hvalue _ hg _ ih => exact .valued ha hvalue (by simp) hg ih

/-- A run after the path does not select the language. -/
theorem features_eq (h : Reads true hf args f) : f.features = hf.features := by
  induction h with
  | nil => rfl
  | @bare hf f a flag rest ha hvalue _ ih =>
    refine ih.trans ?_
    cases flag <;> rfl
  | valued ha hvalue hallowed hg _ ih =>
    exact ih.trans ((HostFlag.apply_frame hg).2 fun hflag => hallowed ⟨hflag, rfl⟩)

/-- What a run carries has been read before or is in it. -/
theorem carries (h : Reads guestFollows hf args f) {flag : HostFlag} (hcarries : f.carries flag = true) :
    hf.carries flag = true ∨ flag ∈ flagsIn args := by
  induction h with
  | nil => exact .inl hcarries
  | bare ha hvalue _ ih =>
    rw [flagsIn.eq_def]
    simp only [ha, hvalue]
    exact (ih hcarries).imp HostFlag.carries_set (List.mem_cons_of_mem _)
  | valued ha hvalue hallowed hg _ ih =>
    rw [flagsIn.eq_def]
    simp only [ha, hvalue, if_true, List.mem_cons, ← or_assoc]
    exact (ih hcarries).imp_left ((HostFlag.apply_frame hg).1 flag)

end Reads

/-- Flags after the path say what they would say before it, unless a flag of which one value counts is on both
sides. -/
theorem merge_reads {before after : List String} {f more : HostFlags} (hbefore : Reads false {} before f)
    (hafter : Reads true {} after more)
    (hsingle : ∀ flag ∈ flagsIn before, flag ∈ flagsIn after →
      flag ∉ [HostFlag.maxMemory, .maxTableElems, .maxIterations, .pins]) (rest : List String) :
    takeDirFlags false {} (before ++ (after ++ rest)) = takeDirFlags false (f.merge more) rest := by
  have hmerge : f.merge more = f.andThen more := by
    refine HostFlags.merge_eq_andThen hafter.features_eq fun flag hboth => ?_
    have hempty : ({} : HostFlags).carries flag = false := by cases flag <;> rfl
    have hf := (hbefore.carries hboth.1).resolve_left (by simp [hempty])
    have hm := (hafter.carries hboth.2).resolve_left (by simp [hempty])
    have hflag := hsingle flag hf hm
    cases flag <;> first | exact hflag (by decide) | cases hboth.1
  have hone : takeDirFlags false {} (after ++ rest) = takeDirFlags false more rest := hafter.before.append rest
  rw [hbefore.append, hmerge, (scan_splitRun false _).takeDirFlags_andThen f, hone,
    (scan_splitRun false _).takeDirFlags_andThen (f.andThen more), (scan_splitRun false _).takeDirFlags_andThen more]
  cases takeDirFlags false {} rest with
  | error e => rfl
  | ok r => exact congrArg (fun g => Except.ok (g, r.2)) (HostFlags.andThen_assoc _ _ _).symm

end Wasmrt
