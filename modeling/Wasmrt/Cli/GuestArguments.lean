import Wasmrt.Cli.CommandLine

/-!
# Command lines

`wasmrt wasi …` and `wasmrt <path> …`. The flags of the host stand before the path or right after it, and what follows
belongs to the guest. Where that begins decides what a guest can make the host do.

## Main definitions

* `runWasi`, `runBare`: what a command line runs, and under which flags.
* `hostPart`, `guestPart`: a command line cut where the part of the guest begins.

## Main results

* `readLine_eq`: the part of the guest has no say in the flags and the path.
* `guest_arguments`: for both forms, who decides what, and what the program receives.
-/

namespace Wasmrt

/-! ## The two forms -/

/-- What the command line sees of the host. -/
structure CliHost where
  /-- The functions that the module at a path exports; `none` if it cannot be loaded. -/
  exports : String → Option (String → Bool)
  /-- The scripts under a directory; `none` if the path is no directory. -/
  scriptsUnder : String → Option (List String)
  /-- The order of paths. -/
  pathLe : String → String → Bool

/-- What is run. -/
inductive Program
  /-- `_start`, with these arguments after the path. -/
  | command (argv : List String)
  | callExport (name : String) (args : List String)
  | script (files : List String) (verbose : Bool)
  /-- Nothing: the module is summarized. -/
  | summary
  deriving DecidableEq

/-- What is run, and under which flags. -/
structure Run where
  flags : HostFlags
  path : String
  program : Program
  deriving DecidableEq

/-- The arguments without the marker that ends the flags. -/
def dropMarker (tail : List String) : List String := if tail.head? = some "--" then tail.tail else tail

/-- `wasmrt wasi …`. -/
def runWasi (host : CliHost) (args : List String) : Except CliError Run := do
  let (flags, rest) ← takeDirFlags false {} args
  match rest with
  | [] => throw .usage
  | path :: rest => do
    let (more, tail) ← takeDirFlags true {} rest
    let _ ← orError (.cannotLoad path) (host.exports path)
    pure ⟨flags.merge more, path, .command (dropMarker tail)⟩

/-- The last component of a path. -/
def fileName (path : Text) : Option Text :=
  match ((path.splitOn '/').filter fun c => c ≠ [] && c ≠ ['.']).getLast? with
  | some name => if name = ['.', '.'] then none else some name
  | none => none

/-- Is it the path of a script? -/
def isScript (path : String) : Bool :=
  match (fileName path.toList).bind (splitLast '.') with
  | some (stem, ext) => !stem.isEmpty && Text.toAsciiLowercase ext = ['w', 'a', 's', 't']
  | none => false

theorem length_of_takeDirFlags {guestFollows : Bool} {hf hf' : HostFlags} {args tail : List String}
    (h : takeDirFlags guestFollows hf args = .ok (hf', tail)) : tail.length ≤ args.length := by
  have hscan := scan_splitRun guestFollows args
  rw [hscan.takeDirFlags_eq] at h
  obtain ⟨r, -, hr⟩ := Except.map_eq_ok.mp h
  obtain ⟨-, rfl⟩ := Prod.mk.inj hr
  conv_rhs => rw [← hscan.append, List.length_append]
  exact Nat.le_add_left _ _

/-- The arguments of `wast`: flags, scripts and `-v`, in any order. -/
def wastLoop (host : CliHost) (flags : HostFlags) (files : List String) (verbose : Bool) (args : List String) :
    Except CliError (List String × Bool × HostFlags) :=
  match _h : takeDirFlags false {} (args.dropWhile (· == "-v")) with
  | .error e => .error e
  | .ok (run, []) => .ok (files, verbose || args.head? = some "-v", flags.merge run)
  | .ok (run, a :: tail) =>
    if a = "--" then .error .markerForScript
    else if a = "-v" then wastLoop host (flags.merge run) files true tail
    else
      wastLoop host (flags.merge run) (files ++ (host.scriptsUnder a).getD [a]) (verbose || args.head? = some "-v") tail
termination_by args.length
decreasing_by
  all_goals
    have hlen := length_of_takeDirFlags _h
    have hdrop := List.length_dropWhile_le (· == "-v") args
    rw [List.length_cons] at hlen
    omega

/-- `wasmrt wast …` up to the run of the scripts. -/
def collectWastArgs (host : CliHost) (args : List String) : Except CliError (List String × Bool × HostFlags) :=
  (fun (files, verbose, flags) => (files.mergeSort host.pathLe, verbose, flags)) <$> wastLoop host {} [] false args

/-- What the word after the path selects. `forced` tells that a marker stands before it. -/
def bareProgram (exported : String → Bool) (path : String) (forced : Bool) (tail : List String) :
    Except CliError Program :=
  match tail with
  | first :: args =>
    if !forced && exported first then pure (.callExport first args)
    else if exported "_start" then pure (.command tail)
    else if forced then throw (.noStart path)
    else throw (.noExport first path)
  | [] => if exported "_start" then pure (.command []) else pure .summary

/-- `wasmrt <path> …`. -/
def runBare (host : CliHost) (args : List String) : Except CliError Run := do
  let (lead, rest) ← takeDirFlags false {} args
  match rest with
  | [] => throw .usage
  | path :: rest =>
    if isScript path then do
      let (files, verbose, trailing) ← collectWastArgs host rest
      let files :=
        match host.scriptsUnder path with
        | some under => files ++ under
        | none => path :: files
      pure ⟨lead.merge trailing, path, .script files verbose⟩
    else do
      let (trailing, tail) ← takeDirFlags true {} rest
      let exported ← orError (.cannotLoad path) (host.exports path)
      let program ← bareProgram exported path (tail.head? = some "--") (dropMarker tail)
      pure ⟨lead.merge trailing, path, program⟩

/-! ## The part of the guest -/

/-- Scripts have no guest. -/
def Run.HasGuest (r : Run) : Prop := ∀ files verbose, r.program ≠ .script files verbose

/-- A command line cut at the first token after the path that is neither a flag of the host, nor its value, nor begins
with two dashes, or is the marker. -/
def cut (line : List String) : List String × List String :=
  match splitRun false line with
  | (lead, []) => (lead, [])
  | (lead, path :: rest) => (lead ++ path :: (splitRun true rest).1, (splitRun true rest).2)

def hostPart (line : List String) : List String := (cut line).1

def guestPart (line : List String) : List String := (cut line).2

/-- The flags of a command line, its path, and what is left. -/
def readLine (line : List String) : Except CliError (HostFlags × String × List String) := do
  let (flags, rest) ← takeDirFlags false {} line
  match rest with
  | [] => throw .usage
  | path :: rest => do
    let (more, tail) ← takeDirFlags true {} rest
    pure (flags.merge more, path, tail)

/-- A command line with its flags before the path, its path, its flags after the path, and the part of the guest. -/
structure LineParts (line lead : List String) (path : String) (run tail : List String) : Prop where
  lead : Scan false line lead (path :: (run ++ tail))
  run : Scan true (run ++ tail) run tail

namespace LineParts

variable {line lead run tail : List String} {path : String}

theorem cut_eq (h : LineParts line lead path run tail) : cut line = (lead ++ path :: run, tail) := by
  rw [cut, h.lead.splitRun_eq]
  simp only [h.run.splitRun_eq]

/-- Another part of the guest, which begins with a token that ends a run. -/
theorem replace (h : LineParts line lead path run tail) (htail : tail ≠ []) {tail' : List String}
    (hends : ∀ a ∈ tail'.head?, EndsRun true a) : LineParts (lead ++ path :: (run ++ tail')) lead path run tail' :=
  ⟨h.lead.replace (List.cons_ne_nil _ _) fun a ha => h.lead.endsRun a ha, h.run.replace htail hends⟩

/-- The part of the host alone. -/
theorem alone (h : LineParts line lead path run tail) : LineParts (lead ++ path :: run) lead path run [] := by
  have hrun := h.run.run_alone
  refine ⟨?_, ?_⟩
  · rw [List.append_nil]
    exact h.lead.replace (List.cons_ne_nil _ _) fun a ha => h.lead.endsRun a ha
  · rw [List.append_nil]
    exact hrun

/-- The part of the guest has no say in the flags and the path. -/
theorem readLine_eq (h : LineParts line lead path run tail) :
    readLine line = (readLine (lead ++ path :: run)).map fun r => (r.1, r.2.1, tail) := by
  have halone := h.alone
  rw [readLine, readLine, h.lead.takeDirFlags_eq, halone.lead.takeDirFlags_eq, List.append_nil]
  cases takeDirFlags false {} lead with
  | error e => rfl
  | ok r =>
    change (takeDirFlags true {} (run ++ tail) >>= _) = Except.map _ (takeDirFlags true {} run >>= _)
    rw [h.run.takeDirFlags_eq]
    cases takeDirFlags true {} run <;> rfl

end LineParts

/-- A command line that is read has its parts. -/
theorem exists_parts {line tail : List String} {f : HostFlags} {path : String}
    (h : readLine line = .ok (f, path, tail)) : ∃ lead run, LineParts line lead path run tail := by
  rw [readLine, Except.bind_eq_ok] at h
  obtain ⟨⟨flags, rest⟩, hflags, h⟩ := h
  have hscan := scan_splitRun false line
  rw [hscan.takeDirFlags_eq] at hflags
  obtain ⟨r, -, hr⟩ := Except.map_eq_ok.mp hflags
  obtain ⟨-, rfl⟩ := Prod.mk.inj hr
  cases hrest : (splitRun false line).2 with
  | nil =>
    rw [hrest] at h
    cases h
  | cons p rest =>
    rw [hrest] at h
    change (takeDirFlags true {} rest >>= _) = _ at h
    rw [(scan_splitRun true rest).takeDirFlags_eq, Except.bind_eq_ok] at h
    obtain ⟨⟨more, tail'⟩, hmore, h⟩ := h
    obtain ⟨r', -, hr'⟩ := Except.map_eq_ok.mp hmore
    obtain ⟨-, rfl⟩ := Prod.mk.inj hr'
    obtain ⟨-, rfl, rfl⟩ : flags.merge more = f ∧ p = path ∧ (splitRun true rest).2 = tail := by
      simpa using Except.ok.inj h
    have happend := (scan_splitRun true rest).append
    refine ⟨(splitRun false line).1, (splitRun true rest).1, ⟨?_, ?_⟩⟩
    · rw [happend, ← hrest]
      exact hscan
    · rw [happend]
      exact scan_splitRun true rest

/-! ## What is run -/

/-- What `wasmrt wasi …` runs once the command line is read. -/
def finishWasi (host : CliHost) (path : String) (tail : List String) : Except CliError Program := do
  let _ ← orError (.cannotLoad path) (host.exports path)
  pure (.command (dropMarker tail))

/-- What `wasmrt <path> …` runs, of a module. -/
def finishBare (host : CliHost) (path : String) (tail : List String) : Except CliError Program :=
  if isScript path then throw .usage
  else do
    let exported ← orError (.cannotLoad path) (host.exports path)
    bareProgram exported path (tail.head? = some "--") (dropMarker tail)

/-- A form of the command line reads it first, and finishes with the part of the guest. -/
def ReadsFirst (form : List String → Except CliError Run) (finish : String → List String → Except CliError Program) :
    Prop :=
  ∀ line r, r.HasGuest →
    (form line = .ok r ↔ ∃ tail, readLine line = .ok (r.flags, r.path, tail) ∧ finish r.path tail = .ok r.program)

/-- A run of a command line that is read first. -/
theorem bind_finish_eq_ok {finish : String → List String → Except CliError Program} {line : List String} {r : Run} :
    (readLine line >>= fun x => (fun program => ⟨x.1, x.2.1, program⟩) <$> finish x.2.1 x.2.2) = .ok r ↔
      ∃ tail, readLine line = .ok (r.flags, r.path, tail) ∧ finish r.path tail = .ok r.program := by
  rw [Except.bind_eq_ok]
  constructor
  · rintro ⟨⟨flags, path, tail⟩, hread, hfinish⟩
    obtain ⟨program, hprogram, rfl⟩ := Except.map_eq_ok.mp hfinish
    exact ⟨tail, hread, hprogram⟩
  · rintro ⟨tail, hread, hprogram⟩
    exact ⟨_, hread, Except.map_eq_ok.mpr ⟨_, hprogram, rfl⟩⟩

theorem runWasi_readsFirst (host : CliHost) : ReadsFirst (runWasi host) (finishWasi host) := by
  intro line r _
  rw [← bind_finish_eq_ok, runWasi, readLine]
  cases takeDirFlags false {} line with
  | error e => rfl
  | ok x =>
    obtain ⟨flags, _ | ⟨path, rest⟩⟩ := x
    · rfl
    · change (takeDirFlags true {} rest >>= fun x => orError (.cannotLoad path) (host.exports path) >>= fun _ =>
          pure ⟨flags.merge x.1, path, .command (dropMarker x.2)⟩) = Except.ok r ↔
        ((takeDirFlags true {} rest >>= fun x => pure (flags.merge x.1, path, x.2)) >>= _) = Except.ok r
      cases takeDirFlags true {} rest with
      | error e => rfl
      | ok x =>
        change (orError (CliError.cannotLoad path) (host.exports path) >>= _) = Except.ok r ↔
          (_ <$> (orError (CliError.cannotLoad path) (host.exports path) >>= _)) = Except.ok r
        cases host.exports path <;> rfl

theorem runBare_readsFirst (host : CliHost) : ReadsFirst (runBare host) (finishBare host) := by
  intro line r hguest
  rw [← bind_finish_eq_ok, runBare, readLine]
  cases takeDirFlags false {} line with
  | error e => rfl
  | ok x =>
    obtain ⟨flags, _ | ⟨path, rest⟩⟩ := x
    · rfl
    · change (if isScript path = true then _ else takeDirFlags true {} rest >>= fun x =>
          orError (.cannotLoad path) (host.exports path) >>= fun exported =>
            bareProgram exported path (x.2.head? = some "--") (dropMarker x.2) >>= fun program =>
              pure ⟨flags.merge x.1, path, program⟩) = Except.ok r ↔
        ((takeDirFlags true {} rest >>= fun x => pure (flags.merge x.1, path, x.2)) >>= _) = Except.ok r
      cases hscript : isScript path with
      | true =>
        -- A script runs no guest, and the rest of the line is not read as that of a module.
        constructor
        · intro h
          rw [if_pos rfl, Except.bind_eq_ok] at h
          obtain ⟨x, -, hr⟩ := h
          obtain rfl := Except.ok.inj hr
          exact absurd rfl (hguest _ _)
        · intro h
          obtain ⟨x, hx, h⟩ := Except.bind_eq_ok.mp h
          obtain ⟨y, -, hy⟩ := Except.bind_eq_ok.mp hx
          obtain rfl := Except.ok.inj hy
          obtain ⟨program, hprogram, -⟩ := Except.map_eq_ok.mp h
          change finishBare host path y.2 = _ at hprogram
          rw [finishBare, if_pos hscript] at hprogram
          cases hprogram
      | false =>
        rw [if_neg (by simp)]
        cases takeDirFlags true {} rest with
        | error e => rfl
        | ok x =>
          change (orError (CliError.cannotLoad path) (host.exports path) >>= _) = Except.ok r ↔
            (_ <$> finishBare host path x.2) = Except.ok r
          rw [finishBare, hscript]
          cases host.exports path with
          | none => rfl
          | some exported =>
            change (bareProgram exported path (x.2.head? = some "--") (dropMarker x.2) >>= _) = Except.ok r ↔
              (_ <$> bareProgram exported path (x.2.head? = some "--") (dropMarker x.2)) = Except.ok r
            cases bareProgram exported path (x.2.head? = some "--") (dropMarker x.2) <;> rfl

/-! ## Who decides what -/

/-- What a program receives of the part of the guest: the tokens after the marker, or all of them. An export is named by
the first one. -/
def Receives (guest : List String) : Program → Prop
  | .command argv => argv = dropMarker guest
  | .callExport name args => guest = name :: args ∧ name ≠ "--"
  | .script .. => False
  | .summary => dropMarker guest = []

/-- The flags of which one value counts. -/
def singleValued : List HostFlag := [.maxMemory, .maxTableElems, .maxIterations, .pins]

/-- In a form of the command line, the guest decides nothing but what its program receives. -/
structure HostDecides (form : List String → Except CliError Run) : Prop where
  /-- The flags and the path depend on the part of the host alone. -/
  flags_path : ∀ line line' r r', hostPart line = hostPart line' → form line = .ok r → form line' = .ok r' →
    r.HasGuest → r'.HasGuest → r.flags = r'.flags ∧ r.path = r'.path
  /-- Tokens after the boundary may be replaced by any others. -/
  replace : ∀ line r boundary after after', form line = .ok r → r.HasGuest → guestPart line = boundary :: after →
    hostPart (hostPart line ++ boundary :: after') = hostPart line ∧
      guestPart (hostPart line ++ boundary :: after') = boundary :: after'
  receives : ∀ line r, form line = .ok r → r.HasGuest → Receives (guestPart line) r.program
  /-- Flags after the path say what they would say before it. -/
  split : ∀ before path after tail r, LineParts (before ++ path :: (after ++ tail)) before path after tail →
    (∀ flag ∈ flagsIn before, flag ∈ flagsIn after → flag ∉ singleValued) →
    form (before ++ path :: (after ++ tail)) = .ok r → r.HasGuest → form (before ++ (after ++ path :: tail)) = .ok r

/-- The flags of the parts, in one run or in two. -/
theorem readLine_split {before after tail : List String} {path : String}
    (hparts : LineParts (before ++ path :: (after ++ tail)) before path after tail)
    (hsingle : ∀ flag ∈ flagsIn before, flag ∈ flagsIn after → flag ∉ singleValued) {r : HostFlags × String × List String}
    (h : readLine (before ++ path :: (after ++ tail)) = .ok r) :
    readLine (before ++ (after ++ path :: tail)) = .ok r := by
  rw [readLine, hparts.lead.takeDirFlags_eq, Except.bind_eq_ok] at h
  obtain ⟨x, hx, h⟩ := h
  obtain ⟨⟨f, none⟩, hf, rfl⟩ := Except.map_eq_ok.mp hx
  change (takeDirFlags true {} (after ++ tail) >>= _) = _ at h
  rw [hparts.run.takeDirFlags_eq, Except.bind_eq_ok] at h
  obtain ⟨y, hy, h⟩ := h
  obtain ⟨⟨more, none'⟩, hmore, rfl⟩ := Except.map_eq_ok.mp hy
  obtain rfl := Except.ok.inj h
  have hmerge := merge_reads (hparts.lead.reads_run hf) (hparts.run.reads_run hmore) hsingle (path :: tail)
  rw [takeDirFlags_end (hparts.lead.endsRun path rfl)] at hmerge
  rw [readLine, hmerge]
  change (takeDirFlags true {} tail >>= _) = _
  rw [takeDirFlags_of_endsRun hparts.run.endsRun]
  exact congrArg (fun f => Except.ok (f, path, tail)) (HostFlags.merge_empty _)

/-- A form that reads the command line first leaves the decisions to the host. -/
theorem ReadsFirst.hostDecides {form : List String → Except CliError Run}
    {finish : String → List String → Except CliError Program} (h : ReadsFirst form finish)
    (hreceives : ∀ path tail program, finish path tail = .ok program → (∀ files v, program ≠ .script files v) →
      Receives tail program) : HostDecides form where
  flags_path line line' r r' hpart hr hr' hguest hguest' := by
    obtain ⟨tail, hread, -⟩ := (h line r hguest).mp hr
    obtain ⟨tail', hread', -⟩ := (h line' r' hguest').mp hr'
    obtain ⟨lead, run, hparts⟩ := exists_parts hread
    obtain ⟨lead', run', hparts'⟩ := exists_parts hread'
    rw [hostPart, hostPart, hparts.cut_eq, hparts'.cut_eq] at hpart
    change lead ++ r.path :: run = lead' ++ r'.path :: run' at hpart
    rw [hparts.readLine_eq, hpart] at hread
    rw [hparts'.readLine_eq] at hread'
    obtain ⟨x, hx, hxr⟩ := Except.map_eq_ok.mp hread
    obtain ⟨y, hy, hyr⟩ := Except.map_eq_ok.mp hread'
    rw [hx, Except.ok.injEq] at hy
    subst hy
    rw [Prod.mk.injEq, Prod.mk.injEq] at hxr hyr
    exact ⟨hxr.1.symm.trans hyr.1, hxr.2.1.symm.trans hyr.2.1⟩
  replace line r boundary after after' hr hguest hpart := by
    obtain ⟨tail, hread, -⟩ := (h line r hguest).mp hr
    obtain ⟨lead, run, hparts⟩ := exists_parts hread
    have hline := hparts.cut_eq
    rw [guestPart, hline] at hpart
    change tail = boundary :: after at hpart
    subst hpart
    have hparts' : LineParts (lead ++ r.path :: (run ++ boundary :: after')) lead r.path run (boundary :: after') :=
      hparts.replace (List.cons_ne_nil _ _) fun a ha => hparts.run.endsRun a ha
    have hline' : hostPart line ++ boundary :: after' = lead ++ r.path :: (run ++ boundary :: after') := by
      rw [hostPart, hline, List.append_assoc, List.cons_append]
    rw [hline', hostPart, guestPart, hparts'.cut_eq, hostPart, hline]
    exact ⟨rfl, rfl⟩
  receives line r hr hguest := by
    obtain ⟨tail, hread, hfinish⟩ := (h line r hguest).mp hr
    obtain ⟨lead, run, hparts⟩ := exists_parts hread
    rw [guestPart, hparts.cut_eq]
    exact hreceives r.path tail r.program hfinish hguest
  split before path after tail r hparts hsingle hr hguest := by
    obtain ⟨tail', hread, hfinish⟩ := (h _ r hguest).mp hr
    exact (h _ r hguest).mpr ⟨tail', readLine_split hparts hsingle hread, hfinish⟩

/-- Of the part of the guest, the program receives what comes after the marker, or all of it. -/
theorem receives_of_bareProgram {exported : String → Bool} {path : String} {tail : List String} {program : Program}
    (h : bareProgram exported path (tail.head? = some "--") (dropMarker tail) = .ok program) :
    Receives tail program ∧
      ∀ name args, program = .callExport name args ↔ tail = name :: args ∧ name ≠ "--" ∧ exported name = true := by
  by_cases hmarker : tail.head? = some "--"
  · -- After the marker no word is an export.
    have hprogram : program = .command (dropMarker tail) ∨ program = .summary ∧ dropMarker tail = [] := by
      rw [decide_eq_true hmarker] at h
      cases hdrop : dropMarker tail with
      | nil =>
        rw [hdrop, bareProgram] at h
        split_ifs at h <;> cases h <;> simp
      | cons first args =>
        rw [hdrop, bareProgram] at h
        split_ifs at h <;> cases h
        · simp_all
        · exact .inl rfl
    have hname : ∀ name args, ¬(tail = name :: args ∧ name ≠ "--" ∧ exported name = true) := by
      rintro name args ⟨rfl, hne, -⟩
      exact hne (by simpa using hmarker)
    obtain rfl | ⟨rfl, hdrop⟩ := hprogram
    · exact ⟨rfl, fun name args => ⟨fun hcall => (nomatch hcall), fun hcall => absurd hcall (hname name args)⟩⟩
    · exact ⟨hdrop, fun name args => ⟨fun hcall => (nomatch hcall), fun hcall => absurd hcall (hname name args)⟩⟩
  · have hdrop : dropMarker tail = tail := if_neg hmarker
    rw [hdrop, decide_eq_false hmarker] at h
    cases tail with
    | nil =>
      rw [bareProgram] at h
      split_ifs at h <;> cases h <;> simp [Receives, dropMarker]
    | cons first args =>
      have hfirst : first ≠ "--" := by simpa using hmarker
      rw [bareProgram] at h
      split_ifs at h with hexport <;> cases h
      · refine ⟨⟨rfl, hfirst⟩, fun name args' => ⟨?_, ?_⟩⟩
        · rintro ⟨⟩
          exact ⟨rfl, hfirst, by simpa using hexport⟩
        · rintro ⟨⟨⟩, -⟩
          rfl
      · refine ⟨hdrop.symm, fun name args' => ⟨fun hcall => (nomatch hcall), ?_⟩⟩
        rintro ⟨⟨⟩, -, hexported⟩
        exact absurd (by simpa using hexported) hexport

/-- In both forms of the command line the part of the guest, from the first token after the path that is neither a flag
of the host nor its value nor begins with two dashes, or from the marker, decides nothing but what its program
receives. -/
theorem guest_arguments (host : CliHost) :
    HostDecides (runWasi host) ∧ HostDecides (runBare host) ∧
      ∀ line r, runBare host line = .ok r → r.HasGuest → ∃ exported, host.exports r.path = some exported ∧
        ∀ name args, r.program = .callExport name args ↔
          guestPart line = name :: args ∧ name ≠ "--" ∧ exported name = true := by
  have hbare : ∀ path tail program, finishBare host path tail = .ok program →
      ∃ exported, host.exports path = some exported ∧
        bareProgram exported path (tail.head? = some "--") (dropMarker tail) = .ok program := by
    intro path tail program h
    rw [finishBare] at h
    split_ifs at h
    obtain ⟨exported, hexported, h⟩ := Except.bind_eq_ok.mp h
    exact ⟨exported, orError_eq_ok.mp hexported, h⟩
  refine ⟨(runWasi_readsFirst host).hostDecides ?_, (runBare_readsFirst host).hostDecides ?_, ?_⟩
  · intro path tail program h _
    obtain ⟨exported, -, h⟩ := Except.bind_eq_ok.mp h
    obtain rfl := Except.ok.inj h
    rfl
  · intro path tail program h _
    obtain ⟨exported, -, h⟩ := hbare path tail program h
    exact (receives_of_bareProgram h).1
  · intro line r hr hguest
    obtain ⟨tail, hread, hfinish⟩ := (runBare_readsFirst host line r hguest).mp hr
    obtain ⟨lead, run, hparts⟩ := exists_parts hread
    obtain ⟨exported, hexported, h⟩ := hbare r.path tail r.program hfinish
    rw [guestPart, hparts.cut_eq]
    exact ⟨exported, hexported, (receives_of_bareProgram h).2⟩

/-- Modules that export `_start` and nothing else. -/
def startOnly : CliHost where
  exports _ := some (· == "_start")
  scriptsUnder _ := none
  pathLe _ _ := true

theorem wastLoop_run {host : CliHost} {flags run : HostFlags} {files : List String} {verbose : Bool}
    {args : List String} (h : takeDirFlags false {} (args.dropWhile (· == "-v")) = .ok (run, [])) :
    wastLoop host flags files verbose args = .ok (files, verbose || args.head? = some "-v", flags.merge run) := by
  rw [wastLoop]
  split <;> simp_all

theorem wastLoop_script {host : CliHost} {flags run : HostFlags} {files tail : List String} {verbose : Bool}
    {args : List String} {a : String} (h : takeDirFlags false {} (args.dropWhile (· == "-v")) = .ok (run, a :: tail))
    (hmarker : a ≠ "--") (hverbose : a ≠ "-v") :
    wastLoop host flags files verbose args =
      wastLoop host (flags.merge run) (files ++ (host.scriptsUnder a).getD [a]) (verbose || args.head? = some "-v")
        tail := by
  rw [wastLoop]
  split <;> simp_all

theorem runBare_script {host : CliHost} {path : String} {rest files : List String} {verbose : Bool}
    {trailing : HostFlags} (hpath : EndsRun false path) (hscript : isScript path = true)
    (hunder : host.scriptsUnder path = none) (h : collectWastArgs host rest = .ok (files, verbose, trailing)) :
    runBare host (path :: rest) = .ok ⟨HostFlags.merge {} trailing, path, .script (path :: files) verbose⟩ := by
  rw [runBare, takeDirFlags_end hpath]
  change (if isScript path = true then collectWastArgs host rest >>= _ else _) = _
  rw [if_pos hscript, h]
  change Except.ok (Run.mk (HostFlags.merge {} trailing) path (.script (match host.scriptsUnder path with
    | some under => files ++ under
    | none => path :: files) verbose)) = _
  rw [hunder]

/-- The boundary is not always the marker: a word before it, or a flag whose value it is, takes its place, and a script
has no guest at all. Of two limits the one before the path counts, though the later one of a run does. -/
theorem boundary_not_marker :
    (¬∀ path rest r, runWasi startOnly (path :: rest) = .ok r → "--" ∈ rest →
        r.program = .command (rest.dropWhile (· ≠ "--")).tail) ∧
      (¬∀ path before after after' r r', "--" ∉ before → runWasi startOnly (path :: (before ++ "--" :: after)) = .ok r →
        runWasi startOnly (path :: (before ++ "--" :: after')) = .ok r' → r.flags = r'.flags) ∧
      (¬∀ path word after after' r r', EndsRun true word → runBare startOnly (path :: word :: after) = .ok r →
        runBare startOnly (path :: word :: after') = .ok r' → r.flags = r'.flags) ∧
      ¬∀ before path after r r', runWasi startOnly (before ++ path :: after) = .ok r →
        runWasi startOnly (before ++ after ++ [path]) = .ok r' → r.flags.maxIterations = r'.flags.maxIterations := by
  refine ⟨fun h => ?_, fun h => ?_, fun h => ?_, fun h => ?_⟩
  · have hword := h "m.wasm" ["install", "--", "--yes"] ⟨{}, "m.wasm", .command ["install", "--", "--yes"]⟩ rfl
      (by decide)
    revert hword
    decide
  · have hvalue := h "m.wasm" ["--pins"] ["--yes"] []
      ⟨{ verify := ⟨some "--", none, true⟩ }, "m.wasm", .command []⟩
      ⟨{ verify := ⟨some "--", none, false⟩ }, "m.wasm", .command []⟩ (by decide) rfl rfl
    revert hvalue
    decide
  · have hscript : ∀ rest,
        takeDirFlags false {} (("t.wast" :: rest).dropWhile (· == "-v")) = .ok ({}, "t.wast" :: rest) := fun _ => rfl
    have hyes : takeDirFlags false {} (["--yes"].dropWhile (· == "-v")) =
        .ok ({ verify := ⟨none, none, true⟩ }, []) := rfl
    have hnone : takeDirFlags false {} (([] : List String).dropWhile (· == "-v")) = .ok ({}, []) := rfl
    have hrun : collectWastArgs startOnly ["t.wast", "--yes"] =
        .ok (["t.wast"], false, { verify := ⟨none, none, true⟩ }) := by
      rw [collectWastArgs, wastLoop_script (hscript ["--yes"]) (by decide) (by decide), wastLoop_run hyes]
      exact congrArg (fun files => Except.ok (files, false, _)) (List.mergeSort_singleton "t.wast")
    have hrun' : collectWastArgs startOnly ["t.wast"] = .ok (["t.wast"], false, {}) := by
      rw [collectWastArgs, wastLoop_script (hscript []) (by decide) (by decide), wastLoop_run hnone]
      exact congrArg (fun files => Except.ok (files, false, _)) (List.mergeSort_singleton "t.wast")
    have hflags := h "s.wast" "t.wast" ["--yes"] [] _ _ ⟨rfl, rfl⟩
      (runBare_script ⟨rfl, rfl⟩ rfl rfl hrun) (runBare_script ⟨rfl, rfl⟩ rfl rfl hrun')
    revert hflags
    decide
  · have hlimits := h ["--max-iterations", "0"] "m.wasm" ["--max-iterations", "8"]
      ⟨{ maxIterations := some 0 }, "m.wasm", .command []⟩ ⟨{ maxIterations := some 8 }, "m.wasm", .command []⟩ rfl rfl
    revert hlimits
    decide

end Wasmrt
