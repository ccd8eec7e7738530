import Wasmrt.Cli.VerifyGate
import Wasmrt.Validate.Features
import Wasmrt.Store.Pools
import Wasmrt.Library.Numerals

/-!
# Host flags

The flags of a command line that the host reads: directories for the guest, its environment, limits, the language, and
how the module is verified. They stand before the path of the module, or right after it.

What is only printed (warnings, usage texts) is left out.

## Main definitions

* `HostFlag`: the flags, with what each one does to what has been read.
* `takeDirFlags`: one run of flags, and what is left.
* `HostFlags.merge`: the run before the path with the one after it.
-/

namespace Wasmrt

/-! ## Tokens -/

/-- Does a token begin with this text? -/
def startsWith (p : Text) (a : String) : Bool := p.isPrefixOf a.toList

/-- Does a token have the shape of a flag? -/
def isFlag (a : String) : Bool := startsWith ['-'] a && a ≠ "-" && a ≠ "--"

/-- Split at the first place where `sep` stands. -/
def splitOnce (sep : Text) : Text → Option (Text × Text)
  | [] => if sep.isEmpty then some ([], []) else none
  | c :: t =>
    match sep.isPrefixOf? (c :: t) with
    | some rest => some ([], rest)
    | none => (splitOnce sep t).map fun (a, b) => (c :: a, b)

/-- Split at the last place where `c` stands. -/
def splitLast (c : Char) (t : Text) : Option (Text × Text) :=
  (splitOnce [c] t.reverse).map fun (a, b) => (b.reverse, a.reverse)

/-- A number as `parse::<usize>` reads it. -/
def parseUsize (t : Text) : Option ℕ :=
  let digits := (['+'].isPrefixOf? t).getD t
  if digits.isEmpty || !digits.all Char.isDigit then none
  else
    let n := Numerals.value 10 (digits.map fun c => c.toNat - '0'.toNat)
    if n ≤ usizeMax then some n else none

/-- A size: a number, or one with a suffix. -/
def parseSize (v : String) : Option ℕ := do
  let t := Text.trim v.toList
  let last ← t.getLast?
  let (digits, mult) :=
    if last = 'k' ∨ last = 'K' then (t.dropLast, 2 ^ 10)
    else if last = 'm' ∨ last = 'M' then (t.dropLast, 2 ^ 20)
    else if last = 'g' ∨ last = 'G' then (t.dropLast, 2 ^ 30)
    else (t, 1)
  let n ← parseUsize (Text.trim digits)
  if n * mult ≤ usizeMax then some (n * mult) else none

/-! ## The language -/

/-- `-` and `_` are one, and so are letters of either case. -/
def normalizeName (name : Text) : Text :=
  (Text.toAsciiLowercase name).map fun c => if c = '-' then '_' else c

/-- The names of the proposals. -/
def featureNames : List (String × Feature) :=
  [("sign_extension", .signExtension), ("sign_extension_ops", .signExtension),
    ("saturating_float_to_int", .saturatingFloatToInt),
    ("nontrapping_float_to_int_conversions", .saturatingFloatToInt), ("multi_value", .multiValue),
    ("reference_types", .referenceTypes), ("bulk_memory", .bulkMemory), ("bulk_memory_operations", .bulkMemory),
    ("extended_const", .extendedConst), ("simd", .simd), ("relaxed_simd", .relaxedSimd), ("threads", .threads),
    ("multi_memory", .multiMemory), ("memory64", .memory64), ("function_references", .functionReferences), ("gc", .gc),
    ("exceptions", .exceptions), ("exception_handling", .exceptions), ("tail_call", .tailCall),
    ("wide_arithmetic", .wideArithmetic), ("custom_page_sizes", .customPageSizes),
    ("custom_descriptors", .customDescriptors)]

/-- A proposal by its name. -/
def Feature.fromName (name : Text) : Option Feature :=
  featureNames.findSome? fun (n, f) => if n.toList = normalizeName (Text.trim name) then some f else none

/-- Accept a proposal, or not. -/
def Features.set (fs : Features) (on : Bool) : Feature → Features
  | .signExtension => { fs with signExtension := on }
  | .saturatingFloatToInt => { fs with saturatingFloatToInt := on }
  | .multiValue => { fs with multiValue := on }
  | .referenceTypes => { fs with referenceTypes := on }
  | .bulkMemory => { fs with bulkMemory := on }
  | .extendedConst => { fs with extendedConst := on }
  | .simd => { fs with simd := on }
  | .relaxedSimd => { fs with relaxedSimd := on }
  | .threads => { fs with threads := on }
  | .multiMemory => { fs with multiMemory := on }
  | .memory64 => { fs with memory64 := on }
  | .functionReferences => { fs with functionReferences := on }
  | .gc => { fs with gc := on }
  | .exceptions => { fs with exceptions := on }
  | .tailCall => { fs with tailCall := on }
  | .wideArithmetic => { fs with wideArithmetic := on }
  | .customPageSizes => { fs with customPageSizes := on }
  | .customDescriptors => { fs with customDescriptors := on }

/-- Why a command line is refused. -/
inductive CliError
  | usage
  | featuresAfterPath
  | needsValue (flag : String)
  | badValue (flag value : String)
  | emptyFeature
  | unknownProposal (name : Text)
  | incoherent (e : Features.Incoherent)
  | unknownFlag (flag : String) (guestHint : Bool)
  | markerForScript
  | cannotLoad (path : String)
  | noStart (path : String)
  | noExport (name path : String)
  deriving DecidableEq

/-- One item of a list of proposals. -/
def applyFeature (fs : Features) (item : Text) : Except CliError Features :=
  let (on, name) :=
    match ['-'].isPrefixOf? item with
    | some rest => (false, rest)
    | none => (true, item)
  let n := normalizeName name
  if n = "all".toList then pure .all
  else if n = "mvp".toList then pure .mvp
  else if n = "multi_table".toList then pure fs
  else (fs.set on ·) <$> orError (.unknownProposal name) (Feature.fromName n)

/-- A list of proposals. A signed item makes it start from all of them. -/
def parseFeatures (list : String) : Except CliError Features := do
  let items := (list.toList.splitOn ',').map Text.trim
  if items.any List.isEmpty then throw .emptyFeature
  else do
    let seed := if items.any fun i => ['-'].isPrefixOf i then Features.all else .mvp
    let fs ← items.foldlM applyFeature seed
    match fs.checkCoherent with
    | .ok _ => pure fs
    | .error e => throw (.incoherent e)

/-! ## What the flags say -/

/-- A directory for the guest. -/
structure Preopen where
  host : Text
  guest : Text
  readOnly : Bool
  deriving DecidableEq

/-- The directory of the host and its name in the guest. A single colon after a drive letter is no separator. -/
def splitPreopen (spec : Text) : Text × Text :=
  match splitOnce [':', ':'] spec with
  | some (h, g) => (h, g)
  | none =>
    match splitLast ':' spec with
    | some (host, guest) =>
      let isDriveLetter := host.length == 1 && host.all Char.isAlpha
      if !host.isEmpty && !guest.isEmpty && !isDriveLetter then (host, guest) else (spec, spec)
    | none => (spec, spec)

/-- The flags of one run. -/
structure HostFlags where
  preopens : List Preopen := []
  allowSymlink : Bool := false
  env : List (Text × Text) := []
  maxMemory : Option ℕ := none
  maxTableElems : Option ℕ := none
  maxIterations : Option ℕ := none
  features : Option Features := none
  verify : VerifyFlags := ⟨none, none, false⟩
  deriving DecidableEq

namespace HostFlags

/-- The run before the path with the one after it. -/
def merge (a b : HostFlags) : HostFlags where
  preopens := a.preopens ++ b.preopens
  allowSymlink := a.allowSymlink || b.allowSymlink
  env := a.env ++ b.env
  maxMemory := a.maxMemory.or b.maxMemory
  maxTableElems := a.maxTableElems.or b.maxTableElems
  maxIterations := a.maxIterations.or b.maxIterations
  features := a.features.or b.features
  verify := {
    pins := a.verify.pins.or b.verify.pins
    verify :=
      match a.verify.verify, b.verify.verify with
      | some x, some y => some (stricter x y)
      | x, y => x.or y
    optOut := a.verify.optOut || b.verify.optOut }

end HostFlags

/-- The flags of the host. -/
inductive HostFlag
  | allowSymlink | features | env | maxIterations | maxMemory | maxTableElems | optOut | verify | pins | dir | roDir
  deriving DecidableEq

namespace HostFlag

/-- A flag by its token. -/
def ofToken : String → Option HostFlag
  | "--allow-symlink" => some .allowSymlink
  | "--features" => some .features
  | "--env" => some .env
  | "--max-iterations" => some .maxIterations
  | "--max-memory" => some .maxMemory
  | "--max-table-elems" => some .maxTableElems
  | "--no-verify" => some .optOut
  | "--yes" => some .optOut
  | "--verify" => some .verify
  | "--pins" => some .pins
  | "--dir" => some .dir
  | "--ro-dir" => some .roDir
  | _ => none

/-- Does the flag take the token after it? -/
def takesValue : HostFlag → Bool
  | allowSymlink | optOut => false
  | _ => true

/-- A flag that stands alone. -/
def set (flag : HostFlag) (hf : HostFlags) : HostFlags :=
  match flag with
  | allowSymlink => { hf with allowSymlink := true }
  | optOut => { hf with verify := { hf.verify with optOut := true } }
  | _ => hf

/-- One more directory. -/
def addPreopen (v : String) (readOnly : Bool) (hf : HostFlags) : HostFlags :=
  let (host, guest) := splitPreopen v.toList
  { hf with preopens := hf.preopens ++ [⟨host, guest, readOnly⟩] }

/-- A flag with its value. `a` is its token. -/
def apply (flag : HostFlag) (a v : String) (hf : HostFlags) : Except CliError HostFlags :=
  match flag with
  | features => (fun fs => { hf with features := some fs }) <$> parseFeatures v
  | env => (fun kv => { hf with env := hf.env ++ [kv] }) <$> orError (.badValue a v) (splitOnce ['='] v.toList)
  | maxIterations => (fun n => { hf with maxIterations := some n }) <$> orError (.badValue a v) (parseSize v)
  | maxMemory => (fun n => { hf with maxMemory := some n }) <$> orError (.badValue a v) (parseSize v)
  | maxTableElems => (fun n => { hf with maxTableElems := some n }) <$> orError (.badValue a v) (parseSize v)
  | verify =>
    (fun m => { hf with verify := { hf.verify with verify := some (hf.verify.verify.elim m fun old => stricter old m) } })
      <$> orError (.badValue a v) (parseMode (Text.toAsciiLowercase v.toList))
  | pins => pure { hf with verify := { hf.verify with pins := some v } }
  | dir => pure (addPreopen v false hf)
  | roDir => pure (addPreopen v true hf)
  | allowSymlink | optOut => pure hf

end HostFlag

/-- The flags at the head of some arguments, added to `hf`, and what is left. `guestFollows` tells whether the arguments
of the guest begin where the run ends. -/
def takeDirFlags (guestFollows : Bool) (hf : HostFlags) : List String → Except CliError (HostFlags × List String)
  | [] => pure (hf, [])
  | a :: rest =>
    match HostFlag.ofToken a with
    | some flag =>
      if flag = .features ∧ guestFollows then throw .featuresAfterPath
      else if flag.takesValue then
        match rest with
        | [] => throw (.needsValue a)
        | v :: rest' => do
          let hf' ← flag.apply a v hf
          takeDirFlags guestFollows hf' rest'
      else takeDirFlags guestFollows (flag.set hf) rest
    | none =>
      if a = "--" then pure (hf, a :: rest)
      else if startsWith ['-', '-'] a then throw (.unknownFlag a true)
      else if isFlag a && !guestFollows then throw (.unknownFlag a false)
      else pure (hf, a :: rest)

end Wasmrt
