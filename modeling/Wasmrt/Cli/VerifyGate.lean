import Mathlib.Data.BitVec
import Mathlib.Data.FinEnum
import Mathlib.Data.List.Find
import Mathlib.Tactic.Common
import Wasmrt.Cli.Pin

/-!
# The verification gate

Before a module runs, its digest is looked up in a pin DB. The DB that root owns is read first; the user may name
another one with `--pins` and a policy with `--verify`.

## Main definitions

* `resolveDefaultDb`: the DB of the host, if there is one.
* `verifyGate`: what is done with a module, or why nothing is.

## Main results

* `verifyGate_policy_iff`: where the user's part of the policy only raises it, where a DB of root with `enforce` has
  the last word, and which DBs that cannot be read are noticed.
-/

namespace Wasmrt

/-! ## The host -/

/-- What opening a path meets. -/
inductive HostFile
  | absent
  | file (text : Text)
  /-- The file is there and refuses access, or is not a text. -/
  | unreadable
  /-- A directory above the file refuses access. -/
  | shut
  deriving DecidableEq

/-- The part of the host that the gate sees. -/
structure Host where
  /-- On Windows, the value of `ProgramData` if it is set. -/
  windows : Option (Option String)
  files : String → HostFile

namespace Host

/-- `Path::exists`: whether the metadata of the path can be read. -/
def exists_ (host : Host) (path : String) : Bool :=
  match host.files path with
  | .file _ | .unreadable => true
  | .absent | .shut => false

/-- The host with another file at a path. -/
def write (host : Host) (path : String) (file : HostFile) : Host :=
  { host with files := Function.update host.files path file }

end Host

/-- The candidates for the DB of root, in order, and the one of the sibling runtime. -/
def dbPaths (host : Host) : List String × String :=
  match host.windows with
  | some programData =>
    let base := programData.getD "C:\\ProgramData"
    ([base ++ "\\wasmtk\\pins", base ++ "\\wasmrt\\pins"], base ++ "\\wazmrt\\pins")
  | none => (["/etc/wasmtk/pins", "/etc/wasmrt/pins"], "/etc/wazmrt/pins")

/-- Which DB governs a run. -/
inductive DbChoice
  | use (path : String)
  | noneButSiblingHasOne
  | none
  deriving DecidableEq

def chooseDb (ours : List String) (sibling : String) (exists_ : String → Bool) : DbChoice :=
  match ours.find? exists_ with
  | some p => .use p
  | none => if exists_ sibling then .noneButSiblingHasOne else .none

/-- Why the gate does not come to a decision. -/
inductive Refusal
  | rootUnreadable (path : String)
  | pinsUnreadable (path : String)
  | malformed (path : String) (line : ℕ)
  deriving DecidableEq

/-- Read a DB. Absent is fine, unreadable is not. -/
def readDbFile (host : Host) (path : String) : Except Refusal (Option Text) :=
  match host.files path with
  | .file text => pure (some text)
  | .absent => pure none
  | .unreadable | .shut => throw (.rootUnreadable path)

/-- The DB of the host: its path and its text. -/
def resolveDefaultDb (host : Host) : Except Refusal (Option (String × Text)) :=
  match chooseDb (dbPaths host).1 (dbPaths host).2 host.exists_ with
  | .use path => do
    let t ← readDbFile host path
    pure (t.map fun text => (path, text))
  | .noneButSiblingHasOne => pure none
  | .none => pure none

/-! ## The gate -/

/-- The verification flags of the command line. -/
structure VerifyFlags where
  /-- `--pins` -/
  pins : Option String
  /-- `--verify` -/
  verify : Option Mode
  /-- `--no-verify` or `--yes` -/
  optOut : Bool
  deriving DecidableEq

/-- What the gate consults: the policy of root, and the DB in force with its path. -/
structure Sources where
  rootMode : Option Mode
  dbPath : String
  dbText : Option Text

/-- Read the DB that the user named. It has to be there. -/
def readPins (host : Host) (path : String) : Except Refusal Text :=
  match host.files path with
  | .file text => pure text
  | .absent | .unreadable | .shut => throw (.pinsUnreadable path)

/-- The sources of a run. -/
def consult (host : Host) (pins : Option String) : Except Refusal Sources := do
  let defaultDb ← resolveDefaultDb host
  let rootMode := defaultDb.bind fun d => modeFromDb d.2
  -- Under a root `enforce` the pin set comes from root as well.
  match if rootMode = some .enforce then none else pins with
  | some p => do
    let t ← readPins host p
    pure ⟨rootMode, p, some t⟩
  | none =>
    match defaultDb with
    | some (p, t) => pure ⟨rootMode, p, some t⟩
    | none => pure ⟨rootMode, (dbPaths host).1.headD "", none⟩

/-- A policy raised by the user. `off` raises nothing. -/
def raiseMode (explicit : Option Mode) : Option Mode → Option Mode
  | none | some .off => explicit
  | some m => some (explicit.elim m fun e => stricter e m)

/-- The policy in force: that of root, raised by the DB and by the command line. -/
def explicitMode (rootMode dbMode verify : Option Mode) : Option Mode :=
  if rootMode = some .enforce then rootMode else raiseMode (raiseMode rootMode dbMode) verify

/-- What the gate decides, and what it reports. -/
structure Decision where
  action : Action
  explicit : Option Mode
  pinned : Bool
  armed : Bool
  dbPath : String
  deriving DecidableEq

/-- Whether a DB approves a digest. A DB that does not parse approves nothing and is reported. -/
def lookup (s : Sources) (digest : Digest) : Except Refusal Bool :=
  match s.dbText with
  | some t =>
    match Db.parse t with
    | .ok entries => pure (entries.contains digest)
    | .error line => throw (.malformed s.dbPath line)
  | none => pure false

def verifyGate (host : Host) (flags : VerifyFlags) (digest : Digest) (tty : Bool) : Except Refusal Decision := do
  let s ← consult host flags.pins
  let explicit := explicitMode s.rootMode (s.dbText.bind modeFromDb) flags.verify
  let armed := s.dbText.isSome
  let pinned ← lookup s digest
  pure {
    action := decideAction explicit pinned flags.optOut tty armed
    explicit, pinned, armed
    dbPath := s.dbPath }

/-- What is done with the module. A refusal denies it. -/
def gateAction : Except Refusal Decision → Action
  | .ok d => d.action
  | .error _ => .deny

/-- Whether the module runs, given what the user answers if asked (`none` if the answer cannot be read). -/
def proceeds (outcome : Except Refusal Decision) (answer : Option Text) : Bool :=
  match gateAction outcome with
  | .run => true
  | .deny => false
  | .prompt =>
    match answer with
    | some line => [['y'], ['Y'], ['y', 'e', 's'], ['Y', 'E', 'S']].contains (Text.trim line)
    | none => false

/-! ## Permissiveness -/

namespace Action

/-- How much an action permits. -/
def rank : Action → ℕ
  | deny => 0
  | prompt => 1
  | run => 2

instance : LE Action := ⟨fun a b => a.rank ≤ b.rank⟩
instance : DecidableLE Action := fun a b => inferInstanceAs (Decidable (a.rank ≤ b.rank))

end Action

/-- Where a module that is not pinned is treated more permissively under the second policy than under the first,
some DB being in force. -/
def Softens (optOut tty : Bool) : Option Mode → Option Mode → Prop
  -- Without a policy it is denied, not asked about.
  | none, some .warn => optOut = false ∧ tty = true
  | none, some .off => optOut = false
  | some .warn, some .off => optOut = false
  | some .enforce, none => optOut = true
  | some .enforce, some .warn => optOut = true ∨ tty = true
  | some .enforce, some .off => True
  | _, _ => False

instance (optOut tty : Bool) : (explicit explicit' : Option Mode) → Decidable (Softens optOut tty explicit explicit')
  | none, none | none, some .enforce | some .off, _ | some .warn, none | some .warn, some .warn
  | some .warn, some .enforce | some .enforce, some .enforce => inferInstanceAs (Decidable False)
  | none, some .warn => inferInstanceAs (Decidable (_ ∧ _))
  | none, some .off | some .warn, some .off | some .enforce, none => inferInstanceAs (Decidable (_ = _))
  | some .enforce, some .warn => inferInstanceAs (Decidable (_ ∨ _))
  | some .enforce, some .off => inferInstanceAs (Decidable True)

theorem decideAction_le_iff {explicit explicit' : Option Mode} {pinned optOut tty : Bool} :
    decideAction explicit' pinned optOut tty true ≤ decideAction explicit pinned optOut tty true ↔
      ¬ (pinned = false ∧ Softens optOut tty explicit explicit') := by
  cases pinned with
  | true => exact iff_of_true (Nat.le_refl _) (by simp)
  | false =>
    rcases explicit with _ | ⟨⟨⟩⟩ <;> rcases explicit' with _ | ⟨⟨⟩⟩ <;> cases optOut <;> cases tty <;> decide

/-- The place of a policy in the ladder. -/
def strictness (explicit : Option Mode) : ℕ := explicit.elim 0 Mode.rank

@[simp] theorem strictness_raiseMode {explicit m : Option Mode} :
    strictness (raiseMode explicit m) = max (strictness explicit) (strictness m) := by
  rcases explicit with _ | ⟨⟨⟩⟩ <;> rcases m with _ | ⟨⟨⟩⟩ <;> rfl

@[simp] theorem raiseMode_eq_none {explicit m : Option Mode} :
    raiseMode explicit m = none ↔ explicit = none ∧ (m = none ∨ m = some .off) := by
  rcases m with _ | ⟨⟨⟩⟩ <;> simp [raiseMode]

/-- Where no DB is in force a stricter policy permits less. -/
theorem decideAction_unarmed_le {explicit explicit' : Option Mode} {pinned optOut tty : Bool}
    (h : strictness explicit ≤ strictness explicit') :
    decideAction explicit' pinned optOut tty false ≤ decideAction explicit pinned optOut tty false := by
  cases pinned with
  | true => exact Nat.le_refl _
  | false =>
    rcases explicit with _ | ⟨⟨⟩⟩ <;> rcases explicit' with _ | ⟨⟨⟩⟩ <;> revert h <;> cases optOut <;> cases tty <;>
      decide

/-- A stricter policy permits more only where there was none. -/
theorem softens_iff_of_le {explicit explicit' : Option Mode} {optOut tty : Bool}
    (h : strictness explicit ≤ strictness explicit') :
    Softens optOut tty explicit explicit' ↔
      optOut = false ∧ explicit = none ∧ (explicit' = some .warn ∧ tty = true ∨ explicit' = some .off) := by
  rcases explicit with _ | ⟨⟨⟩⟩ <;> rcases explicit' with _ | ⟨⟨⟩⟩ <;> revert h <;> cases optOut <;> cases tty <;>
    decide

theorem strictness_explicitMode_mono {rootMode dbMode verify : Option Mode} {m : Mode} (hm : ∀ m₀ ∈ verify, m₀ ≤ m) :
    strictness (explicitMode rootMode dbMode verify) ≤ strictness (explicitMode rootMode dbMode (some m)) := by
  have hle : strictness verify ≤ strictness (some m) := by
    cases verify with
    | none => exact Nat.zero_le _
    | some m₀ => exact hm m₀ rfl
  unfold explicitMode
  split_ifs
  · exact Nat.le_refl _
  · simp only [strictness_raiseMode]
    omega

/-- Asking for more permits more only where nobody declares a policy, and `warn` is asked for. -/
theorem softens_explicitMode_iff {rootMode dbMode verify : Option Mode} {m : Mode} {optOut tty : Bool}
    (hm : ∀ m₀ ∈ verify, m₀ ≤ m) :
    Softens optOut tty (explicitMode rootMode dbMode verify) (explicitMode rootMode dbMode (some m)) ↔
      (rootMode = none ∧ (dbMode = none ∨ dbMode = some .off)) ∧ (verify = none ∨ verify = some .off) ∧
        m = .warn ∧ tty = true ∧ optOut = false := by
  rw [softens_iff_of_le (strictness_explicitMode_mono hm)]
  unfold explicitMode
  split_ifs with henforce
  · subst henforce
    simp
  · rw [raiseMode_eq_none, raiseMode_eq_none]
    constructor
    · rintro ⟨hopt, ⟨hnone, hverify⟩, hmode⟩
      refine ⟨hnone, hverify, ?_⟩
      rw [raiseMode_eq_none.mpr hnone] at hmode
      cases m with
      | warn => simpa [raiseMode, hopt] using hmode
      | off | enforce => simp [raiseMode] at hmode
    · rintro ⟨hnone, hverify, rfl, htty, hopt⟩
      refine ⟨hopt, ⟨hnone, hverify⟩, .inl ⟨?_, htty⟩⟩
      rw [raiseMode_eq_none.mpr hnone]
      rfl

/-! ## What the host says -/

theorem chooseDb_eq_use {ours : List String} {sibling p : String} {exists_ : String → Bool} :
    chooseDb ours sibling exists_ = .use p ↔ ours.find? exists_ = some p := by
  rw [chooseDb]
  cases hfind : ours.find? exists_ with
  | some q => simp
  | none => split_ifs <;> simp

/-- The DB of the host when no candidate is seen. -/
theorem resolveDefaultDb_of_none {host : Host} (h : (dbPaths host).1.find? host.exists_ = none) :
    resolveDefaultDb host = .ok none := by
  rw [resolveDefaultDb, chooseDb, h]
  dsimp only
  split_ifs <;> rfl

/-- The DB of the host when a candidate is seen: the first one, whatever reading it gives. -/
theorem resolveDefaultDb_of_some {host : Host} {p : String} (h : (dbPaths host).1.find? host.exists_ = some p) :
    resolveDefaultDb host = (readDbFile host p).map (Option.map fun text => (p, text)) := by
  rw [resolveDefaultDb, chooseDb_eq_use.mpr h]
  dsimp only
  cases readDbFile host p <;> rfl

/-- A candidate that is seen is a text or refuses access. -/
theorem Host.exists_eq_true {host : Host} {p : String} :
    host.exists_ p = true ↔ (∃ t, host.files p = .file t) ∨ host.files p = .unreadable := by
  rw [Host.exists_]
  cases host.files p <;> simp

theorem Host.exists_eq_false {host : Host} {p : String} :
    host.exists_ p = false ↔ host.files p = .absent ∨ host.files p = .shut := by
  rw [Host.exists_]
  cases host.files p <;> simp

/-- Two hosts whose candidates are alike resolve alike. -/
theorem resolveDefaultDb_congr {host host' : Host} (hwin : host'.windows = host.windows)
    (hexists : ∀ p ∈ (dbPaths host).1, host'.exists_ p = host.exists_ p)
    (hfiles : ∀ p ∈ (dbPaths host).1, host.exists_ p = true → host'.files p = host.files p) :
    resolveDefaultDb host' = resolveDefaultDb host := by
  have hpaths : dbPaths host' = dbPaths host := by rw [dbPaths, dbPaths, hwin]
  have hfind : (dbPaths host').1.find? host'.exists_ = (dbPaths host).1.find? host.exists_ := by
    rw [hpaths]
    exact List.find?_congr hexists
  cases h : (dbPaths host).1.find? host.exists_ with
  | none => rw [resolveDefaultDb_of_none h, resolveDefaultDb_of_none (hfind.trans h)]
  | some p =>
    rw [resolveDefaultDb_of_some h, resolveDefaultDb_of_some (hfind.trans h), readDbFile, readDbFile,
      hfiles p (List.mem_of_find?_eq_some h) (List.find?_some h)]

/-! ## What the gate makes of its sources -/

section Gate

variable {host : Host} {flags : VerifyFlags} {digest : Digest} {tty : Bool}

theorem consult_of_error {e : Refusal} (h : resolveDefaultDb host = .error e) (pins : Option String) :
    consult host pins = .error e := by
  rw [consult, h]
  rfl

theorem verifyGate_of_error {e : Refusal} (h : consult host flags.pins = .error e) :
    verifyGate host flags digest tty = .error e := by
  rw [verifyGate, h]
  rfl

theorem gateAction_of_error {e : Refusal} (h : consult host flags.pins = .error e) :
    gateAction (verifyGate host flags digest tty) = .deny := by
  rw [verifyGate_of_error h]
  rfl

theorem lookup_of_malformed {s : Sources} {t : Text} {line : ℕ} (ht : s.dbText = some t)
    (hparse : Db.parse t = .error line) : lookup s digest = .error (.malformed s.dbPath line) := by
  rw [lookup, ht]
  simp only [hparse]
  rfl

theorem lookup_of_parse {s : Sources} {t : Text} {ds : List Digest} (ht : s.dbText = some t)
    (hparse : Db.parse t = .ok ds) : lookup s digest = .ok (ds.contains digest) := by
  rw [lookup, ht]
  simp only [hparse]
  rfl

/-- A DB that does not parse denies every module. -/
theorem gateAction_of_malformed {root : Option Mode} {path : String} {t : Text} {line : ℕ}
    (h : consult host flags.pins = .ok ⟨root, path, some t⟩) (hparse : Db.parse t = .error line) :
    gateAction (verifyGate host flags digest tty) = .deny := by
  rw [verifyGate, h]
  show gateAction (lookup ⟨root, path, some t⟩ digest >>= _) = _
  rw [lookup_of_malformed rfl hparse]
  rfl

/-- Under a DB that parses, the policy matrix has the last word. -/
theorem gateAction_of_parse {root : Option Mode} {path : String} {t : Text} {ds : List Digest}
    (h : consult host flags.pins = .ok ⟨root, path, some t⟩) (hparse : Db.parse t = .ok ds) :
    gateAction (verifyGate host flags digest tty) =
      decideAction (explicitMode root (modeFromDb t) flags.verify) (ds.contains digest) flags.optOut tty true := by
  rw [verifyGate, h]
  show gateAction (lookup ⟨root, path, some t⟩ digest >>= _) = _
  rw [lookup_of_parse rfl hparse]
  rfl

/-- Without a DB nothing is pinned and nothing is armed. -/
theorem gateAction_of_noDb {root : Option Mode} {path : String} (h : consult host flags.pins = .ok ⟨root, path, none⟩) :
    gateAction (verifyGate host flags digest tty) =
      decideAction (explicitMode root none flags.verify) false flags.optOut tty false := by
  rw [verifyGate, h]
  rfl

/-! ## The user's part of the policy -/

/-- A module of which nobody but the mere presence of a DB says anything: the DB in force does not approve it, and
neither root nor the DB nor the command line declares a policy. -/
structure Undeclared (host : Host) (flags : VerifyFlags) (digest : Digest) : Prop where
  consulted : ∃ path t ds, consult host flags.pins = .ok ⟨none, path, some t⟩ ∧ Db.parse t = .ok ds ∧
    digest ∉ ds ∧ (modeFromDb t = none ∨ modeFromDb t = some .off)
  verify_eq : flags.verify = none ∨ flags.verify = some .off

/-- Asking for more on the command line permits more exactly where it asks for `warn` about a module that the presence
of a DB alone denies. -/
theorem gateAction_verify_le_iff {m : Mode} (hm : ∀ m₀ ∈ flags.verify, m₀ ≤ m) :
    gateAction (verifyGate host { flags with verify := some m } digest tty) ≤
        gateAction (verifyGate host flags digest tty) ↔
      ¬ (Undeclared host flags digest ∧ m = .warn ∧ tty = true ∧ flags.optOut = false) := by
  let flags' : VerifyFlags := { flags with verify := some m }
  cases hconsult : consult host flags.pins with
  | error e =>
    have hconsult' : consult host flags'.pins = .error e := hconsult
    rw [gateAction_of_error hconsult, gateAction_of_error hconsult']
    refine iff_of_true (Nat.le_refl _) ?_
    rintro ⟨⟨⟨path, t, ds, hok, -⟩, -⟩, -⟩
    rw [hconsult] at hok
    cases hok
  | ok s =>
    obtain ⟨root, path, _ | t⟩ := s
    · have hconsult' : consult host flags'.pins = .ok ⟨root, path, none⟩ := hconsult
      rw [gateAction_of_noDb hconsult, gateAction_of_noDb hconsult']
      refine iff_of_true (decideAction_unarmed_le (strictness_explicitMode_mono hm)) ?_
      rintro ⟨⟨⟨path, t, ds, hok, -⟩, -⟩, -⟩
      rw [hconsult] at hok
      cases hok
    · have hconsult' : consult host flags'.pins = .ok ⟨root, path, some t⟩ := hconsult
      cases hparse : Db.parse t with
      | error line =>
        rw [gateAction_of_malformed hconsult hparse, gateAction_of_malformed hconsult' hparse]
        refine iff_of_true (Nat.le_refl _) ?_
        rintro ⟨⟨⟨path, t', ds, hok, hds, -⟩, -⟩, -⟩
        rw [hconsult] at hok
        cases hok
        rw [hparse] at hds
        cases hds
      | ok ds =>
        rw [gateAction_of_parse hconsult hparse, gateAction_of_parse hconsult' hparse, decideAction_le_iff,
          softens_explicitMode_iff hm]
        refine not_congr ⟨?_, ?_⟩
        · rintro ⟨hpinned, ⟨rfl, hdb⟩, hverify, hask⟩
          exact ⟨⟨⟨path, t, ds, hconsult, hparse, by simpa using hpinned, hdb⟩, hverify⟩, hask⟩
        · rintro ⟨⟨⟨path', t', ds', hok, hds, hpinned, hdb⟩, hverify⟩, hask⟩
          rw [hconsult] at hok
          cases hok
          rw [hparse] at hds
          cases hds
          exact ⟨by simpa using hpinned, ⟨rfl, hdb⟩, hverify, hask⟩

/-- Under a root `enforce` the DB of root is in force. -/
theorem consult_of_enforce {p : String} {t : Text} (h : resolveDefaultDb host = .ok (some (p, t)))
    (hmode : modeFromDb t = some .enforce) (pins : Option String) :
    consult host pins = .ok ⟨some .enforce, p, some t⟩ := by
  rw [consult, h]
  show (match if modeFromDb t = some .enforce then none else pins with
    | some _ => _ | none => Except.ok (Sources.mk (modeFromDb t) p (some t))) = _
  rw [if_pos hmode]
  exact congrArg (fun m => Except.ok (Sources.mk m p (some t))) hmode

/-- Otherwise the one that the user names is. -/
theorem consult_of_pins {p : String} {t : Text} {db : Option (String × Text)} (h : resolveDefaultDb host = .ok db)
    (hmode : (db.bind fun d => modeFromDb d.2) ≠ some .enforce) (htext : host.files p = .file t) :
    consult host (some p) = .ok ⟨db.bind fun d => modeFromDb d.2, p, some t⟩ := by
  rw [consult, h]
  show (match if (db.bind fun d => modeFromDb d.2) = some .enforce then none else some p with
    | some _ => _ | none => _) = _
  rw [if_neg hmode]
  simp only [readPins, htext]
  rfl

theorem Host.write_files_of_ne {p q : String} {file : HostFile} (h : q ≠ p) :
    (host.write p file).files q = host.files q := Function.update_of_ne h _ _

@[simp] theorem Host.write_files_self {p : String} {file : HostFile} : (host.write p file).files p = file :=
  Function.update_self ..

/-- A file that is no candidate says nothing about the DB of the host. -/
theorem resolveDefaultDb_write {p : String} (hp : p ∉ (dbPaths host).1) (file : HostFile) :
    resolveDefaultDb (host.write p file) = resolveDefaultDb host := by
  have hne : ∀ q ∈ (dbPaths host).1, (host.write p file).files q = host.files q := fun q hq =>
    Host.write_files_of_ne fun heq => hp (heq ▸ hq)
  refine resolveDefaultDb_congr rfl (fun q hq => ?_) fun q hq _ => hne q hq
  rw [Host.exists_, Host.exists_, hne q hq]

/-- The DB of the host is the first candidate that is seen. -/
theorem resolveDefaultDb_eq_some {p : String} {t : Text} :
    resolveDefaultDb host = .ok (some (p, t)) ↔
      (dbPaths host).1.find? host.exists_ = some p ∧ host.files p = .file t := by
  cases hfind : (dbPaths host).1.find? host.exists_ with
  | none => simp [resolveDefaultDb_of_none hfind]
  | some q =>
    rw [resolveDefaultDb_of_some hfind, readDbFile]
    rcases Host.exists_eq_true.mp (List.find?_some hfind) with ⟨t', hfile⟩ | hfile
    · simp only [hfile]
      constructor
      · intro h
        cases h
        exact ⟨rfl, hfile⟩
      · rintro ⟨hq, ht⟩
        cases hq
        rw [hfile] at ht
        cases ht
        rfl
    · simp only [hfile]
      refine iff_of_false (fun h => by cases h) ?_
      rintro ⟨hq, ht⟩
      cases hq
      rw [hfile] at ht
      cases ht

/-- A directive added to a DB that the user named permits more exactly where root does not overrule that DB, the module
is not pinned and the policy in force is softened. -/
theorem gateAction_directive_le_iff {p : String} {text text' : Text} {m : Mode} (hpins : flags.pins = some p)
    (hp : p ∉ (dbPaths host).1) (htext : host.files p = .file text) (hadds : AddsDirective text m text') :
    gateAction (verifyGate (host.write p (.file text')) flags digest tty) ≤
        gateAction (verifyGate host flags digest tty) ↔
      ¬ ∃ root ds, consult host (some p) = .ok ⟨root, p, some text⟩ ∧ Db.parse text = .ok ds ∧ digest ∉ ds ∧
          Softens flags.optOut tty (explicitMode root (modeFromDb text) flags.verify)
            (explicitMode root (modeFromDb text') flags.verify) := by
  have hresolve := resolveDefaultDb_write hp (.file text')
  rw [← hpins]
  cases hdb : resolveDefaultDb host with
  | error e =>
    have hconsult := consult_of_error hdb flags.pins
    rw [gateAction_of_error hconsult, gateAction_of_error (consult_of_error (hresolve.trans hdb) flags.pins)]
    refine iff_of_true (Nat.le_refl _) ?_
    rintro ⟨root, ds, hok, -⟩
    rw [hconsult] at hok
    cases hok
  | ok db =>
    by_cases henforce : (db.bind fun d => modeFromDb d.2) = some .enforce
    · -- The pin set of root is in force before and after.
      obtain ⟨⟨q, t⟩, rfl, hmode⟩ := Option.bind_eq_some_iff.mp henforce
      have hq : q ∈ (dbPaths host).1 := List.mem_of_find?_eq_some (resolveDefaultDb_eq_some.mp hdb).1
      have hconsult := consult_of_enforce hdb hmode flags.pins
      have hsame : verifyGate (host.write p (.file text')) flags digest tty = verifyGate host flags digest tty := by
        rw [verifyGate, verifyGate, hconsult, consult_of_enforce (hresolve.trans hdb) hmode flags.pins]
      rw [hsame]
      refine iff_of_true (Nat.le_refl _) ?_
      rintro ⟨root, ds, hok, -⟩
      rw [hconsult] at hok
      cases hok
      exact hp hq
    · have hconsult := hpins ▸ consult_of_pins hdb henforce htext
      have hconsult' := hpins ▸ consult_of_pins (hresolve.trans hdb) henforce Host.write_files_self
      cases hparse : Db.parse text with
      | error line =>
        have hparse' : ∃ line', Db.parse text' = .error line' := by
          cases hparse' : Db.parse text' with
          | error line' => exact ⟨line', rfl⟩
          | ok ds =>
            rw [hadds.parse_eq_ok.mp hparse'] at hparse
            cases hparse
        obtain ⟨line', hparse'⟩ := hparse'
        rw [gateAction_of_malformed hconsult hparse, gateAction_of_malformed hconsult' hparse']
        refine iff_of_true (Nat.le_refl _) ?_
        rintro ⟨root, ds, -, hds, -⟩
        cases hds
      | ok ds =>
        rw [gateAction_of_parse hconsult hparse, gateAction_of_parse hconsult' (hadds.parse_eq_ok.mpr hparse),
          decideAction_le_iff]
        refine not_congr ⟨?_, ?_⟩
        · rintro ⟨hpinned, hsoftens⟩
          exact ⟨_, ds, hconsult, rfl, by simpa using hpinned, hsoftens⟩
        · rintro ⟨root, ds', hok, hds, hpinned, hsoftens⟩
          rw [hconsult] at hok
          cases hok
          cases hds
          exact ⟨by simpa using hpinned, hsoftens⟩

/-! ## The part of root -/

/-- Under a root `enforce` exactly the digests of root's DB run, whatever the user says. -/
theorem proceeds_iff_of_enforce {p : String} {text : Text} (hroot : resolveDefaultDb host = .ok (some (p, text)))
    (hmode : modeFromDb text = some .enforce) (answer : Option Text) :
    proceeds (verifyGate host flags digest tty) answer = true ↔ ∃ ds, Db.parse text = .ok ds ∧ digest ∈ ds := by
  have hconsult := consult_of_enforce hroot hmode flags.pins
  cases hparse : Db.parse text with
  | error line =>
    unfold proceeds
    rw [gateAction_of_malformed hconsult hparse]
    simp
  | ok ds =>
    unfold proceeds
    rw [gateAction_of_parse hconsult hparse]
    by_cases hmem : digest ∈ ds
    · simp [hmem, decideAction]
    · simp [hmem, decideAction, explicitMode]

/-- The DB of the host is missed where no candidate is seen. -/
theorem resolveDefaultDb_eq_none : resolveDefaultDb host = .ok none ↔ ∀ p ∈ (dbPaths host).1, host.exists_ p = false := by
  cases hfind : (dbPaths host).1.find? host.exists_ with
  | none => exact iff_of_true (resolveDefaultDb_of_none hfind) (by simpa using hfind)
  | some q =>
    have hq := List.find?_some hfind
    refine iff_of_false ?_ fun h => by
      rw [h q (List.mem_of_find?_eq_some hfind)] at hq
      cases hq
    rw [resolveDefaultDb_of_some hfind, readDbFile]
    rcases Host.exists_eq_true.mp hq with ⟨t, hfile⟩ | hfile
    · simp only [hfile]
      exact fun h => by cases h
    · simp only [hfile]
      exact fun h => by cases h

/-- A candidate that cannot be read and is seen first is reported. -/
theorem verifyGate_of_unreadable {p : String} (hfirst : (dbPaths host).1.find? host.exists_ = some p)
    (hfile : host.files p = .unreadable) : verifyGate host flags digest tty = .error (.rootUnreadable p) := by
  refine verifyGate_of_error (consult_of_error ?_ _)
  rw [resolveDefaultDb_of_some hfirst, readDbFile, hfile]
  rfl

theorem readPins_eq_error {p : String} {e : Refusal} (h : readPins host p = .error e) : e = .pinsUnreadable p := by
  rw [readPins] at h
  cases hfile : host.files p <;> rw [hfile] at h <;> cases h <;> rfl

theorem resolveDefaultDb_of_consult {p : String} {pins : Option String}
    (h : consult host pins = .error (.rootUnreadable p)) : resolveDefaultDb host = .error (.rootUnreadable p) := by
  rw [consult] at h
  cases hdb : resolveDefaultDb host with
  | error e =>
    rw [hdb] at h
    cases h
    rfl
  | ok db =>
    rw [hdb] at h
    dsimp only [bind, Except.bind] at h
    split at h
    · next q _ =>
      cases hread : readPins host q with
      | error e =>
        rw [hread] at h
        cases h
        cases readPins_eq_error hread
      | ok t =>
        rw [hread] at h
        cases h
    · split at h <;> cases h

theorem consult_of_verifyGate {p : String} (h : verifyGate host flags digest tty = .error (.rootUnreadable p)) :
    consult host flags.pins = .error (.rootUnreadable p) := by
  rw [verifyGate] at h
  cases hconsult : consult host flags.pins with
  | error e =>
    rw [hconsult] at h
    cases h
    rfl
  | ok s =>
    rw [hconsult] at h
    cases hlookup : lookup s digest with
    | error e =>
      dsimp only [bind, Except.bind] at h
      rw [hlookup] at h
      cases h
      rw [lookup] at hlookup
      split at hlookup
      · split at hlookup <;> cases hlookup
      · cases hlookup
    | ok pinned =>
      dsimp only [bind, Except.bind] at h
      rw [hlookup] at h
      cases h

/-- Only a candidate that is seen is reported. -/
theorem exists_of_rootUnreadable {p : String} (h : verifyGate host flags digest tty = .error (.rootUnreadable p)) :
    host.exists_ p = true := by
  have hresolve := resolveDefaultDb_of_consult (consult_of_verifyGate h)
  cases hfind : (dbPaths host).1.find? host.exists_ with
  | none =>
    rw [resolveDefaultDb_of_none hfind] at hresolve
    cases hresolve
  | some q =>
    have hq := List.find?_some hfind
    rw [resolveDefaultDb_of_some hfind, readDbFile] at hresolve
    rcases Host.exists_eq_true.mp hq with ⟨t, hfile⟩ | hfile
    · rw [hfile] at hresolve
      cases hresolve
    · rw [hfile] at hresolve
      cases hresolve
      exact hq

/-- A candidate that cannot be read, no other one being seen before it, is passed over exactly where a directory above
it refuses access. -/
theorem verifyGate_write_absent_iff {p : String} {before after : List String}
    (hsplit : (dbPaths host).1 = before ++ p :: after) (hbefore : ∀ q ∈ before, host.exists_ q = false)
    (hfile : host.files p = .unreadable ∨ host.files p = .shut) :
    verifyGate (host.write p .absent) flags digest tty = verifyGate host flags digest tty ↔ host.files p = .shut := by
  have habsent : (host.write p .absent).exists_ p = false := Host.exists_eq_false.mpr (.inl Host.write_files_self)
  rcases hfile with hfile | hfile
  · have hseen : host.exists_ p = true := Host.exists_eq_true.mpr (.inr hfile)
    have hfirst : (dbPaths host).1.find? host.exists_ = some p := by
      rw [hsplit, List.find?_append, List.find?_eq_none.mpr (by simpa using hbefore), List.find?_cons_of_pos hseen]
      rfl
    rw [verifyGate_of_unreadable hfirst hfile, hfile]
    refine iff_of_false (fun h => ?_) (by simp)
    rw [exists_of_rootUnreadable h] at habsent
    cases habsent
  · -- To the gate a file that is shut off is like one that is absent.
    have hexists : ∀ q, (host.write p .absent).exists_ q = host.exists_ q := by
      intro q
      by_cases hq : q = p
      · rw [hq, habsent, Host.exists_eq_false.mpr (.inr hfile)]
      · rw [Host.exists_, Host.exists_, Host.write_files_of_ne hq]
    have hreadPins : ∀ q, readPins (host.write p .absent) q = readPins host q := by
      intro q
      by_cases hq : q = p
      · rw [readPins, readPins, hq, hfile, Host.write_files_self]
      · rw [readPins, readPins, Host.write_files_of_ne hq]
    have hresolve : resolveDefaultDb (host.write p .absent) = resolveDefaultDb host := by
      refine resolveDefaultDb_congr rfl (fun q _ => hexists q) fun q _ hq => Host.write_files_of_ne ?_
      rintro rfl
      rw [Host.exists_eq_false.mpr (.inr hfile)] at hq
      cases hq
    have hconsult : consult (host.write p .absent) flags.pins = consult host flags.pins := by
      simp only [consult, hresolve, hreadPins]
      rfl
    refine iff_of_true ?_ hfile
    rw [verifyGate, verifyGate, hconsult]

end Gate

/-! ## The policy of the gate -/

/-- The user's part of the policy permits more in two cases only: `--verify warn` turns the refusal of a module that
nobody declares a policy for into a question, and a directive softens the policy of the DB that the user named. A root
`enforce` has the last word. A candidate that cannot be read is noticed exactly where the file itself, and not a directory
above it, refuses access. -/
theorem verifyGate_policy_iff (host : Host) (flags : VerifyFlags) (digest : Digest) (tty : Bool) :
    (∀ m, (∀ m₀ ∈ flags.verify, m₀ ≤ m) →
      (gateAction (verifyGate host { flags with verify := some m } digest tty) ≤
          gateAction (verifyGate host flags digest tty) ↔
        ¬ (Undeclared host flags digest ∧ m = .warn ∧ tty = true ∧ flags.optOut = false))) ∧
    (∀ p text text' m, flags.pins = some p → p ∉ (dbPaths host).1 → host.files p = .file text →
      AddsDirective text m text' →
      (gateAction (verifyGate (host.write p (.file text')) flags digest tty) ≤
          gateAction (verifyGate host flags digest tty) ↔
        ¬ ∃ root ds, consult host (some p) = .ok ⟨root, p, some text⟩ ∧ Db.parse text = .ok ds ∧ digest ∉ ds ∧
            Softens flags.optOut tty (explicitMode root (modeFromDb text) flags.verify)
              (explicitMode root (modeFromDb text') flags.verify))) ∧
    (∀ p text, resolveDefaultDb host = .ok (some (p, text)) → modeFromDb text = some .enforce → ∀ answer,
      (proceeds (verifyGate host flags digest tty) answer = true ↔
        ∃ ds, Db.parse text = .ok ds ∧ digest ∈ ds)) ∧
    (∀ p ∈ (dbPaths host).1, host.files p = .unreadable ∨ host.files p = .shut →
      (resolveDefaultDb host ≠ .ok none ↔ ∃ q ∈ (dbPaths host).1, host.exists_ q = true)) ∧
    ∀ p before after, (dbPaths host).1 = before ++ p :: after → (∀ q ∈ before, host.exists_ q = false) →
      host.files p = .unreadable ∨ host.files p = .shut →
      (verifyGate (host.write p .absent) flags digest tty ≠ verifyGate host flags digest tty ↔
        host.files p = .unreadable) := by
  refine ⟨fun m hm => gateAction_verify_le_iff hm,
    fun p text text' m hpins hp htext hadds => gateAction_directive_le_iff hpins hp htext hadds,
    fun p text hroot hmode answer => proceeds_iff_of_enforce hroot hmode answer, ?_, ?_⟩
  · intro p _ _
    rw [ne_eq, resolveDefaultDb_eq_none]
    push Not
    simp only [Bool.not_eq_false]
  · intro p before after hsplit hbefore hfile
    rw [ne_eq, verifyGate_write_absent_iff hsplit hbefore hfile]
    rcases hfile with h | h <;> simp [h]

/-- With empty DBs and a terminal, a directive of mode `warn` in the DB that the user named turns a refusal into a
question. -/
theorem verifyGate_policy_redirected :
    let host : Host := ⟨none, fun _ => .file []⟩
    let flags : VerifyFlags := ⟨some "pins", none, false⟩
    let digest : Digest := Vector.replicate 32 0
    let text' : Text := ['#', 'm', 'o', 'd', 'e', ':', 'w', 'a', 'r', 'n', '\n']
    ¬ gateAction (verifyGate (host.write "pins" (.file text')) flags digest true) ≤
      gateAction (verifyGate host flags digest true) := by
  intro host flags digest text' hle
  have hadds : AddsDirective [] .warn text' :=
    ⟨[], ['#', 'm', 'o', 'd', 'e', ':', 'w', 'a', 'r', 'n'], [], rfl, rfl, .inl rfl, by decide, rfl⟩
  apply ((verifyGate_policy_iff host flags digest true).2.1 "pins" [] text' .warn rfl (by decide) rfl hadds).mp hle
  exact ⟨none, [], rfl, rfl, List.not_mem_nil, rfl, rfl⟩

/-- With an empty DB of root and a terminal, a module is denied, and asked about under `--verify warn`. -/
theorem verifyGate_warn_softens :
    let host : Host := ⟨none, fun _ => .file []⟩
    let digest : Digest := Vector.replicate 32 0
    gateAction (verifyGate host ⟨none, none, false⟩ digest true) = .deny ∧
      gateAction (verifyGate host ⟨none, some .warn, false⟩ digest true) = .prompt ∧
      ¬ Action.prompt ≤ Action.deny := by
  decide

end Wasmrt
