import Wasmrt.Library.StateChecks
import Wasmrt.Wasi.FdTable

/-!
# The path resolver

A guest names files under a directory it holds. A path is resolved one name at a time: `..` never rises above the
directory, and a symbolic link is expanded through the same loop, an absolute one from the directory again.

## Main definitions

* `World`, `WasiM`: the state of a guest's process with its host, and a computation over it that may fail.
* `walk`: the resolver.
-/

namespace Wasmrt.Wasi

/-! ## The process -/

/-- Where a standard output stream goes. -/
inductive Sink
  | inherit_
  | capture (buf : Bytes)
  deriving DecidableEq

/-- The process that a guest sees, its memory, and the host with what was asked of it. -/
structure World (σ : Type) where
  args : List Bytes
  env : List Bytes
  stdin : Bytes
  stdinPos : ℕ
  stdout : Sink
  stderr : Sink
  exit : Option (BitVec 32)
  fds : FdTable
  /-- Memory 0 of the calling instance. -/
  mem : Option Bytes
  host : σ
  /-- The requests to the host so far. -/
  log : List HostOp

/-- A computation that may fail. What it did before stays. -/
abbrev WasiM (σ : Type) := EStateM Errno (World σ)

variable {σ : Type}

/-- Ask the host. -/
def request (H : Host σ) (op : HostOp) : WasiM σ op.Answer := fun w =>
  .ok (H.answer op w.host).1 { w with host := (H.answer op w.host).2, log := w.log ++ [op] }

/-- Fail with what the host failed with. -/
def orErrno {α : Type} : Except IoError α → WasiM σ α
  | .ok a => pure a
  | .error e => throw (errnoFor e)

/-! ## Paths -/

/-- Where a walk ended: the directory that contains `name`, and the name. -/
structure Walk where
  dir : Path
  name : Bytes
  finalIsSymlink : Bool
  deriving DecidableEq

/-- The name of the directory itself. -/
def dot : Bytes := [46]

/-- The name of the directory above. -/
def dotDot : Bytes := [46, 46]

/-- The path a walk resolved to. -/
def Walk.path (w : Walk) : Path := if w.name = dot then w.dir else w.dir ++ [w.name]

/-- Both separators divide a path. -/
def isSeparator (c : UInt8) : Bool := c == 47 || c == 92

/-- The names of a path. -/
def splitPath (path : Bytes) : List Bytes := path.splitOnP isSeparator

/-- Whether the target of a link names an absolute place: a separator or a drive leads. -/
def isAbsoluteTarget : Bytes → Bool
  | [] => false
  | c :: rest => isSeparator c || rest.head? = some 58

/-- What is left of an absolute target below the root. -/
def stripAbsolute (t : Bytes) : Bytes :=
  let t := if t.tail.head? = some 58 then t.drop 2 else t
  t.dropWhile isSeparator

/-- Whether the names of a relative target climb above the directory that holds the link, from `depth` below it. -/
def escapesFrom (depth : ℕ) : List Bytes → Bool
  | [] => false
  | seg :: rest =>
    if seg.isEmpty || seg = dot then escapesFrom depth rest
    else if seg = dotDot then
      match depth with
      | 0 => true
      | d + 1 => escapesFrom d rest
    else escapesFrom (depth + 1) rest

def escapesRelative (t : Bytes) : Bool := escapesFrom 0 (splitPath t)

/-- A name that would stand for a device, or end the path early. -/
def componentIsForbidden (c : Bytes) : Bool := c.contains 0 || c.contains 58 || c = [63] || c = [63, 63]

/-- Whether some bytes are UTF-8. -/
def isUtf8 (b : Bytes) : Bool := (ByteArray.mk b.toArray).validateUTF8

def bytesToOs (b : Bytes) : WasiM σ Bytes := if isUtf8 b then pure b else throw .inval

def osToBytes (s : Bytes) : WasiM σ Bytes := if isUtf8 s then pure s else throw .inval

/-! ## The walk -/

/-- How many links one resolution follows. -/
def symlinkMax : ℕ := 32

/-- Check on the host that the directory is beneath the root. -/
def verifyBeneath (H : Host σ) (root dir : Path) : WasiM σ Unit := do
  let realRoot ← request H (.canonicalize root) >>= orErrno
  let realDir ← request H (.canonicalize dir) >>= orErrno
  if realRoot.isPrefixOf realDir then pure () else throw .notcapable

/-- The names that are left, below `root ++ stack`. A link is followed by `follow`, if another one may be. -/
def walkNames (H : Host σ) (root : Path) (followFinal : Bool) (follow : Option (List Bytes → Path → WasiM σ Walk)) :
    List Bytes → Path → WasiM σ Walk
  | [], stack => do
    -- The path named the directory itself.
    let dir := root ++ stack
    verifyBeneath H root dir
    pure ⟨dir, dot, false⟩
  | c :: pending, stack =>
    if c.isEmpty || c = dot then walkNames H root followFinal follow pending stack
    else if c = dotDot then
      if stack.isEmpty then throw .notcapable else walkNames H root followFinal follow pending stack.dropLast
    else if componentIsForbidden c then throw .notcapable
    else do
      let name ← bytesToOs c
      let isFinal := pending.isEmpty
      let dir := root ++ stack
      let probe := dir ++ [name]
      match ← request H (.symlinkMetadata probe) with
      | .error e =>
        -- A missing final name can still be created.
        if isFinal && e = .notFound then do
          verifyBeneath H root dir
          pure ⟨dir, name, false⟩
        else throw (errnoFor e)
      | .ok stat =>
        if stat.isSymlink && !(isFinal && !followFinal) then
          match follow with
          | none => throw .loop
          | some next => do
            let target ← request H (.readLink probe) >>= orErrno
            let t ← osToBytes target
            if isAbsoluteTarget t then next (splitPath (stripAbsolute t) ++ pending) []
            else next (splitPath t ++ pending) stack
        else if isFinal then do
          verifyBeneath H root dir
          pure ⟨dir, name, stat.isSymlink⟩
        else if !stat.isDir then throw .notdir
        else walkNames H root followFinal follow pending (stack ++ [name])

/-- The walk with a number of links that may still be followed. -/
def walkLinks (H : Host σ) (root : Path) (followFinal : Bool) : ℕ → List Bytes → Path → WasiM σ Walk
  | 0 => walkNames H root followFinal none
  | budget + 1 => walkNames H root followFinal (some (walkLinks H root followFinal budget))

/-- Resolve a path of the guest beneath `root`. -/
def walk (H : Host σ) (root : Path) (guestPath : Bytes) (followFinal : Bool) : WasiM σ Walk :=
  if guestPath.contains 0 then throw .inval
  else if (splitPath guestPath).any componentIsForbidden then throw .notcapable
  else walkLinks H root followFinal symlinkMax (splitPath guestPath) []

end Wasmrt.Wasi
