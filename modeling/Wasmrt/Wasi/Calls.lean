import Wasmrt.Store.Value
import Wasmrt.Wasi.Walk

/-!
# The calls of WASI preview 1

Each call takes its arguments as values of the engine and answers an error number. `dispatch` routes a call: what
concerns a standard stream by its number is kept by the process itself, the rest goes to the table of descriptors.

## Main definitions

* `WasiFunc`: the calls, and `Outcome`: how one ends.
* `dispatch`: what a call does.
-/

namespace Wasmrt.Wasi

variable {σ : Type}

/-- Fail if something is wrong. -/
def refuseIf (bad : Bool) (e : Errno) : WasiM σ Unit := if bad then throw e else pure ()

/-! ## Guest memory -/

/-- Some bytes of guest memory. -/
def guestRead (addr len : ℕ) : WasiM σ Bytes := do
  match (← get).mem with
  | some bytes => if addr + len ≤ bytes.length then pure ((bytes.drop addr).take len) else throw .fault
  | none => throw .fault

/-- Write some bytes to guest memory, all or none. -/
def guestWrite (addr : ℕ) (data : Bytes) : WasiM σ Unit := do
  match (← get).mem with
  | some bytes =>
    if addr + data.length ≤ bytes.length then
      modify fun w => { w with mem := some (bytes.take addr ++ data ++ bytes.drop (addr + data.length)) }
    else throw .fault
  | none => throw .fault

/-- The number that some bytes spell, the lowest first. -/
def leNat (b : Bytes) : ℕ := b.foldr (fun x n => x.toNat + 256 * n) 0

/-- The `n` lowest bytes of a number. -/
def leBytes (n x : ℕ) : Bytes := (List.range n).map fun i => UInt8.ofNat (x / 256 ^ i)

def readU32 (addr : ℕ) : WasiM σ ℕ := leNat <$> guestRead addr 4

def writeU32 (addr v : ℕ) : WasiM σ Unit := guestWrite addr (leBytes 4 v)

def writeU64 (addr v : ℕ) : WasiM σ Unit := guestWrite addr (leBytes 8 v)

/-- An address `k` further on. It must be one of 32 bits. -/
def checkedAdd (addr k : ℕ) : WasiM σ ℕ := if addr + k < 2 ^ 32 then pure (addr + k) else throw .fault

/-- The vectors of an array: a pointer and a length each. -/
def readIovecs (ptr count : ℕ) : WasiM σ (List (ℕ × ℕ)) := do
  let _ ← guestRead ptr (count * 8)
  (List.range count).mapM fun i => do
    let base ← checkedAdd ptr (i * 8)
    let p ← readU32 base
    let len ← readU32 (← checkedAdd base 4)
    pure (p, len)

/-! ## Arguments -/

def arg (args : List Value) (i : ℕ) : BitVec 32 := (args[i]?.map asI32).getD 0

def arg64 (args : List Value) (i : ℕ) : BitVec 64 := (args[i]?.map asI64).getD 0

/-- An argument as an unsigned number. -/
def argU (args : List Value) (i : ℕ) : ℕ := (arg args i).toNat

/-- The largest `u32`. -/
def u32Max : ℕ := 2 ^ 32 - 1

def saturatingAdd (a b : ℕ) : ℕ := min (a + b) u32Max

/-! ## The standard streams -/

def isStdio (fd : BitVec 32) : Bool := fd = 0 || fd = 1 || fd = 2

/-- Write to the standard output or error stream. -/
def sinkWrite (H : Host σ) (stderr : Bool) (data : Bytes) : WasiM σ (Except IoError Unit) := do
  let w ← get
  match if stderr then w.stderr else w.stdout with
  | .capture buf =>
    let sink := Sink.capture (buf ++ data)
    set (if stderr then { w with stderr := sink } else { w with stdout := sink })
    pure (.ok ())
  | .inherit_ => request H (.writeStd stderr data)

/-- Write the vectors one by one. A failure leaves what went out before it as the count. -/
def writeVecs (H : Host σ) (stderr : Bool) (nwritten : ℕ) : ℕ → List (ℕ × ℕ) → WasiM σ ℕ
  | total, [] => pure total
  | total, (ptr, len) :: rest => do
    let chunk ← guestRead ptr len
    match ← sinkWrite H stderr chunk with
    | .error e => do
      writeU32 nwritten total
      throw (errnoFor e)
    | .ok () => writeVecs H stderr nwritten (saturatingAdd total len) rest

def fdWrite (H : Host σ) (args : List Value) : WasiM σ Unit := do
  let fd := arg args 0
  refuseIf (fd ≠ 1 && fd ≠ 2) .badf
  let vecs ← readIovecs (argU args 1) (argU args 2)
  let total ← writeVecs H (fd = 2) (argU args 3) 0 vecs
  writeU32 (argU args 3) total

/-- Fill the vectors from the standard input stream. An empty vector is not its end. -/
def readVecs : ℕ → List (ℕ × ℕ) → WasiM σ ℕ
  | total, [] => pure total
  | total, (ptr, len) :: rest =>
    if len = 0 then readVecs total rest
    else do
      let w ← get
      let chunk := (w.stdin.drop w.stdinPos).take len
      if chunk.isEmpty then pure total
      else do
        guestWrite ptr chunk
        -- Consumed only once the bytes are in guest memory.
        modify fun w => { w with stdinPos := w.stdinPos + chunk.length }
        readVecs (saturatingAdd total chunk.length) rest

def fdRead (args : List Value) : WasiM σ Unit := do
  refuseIf (arg args 0 ≠ 0) .badf
  let vecs ← readIovecs (argU args 1) (argU args 2)
  let total ← readVecs 0 vecs
  writeU32 (argU args 3) total

/-! ## Arguments and environment of the process -/

def sizesGet (items : List Bytes) (args : List Value) : WasiM σ Unit := do
  writeU32 (argU args 0) items.length
  writeU32 (argU args 1) ((items.map fun a => a.length + 1).sum % 2 ^ 32)

/-- Write the strings from `cursor` on, each ended by a zero, and where they stand from `slot` on. -/
def writeStrings : ℕ → ℕ → List Bytes → WasiM σ Unit
  | _, _, [] => pure ()
  | slot, cursor, item :: rest => do
    let slot ← checkedAdd slot 0
    writeU32 slot cursor
    guestWrite cursor (item ++ [0])
    let next ← checkedAdd cursor (item.length + 1)
    writeStrings (slot + 4) next rest

def stringsGet (items : List Bytes) (args : List Value) : WasiM σ Unit :=
  writeStrings (argU args 0) (argU args 1) items

/-! ## Descriptors -/

/-- The entry of a directory that carries the rights in need, and the walk of a path beneath it. -/
def resolve (H : Host σ) (fd : BitVec 32) (need : Rights) (ptr len : ℕ) (followFinal : Bool) : WasiM σ Walk := do
  match (← get).fds.get fd with
  | none => throw .badf
  | some (.dir d) =>
    refuseIf (need ≠ 0 && d.rightsBase &&& need ≠ need) .notcapable
    let path ← guestRead ptr len
    walk H d.host path followFinal
  | some _ => throw .notdir

def filetypeOf (m : Metadata) : FileType :=
  if m.isDir then .directory
  else if m.isSymlink then .symbolicLink
  else if m.isFile then .regularFile
  else .unknown

/-- The bytes of a `filestat`. -/
def filestat (ft : FileType) (nlink : ℕ) (len accessed modified created : BitVec 64) : Bytes :=
  leBytes 16 0 ++ ft.code :: leBytes 7 0 ++ leBytes 8 nlink ++ leBytes 8 len.toNat ++ leBytes 8 accessed.toNat ++
    leBytes 8 modified.toNat ++ leBytes 8 created.toNat

def writeFilestat (buf : ℕ) (m : Metadata) : WasiM σ Unit :=
  guestWrite buf (filestat (filetypeOf m) 1 m.len m.accessed m.modified m.created)

/-- A stream has no file behind it. -/
def writeCharFilestat (buf : ℕ) : WasiM σ Unit := guestWrite buf (filestat .characterDevice 0 0 0 0 0)

def fdPrestatGet (args : List Value) : WasiM σ Unit := do
  match (← get).fds.get (arg args 0) with
  | some (.dir ⟨_, some name, _, _⟩) => guestWrite (argU args 1) (leBytes 4 0 ++ leBytes 4 (min name.length u32Max))
  | _ => throw .badf

def fdPrestatDirName (args : List Value) : WasiM σ Unit := do
  match (← get).fds.get (arg args 0) with
  | some (.dir ⟨_, some name, _, _⟩) =>
    refuseIf (argU args 2 < name.length) .inval
    guestWrite (argU args 1) name
  | _ => throw .badf

/-- The bytes of a `fdstat`. -/
def fdstat (ft : FileType) (flags : BitVec 16) (base inheriting : Rights) : Bytes :=
  [ft.code, 0] ++ leBytes 2 flags.toNat ++ leBytes 4 0 ++ leBytes 8 base.toNat ++ leBytes 8 inheriting.toNat

/-- The `fdstat` of an entry. -/
def FdEntry.fdstat : FdEntry → Bytes
  | .dir d => Wasi.fdstat .directory 0 d.rightsBase d.rightsInheriting
  | .file f =>
    Wasi.fdstat .regularFile (if f.append then fdflagsAppend else 0) f.rightsBase f.rightsInheriting
  | _ => Wasi.fdstat .characterDevice 0 Rights.all Rights.all

def fdFdstatGet (args : List Value) : WasiM σ Unit := do
  match (← get).fds.get (arg args 0) with
  | none => throw .badf
  | some e => guestWrite (argU args 1) e.fdstat

def fdFilestatGet (H : Host σ) (args : List Value) : WasiM σ Unit := do
  match (← get).fds.get (arg args 0) with
  | some (.file f) =>
    refuseIf (f.rightsBase &&& Rights.fdFilestatGet = 0) .notcapable
    let m ← request H (.fileMetadata f.file) >>= orErrno
    writeFilestat (argU args 1) m
  | some (.dir d) =>
    refuseIf (d.rightsBase &&& Rights.fdFilestatGet = 0) .notcapable
    let m ← request H (.metadata d.host) >>= orErrno
    writeFilestat (argU args 1) m
  | some _ => writeCharFilestat (argU args 1)
  | none => throw .badf

/-- Where a seek starts. -/
def seekFrom (whence : BitVec 8) (offset : BitVec 64) : Option SeekFrom :=
  if whence = 0 then some (.start offset)
  else if whence = 1 then some (.current offset)
  else if whence = 2 then some (.end_ offset)
  else none

/-- Seek in a file. -/
def seekFile (H : Host σ) (f : FileFd) (args : List Value) : WasiM σ Unit := do
  refuseIf (f.rightsBase &&& Rights.fdSeek = 0) .notcapable
  match seekFrom ((arg args 2).setWidth 8) (arg64 args 1) with
  | none => throw .inval
  | some from_ => do
    let pos ← request H (.seek f.file from_) >>= orErrno
    writeU64 (argU args 3) pos.toNat

def fdSeek (H : Host σ) (args : List Value) : WasiM σ Unit := do
  match (← get).fds.get (arg args 0) with
  | some (.file f) => seekFile H f args
  | _ => throw .spipe

def fdTell (H : Host σ) (args : List Value) : WasiM σ Unit := do
  match (← get).fds.get (arg args 0) with
  | some (.file f) =>
    refuseIf (f.rightsBase &&& Rights.fdTell = 0) .notcapable
    let pos ← request H (.streamPosition f.file) >>= orErrno
    writeU64 (argU args 1) pos.toNat
  | _ => throw .spipe

/-- Read the vectors from a file, up to its end: what was read for each, and the first failure. -/
def readChunks (H : Host σ) (file : Handle) : List (ℕ × ℕ) → WasiM σ (List (ℕ × Bytes) × Option Errno)
  | [] => pure ([], none)
  | (ptr, len) :: rest =>
    if len = 0 then readChunks H file rest
    else do
      match ← request H (.read file len) with
      | .error e => pure ([], some (errnoFor e))
      | .ok buf =>
        if buf.isEmpty then pure ([], none)
        else if buf.length < len then pure ([(ptr, buf)], none)
        else do
          let (chunks, failed) ← readChunks H file rest
          pure ((ptr, buf) :: chunks, failed)

/-- Move a file to a position for one transfer. The position it had is given back. -/
def seekFor (H : Host σ) (f : FileFd) : Option (BitVec 64) → WasiM σ (Option (BitVec 64))
  | some off => do
    let p ← request H (.streamPosition f.file) >>= orErrno
    let _ ← request H (.seek f.file (.start off)) >>= orErrno
    pure (some p)
  | none => pure none

/-- Move a file back. -/
def seekBack (H : Host σ) (f : FileFd) : Option (BitVec 64) → WasiM σ Unit
  | some p => do
    let _ ← request H (.seek f.file (.start p))
    pure ()
  | none => pure ()

/-- Read a file into the vectors and write the count to `out`. -/
def readFile (H : Host σ) (f : FileFd) (vecs : List (ℕ × ℕ)) (out : ℕ) (at_ : Option (BitVec 64)) : WasiM σ Unit := do
  refuseIf (f.rightsBase &&& Rights.fdRead = 0) .notcapable
  let saved ← seekFor H f at_
  let (chunks, failed) ← readChunks H f.file vecs
  seekBack H f saved
  match failed with
  | some e => throw e
  | none => do
    chunks.forM fun c => guestWrite c.1 c.2
    writeU32 out (chunks.foldl (fun total c => saturatingAdd total c.2.length) 0)

/-- The argument that says where the count goes. -/
def countArg (at_ : Option (BitVec 64)) : ℕ := if at_.isSome then 4 else 3

def fdReadFile (H : Host σ) (args : List Value) (at_ : Option (BitVec 64)) : WasiM σ Unit := do
  let vecs ← readIovecs (argU args 1) (argU args 2)
  match (← get).fds.get (arg args 0) with
  | some (.file f) => readFile H f vecs (argU args (countArg at_)) at_
  | _ => throw .badf

/-- Move a file to its end if it is written by appending. -/
def seekEnd (H : Host σ) (f : FileFd) (append : Bool) : WasiM σ Unit :=
  if append then do
    let _ ← request H (.seek f.file (.end_ 0)) >>= orErrno
    pure ()
  else pure ()

/-- Write some bytes to a file and the count to `out`. -/
def writeFile (H : Host σ) (f : FileFd) (data : Bytes) (out : ℕ) (at_ : Option (BitVec 64)) : WasiM σ Unit := do
  refuseIf (f.rightsBase &&& Rights.fdWrite = 0) .notcapable
  let saved ← seekFor H f at_
  seekEnd H f (at_.isNone && f.append)
  let written ← request H (.write f.file data)
  seekBack H f saved
  let k ← orErrno written
  writeU32 out k

/-- The bytes of the vectors. -/
def gather (vecs : List (ℕ × ℕ)) : WasiM σ Bytes := List.flatten <$> vecs.mapM fun v => guestRead v.1 v.2

def fdWriteFile (H : Host σ) (args : List Value) (at_ : Option (BitVec 64)) : WasiM σ Unit := do
  let vecs ← readIovecs (argU args 1) (argU args 2)
  let data ← gather vecs
  match (← get).fds.get (arg args 0) with
  | some (.file f) => writeFile H f data (argU args (countArg at_)) at_
  | _ => throw .badf

def fdFilestatSetSize (H : Host σ) (args : List Value) : WasiM σ Unit := do
  match (← get).fds.get (arg args 0) with
  | some (.file f) =>
    refuseIf (f.rightsBase &&& Rights.fdFilestatSetSize = 0) .notcapable
    request H (.setLen f.file (arg64 args 1)) >>= orErrno
  | _ => throw .badf

/-- The bytes of the entries of a directory, each with the number of the next one, until there are `bufLen`. -/
def direntBytes (bufLen : ℕ) (blob : Bytes) : List (ℕ × Bytes × FileType) → Bytes
  | [] => blob
  | (i, name, ft) :: rest =>
    if bufLen ≤ blob.length then blob
    else direntBytes bufLen
      (blob ++ leBytes 8 (i + 1) ++ leBytes 8 0 ++ leBytes 4 name.length ++ ft.code :: leBytes 3 0 ++ name) rest

def fdReaddir (H : Host σ) (args : List Value) : WasiM σ Unit := do
  match (← get).fds.get (arg args 0) with
  | some (.dir d) =>
    refuseIf (d.rightsBase &&& Rights.fdReaddir = 0) .notcapable
    let listed ← request H (.readDir d.host) >>= orErrno
    let entries := (dot, FileType.directory) :: (dotDot, .directory) ::
      listed.map fun e => (e.1, e.2.getD .unknown)
    let bufLen := argU args 2
    let numbered := ((List.range entries.length).zip entries).drop (arg64 args 3).toNat
    let blob := (direntBytes bufLen [] numbered).take bufLen
    guestWrite (argU args 1) blob
    writeU32 (argU args 4) blob.length
  | _ => throw .badf

/-! ## Paths -/

/-- Install an entry and tell the guest its number. -/
def install (e : FdEntry) (out : ℕ) : WasiM σ Unit := do
  let w ← get
  let (fd, fds) := w.fds.insert e
  set { w with fds }
  writeU32 out fd

/-- Create a file that is not to be written. -/
def createFirst (H : Host σ) (host : Path) (needed : Bool) : WasiM σ Unit :=
  if needed then do
    let _ ← request H (.open_ host ⟨false, true, true, false, false⟩) >>= orErrno
    pure ()
  else pure ()

/-- Open what a walk from a directory ended at. -/
def openAt (H : Host σ) (d : DirFd) (host : Path) (args : List Value) : WasiM σ Unit := do
  let oflag : BitVec 16 := (arg args 4).setWidth 16
  let fdflag : BitVec 16 := (arg args 7).setWidth 16
  let out := argU args 8
  -- A new descriptor holds no more than the directory passes down.
  let base := arg64 args 5 &&& d.rightsInheriting
  let inheriting := arg64 args 6 &&& d.rightsInheriting
  let creat : Bool := oflag &&& OFlags.creat ≠ 0
  let excl : Bool := oflag &&& OFlags.excl ≠ 0
  let trunc : Bool := oflag &&& OFlags.trunc ≠ 0
  let wantDir : Bool := oflag &&& OFlags.directory ≠ 0
  refuseIf ((creat || trunc) && d.rightsInheriting &&& Rights.pathCreateFile = 0) .notcapable
  let existing ← request H (.symlinkMetadata host)
  let asDir := FdEntry.dir ⟨host, none, base, inheriting⟩
  if wantDir then
    match existing.toOption with
    | some m => if m.isDir then install asDir out else throw .notdir
    | none => throw .noent
  else if existing.toOption.any (·.isDir) then install asDir out
  else do
    refuseIf (excl && existing.toOption.isSome) .exist
    let writable : Bool := base &&& (Rights.fdWrite ||| Rights.fdAllocate) ≠ 0
    refuseIf (trunc && !writable) .inval
    -- A file that is created but not to be written is created first, then opened as the guest asked.
    createFirst H host (creat && !writable && existing.toOption.isNone)
    let file ← request H (.open_ host {
      read := base &&& Rights.fdRead ≠ 0 || !writable
      write := writable
      create := creat && writable
      createNew := creat && excl && writable
      truncate := trunc && writable }) >>= orErrno
    install (.file ⟨file, base, inheriting, fdflag &&& fdflagsAppend ≠ 0⟩) out

def pathOpen (H : Host σ) (args : List Value) : WasiM σ Unit := do
  let dirfd := arg args 0
  let follow : Bool := arg args 1 &&& lookupSymlinkFollow ≠ 0
  let w ← resolve H dirfd Rights.pathOpen (argU args 2) (argU args 3) follow
  refuseIf (!follow && w.finalIsSymlink) .loop
  match (← get).fds.get dirfd with
  | some (.dir d) => openAt H d w.path args
  | _ => throw .badf

def pathCreateDirectory (H : Host σ) (args : List Value) : WasiM σ Unit := do
  let w ← resolve H (arg args 0) Rights.pathCreateDirectory (argU args 1) (argU args 2) false
  request H (.createDir w.path) >>= orErrno

def pathRemoveDirectory (H : Host σ) (args : List Value) : WasiM σ Unit := do
  let w ← resolve H (arg args 0) Rights.pathRemoveDirectory (argU args 1) (argU args 2) false
  request H (.removeDir w.path) >>= orErrno

def pathUnlinkFile (H : Host σ) (args : List Value) : WasiM σ Unit := do
  let w ← resolve H (arg args 0) Rights.pathUnlinkFile (argU args 1) (argU args 2) false
  let m ← request H (.symlinkMetadata w.path)
  refuseIf (m.toOption.any (·.isDir)) .isdir
  request H (.removeFile w.path) >>= orErrno

/-- The metadata of a path, of what a final link leads to if it is followed. -/
def statPath (H : Host σ) (follow : Bool) (p : Path) : WasiM σ (Except IoError Metadata) :=
  if follow then request H (.metadata p) else request H (.symlinkMetadata p)

def pathFilestatGet (H : Host σ) (args : List Value) : WasiM σ Unit := do
  let follow : Bool := arg args 1 &&& lookupSymlinkFollow ≠ 0
  let w ← resolve H (arg args 0) Rights.pathFilestatGet (argU args 2) (argU args 3) follow
  let m ← statPath H follow w.path >>= orErrno
  writeFilestat (argU args 4) m

def pathReadlink (H : Host σ) (args : List Value) : WasiM σ Unit := do
  let w ← resolve H (arg args 0) Rights.pathReadlink (argU args 1) (argU args 2) false
  let target ← request H (.readLink w.path) >>= orErrno
  let bytes ← osToBytes target
  let bytes := bytes.take (argU args 4)
  guestWrite (argU args 3) bytes
  writeU32 (argU args 5) bytes.length

def pathSymlink (H : Host σ) (args : List Value) : WasiM σ Unit := do
  let target ← guestRead (argU args 0) (argU args 1)
  refuseIf (isAbsoluteTarget target || escapesRelative target) .notcapable
  let w ← resolve H (arg args 2) Rights.pathSymlink (argU args 3) (argU args 4) false
  let t ← bytesToOs target
  let m ← request H (.metadata (w.dir ++ (splitPath t).filter fun c => !c.isEmpty && c ≠ dot))
  request H (.symlink t w.path (m.toOption.any (·.isDir))) >>= orErrno

def pathRenameOrLink (H : Host σ) (args : List Value) (link : Bool) : WasiM σ Unit := do
  let s := if link then 1 else 0
  let (needSrc, needDst) :=
    if link then (Rights.pathLinkSource, Rights.pathLinkTarget)
    else (Rights.pathRenameSource, Rights.pathRenameTarget)
  let old ← resolve H (arg args 0) needSrc (argU args (1 + s)) (argU args (2 + s)) false
  let new ← resolve H (arg args (3 + s)) needDst (argU args (4 + s)) (argU args (5 + s)) false
  if link then request H (.hardLink old.path new.path) >>= orErrno
  else request H (.rename old.path new.path) >>= orErrno

/-! ## Routing -/

/-- The calls. What is not implemented is `unknown`. -/
inductive WasiFunc
  | procExit
  | fdWrite | fdRead | fdPwrite | fdPread | fdClose | fdRenumber | fdSeek | fdTell | fdFdstatGet | fdFdstatSetFlags
  | fdFilestatGet | fdFilestatSetSize | fdReaddir | fdPrestatGet | fdPrestatDirName
  | pathOpen | pathCreateDirectory | pathRemoveDirectory | pathUnlinkFile | pathFilestatGet | pathReadlink
  | pathSymlink | pathRename | pathLink
  | schedYield | fdAdvise | fdSync | fdDatasync
  | fdAllocate | fdFilestatSetTimes | pathFilestatSetTimes
  | argsSizesGet | argsGet | environSizesGet | environGet
  | clockTimeGet | clockResGet | randomGet
  | unknown
  deriving DecidableEq, Repr

/-- Change the table of descriptors. A number that is not open is an error. -/
def onTable (f : FdTable → Bool × FdTable) : WasiM σ Unit := do
  let w ← get
  set { w with fds := (f w.fds).2 }
  if (f w.fds).1 then pure () else throw .badf

/-- What a call does. The end of the process is apart. -/
def dispatchFunc (H : Host σ) (args : List Value) : WasiFunc → WasiM σ Unit
  -- The streams live in the process, not in the table. Anything else is a file.
  | .fdWrite => if isStdio (arg args 0) then fdWrite H args else fdWriteFile H args none
  | .fdRead => if isStdio (arg args 0) then fdRead args else fdReadFile H args none
  | .fdPwrite => fdWriteFile H args (some (arg64 args 3))
  | .fdPread => fdReadFile H args (some (arg64 args 3))
  | .fdClose => if isStdio (arg args 0) then pure () else onTable (·.close (arg args 0))
  | .fdRenumber => onTable (·.renumber (arg args 0) (arg args 1))
  | .fdSeek => fdSeek H args
  | .fdTell => fdTell H args
  | .fdFdstatGet => fdFdstatGet args
  | .fdFdstatSetFlags => onTable (·.setFlags (arg args 0) ((arg args 1).setWidth 16))
  | .fdFilestatGet => fdFilestatGet H args
  | .fdFilestatSetSize => fdFilestatSetSize H args
  | .fdReaddir => fdReaddir H args
  | .fdPrestatGet => fdPrestatGet args
  | .fdPrestatDirName => fdPrestatDirName args
  | .pathOpen => pathOpen H args
  | .pathCreateDirectory => pathCreateDirectory H args
  | .pathRemoveDirectory => pathRemoveDirectory H args
  | .pathUnlinkFile => pathUnlinkFile H args
  | .pathFilestatGet => pathFilestatGet H args
  | .pathReadlink => pathReadlink H args
  | .pathSymlink => pathSymlink H args
  | .pathRename => pathRenameOrLink H args false
  | .pathLink => pathRenameOrLink H args true
  | .schedYield | .fdAdvise | .fdSync | .fdDatasync => pure ()
  | .argsSizesGet => do sizesGet (← get).args args
  | .argsGet => do stringsGet (← get).args args
  | .environSizesGet => do sizesGet (← get).env args
  | .environGet => do stringsGet (← get).env args
  | .clockTimeGet => do
    let now ← request H .nowNanos
    writeU64 (argU args 2) now.toNat
  | .clockResGet => writeU64 (argU args 1) 1000
  | .randomGet => do
    -- Nothing that the guest cannot receive is generated.
    let _ ← guestRead (argU args 0) (argU args 1)
    let bytes ← request H (.fillRandom (argU args 1))
    guestWrite (argU args 0) bytes
  | .fdAllocate | .fdFilestatSetTimes | .pathFilestatSetTimes | .procExit | .unknown => throw .nosys

/-- How a call ends: with an error number or none, or with the end of the process. -/
inductive Outcome
  | success
  | failed (e : Errno)
  | trapped
  deriving DecidableEq

/-- What the guest is told of a computation. -/
def finish (x : WasiM σ Unit) (w : World σ) : Outcome × World σ :=
  match x w with
  | .ok () w' => (.success, w')
  | .error e w' => (.failed e, w')

/-- A call of the guest. -/
def dispatch (H : Host σ) (f : WasiFunc) (args : List Value) (w : World σ) : Outcome × World σ :=
  match f with
  | .procExit => (.trapped, { w with exit := some (arg args 0) })
  | _ => finish (dispatchFunc H args f) w

/-- A call of the guest, with what is in its memory then. -/
structure GuestCall where
  func : WasiFunc
  args : List Value
  mem : Option Bytes

/-- The world that a call starts in. The guest may have written to its memory. -/
def GuestCall.start (c : GuestCall) (w : World σ) : World σ := { w with mem := c.mem }

end Wasmrt.Wasi
