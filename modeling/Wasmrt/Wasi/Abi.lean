import Mathlib.Data.BitVec
import Mathlib.Data.FinEnum
import Mathlib.Tactic.Common

/-!
# The preview-1 ABI and the host beneath it

The numbers of WASI preview 1: errors, rights, flags and file types. The file system of the host is reached
through requests: what each answers is up to the host.

## Main definitions

* `Errno`, `Rights`: the errors and the rights of the ABI.
* `HostOp`: a request to the host, with `HostOp.Answer` what comes back.
* `Host`: something that answers requests.
-/

namespace Wasmrt.Wasi

/-! ## Errors -/

/-- What a call fails with. -/
inductive Errno
  | acces | badf | exist | fault | inval | io | isdir | loop | noent | nosys | notdir | notempty | notcapable
  | perm | spipe
  deriving DecidableEq, Repr

/-- The number of an error. Success is 0. -/
def Errno.code : Errno → BitVec 32
  | acces => 2
  | badf => 8
  | exist => 20
  | fault => 21
  | inval => 28
  | io => 29
  | isdir => 31
  | loop => 32
  | noent => 44
  | nosys => 52
  | notdir => 54
  | notempty => 55
  | notcapable => 76
  | perm => 63
  | spipe => 70

/-! ## Rights -/

/-- A set of rights, one bit for each. -/
abbrev Rights := BitVec 64

namespace Rights

def fdDatasync : Rights := .twoPow 64 0
def fdRead : Rights := .twoPow 64 1
def fdSeek : Rights := .twoPow 64 2
def fdFdstatSetFlags : Rights := .twoPow 64 3
def fdSync : Rights := .twoPow 64 4
def fdTell : Rights := .twoPow 64 5
def fdWrite : Rights := .twoPow 64 6
def fdAdvise : Rights := .twoPow 64 7
def fdAllocate : Rights := .twoPow 64 8
def pathCreateDirectory : Rights := .twoPow 64 9
def pathCreateFile : Rights := .twoPow 64 10
def pathLinkSource : Rights := .twoPow 64 11
def pathLinkTarget : Rights := .twoPow 64 12
def pathOpen : Rights := .twoPow 64 13
def fdReaddir : Rights := .twoPow 64 14
def pathReadlink : Rights := .twoPow 64 15
def pathRenameSource : Rights := .twoPow 64 16
def pathRenameTarget : Rights := .twoPow 64 17
def pathFilestatGet : Rights := .twoPow 64 18
def pathFilestatSetSize : Rights := .twoPow 64 19
def pathFilestatSetTimes : Rights := .twoPow 64 20
def fdFilestatGet : Rights := .twoPow 64 21
def fdFilestatSetSize : Rights := .twoPow 64 22
def fdFilestatSetTimes : Rights := .twoPow 64 23
def pathSymlink : Rights := .twoPow 64 24
def pathRemoveDirectory : Rights := .twoPow 64 25
def pathUnlinkFile : Rights := .twoPow 64 26
def pollFdReadwrite : Rights := .twoPow 64 27

/-- Everything a preopen can hand out. -/
def all : Rights := .twoPow 64 29 - 1

/-- The rights that let a guest change the file system. -/
def writeMask : Rights :=
  fdWrite ||| fdAllocate ||| pathCreateDirectory ||| pathCreateFile ||| pathLinkSource ||| pathLinkTarget |||
    pathRenameSource ||| pathRenameTarget ||| pathSymlink ||| pathFilestatSetTimes ||| pathFilestatSetSize |||
    fdFilestatSetSize ||| fdFilestatSetTimes ||| pathRemoveDirectory ||| pathUnlinkFile

/-- A read-only preopen. -/
def readOnly : Rights := all &&& ~~~writeMask

/-- The default of a preopen: everything except planting symbolic links. -/
def readWrite : Rights := all &&& ~~~pathSymlink

/-- `r` carries all of `need`. -/
def Carries (r need : Rights) : Prop := r &&& need = need

instance (r need : Rights) : Decidable (r.Carries need) := inferInstanceAs (Decidable (_ = _))

/-- Every right of `r` is one of `s`. -/
def Within (r s : Rights) : Prop := r &&& s = r

end Rights

/-! ## Flags -/

namespace OFlags

def creat : BitVec 16 := .twoPow 16 0
def directory : BitVec 16 := .twoPow 16 1
def excl : BitVec 16 := .twoPow 16 2
def trunc : BitVec 16 := .twoPow 16 3

end OFlags

/-- `fdflags` that appends. -/
def fdflagsAppend : BitVec 16 := .twoPow 16 0

/-- `lookupflags` that follow a final symbolic link. -/
def lookupSymlinkFollow : BitVec 32 := .twoPow 32 0

/-- The types of a file. -/
inductive FileType
  | unknown | characterDevice | directory | regularFile | symbolicLink
  deriving DecidableEq, Repr

def FileType.code : FileType → UInt8
  | unknown => 0
  | characterDevice => 2
  | directory => 3
  | regularFile => 4
  | symbolicLink => 7

/-! ## The host -/

/-- A string of bytes. -/
abbrev Bytes := List UInt8

/-- A path of the host, as the names from its root down. -/
abbrev Path := List Bytes

/-- An open file of the host. -/
abbrev Handle := ℕ

/-- The failures of the host that the runtime tells apart. -/
inductive IoError
  | notFound | permissionDenied | alreadyExists | invalidInput | unexpectedEof | notDir | isDir | notEmpty | other
  deriving DecidableEq, Repr

/-- The error a failure of the host is reported as. -/
def errnoFor : IoError → Errno
  | .notFound => .noent
  | .permissionDenied => .acces
  | .alreadyExists => .exist
  | .invalidInput => .inval
  | .unexpectedEof => .io
  | .notDir => .notdir
  | .isDir => .isdir
  | .notEmpty => .notempty
  | .other => .io

/-- What the host says about a file. Times are in nanoseconds, 0 where the host has none. -/
structure Metadata where
  isDir : Bool
  isSymlink : Bool
  isFile : Bool
  len : BitVec 64
  accessed : BitVec 64
  modified : BitVec 64
  created : BitVec 64
  deriving DecidableEq

/-- How a file is opened. -/
structure OpenOptions where
  read : Bool
  write : Bool
  create : Bool
  createNew : Bool
  truncate : Bool
  deriving DecidableEq

/-- Where a seek starts. -/
inductive SeekFrom
  | start (offset : BitVec 64)
  | current (offset : BitVec 64)
  | end_ (offset : BitVec 64)
  deriving DecidableEq

/-- A request to the host. -/
inductive HostOp
  | symlinkMetadata (p : Path)
  | metadata (p : Path)
  | readLink (p : Path)
  | canonicalize (p : Path)
  | readDir (p : Path)
  | open_ (p : Path) (opts : OpenOptions)
  | createDir (p : Path)
  | removeDir (p : Path)
  | removeFile (p : Path)
  | symlink (target : Bytes) (link : Path) (targetIsDir : Bool)
  | hardLink (old new : Path)
  | rename (old new : Path)
  | fileMetadata (file : Handle)
  | seek (file : Handle) (from_ : SeekFrom)
  | streamPosition (file : Handle)
  | read (file : Handle) (len : ℕ)
  | write (file : Handle) (data : Bytes)
  | setLen (file : Handle) (size : BitVec 64)
  | writeStd (stderr : Bool) (data : Bytes)
  | nowNanos
  | fillRandom (len : ℕ)
  deriving DecidableEq

/-- What a request answers. The names in a directory come as text, each with its type if the host has one. -/
@[reducible] def HostOp.Answer : HostOp → Type
  | symlinkMetadata _ | metadata _ | fileMetadata _ => Except IoError Metadata
  | readLink _ => Except IoError Bytes
  | canonicalize _ => Except IoError Path
  | readDir _ => Except IoError (List (Bytes × Option FileType))
  | open_ _ _ => Except IoError Handle
  | createDir _ | removeDir _ | removeFile _ | symlink _ _ _ | hardLink _ _ | rename _ _ | setLen _ _
  | writeStd _ _ => Except IoError Unit
  | seek _ _ | streamPosition _ => Except IoError (BitVec 64)
  | read _ _ => Except IoError Bytes
  | write _ _ => Except IoError ℕ
  | nowNanos => BitVec 64
  | fillRandom _ => Bytes

/-- A host: what it answers in each of its states. -/
structure Host (σ : Type) where
  answer (op : HostOp) : σ → op.Answer × σ

end Wasmrt.Wasi
