import PortableFiles.Capability
import PortableFiles.Lazy
import PortableFiles.Mode
import PortableFiles.Time.Timestamp
set_option autoImplicit false

/-!
# Metadata of files

What is known of a file: the fields of its record, and three fields that may be computed only when
they are first read.  Fields that this build does not support are zero.  Two records describe the
same file if they name the same file of the same partition; names are never compared.
-/

namespace PortableFiles

/-- The id of an owner that has no number. -/
def unknownId : Nat := 18446744073709551615

/-- The names of the user and the group that own a file. -/
structure Owner where
  user : String
  group : String
  deriving DecidableEq, Repr, Inhabited

/-- An owner without names. -/
def Owner.nameless : Owner := ⟨"", ""⟩

/-- The fields of a metadata record as a platform fills them in.  A missing one is computed at
first access. -/
structure FileRecord where
  size : Int
  mode : Mode
  mtime : Timestamp
  atime : Timestamp
  ctime : Timestamp
  btime : Option Timestamp
  changeTime : Option Timestamp
  partition : Nat
  file : Nat
  links : Nat
  uid : Nat
  gid : Nat
  owner : Option Owner
  deriving DecidableEq

/-- Metadata of a file. -/
structure FileInfo where
  /-- The last element of the path. -/
  name : Bytes
  path : Path
  /-- Whether a symbolic link at the path was followed. -/
  follow : Bool
  size : Int
  mode : Mode
  mtime : Timestamp
  atime : Timestamp
  ctime : Timestamp
  btime : Lazy Timestamp
  changeTime : Lazy Timestamp
  partition : Nat
  file : Nat
  links : Nat
  uid : Nat
  gid : Nat
  owner : Lazy Owner
  deriving DecidableEq

namespace FileInfo

/-- The value if this build supports the feature, else the given zero. -/
def gated {α : Type} (feature : Capability) (zero value : α) : α :=
  if supported.contains feature then value else zero

/-- The metadata in a record that was read from a path. -/
def ofRecord (path : Path) (follow : Bool) (r : FileRecord) : FileInfo where
  name := path.baseName
  path := path
  follow := follow
  size := r.size
  mode := r.mode
  mtime := r.mtime
  atime := gated .accessTime .zero r.atime
  ctime := gated .changeTime .zero r.ctime
  btime := .ofOption r.btime
  changeTime := .ofOption r.changeTime
  partition := r.partition
  file := r.file
  links := gated .links 0 r.links
  uid := r.uid
  gid := r.gid
  owner := .ofOption r.owner

/-- Whether the file is a directory. -/
def isDir (i : FileInfo) : Bool := i.mode.isDir

/-- The error of the first lazy field, in the order birth time, change time, owner, whose first
access failed. -/
def error? (i : FileInfo) : Option Error :=
  i.btime.error? <|> i.changeTime.error? <|> i.owner.error?

/-- How a platform computes the fields that a record lacks. -/
structure Resolvers (m : Type → Type) where
  btime : FileInfo → m (Except Error Timestamp)
  changeTime : FileInfo → m (Except Error Timestamp)
  owner : FileInfo → m (Except Error Owner)

variable {m : Type → Type} [Monad m]

/-- The birth time, and the metadata after the access. -/
def readBtime (r : Resolvers m) (i : FileInfo) : m (Timestamp × FileInfo) :=
  if supported.contains .birthTime then do
    let cell ← i.btime.access (r.btime i)
    return (cell.value?.getD .zero, { i with btime := cell })
  else return (.zero, i)

/-- The time of the last change of the metadata, and the metadata after the access. -/
def readChangeTime (r : Resolvers m) (i : FileInfo) : m (Timestamp × FileInfo) := do
  let cell ← i.changeTime.access (r.changeTime i)
  return (cell.value?.getD .zero, { i with changeTime := cell })

/-- The owner, and the metadata after the access. -/
def readOwner (r : Resolvers m) (i : FileInfo) : m (Owner × FileInfo) := do
  let cell ← i.owner.access (r.owner i)
  return (cell.value?.getD .nameless, { i with owner := cell })

/-- The name of the user, and the metadata after the access. -/
def readUser (r : Resolvers m) (i : FileInfo) : m (String × FileInfo) := do
  let (owner, i) ← readOwner r i
  return (owner.user, i)

/-- The name of the group, and the metadata after the access. -/
def readGroup (r : Resolvers m) (i : FileInfo) : m (String × FileInfo) := do
  let (owner, i) ← readOwner r i
  return (owner.group, i)

end FileInfo

/-- Metadata of a file, from this library or from another source. -/
inductive FileMeta where
  /-- Metadata of this library. -/
  | own (info : FileInfo)
  /-- Metadata from elsewhere, which do not know the name of their file. -/
  | foreign (size : Int) (mode : Mode) (mtime : Timestamp)
  deriving DecidableEq

namespace FileMeta

/-- The last element of the path, where it is known. -/
def name : FileMeta → Bytes
  | .own info => info.name
  | .foreign .. => []

/-- The size in bytes. -/
def size : FileMeta → Int
  | .own info => info.size
  | .foreign size .. => size

/-- The mode. -/
def mode : FileMeta → Mode
  | .own info => info.mode
  | .foreign _ mode _ => mode

/-- The time of the last modification. -/
def modTime : FileMeta → Timestamp
  | .own info => info.mtime
  | .foreign _ _ mtime => mtime

/-- Whether the file is a directory. -/
def isDir (x : FileMeta) : Bool := x.mode.isDir

/-- Whether two metadata lie on the same partition.  Metadata from elsewhere never do. -/
def samePartition : FileMeta → FileMeta → Bool
  | .own a, .own b => a.partition = b.partition
  | _, _ => false

/-- Whether two metadata describe the same file.  Metadata from elsewhere never do. -/
def sameFile : FileMeta → FileMeta → Bool
  | .own a, .own b => a.partition = b.partition && a.file = b.file
  | _, _ => false

end FileMeta

end PortableFiles
