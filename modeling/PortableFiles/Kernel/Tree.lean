import PortableFiles.FinMap
import PortableFiles.Path.Basic
import PortableFiles.Failure.Errno
import PortableFiles.Mode
set_option autoImplicit false

/-!
# The tree of files

A file system is a table of inodes.  A directory maps names to inodes and knows the directory
above it; every other inode knows nothing of its names, so a file may have several.  An inode
whose last name is gone stays in the table, where whoever has it open still finds it.
-/

namespace PortableFiles

/-- The number of an inode. -/
abbrev InodeId : Type := Nat

/-- The name of a directory entry. -/
abbrev Name : Type := Bytes

/-- A character device. -/
inductive Device where
  /-- Takes every write and keeps nothing. -/
  | null
  /-- Refuses every write for lack of space. -/
  | full
  /-- Has no driver, so that it cannot be opened. -/
  | missing
  deriving DecidableEq, Repr, Inhabited

/-- A device on which files lie. -/
inductive Volume where
  /-- The disk. -/
  | disk
  /-- Where files stand for devices. -/
  | devices
  /-- Where processes show themselves.  No name can be made there. -/
  | processes
  deriving DecidableEq, Repr, Inhabited

/-- The number of a volume. -/
def Volume.number : Volume → Nat
  | .disk => 1
  | .devices => 2
  | .processes => 3

/-- What an inode holds. -/
inductive Content where
  | file (data : Bytes)
  | directory (parent : InodeId) (entries : FinMap Name InodeId)
  | symlink (target : Bytes)
  /-- A link that leads straight to a directory, whatever its path. -/
  | jump (directory : InodeId)
  | fifo
  | socket
  | device (which : Device)
  deriving DecidableEq, Repr, Inhabited

namespace Content

/-- The type of file that a content makes. -/
def fileType : Content → FileType
  | .file _ => .regular
  | .directory .. => .directory
  | .symlink _ | .jump _ => .symlink
  | .fifo => .fifo
  | .socket => .socket
  | .device _ => .charDevice

/-- The entries of a directory. -/
def entries? : Content → Option (FinMap Name InodeId)
  | .directory _ entries => some entries
  | _ => none

/-- Whether this is a directory. -/
def isDirectory (c : Content) : Bool := c.entries?.isSome

/-- The target of a symbolic link. -/
def target? : Content → Option Bytes
  | .symlink target => some target
  | _ => none

/-- The bytes of a regular file. -/
def data? : Content → Option Bytes
  | .file data => some data
  | _ => none

/-- The size that is reported for a content.  That of a directory is arbitrary. -/
def size : Content → Nat
  | .file data => data.length
  | .symlink target => target.length
  | .directory .. => 4096
  | _ => 0

end Content

/-- What nobody may change of a file. -/
inductive Fixed where
  | nothing
  /-- Its permissions. -/
  | permissions
  /-- Its permissions, owners and times, and the entries of a directory. -/
  | everything
  deriving DecidableEq, Repr, Inhabited

/-- A file of any type. -/
structure Inode where
  content : Content
  /-- The twelve permission bits. -/
  perm : UInt32
  uid : Nat
  gid : Nat
  /-- What the file lies on. -/
  volume : Volume
  /-- What nobody may change of it. -/
  fixed : Fixed := .nothing
  deriving DecidableEq, Repr, Inhabited

/-- A file system. -/
structure Tree where
  inodes : FinMap InodeId Inode
  root : InodeId
  deriving DecidableEq, Repr, Inhabited

namespace Tree

/-- The inode with the given number. -/
def inode? (t : Tree) (id : InodeId) : Option Inode := t.inodes.get? id

/-- The content of an inode. -/
def content? (t : Tree) (id : InodeId) : Option Content := (t.inode? id).map (·.content)

/-- The entries of a directory. -/
def entries? (t : Tree) (id : InodeId) : Option (FinMap Name InodeId) :=
  (t.content? id).bind Content.entries?

/-- Whether an inode is a directory. -/
def isDirectory (t : Tree) (id : InodeId) : Bool := (t.entries? id).isSome

/-- The inode that a directory holds under a name. -/
def child? (t : Tree) (dir : InodeId) (name : Name) : Option InodeId :=
  (t.entries? dir).bind fun entries => entries.get? name

/-- The target of a symbolic link. -/
def target? (t : Tree) (id : InodeId) : Option Bytes := (t.content? id).bind Content.target?

/-- The bytes of a regular file. -/
def data? (t : Tree) (id : InodeId) : Option Bytes := (t.content? id).bind Content.data?

/-- The directory above a directory. -/
def parent (t : Tree) (dir : InodeId) : InodeId :=
  match t.content? dir with
  | some (.directory parent _) => parent
  | _ => dir

/-- The name under which a directory holds an inode. -/
def nameOf? (t : Tree) (dir id : InodeId) : Option Name :=
  (t.entries? dir).bind fun entries => entries.findKey? (· = id)

/-- Whether a directory is still part of the tree. -/
def isLinked (t : Tree) (dir : InodeId) : Bool :=
  dir = t.root || (t.nameOf? (t.parent dir) dir).isSome

/-- How many entries of all directories lead to an inode. -/
def links (t : Tree) (id : InodeId) : Nat :=
  t.inodes.entries.foldr (fun e count =>
    match e.2.content.entries? with
    | some entries => (entries.entries.filter fun x => x.2 = id).length + count
    | none => count) 0

/-- The directories from `dir` up, at most `fuel` of them. -/
def lineage (t : Tree) : Nat → InodeId → List InodeId
  | 0, _ => []
  | fuel + 1, dir => dir :: if t.parent dir = dir then [] else t.lineage fuel (t.parent dir)

/-- Whether `above` is `dir` or one of the directories above it. -/
def isWithin (t : Tree) (above dir : InodeId) : Bool :=
  (t.lineage (t.inodes.entries.length + 1) dir).contains above

/-- What a file lies on. -/
def volume (t : Tree) (id : InodeId) : Volume := ((t.inode? id).map (·.volume)).getD default

/-- Whether a directory is the root of a volume below the root of all. -/
def isMount (t : Tree) (dir : InodeId) : Bool :=
  t.isDirectory dir && t.volume (t.parent dir) ≠ t.volume dir

/-! ## Changes -/

/-- The tree with a changed inode. -/
def updateInode (t : Tree) (id : InodeId) (f : Inode → Inode) : Tree :=
  { t with inodes := t.inodes.modify id f }

/-- The tree with changed entries of a directory. -/
def updateEntries (t : Tree) (dir : InodeId) (f : FinMap Name InodeId → FinMap Name InodeId) :
    Tree :=
  t.updateInode dir fun node =>
    match node.content with
    | .directory parent entries => { node with content := .directory parent (f entries) }
    | _ => node

/-- The tree in which a directory holds an inode under a name. -/
def setEntry (t : Tree) (dir : InodeId) (name : Name) (id : InodeId) : Tree :=
  t.updateEntries dir fun entries => entries.insert name id

/-- The tree in which a directory does not hold a name. -/
def removeEntry (t : Tree) (dir : InodeId) (name : Name) : Tree :=
  t.updateEntries dir fun entries => entries.erase name

/-- The tree in which a directory lies in another one. -/
def setParent (t : Tree) (dir parent : InodeId) : Tree :=
  t.updateInode dir fun node =>
    match node.content with
    | .directory _ entries => { node with content := .directory parent entries }
    | _ => node

/-- The number that the next new inode gets. -/
def nextId (t : Tree) : InodeId := t.inodes.fresh

/-- The tree with a new inode that has no name. -/
def addInode (t : Tree) (node : Inode) : Tree :=
  { t with inodes := t.inodes.insert t.nextId node }

/-- The tree with a new inode under a new name. -/
def addEntry (t : Tree) (dir : InodeId) (name : Name) (node : Inode) : Tree :=
  (t.addInode node).setEntry dir name t.nextId

end Tree

end PortableFiles
