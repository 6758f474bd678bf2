import PortableFiles.Kernel.Walk
import PortableFiles.Kernel.Program
set_option autoImplicit false

/-!
# Machines

A machine is a file system with one process on it: the tree of files, their times, and what the
process is and holds.  Times are kept beside the tree, so that two trees are equal exactly when
they hold the same files.
-/

namespace PortableFiles

/-- Where an open file was found.  The place follows the file when its entry is moved, and the
directory when that is moved. -/
inductive Location where
  | root
  | entry (dir : InodeId) (name : Name)
  /-- The entry is gone; this is where it was. -/
  | gone (dir : InodeId) (name : Name)
  deriving DecidableEq, Repr, Inhabited

/-- A file that a process has open. -/
structure OpenFile where
  inode : InodeId
  location : Location
  readable : Bool
  writable : Bool
  /-- Whether every write goes to the end. -/
  appending : Bool
  /-- Where the next write goes otherwise. -/
  offset : Nat
  /-- Whether it only stands for the file, which is not open itself. -/
  reference : Bool := false
  /-- Whether bytes go straight to the device, which takes whole blocks only. -/
  direct : Bool := false
  deriving DecidableEq, Repr, Inhabited

/-- The names of the users and groups that a system knows. -/
structure Accounts where
  users : List (Nat × String)
  groups : List (Nat × String)
  deriving DecidableEq, Repr, Inhabited

/-- What the status of a process shows besides its mask.  It is text in lines, each with a word
that says what it shows. -/
structure StatusLines where
  /-- The lines above that of the mask. -/
  above : List (List Char)
  /-- The text below it. -/
  below : List Char
  /-- None of them shows a mask. -/
  apart : ∀ line ∈ above, '\n' ∉ line ∧ ¬ "Umask:".toList <+: line

/-- The status of a process with a mask, which is shown in four octal digits. -/
def StatusLines.text (s : StatusLines) (mask : UInt32) : String :=
  let shown := "Umask:\t".toList ++ Text.Numeral.padded 4 (Text.Numeral.octal mask.toNat)
  String.ofList ((s.above ++ [shown]).flatMap (· ++ ['\n']) ++ s.below)

/-- A file system and a process on it. -/
structure Machine where
  tree : Tree
  times : FinMap InodeId Times
  /-- The last names of directories whose entries are gone. -/
  lastNames : FinMap InodeId Name
  /-- How often a time was taken. -/
  clock : Nat
  /-- The working directory. -/
  cwd : InodeId
  who : Credentials
  /-- The permissions that new files do not get. -/
  mask : UInt32
  /-- The word in which the process remembers a mask. -/
  rememberedMask : Option UInt32
  statusLines : StatusLines
  environment : List (String × String)
  accounts : Accounts
  files : FinMap Nat OpenFile
  /-- Whether the process may open another file. -/
  mayOpen : Bool
  /-- The random words that the process draws. -/
  draws : Nat → UInt32
  /-- How many of them it has drawn. -/
  drawn : Nat

namespace Machine

/-- The moment at which the clock starts. -/
def clockStart : Nat := 1760000000

/-- The present moment. -/
def now (m : Machine) : Timestamp := (Timestamp.ofParts? clockStart m.clock).getD .zero

/-- The times of a file.  What was there before the clock started has the time of its start. -/
def timesOf (m : Machine) (id : InodeId) : Times :=
  let start := (Timestamp.ofParts? clockStart 0).getD .zero
  (m.times.get? id).getD ⟨start, start, start, start⟩

/-- The machine with changed times of a file, after which the clock goes on. -/
def stamp (m : Machine) (id : InodeId) (f : Timestamp → Times → Times) : Machine :=
  { m with times := m.times.insert id (f m.now (m.timesOf id)), clock := m.clock + 1 }

/-- The machine in which a file has just been made. -/
def stampBirth (m : Machine) (id : InodeId) : Machine := m.stamp id fun t _ => ⟨t, t, t, t⟩

/-- The machine in which the content of a file has just changed. -/
def stampModify (m : Machine) (id : InodeId) : Machine :=
  m.stamp id fun t old => { old with modify := t, change := t }

/-- The machine in which the inode of a file has just changed. -/
def stampChange (m : Machine) (id : InodeId) : Machine :=
  m.stamp id fun t old => { old with change := t }

/-- The machine with another tree. -/
def withTree (m : Machine) (tree : Tree) : Machine := { m with tree := tree }

/-- Where a path leads. -/
def locate (m : Machine) (follow : Bool → Bool) (path : Path) : Except Errno Place :=
  m.tree.locate m.who m.cwd follow path

/-- The inode that a path leads to. -/
def resolve (m : Machine) (follow : Bool → Bool) (path : Path) : Except Errno InodeId :=
  m.tree.resolve m.who m.cwd follow path

/-- Whether the process has a right to an inode. -/
def may (m : Machine) (id : InodeId) (access : Access) : Bool :=
  match m.tree.inode? id with
  | some node => m.who.may node access
  | none => false

/-- The open file with the given number. -/
def file? (m : Machine) (d : Descriptor) : Option OpenFile :=
  if 0 ≤ d.number then m.files.get? d.number.toNat else none

/-- The machine with a changed open file. -/
def setFile (m : Machine) (d : Descriptor) (f : OpenFile) : Machine :=
  { m with files := m.files.insert d.number.toNat f }

/-- A new descriptor for a file, and the machine in which it is open. -/
def openAs (m : Machine) (f : OpenFile) : Descriptor × Machine :=
  (⟨m.files.fresh⟩, { m with files := m.files.insert m.files.fresh f })

/-- The name of a directory, or the last one that it had. -/
def nameOf (m : Machine) (dir : InodeId) : Name :=
  ((m.tree.nameOf? (m.tree.parent dir) dir).or (m.lastNames.get? dir)).getD []

/-- The names that lead from the root to a directory, at most `fuel` of them. -/
def trail (m : Machine) : Nat → InodeId → List Name
  | 0, _ => []
  | fuel + 1, dir =>
    if dir = m.tree.root then []
    else m.trail fuel (m.tree.parent dir) ++ [m.nameOf dir]

/-- The absolute path of a name in a directory. -/
def pathOf (m : Machine) (dir : InodeId) (name : Name) : Path :=
  ⟨(m.trail (m.tree.inodes.entries.length + 1) dir ++ [name]).flatMap fun n => Path.slash :: n⟩

/-- The place at which a directory is found. -/
def locationOf (m : Machine) (dir : InodeId) : Location :=
  if dir = m.tree.root then .root
  else if m.tree.isLinked dir then .entry (m.tree.parent dir) (m.nameOf dir)
  else .gone (m.tree.parent dir) (m.nameOf dir)

/-- The machine after an entry is gone, apart from the tree: open files know that it is, and a
directory keeps its name. -/
def detach (m : Machine) (dir : InodeId) (name : Name) : Machine :=
  { m with
    files := m.files.mapValues fun f =>
      if f.location = .entry dir name then { f with location := .gone dir name } else f
    lastNames :=
      match (m.tree.child? dir name).filter m.tree.isDirectory with
      | some id => m.lastNames.insert id name
      | none => m.lastNames }

/-- The open files after an entry has moved. -/
def relocate (files : FinMap Nat OpenFile) (dir : InodeId) (name : Name) (dir' : InodeId)
    (name' : Name) : FinMap Nat OpenFile :=
  files.mapValues fun f =>
    if f.location = .entry dir name then { f with location := .entry dir' name' } else f

/-- What the file system reports of an inode. -/
def describe (m : Machine) (id : InodeId) : Except Errno Stat :=
  match m.tree.inode? id with
  | some node =>
    .ok {
      type := node.content.fileType
      perm := node.perm
      size := node.content.size
      links := m.tree.links id
      uid := node.uid
      gid := node.gid
      volume := node.volume.number
      file := id
      times := m.timesOf id }
  | none => .error .noEntry

/-- The permissions of a file whose content is changed by somebody without privileges: the bits
that would lend its owner's or group's rights are gone. -/
def withoutLentRights (perm : UInt32) : UInt32 :=
  let perm := perm &&& 0o3777
  if perm &&& 0o010 ≠ 0 then perm &&& 0o5777 else perm

/-- The inode after a change of its content by the process. -/
def changed (m : Machine) (content : Content) (node : Inode) : Inode :=
  { node with
    content := content
    perm := if m.who.privileged then node.perm else withoutLentRights node.perm }

/-- A new inode that the process makes in a directory. -/
def newInode (m : Machine) (dir : InodeId) (content : Content) (perm : UInt32) : Inode :=
  let above := (m.tree.inode? dir).getD default
  let inherits := above.perm &&& 0o2000 ≠ 0
  { content := content
    perm := if inherits && content.isDirectory then perm ||| 0o2000 else perm
    uid := m.who.uid
    gid := if inherits then above.gid else m.who.gid
    volume := above.volume }

/-- The permissions of a new file for which `perm` is asked. -/
def masked (m : Machine) (perm : UInt32) : UInt32 := perm &&& permMask &&& (m.mask ^^^ 0xFFFFFFFF)

/-- Succeeds if the process may change the entries of a directory. -/
def mayChangeEntries (m : Machine) (dir : InodeId) : Except Errno Unit :=
  if !m.tree.isLinked dir then .error .noEntry
  else if (m.tree.inode? dir).any (·.fixed = .everything) then .error .notPermitted
  else if m.may dir .write then .ok ()
  else .error .accessDenied

/-- The machine with a new inode under a new name. -/
def create (m : Machine) (dir : InodeId) (name : Name) (content : Content) (perm : UInt32) :
    Machine :=
  ((m.withTree (m.tree.addEntry dir name (m.newInode dir content perm))).stampBirth
    m.tree.nextId).stampModify dir

end Machine

end PortableFiles
