import PortableFiles.Kernel.Machine
set_option autoImplicit false

/-!
# Calls on files

Opening, writing, describing and closing, and the calls that change a file and not its names.
Each call gives its value and the machine after it, or an error number; a call that fails has
changed nothing.
-/

namespace PortableFiles

/-- Whether opening follows a symbolic link at the end of a path, given whether a separator comes
after it.  A separator at the end is refused where a file could be made, and nothing is followed
where the file must be missing. -/
def OpenHow.follows (how : OpenHow) (slash : Bool) : Bool :=
  if how.create then !slash && !how.exclusive && !how.noFollow else slash || !how.noFollow

namespace GivenTime

/-- Whether it asks for the present moment. -/
def isNow (g : GivenTime) : Bool := g.nanos = 1073741823

/-- Whether it asks for no change. -/
def isSame (g : GivenTime) : Bool := g.nanos = 1073741822

/-- The time that a file gets, given the present moment and the time it has.  The disk keeps
seconds from `-2^31` to `2^34 - 2^31 - 1`, and no fraction at the two ends. -/
def resolve? (g : GivenTime) (now old : Timestamp) : Option Timestamp :=
  if g.isNow then some now
  else if g.isSame then some old
  else if g.nanos < 0 ∨ nanosPerSecond ≤ g.nanos then none
  else if g.secs ≤ -2147483648 then Timestamp.ofParts? (-2147483648) 0
  else if 15032385535 ≤ g.secs then Timestamp.ofParts? 15032385535 0
  else Timestamp.ofParts? g.secs g.nanos

end GivenTime

/-- Whether the wishes go together: opening does not make a directory, and a file without a name
is made for writing, in what must be a directory. -/
def OpenHow.isSound (how : OpenHow) : Bool :=
  !(how.create && how.directory) && (!how.unnamed || (how.directory && how.write))

/-- The open file for an inode. -/
def OpenHow.file (how : OpenHow) (id : InodeId) (location : Location) : OpenFile where
  inode := id
  location := location
  readable := how.read && !how.idle
  writable := how.write && !how.idle
  appending := how.append
  offset := 0
  reference := how.reference
  direct := how.direct

namespace Machine

/-- Whether the process has the rights of a file's owner. -/
def owns (m : Machine) (node : Inode) : Bool := m.who.privileged || m.who.uid = node.uid

/-- Succeeds if the process may open an inode for more than standing for it. -/
def mayOpenInode (m : Machine) (how : OpenHow) (node : Inode) : Except Errno Unit :=
  let changes := how.write || how.truncate
  if node.content.isDirectory && (changes || how.create) then .error .isDirectory
  else if (how.read && !m.who.may node .read) || (changes && !m.who.may node .write) then
    .error .accessDenied
  else if how.keepAccess && !m.owns node then .error .notPermitted
  else
    match node.content with
    | .symlink _ | .jump _ => .error .tooManyLinks
    | .fifo | .socket | .device .missing => .error .noDevice
    | .file _ => if how.direct && node.volume = .processes then .error .invalid else .ok ()
    | .directory .. | .device _ => if how.direct then .error .invalid else .ok ()

/-- Opens an inode that exists. -/
def openExisting (m : Machine) (how : OpenHow) (id : InodeId) (location : Location) :
    Except Errno (Descriptor × Machine) := do
  match m.tree.inode? id with
  | none => .error .noEntry
  | some node =>
    if how.directory && !node.content.isDirectory then .error .notDirectory
    else if how.reference then
      if node.content.fileType = .symlink && !how.noFollow then .error .tooManyLinks
      else .ok (m.openAs (how.file id location))
    else
      m.mayOpenInode how node
      if how.truncate && node.content.data?.isSome then
        .ok (((m.withTree (m.tree.updateInode id (m.changed (.file [])))).stampModify id).openAs
          (how.file id location))
      else .ok (m.openAs (how.file id location))

/-- Opens a new file without a name, which lies in a directory all the same. -/
def openUnnamed (m : Machine) (path : Path) (how : OpenHow) (perm : UInt32) :
    Except Errno (Descriptor × Machine) := do
  let dir ← m.resolve how.follows path
  if !m.tree.isDirectory dir then .error .notDirectory
  else if (m.tree.inode? dir).any (·.fixed = .everything) then .error .notPermitted
  else if !m.may dir .write || !m.may dir .search then .error .accessDenied
  else
    let id := m.tree.nextId
    let made := m.withTree (m.tree.addInode (m.newInode dir (.file []) (m.masked perm)))
    .ok ((made.stampBirth id).openAs (how.file id (.gone dir (Bytes.ofString s!"#{id}"))))

/-- Opens a file. -/
def openFile (m : Machine) (path : Path) (how : OpenHow) (perm : UInt32) :
    Except Errno (Descriptor × Machine) := do
  if !how.isSound then .error .invalid
  else if path.bytes = [] then .error .noEntry
  else if path.bytes.length ≥ Tree.maxPath then .error .nameTooLong
  else if !m.mayOpen then .error .tooManyFiles
  else if how.unnamed then m.openUnnamed path how perm
  else
    match ← m.locate how.follows path with
    | .entry dir name slash =>
      if how.create && slash then .error .isDirectory
      else
        match ← m.tree.find dir name with
        | some id =>
          if how.create && how.exclusive then .error .entryExists
          else if slash && !m.tree.isDirectory id then .error .notDirectory
          else m.openExisting how id (.entry dir name)
        | none =>
          if !how.create then .error .noEntry
          else
            m.mayChangeEntries dir
            .ok ((m.create dir name (.file []) (m.masked perm)).openAs
              (how.file m.tree.nextId (.entry dir name)))
    | place =>
      let dir ← m.tree.inodeAt place
      if how.create && how.exclusive then .error .entryExists
      else m.openExisting how dir (m.locationOf dir)

/-- The bytes of a file after `data` is written at `offset`.  A gap before it is filled with
zeros. -/
def splice (old : Bytes) (offset : Nat) (data : Bytes) : Bytes :=
  old.take offset ++ List.replicate (offset - old.length) 0 ++ data
    ++ old.drop (offset + data.length)

/-- Writes all of `data` to an open file.  The bytes of a program do not lie in whole blocks. -/
def write (m : Machine) (d : Descriptor) (data : Bytes) : Except Errno (Nat × Machine) :=
  match m.file? d with
  | none => .error .badDescriptor
  | some file =>
    if !file.writable then .error .badDescriptor
    else if data = [] then .ok (0, m)
    else
      match m.tree.content? file.inode with
      | some (.file old) =>
        if file.direct then .error .invalid
        else
          let start := if file.appending then old.length else file.offset
          let tree := m.tree.updateInode file.inode (m.changed (.file (splice old start data)))
          .ok (data.length,
            ((m.withTree tree).stampModify file.inode).setFile d
              { file with offset := start + data.length })
      | some (.device .null) => .ok (data.length, m)
      | some (.device .full) => .error .noSpace
      | _ => .error .invalid

/-- Brings an open file to its device, which only files and directories have, and of these not the
ones in which processes show themselves. -/
def sync (m : Machine) (d : Descriptor) : Except Errno (Unit × Machine) :=
  match m.file? d with
  | none => .error .badDescriptor
  | some file =>
    if file.reference then .error .badDescriptor
    else if m.tree.volume file.inode = .processes then .error .invalid
    else
      match m.tree.content? file.inode with
      | some (.file _) | some (.directory ..) => .ok ((), m)
      | _ => .error .invalid

/-- Describes an open file. -/
def statOpen (m : Machine) (d : Descriptor) : Except Errno (Stat × Machine) :=
  match m.file? d with
  | none => .error .badDescriptor
  | some file => (m.describe file.inode).map fun s => (s, m)

/-- The path of a place.  That of an entry that is gone says so. -/
def pathAt (m : Machine) : Location → Path
  | .root => ⟨[Path.slash]⟩
  | .entry dir name => m.pathOf dir name
  | .gone dir name => ⟨(m.pathOf dir name).bytes ++ Bytes.ofString " (deleted)"⟩

/-- The path of an open file, unless it is too long. -/
def pathOfOpen (m : Machine) (d : Descriptor) : Except Errno (Path × Machine) :=
  match m.file? d with
  | none => .error .noEntry
  | some file =>
    let path := m.pathAt file.location
    if path.bytes.length ≥ Tree.maxPath then .error .nameTooLong else .ok (path, m)

/-- Closes an open file. -/
def close (m : Machine) (d : Descriptor) : Except Errno (Unit × Machine) :=
  match m.file? d with
  | none => .error .badDescriptor
  | some _ => .ok ((), { m with files := m.files.erase d.number.toNat })

/-- Describes the file at a path. -/
def stat (m : Machine) (path : Path) (follow : Bool) : Except Errno (Stat × Machine) := do
  let id ← m.resolve (fun slash => follow || slash) path
  return (← m.describe id, m)

/-- The inode at a path. -/
def inodeAt (m : Machine) (follow : Bool → Bool) (path : Path) :
    Except Errno (InodeId × Inode) := do
  let id ← m.resolve follow path
  match m.tree.inode? id with
  | none => .error .noEntry
  | some node => .ok (id, node)

/-- Succeeds if the process may change what an inode says of its file. -/
def mayChangeInode (m : Machine) (node : Inode) : Except Errno Unit :=
  if node.fixed = .everything || !m.owns node then .error .notPermitted else .ok ()

/-- Succeeds if the process may give a file the present moment as its times, for which the right
to write it is enough. -/
def mayTouch (m : Machine) (node : Inode) : Except Errno Unit :=
  if node.fixed = .everything then .error .notPermitted
  else if m.owns node || m.who.may node .write then .ok ()
  else .error .accessDenied

/-- Sets permissions.  Only a member of the file's group may let it lend the group's rights. -/
def chmod (m : Machine) (path : Path) (perm : UInt32) : Except Errno (Unit × Machine) := do
  let (id, node) ← m.inodeAt (fun _ => true) path
  if node.fixed = .permissions then .error .notPermitted
  m.mayChangeInode node
  let perm := perm &&& permMask
  let perm := if m.who.privileged || m.who.gid = node.gid then perm else perm &&& 0o5777
  .ok ((), (m.withTree (m.tree.updateInode id fun n => { n with perm := perm })).stampChange id)

/-- The number that leaves an owner as it is. -/
def sameOwner : Nat := 4294967295

/-- Gives a file away, which somebody without privileges cannot do.  Anybody may leave both owners
as they are. -/
def chown (m : Machine) (path : Path) (uid gid : Nat) : Except Errno (Unit × Machine) := do
  let (id, node) ← m.inodeAt (fun slash => slash) path
  if uid ≠ sameOwner || gid ≠ sameOwner then m.mayChangeInode node
  let uid := if uid = sameOwner then node.uid else uid
  let gid := if gid = sameOwner then node.gid else gid
  if !m.who.privileged && (uid ≠ node.uid || (gid ≠ node.gid && gid ≠ m.who.gid)) then
    .error .notPermitted
  else
    .ok ((), (m.withTree (m.tree.updateInode id fun n =>
      { n with
        uid := uid
        gid := gid
        perm := if n.content.isDirectory then n.perm else withoutLentRights n.perm })).stampChange
      id)

/-- Sets the times of last access and modification.  Where neither shall change, the path is not
looked at. -/
def setTimes (m : Machine) (path : Path) (access modify : GivenTime) :
    Except Errno (Unit × Machine) := do
  if access.isSame && modify.isSame then
    return ((), m)
  let (id, node) ← m.inodeAt (fun slash => slash) path
  let old := m.timesOf id
  match access.resolve? m.now old.access, modify.resolve? m.now old.modify with
  | some accessed, some modified =>
    if access.isNow && modify.isNow then m.mayTouch node else m.mayChangeInode node
    .ok ((), m.stamp id fun t old =>
      { old with access := accessed, modify := modified, change := t })
  | _, _ => .error .invalid

end Machine

end PortableFiles
