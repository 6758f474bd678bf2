import PortableFiles.Kernel.Files
set_option autoImplicit false

/-!
# Calls on directory entries

Making, moving, linking and removing names.  `rename` replaces what is at its destination in one
step.
-/

namespace PortableFiles.Machine

/-- The directory and name at which a new entry can be made.  Only a directory may be asked for
with a separator after its name. -/
def vacancy (m : Machine) (path : Path) (directory : Bool) : Except Errno (InodeId × Name) := do
  match ← m.locate (fun _ => false) path with
  | .entry dir name slash =>
    match ← m.tree.find dir name with
    | some _ => .error .entryExists
    | none => if slash && !directory then .error .noEntry else .ok (dir, name)
  | _ => .error .entryExists

/-- Makes a symbolic link. -/
def symlink (m : Machine) (target : Bytes) (path : Path) : Except Errno (Unit × Machine) := do
  if target = [] then .error .noEntry
  else if target.length ≥ Tree.maxPath then .error .nameTooLong
  else
    let (dir, name) ← m.vacancy path false
    m.mayChangeEntries dir
    .ok ((), m.create dir name (.symlink target) 0o777)

/-- Makes a directory. -/
def makeDirectory (m : Machine) (path : Path) (perm : UInt32) : Except Errno (Unit × Machine) := do
  let (dir, name) ← m.vacancy path true
  m.mayChangeEntries dir
  .ok ((), m.create dir name (.directory dir .empty) (m.masked (perm &&& 0o1777)))

/-- Makes a pipe, a socket or a device.  The only device that can be made without privileges is
the one that no driver serves. -/
def makeSpecial (m : Machine) (path : Path) (which : SpecialFile) (perm : UInt32) :
    Except Errno (Unit × Machine) := do
  let (dir, name) ← m.vacancy path false
  m.mayChangeEntries dir
  match which with
  | .fifo => .ok ((), m.create dir name .fifo (m.masked perm))
  | .socket => .ok ((), m.create dir name .socket (m.masked perm))
  | .device false 0 0 => .ok ((), m.create dir name (.device .missing) (m.masked perm))
  | .device .. => .error .notPermitted

/-- Gives a file that is not a directory one more name. -/
def link (m : Machine) (source destination : Path) : Except Errno (Unit × Machine) := do
  let id ← m.resolve (fun slash => slash) source
  let (dir, name) ← m.vacancy destination false
  if m.tree.volume id ≠ m.tree.volume dir then .error .crossDevice
  else
    m.mayChangeEntries dir
    if m.tree.isDirectory id then .error .notPermitted
    else .ok ((), ((m.withTree (m.tree.setEntry dir name id)).stampChange id).stampModify dir)

/-- The machine without an entry. -/
def dropEntry (m : Machine) (dir : InodeId) (name : Name) (id : InodeId) : Machine :=
  (((m.detach dir name).withTree (m.tree.removeEntry dir name)).stampChange id).stampModify dir

/-- Removes an entry that is not a directory. -/
def unlink (m : Machine) (path : Path) : Except Errno (Unit × Machine) := do
  match ← m.locate (fun _ => false) path with
  | .entry dir name slash =>
    match ← m.tree.find dir name with
    | none => .error .noEntry
    | some id =>
      if slash then .error (if m.tree.isDirectory id then .isDirectory else .notDirectory)
      else
        m.mayChangeEntries dir
        if m.tree.isDirectory id then .error .isDirectory else .ok ((), m.dropEntry dir name id)
  | _ => .error .isDirectory

/-- Succeeds if a directory has no entries. -/
def mustBeEmpty (m : Machine) (dir : InodeId) : Except Errno Unit :=
  match m.tree.entries? dir with
  | some entries => if entries.entries = [] then .ok () else .error .notEmpty
  | none => .error .notDirectory

/-- Removes an empty directory. -/
def removeDirectory (m : Machine) (path : Path) : Except Errno (Unit × Machine) := do
  match ← m.locate (fun _ => false) path with
  | .reached _ => .error .busy
  | .dots _ up => .error (if up then .notEmpty else .invalid)
  | .entry dir name _ =>
    match ← m.tree.find dir name with
    | none => .error .noEntry
    | some id =>
      m.mayChangeEntries dir
      if m.tree.isMount id then .error .busy
      m.mustBeEmpty id
      .ok ((), m.dropEntry dir name id)

/-- Succeeds if an entry may be removed to make room for a directory, or for anything else. -/
def mayReplace (m : Machine) (dir id : InodeId) (directory : Bool) : Except Errno Unit := do
  m.mayChangeEntries dir
  if directory && !m.tree.isDirectory id then .error .notDirectory
  else if !directory && m.tree.isDirectory id then .error .isDirectory
  else .ok ()

/-- The machine after an entry has moved to a place that is free or taken by an inode of the same
type. -/
def moveEntry (m : Machine) (dir : InodeId) (name : Name) (dir' : InodeId) (name' : Name)
    (id : InodeId) : Machine :=
  let tree := (m.tree.removeEntry dir name).setEntry dir' name' id
  let detached := m.detach dir' name'
  let moved : Machine :=
    { detached with
      tree := if m.tree.isDirectory id then tree.setParent id dir' else tree
      files := relocate detached.files dir name dir' name' }
  ((moved.stampChange id).stampModify dir).stampModify dir'

/-- Moves an entry.  Two names of one file are left as they are. -/
def rename (m : Machine) (source destination : Path) : Except Errno (Unit × Machine) := do
  let origin ← m.locate (fun _ => false) source
  let goal ← m.locate (fun _ => false) destination
  if m.tree.volume origin.origin ≠ m.tree.volume goal.origin then .error .crossDevice
  else
    match origin, goal with
    | .entry dir name slash, .entry dir' name' slash' =>
      match ← m.tree.find dir name with
      | none => .error .noEntry
      | some id =>
        let target ← m.tree.find dir' name'
        let directory := m.tree.isDirectory id
        if !directory && (slash || slash') then .error .notDirectory
        else if directory && m.tree.isWithin id dir' then .error .invalid
        else if target.any fun t => m.tree.isDirectory t && m.tree.isWithin t dir then
          .error .notEmpty
        else if target = some id then .ok ((), m)
        else
          m.mayChangeEntries dir
          match target with
          | some t => m.mayReplace dir' t directory
          | none => m.mayChangeEntries dir'
          if m.tree.isMount id || target.any m.tree.isMount then .error .busy
          else if directory && dir ≠ dir' && !m.may id .write then .error .accessDenied
          else
            match target with
            | some t => if directory then m.mustBeEmpty t else .ok ()
            | none => .ok ()
            .ok ((), m.moveEntry dir name dir' name' id)
    | _, _ => .error .busy

/-- The names in a directory. -/
def list (m : Machine) (path : Path) : Except Errno (List Name × Machine) := do
  if !m.mayOpen then .error .tooManyFiles
  else
    let id ← m.resolve (fun _ => true) path
    match m.tree.entries? id with
    | none => .error .notDirectory
    | some entries => if m.may id .read then .ok (entries.keys, m) else .error .accessDenied

end PortableFiles.Machine
