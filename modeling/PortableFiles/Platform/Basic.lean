import PortableFiles.Kernel.Program
import PortableFiles.Options
set_option autoImplicit false

/-!
# Platforms

What the operations of this library need of a system.  Each platform provides the same functions;
the operations are written once, over any of them.
-/

namespace PortableFiles

/-- A file that is open for writing. -/
structure Writer where
  file : Descriptor
  path : Path
  /-- Whether the entry at the path is removed when the file is closed. -/
  deleteOnClose : Bool
  deriving DecidableEq, Repr, Inhabited

/-- A system underneath the library. -/
structure Platform where
  /-- Which error numbers are special. -/
  errnoClasses : ErrnoClasses
  /-- Metadata of the file at a path. -/
  stat : Path → Routine FileInfo
  /-- Metadata of the file at a path or of the symbolic link there. -/
  lstat : Path → Routine FileInfo
  /-- Metadata of an open file. -/
  fstat : Descriptor → Routine FileInfo
  /-- How metadata are completed. -/
  resolvers : FileInfo.Resolvers Program
  /-- Makes a file with the given permissions, which must not exist. -/
  createNew : Path → UInt32 → OpenFlags → Routine Writer
  /-- Opens a file, which is made with the given permissions if it is missing. -/
  create : Path → UInt32 → OpenFlags → Routine Writer
  /-- Writes all of the given bytes. -/
  writeAll : Writer → Bytes → Routine Unit
  /-- Brings what was written to the device. -/
  sync : Writer → Routine Unit
  /-- The permissions that a file has. -/
  perm : Writer → Routine UInt32
  /-- Closes a file. -/
  close : Writer → Routine Unit
  /-- Lets go of a file whose writing has failed. -/
  abandon : Writer → Program Unit
  /-- Sets the permissions of the file at a path. -/
  chmod : Path → UInt32 → Routine Unit
  /-- Removes an entry. -/
  removeFile : Path → Routine Unit
  /-- Moves an entry, replacing the one that is there. -/
  rename : Path → Path → Routine Unit
  /-- What comes before a destination is written. -/
  prepareDestination : Path → Options → Routine Unit
  /-- What comes after a destination is written. -/
  finishDestination : Path → Options → Routine Unit
  /-- Makes a symbolic link to a target at a path. -/
  symlink : Path → Path → Routine Unit
  /-- Gives a symbolic link to the user of the process. -/
  chownSymlink : Path → Routine Unit
  /-- The mask of new files. -/
  umask : Program UInt32
  /-- Sets the mask of new files and gives the one before. -/
  setUmask : UInt32 → Program UInt32
  /-- Whether the process runs with all privileges. -/
  isRoot : Routine Bool
  /-- Whether the process may administer the system. -/
  isAdmin : Routine Bool
  /-- The number of the user. -/
  userId : Routine Nat
  /-- The number of the group. -/
  groupId : Routine Nat

namespace Routine

/-- Succeeds if a path has no zero byte. -/
def checkNul (operation : Operation) (path : Path) : Routine Unit :=
  if path.hasNul then fail (.nulInPath operation path) else pure ()

/-- Writes all of the given bytes to an open file, as many at a time as the system takes.  A write
that is interrupted is made again with the same bytes. -/
def writeAll (path : Path) (file : Descriptor) (data : Bytes) : Routine Unit :=
  if _hd : data = [] then pure ()
  else
    ofOutcome (.call (.write file data) true fun
      | .error errno => .done (.error (.ofErrno .write path errno))
      | .ok written =>
        if _hw : written = 0 then .done (.error (.ofIo .write path (.bare .writeZero)))
        else (writeAll path file (data.drop written)).outcome)
termination_by data.length
decreasing_by
  have : data.length ≠ 0 := fun h => _hd (List.length_eq_zero_iff.1 h)
  rw [List.length_drop]
  exact Nat.sub_lt (Nat.pos_of_ne_zero this) (Nat.pos_of_ne_zero _hw)

end Routine

end PortableFiles
