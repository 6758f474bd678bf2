import PortableFiles.Platform.Basic
set_option autoImplicit false

/-!
# Operations on names and metadata

Setting permissions, moving and linking, and comparing files.  Each operation refuses empty paths
before it asks the platform for anything.
-/

namespace PortableFiles.Operations

/-- Sets the permissions of the file at a path. -/
def chmod (p : Platform) (path : Path) (mode : UInt32) : Routine Unit :=
  if path.isEmpty then Routine.fail (.emptyPath .chmod) else p.chmod path mode

/-- Moves an entry, replacing the one that is there.  No failure of the platforms at hand gets
better with time, so there is one attempt. -/
def rename (p : Platform) (source destination : Path) : Routine Unit :=
  if source.isEmpty || destination.isEmpty then Routine.fail (.emptyPath .rename)
  else p.rename source destination

/-- Makes a symbolic link, and gives it to the user if the options say so. -/
def symlink (p : Platform) (target link : Path) (options : Options) : Routine Unit :=
  if !supported.contains .symlinks then Routine.fail (.unsupported .symlink link)
  else if target.isEmpty || link.isEmpty then Routine.fail (.emptyPath .symlink)
  else do
    p.symlink target link
    if options.setSymlinkOwner then p.chownSymlink link

/-- Metadata of an open file. -/
def fstat (p : Platform) (file : Descriptor) : Routine FileInfo :=
  if supported.contains .handleInfo then p.fstat file
  else Routine.fail (.unsupported .fstat ⟨[]⟩)

/-- Whether two paths lead to files on one partition. -/
def samePartitions (p : Platform) (a b : Path) : Routine Bool := do
  return FileMeta.samePartition (.own (← p.stat a)) (.own (← p.stat b))

/-- Whether two paths lead to one file. -/
def sameFiles (p : Platform) (a b : Path) : Routine Bool := do
  return FileMeta.sameFile (.own (← p.stat a)) (.own (← p.stat b))

end PortableFiles.Operations
