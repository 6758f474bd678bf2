import PortableFiles.Platform.Basic
import PortableFiles.Umask
set_option autoImplicit false

/-!
# WebAssembly systems

There are no owners, no permissions and no making of symbolic links.  Metadata show fixed
permissions, setting permissions only asks whether the file is there, and the mask of new files is
kept by the process.  New files get the permissions that the host gives.
-/

namespace PortableFiles.Wasi

/-- The record of a file as it is shown: everything may be read and written. -/
def record (s : Stat) : FileRecord where
  size := s.size
  mode := .new s.type (if s.type = .directory then 0o777 else 0o666)
  mtime := s.times.modify
  atime := s.times.access
  ctime := s.times.change
  btime := some .zero
  changeTime := some s.times.change
  partition := s.volume
  file := s.file
  links := s.links
  uid := unknownId
  gid := unknownId
  owner := some .nameless

/-- Metadata of a path. -/
def statPath (operation : Operation) (follow : Bool) (path : Path) : Routine FileInfo := do
  Routine.checkNul operation path
  return .ofRecord path follow (record (← Routine.call operation path (.stat path follow)))

/-- Succeeds if a name has no zero byte. -/
def checkName (operation : Operation) (path name : Path) : Routine Unit :=
  if name.hasNul then Routine.fail (.ofIo operation path .nulInName) else pure ()

/-- The permissions that the host is asked for. -/
def hostPerm : UInt32 := 0o666

/-- Opens a file for writing, again if that is interrupted. -/
def openWriter (operation : Operation) (path : Path) (how : OpenHow) (deleteOnClose : Bool) :
    Routine Writer := do
  checkName operation path path
  let file ← Routine.insist operation path (.openFile path how hostPerm)
  return ⟨file, path, deleteOnClose⟩

/-- How the flags ask for a destination to be opened.  A file that must be new is not cut. -/
def howFor (flags : OpenFlags) : OpenHow :=
  if flags.has .exclusive then { OpenHow.making with append := flags.has .append }
  else if flags.has .append then .appending
  else .replacing

/-- Removes an entry. -/
def removeFile (path : Path) : Routine Unit := do
  checkName .remove path path
  Routine.call .remove path (.unlink path)

/-- The functions of a WebAssembly system. -/
def platform : Platform where
  errnoClasses := .posix
  stat := statPath .stat true
  lstat := statPath .lstat false
  fstat _ := Routine.fail (.unsupported .fstat ⟨[]⟩)
  resolvers := {
    btime := fun info => return .error (.unsupported .stat info.path)
    changeTime := fun info => return .ok info.ctime
    owner := fun _ => return .ok .nameless }
  createNew path _ _ := openWriter .createTemp path .making false
  create path _ flags := openWriter .openFile path (howFor flags) (flags.has .deleteOnClose)
  writeAll w data := Routine.writeAll w.path w.file data
  sync w := Routine.insist .sync w.path (.sync w.file)
  perm _ := return 0o666
  close w := do
    let _ ← Routine.lift (Program.perform (.close w.file))
    if w.deleteOnClose then removeFile w.path
  abandon w := do let _ ← Program.perform (.close w.file)
  chmod path _ := do let _ ← statPath .stat true path
  removeFile := removeFile
  rename source destination := do
    checkName .rename destination source
    checkName .rename destination destination
    Routine.call .rename destination (.rename source destination)
  prepareDestination _ _ := pure ()
  finishDestination _ _ := pure ()
  symlink _ link := Routine.fail (.unsupported .symlink link)
  chownSymlink link := Routine.fail (.unsupported .chown link)
  umask := Umask.ofProcess
  setUmask := Umask.setProcess
  isRoot := return false
  isAdmin := return false
  userId := return unknownId
  groupId := return unknownId

end PortableFiles.Wasi
