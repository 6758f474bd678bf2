import PortableFiles.Platform.Basic
import PortableFiles.Umask
set_option autoImplicit false

/-!
# POSIX systems

Every function is one or a few calls.  A path with a zero byte in it is refused before any call.
Birth times and owners are looked up when they are first read; an owner without a name is shown by
its number.
-/

namespace PortableFiles.Posix

/-- The record of a file as the system describes it. -/
def record (s : Stat) : FileRecord where
  size := s.size
  mode := .new s.type (s.perm &&& permMask)
  mtime := s.times.modify
  atime := s.times.access
  ctime := s.times.change
  btime := none
  changeTime := some s.times.change
  partition := s.volume
  file := s.file
  links := s.links
  uid := s.uid
  gid := s.gid
  owner := none

/-- Metadata of a path. -/
def statPath (operation : Operation) (follow : Bool) (path : Path) : Routine FileInfo := do
  Routine.checkNul operation path
  return .ofRecord path follow (record (← Routine.call operation path (.stat path follow)))

/-- The name under which the system shows an open file. -/
def descriptorPath (file : Descriptor) : Path :=
  .ofString ("/proc/self/fd/" ++ String.ofList (Text.Numeral.signed file.number))

/-- Metadata of an open file, under the path at which it is now. -/
def fstat (file : Descriptor) : Routine FileInfo := do
  let path ← Routine.call .readlink (descriptorPath file) (.pathOfOpen file)
  return .ofRecord path true (record (← Routine.call .fstat path (.statOpen file)))

/-- The birth time of the file that metadata describe. -/
def resolveBtime (info : FileInfo) : Routine Timestamp := do
  Routine.checkNul .statx info.path
  return (← Routine.call .statx info.path (.stat info.path info.follow)).times.birth

/-- An id as the system keeps it. -/
def narrow (id : Nat) : Nat := id % 4294967296

/-- The owner of the file that metadata describe. -/
def resolveOwner (info : FileInfo) : Routine Owner := do
  let uid := narrow info.uid
  let gid := narrow info.gid
  let user ← Routine.call .lookup info.path (.userName uid)
  let group ← Routine.call .lookup info.path (.groupName gid)
  return ⟨user.getD (Text.Numeral.decimalString uid), group.getD (Text.Numeral.decimalString gid)⟩

/-- Opens a file for writing, again if that is interrupted. -/
def openWriter (operation : Operation) (path : Path) (how : OpenHow) (perm : UInt32)
    (flags : OpenFlags) : Routine Writer := do
  Routine.checkNul operation path
  let file ← Routine.insist operation path (.openFile path how perm)
  return ⟨file, path, flags.has .deleteOnClose⟩

/-- How the flags ask for a destination to be opened. -/
def howFor (flags : OpenFlags) : OpenHow :=
  { if flags.has .append then OpenHow.appending else OpenHow.replacing with
    exclusive := flags.has .exclusive }

/-- Removes an entry. -/
def removeFile (path : Path) : Routine Unit := do
  Routine.checkNul .remove path
  Routine.call .remove path (.unlink path)

/-- Closes a file, which an interruption does not prevent, and removes its entry if that was
asked. -/
def close (w : Writer) : Routine Unit := do
  match ← Routine.lift (Program.perform (.close w.file)) with
  | .error errno => if errno ≠ .interrupted then Routine.fail (.ofErrno .close w.path errno)
  | .ok () => pure ()
  if w.deleteOnClose then removeFile w.path

/-- Whether the process runs with the user id of the superuser. -/
def isRoot : Routine Bool := do return (← Routine.ask .effectiveUserId) = 0

/-- The functions of a POSIX system. -/
def platform : Platform where
  errnoClasses := .posix
  stat := statPath .stat true
  lstat := statPath .lstat false
  fstat := fstat
  resolvers := {
    btime := fun info => (resolveBtime info).outcome
    changeTime := fun info => return .ok info.ctime
    owner := fun info => (resolveOwner info).outcome }
  createNew path perm flags := openWriter .createTemp path .making perm flags
  create path perm flags := openWriter .openFile path (howFor flags) perm flags
  writeAll w data := Routine.writeAll w.path w.file data
  sync w := Routine.call .sync w.path (.sync w.file)
  perm w := do return (← Routine.call .fstat w.path (.statOpen w.file)).perm &&& permMask
  close := close
  abandon w := do let _ ← Program.perform (.close w.file)
  chmod path mode := do
    Routine.checkNul .chmod path
    Routine.call .chmod path (.chmod path (mode &&& permMask))
  removeFile := removeFile
  rename source destination := do
    Routine.checkNul .rename source
    Routine.checkNul .rename destination
    Routine.call .rename destination (.rename source destination)
  prepareDestination _ _ := pure ()
  finishDestination _ _ := pure ()
  symlink target link := do
    Routine.checkNul .symlink target
    Routine.checkNul .symlink link
    Routine.call .symlink link (.symlink target.bytes link)
  chownSymlink link := do
    Routine.checkNul .chown link
    Routine.call .chown link (.chown link (← Routine.ask .userId) (← Routine.ask .groupId))
  umask := Umask.ofSystem
  setUmask := Umask.setSystem
  isRoot := isRoot
  isAdmin := isRoot
  userId := Routine.ask .userId
  groupId := Routine.ask .groupId

end PortableFiles.Posix
