import PortableFiles.Platform.Basic
import PortableFiles.Umask
set_option autoImplicit false

/-!
# No file system

A platform without files.  Every operation fails, and the mask of new files cannot be changed.
-/

namespace PortableFiles.Absent

/-- The functions of a platform without files. -/
def platform : Platform where
  errnoClasses := .none
  stat path := Routine.fail (.unsupported .stat path)
  lstat path := Routine.fail (.unsupported .lstat path)
  fstat _ := Routine.fail (.unsupported .fstat ⟨[]⟩)
  resolvers := {
    btime := fun info => return .error (.unsupported .stat info.path)
    changeTime := fun info => return .error (.unsupported .stat info.path)
    owner := fun info => return .error (.unsupported .lookup info.path) }
  createNew path _ _ := Routine.fail (.unsupported .createTemp path)
  create path _ _ := Routine.fail (.unsupported .openFile path)
  writeAll w _ := Routine.fail (.unsupported .write w.path)
  sync w := Routine.fail (.unsupported .sync w.path)
  perm w := Routine.fail (.unsupported .fstat w.path)
  close w := Routine.fail (.unsupported .close w.path)
  abandon _ := return ()
  chmod path _ := Routine.fail (.unsupported .chmod path)
  removeFile path := Routine.fail (.unsupported .remove path)
  rename _ destination := Routine.fail (.unsupported .rename destination)
  prepareDestination path _ := Routine.fail (.unsupported .openFile path)
  finishDestination path _ := Routine.fail (.unsupported .openFile path)
  symlink _ link := Routine.fail (.unsupported .symlink link)
  chownSymlink link := Routine.fail (.unsupported .chown link)
  umask := return Umask.standard
  setUmask _ := return Umask.standard
  isRoot := Routine.fail (.unsupported .token ⟨[]⟩)
  isAdmin := Routine.fail (.unsupported .token ⟨[]⟩)
  userId := Routine.fail (.unsupported .token ⟨[]⟩)
  groupId := Routine.fail (.unsupported .token ⟨[]⟩)

end PortableFiles.Absent
