import PortableFiles.Failure.Errno
set_option autoImplicit false

/-!
# Failures of input and output

A failure comes from the system with its number, or it is known by its class, with a message of
its own or without one.
-/

namespace PortableFiles

/-- A failure of input or output. -/
inductive IoError where
  /-- A system call failed with this number. -/
  | os (errno : Errno)
  /-- A failure of this class. -/
  | bare (kind : IoKind)
  /-- A failure of this class with a message. -/
  | custom (kind : IoKind) (message : String)
  deriving DecidableEq, Repr, Inhabited

namespace IoError

/-- The class of a failure. -/
def kind : IoError → IoKind
  | .os errno => errno.kind
  | .bare kind => kind
  | .custom kind _ => kind

/-- The text of a failure. -/
def message : IoError → String
  | .os errno => errno.describe
  | .bare kind => kind.text
  | .custom _ message => message

/-- The error number, if the system reported the failure. -/
def errno? : IoError → Option Errno
  | .os errno => some errno
  | _ => none

/-- The failure of a name with a zero byte in it. -/
def nulInName : IoError :=
  .custom .invalidInput "file name contained an unexpected NUL byte"

end IoError

end PortableFiles
