import PortableFiles.Failure.IoError
import PortableFiles.Path.Basic
set_option autoImplicit false

/-!
# Errors of file operations

Every operation that fails says which operation it was, on which path, to which kind the failure
belongs, and what caused it.  A caller branches on the kind; the text names operation, path and
cause.  An error can be handed on as a failure of input and output, which keeps its kind.
-/

namespace PortableFiles

/-- What was being done when an error arose. -/
inductive Operation where
  | stat
  | lstat
  | fstat
  | openFile
  | read
  | write
  | sync
  | close
  | chmod
  | chown
  | rename
  | createTemp
  | remove
  | symlink
  | readlink
  | statx
  | lookup
  | security
  | token
  deriving DecidableEq, Repr, Inhabited

namespace Operation

/-- The word for an operation. -/
def text : Operation → String
  | .stat => "stat"
  | .lstat => "lstat"
  | .fstat => "fstat"
  | .openFile => "open"
  | .read => "read"
  | .write => "write"
  | .sync => "sync"
  | .close => "close"
  | .chmod => "chmod"
  | .chown => "chown"
  | .rename => "rename"
  | .createTemp => "createtemp"
  | .remove => "remove"
  | .symlink => "symlink"
  | .readlink => "readlink"
  | .statx => "statx"
  | .lookup => "lookup"
  | .security => "security"
  | .token => "token"

/-- Every operation. -/
def all : List Operation :=
  [.stat, .lstat, .fstat, .openFile, .read, .write, .sync, .close, .chmod, .chown, .rename,
    .createTemp, .remove, .symlink, .readlink, .statx, .lookup, .security, .token]

/-- The operation with the given word. -/
def ofText? (s : String) : Option Operation := all.find? fun o => o.text = s

end Operation

/-- The kinds of error that a caller can tell apart. -/
inductive ErrorKind where
  /-- The file or one of the directories above it does not exist. -/
  | notFound
  /-- The permissions do not allow the operation. -/
  | permissionDenied
  /-- A component of the path is not a directory. -/
  | notADirectory
  /-- The path leads to a directory and must not. -/
  | isADirectory
  /-- An argument is malformed. -/
  | invalid
  /-- Something is there already. -/
  | alreadyExists
  /-- The platform cannot do this. -/
  | unsupported
  /-- Trying again may help. -/
  | transient
  /-- The two paths lie on different devices. -/
  | crossDevice
  /-- Anything else. -/
  | other
  deriving DecidableEq, Repr, Inhabited

namespace ErrorKind

/-- The words for a kind. -/
def text : ErrorKind → String
  | .notFound => "not found"
  | .permissionDenied => "permission denied"
  | .notADirectory => "not a directory"
  | .isADirectory => "is a directory"
  | .invalid => "invalid argument"
  | .alreadyExists => "already exists"
  | .unsupported => "unsupported"
  | .transient => "transient"
  | .crossDevice => "cross-device"
  | .other => "other"

/-- Every kind. -/
def all : List ErrorKind :=
  [.notFound, .permissionDenied, .notADirectory, .isADirectory, .invalid, .alreadyExists,
    .unsupported, .transient, .crossDevice, .other]

/-- The kind with the given words. -/
def ofText? (s : String) : Option ErrorKind := all.find? fun k => k.text = s

/-- The kind to which a class of failures belongs. -/
def ofIoKind : IoKind → ErrorKind
  | .notFound => .notFound
  | .permissionDenied => .permissionDenied
  | .notADirectory => .notADirectory
  | .isADirectory => .isADirectory
  | .invalidInput => .invalid
  | .alreadyExists => .alreadyExists
  | .unsupported => .unsupported
  | .crossesDevices => .crossDevice
  | _ => .other

end ErrorKind

/-- Which error numbers of a platform call for special treatment. -/
structure ErrnoClasses where
  /-- The operation may succeed if it is tried again. -/
  transient : Errno → Bool
  /-- Two paths lie on different devices. -/
  crossDevice : Errno → Bool
  /-- A renaming may succeed if it is tried again. -/
  renameTransient : Errno → Bool

namespace ErrnoClasses

/-- On a POSIX system nothing is transient, and one number stands for different devices. -/
def posix : ErrnoClasses where
  transient _ := false
  crossDevice e := e = .crossDevice
  renameTransient _ := false

/-- Without a file system no number has a meaning. -/
def none : ErrnoClasses where
  transient _ := false
  crossDevice _ := false
  renameTransient _ := false

end ErrnoClasses

namespace ErrorKind

/-- The kind of a failure: by its number, where that is special, and by its class otherwise. -/
def classify (e : IoError) : ErrorKind :=
  match e.errno? with
  | some n =>
    if ErrnoClasses.posix.transient n then .transient
    else if ErrnoClasses.posix.crossDevice n then .crossDevice
    else ofIoKind e.kind
  | none => ofIoKind e.kind

end ErrorKind

/-- How many temporary names are tried before giving up. -/
def tempAttempts : Nat := 10000

/-- What caused an error. -/
inductive Cause where
  /-- A failure of input or output. -/
  | io (failure : IoError)
  /-- The path has no byte. -/
  | emptyPath
  /-- Every temporary name that was tried is taken. -/
  | tempNamesExhausted
  /-- The platform cannot do this. -/
  | unsupported
  /-- The metadata come from elsewhere. -/
  | foreignInfo
  deriving DecidableEq, Repr, Inhabited

/-- The text of a cause. -/
def Cause.text : Cause → String
  | .io failure => failure.message
  | .emptyPath => "path is empty"
  | .tempNamesExhausted =>
    "no unused temporary name after " ++ Text.Numeral.decimalString tempAttempts ++ " attempts"
  | .unsupported => "operation not supported on this platform"
  | .foreignInfo => "file info was not produced by this library"

/-- An error of a file operation. -/
structure Error where
  operation : Operation
  path : Path
  kind : ErrorKind
  cause : Cause
  deriving DecidableEq, Repr, Inhabited

namespace Error

/-- The error of a failure in an operation on a path. -/
def ofIo (operation : Operation) (path : Path) (failure : IoError) : Error :=
  ⟨operation, path, .classify failure, .io failure⟩

/-- The error of a system call that failed with the given number. -/
def ofErrno (operation : Operation) (path : Path) (errno : Errno) : Error :=
  .ofIo operation path (.os errno)

/-- The error of an operation that was given an empty path. -/
def emptyPath (operation : Operation) : Error := ⟨operation, ⟨[]⟩, .invalid, .emptyPath⟩

/-- The error of an operation that the platform lacks. -/
def unsupported (operation : Operation) (path : Path) : Error :=
  ⟨operation, path, .unsupported, .unsupported⟩

/-- The error of a path with a zero byte in it, which names nothing. -/
def nulInPath (operation : Operation) (path : Path) : Error :=
  { ofIo operation path (.bare .invalidInput) with kind := .invalid }

/-- The error of a directory in which no temporary name could be had. -/
def tempNamesExhausted (directory : Path) : Error :=
  ⟨.createTemp, directory, .alreadyExists, .tempNamesExhausted⟩

/-- The text of an error. -/
def message (e : Error) : String :=
  e.operation.text ++ " " ++ e.path.display ++ ": " ++ e.cause.text

/-- The error number, if the system reported the failure. -/
def errno? (e : Error) : Option Errno :=
  match e.cause with
  | .io failure => failure.errno?
  | _ => none

/-- The texts of what lies behind the error: its cause, and what caused that.  Both have the same
words. -/
def chain (e : Error) : List String := [e.cause.text, e.cause.text]

/-- The class under which an error is handed on. -/
def ioKind (e : Error) : IoKind :=
  match e.kind with
  | .notFound => .notFound
  | .permissionDenied => .permissionDenied
  | .notADirectory => .notADirectory
  | .isADirectory => .isADirectory
  | .invalid => .invalidInput
  | .alreadyExists => .alreadyExists
  | .unsupported => .unsupported
  | .crossDevice => .crossesDevices
  | .transient | .other =>
    match e.cause with
    | .io failure => failure.kind
    | _ => .other

/-- The error as a failure of input and output. -/
def toIo (e : Error) : IoError := .custom e.ioKind e.message

end Error

end PortableFiles
