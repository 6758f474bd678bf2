import PortableFiles.Failure.IoKind
import PortableFiles.Text.Numeral
set_option autoImplicit false

/-!
# Error numbers

The numbers with which a system call reports failure, their texts in the C locale, and the class
of failure that each of them belongs to.
-/

namespace PortableFiles

/-- The number of a system error. -/
structure Errno where
  code : Int
  deriving DecidableEq, Repr, Inhabited

namespace Errno

/-- The operation is not permitted. -/
def notPermitted : Errno := ⟨1⟩

/-- A file or directory does not exist. -/
def noEntry : Errno := ⟨2⟩

/-- A signal came first. -/
def interrupted : Errno := ⟨4⟩

/-- There is no such device, or nobody reads a pipe. -/
def noDevice : Errno := ⟨6⟩

/-- A descriptor is not open, or not for this. -/
def badDescriptor : Errno := ⟨9⟩

/-- The permissions deny it. -/
def accessDenied : Errno := ⟨13⟩

/-- The thing is in use. -/
def busy : Errno := ⟨16⟩

/-- The entry is already there. -/
def entryExists : Errno := ⟨17⟩

/-- Two names lie on different devices. -/
def crossDevice : Errno := ⟨18⟩

/-- A component is not a directory. -/
def notDirectory : Errno := ⟨20⟩

/-- The thing is a directory. -/
def isDirectory : Errno := ⟨21⟩

/-- An argument is invalid. -/
def invalid : Errno := ⟨22⟩

/-- The process has no descriptor left. -/
def tooManyFiles : Errno := ⟨24⟩

/-- The device is full. -/
def noSpace : Errno := ⟨28⟩

/-- A name or path is too long. -/
def nameTooLong : Errno := ⟨36⟩

/-- A directory still has entries. -/
def notEmpty : Errno := ⟨39⟩

/-- Too many symbolic links were met. -/
def tooManyLinks : Errno := ⟨40⟩

/-- The address of a socket is taken. -/
def addressInUse : Errno := ⟨98⟩

/-- The texts of the numbers from zero on.  A number without a text of its own has the empty one. -/
def texts : Array String := #[
  "Success",
  "Operation not permitted",
  "No such file or directory",
  "No such process",
  "Interrupted system call",
  "Input/output error",
  "No such device or address",
  "Argument list too long",
  "Exec format error",
  "Bad file descriptor",
  "No child processes",
  "Resource temporarily unavailable",
  "Cannot allocate memory",
  "Permission denied",
  "Bad address",
  "Block device required",
  "Device or resource busy",
  "File exists",
  "Invalid cross-device link",
  "No such device",
  "Not a directory",
  "Is a directory",
  "Invalid argument",
  "Too many open files in system",
  "Too many open files",
  "Inappropriate ioctl for device",
  "Text file busy",
  "File too large",
  "No space left on device",
  "Illegal seek",
  "Read-only file system",
  "Too many links",
  "Broken pipe",
  "Numerical argument out of domain",
  "Numerical result out of range",
  "Resource deadlock avoided",
  "File name too long",
  "No locks available",
  "Function not implemented",
  "Directory not empty",
  "Too many levels of symbolic links",
  "",
  "No message of desired type",
  "Identifier removed",
  "Channel number out of range",
  "Level 2 not synchronized",
  "Level 3 halted",
  "Level 3 reset",
  "Link number out of range",
  "Protocol driver not attached",
  "No CSI structure available",
  "Level 2 halted",
  "Invalid exchange",
  "Invalid request descriptor",
  "Exchange full",
  "No anode",
  "Invalid request code",
  "Invalid slot",
  "",
  "Bad font file format",
  "Device not a stream",
  "No data available",
  "Timer expired",
  "Out of streams resources",
  "Machine is not on the network",
  "Package not installed",
  "Object is remote",
  "Link has been severed",
  "Advertise error",
  "Srmount error",
  "Communication error on send",
  "Protocol error",
  "Multihop attempted",
  "RFS specific error",
  "Bad message",
  "Value too large for defined data type",
  "Name not unique on network",
  "File descriptor in bad state",
  "Remote address changed",
  "Can not access a needed shared library",
  "Accessing a corrupted shared library",
  ".lib section in a.out corrupted",
  "Attempting to link in too many shared libraries",
  "Cannot exec a shared library directly",
  "Invalid or incomplete multibyte or wide character",
  "Interrupted system call should be restarted",
  "Streams pipe error",
  "Too many users",
  "Socket operation on non-socket",
  "Destination address required",
  "Message too long",
  "Protocol wrong type for socket",
  "Protocol not available",
  "Protocol not supported",
  "Socket type not supported",
  "Operation not supported",
  "Protocol family not supported",
  "Address family not supported by protocol",
  "Address already in use",
  "Cannot assign requested address",
  "Network is down",
  "Network is unreachable",
  "Network dropped connection on reset",
  "Software caused connection abort",
  "Connection reset by peer",
  "No buffer space available",
  "Transport endpoint is already connected",
  "Transport endpoint is not connected",
  "Cannot send after transport endpoint shutdown",
  "Too many references: cannot splice",
  "Connection timed out",
  "Connection refused",
  "Host is down",
  "No route to host",
  "Operation already in progress",
  "Operation now in progress",
  "Stale file handle",
  "Structure needs cleaning",
  "Not a XENIX named type file",
  "No XENIX semaphores available",
  "Is a named type file",
  "Remote I/O error",
  "Disk quota exceeded",
  "No medium found",
  "Wrong medium type",
  "Operation canceled",
  "Required key not available",
  "Key has expired",
  "Key has been revoked",
  "Key was rejected by service",
  "Owner died",
  "State not recoverable",
  "Operation not possible due to RF-kill",
  "Memory page has hardware error"]

/-- The text of an error number. -/
def text (e : Errno) : String :=
  match texts[e.code.toNat]? with
  | some s => if 0 ≤ e.code ∧ s ≠ "" then s else unknown
  | none => unknown
where
  /-- The text of a number that has none. -/
  unknown : String := "Unknown error " ++ String.ofList (Text.Numeral.signed e.code)

/-- The text of an error number, followed by the number. -/
def describe (e : Errno) : String :=
  e.text ++ " (os error " ++ String.ofList (Text.Numeral.signed e.code) ++ ")"

/-- The error numbers of each class of failure.  A number in no row is uncategorized. -/
def table : List (IoKind × List Int) := [
  (.permissionDenied, [1, 13]), (.notFound, [2]), (.interrupted, [4]), (.inputOutputError, [5]),
  (.argumentListTooLong, [7]), (.wouldBlock, [11]), (.outOfMemory, [12]), (.resourceBusy, [16]),
  (.alreadyExists, [17]), (.crossesDevices, [18]), (.notADirectory, [20]), (.isADirectory, [21]),
  (.invalidInput, [22]), (.tooManyOpenFiles, [23, 24]), (.executableFileBusy, [26]),
  (.fileTooLarge, [27]), (.storageFull, [28]), (.notSeekable, [29]), (.readOnlyFilesystem, [30]),
  (.tooManyLinks, [31]), (.brokenPipe, [32]), (.deadlock, [35]), (.invalidFilename, [36]),
  (.unsupported, [38, 95]), (.directoryNotEmpty, [39]), (.filesystemLoop, [40]),
  (.addrInUse, [98]), (.addrNotAvailable, [99]), (.networkDown, [100]),
  (.networkUnreachable, [101]), (.connectionAborted, [103]), (.connectionReset, [104]),
  (.notConnected, [107]), (.timedOut, [110]), (.connectionRefused, [111]),
  (.hostUnreachable, [113]), (.inProgress, [115]), (.staleNetworkFileHandle, [116]),
  (.quotaExceeded, [122])]

/-- The class of failure that an error number belongs to. -/
def kind (e : Errno) : IoKind :=
  match table.find? fun row => row.2.contains e.code with
  | some row => row.1
  | none => .uncategorized

end Errno

end PortableFiles
