import PortableFiles.Session.Deed
import PortableFiles.Writing.InPlace
import PortableFiles.Operations
set_option autoImplicit false

/-!
# Actions

What can be done in a session: the operations of the library, questions about the metadata that
they gave, and deeds without the library.  Each has an answer.
-/

namespace PortableFiles

/-- A question about metadata that the session keeps. -/
inductive Inquiry where
  | summary
  /-- Who owns the file. -/
  | owner
  | times
  /-- Whether the birth time stays the same and is not after the last modification. -/
  | btime
  | changeTime
  | error
  /-- In which states the lazy fields are. -/
  | states
  /-- How the metadata compare to those of the system for a path. -/
  | foreign (path : Path)
  deriving DecidableEq, Repr

/-- Something done in a session. -/
inductive Action where
  | write (path : Path) (reader : Reader) (mode : UInt32) (options : Options)
  | writeAtomic (path : Path) (reader : Reader) (options : Options)
  /-- Opens a file, writes to it, and closes it or lets it go. -/
  | rawWrite (path : Path) (new : Bool) (flags : OpenFlags) (mode : UInt32) (data : Bytes)
    (close : Bool)
  | ids
  | chmod (path : Path) (mode : UInt32)
  | rename (source destination : Path)
  | symlink (target link : Path) (options : Options)
  | stat (path : Path) (keepAs : Option String)
  | lstat (path : Path) (keepAs : Option String)
  | fstat (handle : String) (keepAs : Option String)
  /-- Asks for an open file that is not open. -/
  | fstatNumber (number : Int)
  | sameFiles (a b : Path)
  | samePartitions (a b : Path)
  /-- Compares kept metadata. -/
  | same (a b : String)
  | umask
  | setUmask (mask : UInt32)
  | root
  | inquire (info : String) (inquiry : Inquiry)
  | deed (d : Deed)
  /-- Opens a file for reading and keeps it. -/
  | openFile (path : Path) (keepAs : String)
  | close (handle : String)

/-- The result of a step of a raw write. -/
abbrev StepResult : Type := Except Error Unit

/-- What an action gives. -/
inductive Answer where
  | done
  | failed (e : Error)
  /-- A deed failed. -/
  | refused (e : IoError)
  | found (info : FileInfo)
  | truth (b : Bool)
  | mask (m : UInt32)
  /-- The mask before, and the one after. -/
  | masks (before after : UInt32)
  /-- Whether user and group are those of the process, and whether they are unknown. -/
  | ids (native unknown : Bool × Bool)
  | sameOf (file partition : Bool)
  | sameRoot (b : Bool)
  | rawWrite (write sync : StepResult) (perm : Except Error UInt32) (path : Path)
    (finish : Option StepResult)
  | shown (info : FileInfo)
  | owner (uid gid : Nat) (names : Owner)
  | times (mtime atime : Timestamp) (modTimeIsMtime : Bool)
  | btime (stable beforeMtime : Bool)
  | changeTime (isCtime isZero : Bool)
  | errorOf (e : Option Error)
  | states (btime changeTime owner : String)
  | foreign (info : FileInfo) (other : FileMeta)
  /-- Nothing is kept under that name. -/
  | unknownName

namespace Action

/-- Whether a listing follows the action. -/
def isListed : Action → Bool
  | .write .. | .writeAtomic .. | .rawWrite .. | .chmod .. | .rename .. | .symlink .. => true
  | .deed d =>
    match d with
    | .setTimes .. => false
    | _ => true
  | _ => false

end Action

end PortableFiles
