import PortableFiles.Failure.Error
import PortableFiles.FileInfo
set_option autoImplicit false

/-!
# Programs

What a process does is a tree of calls and questions.  A call goes to the file system: it answers
with a value or with the number of an error, and it is one atomic step.  A signal can interrupt a
call before it has an effect; some calls are then made again, with the same arguments, until one
of them gets through.  A question concerns the process alone and always has an answer.  A program
is finished, or it makes a call or asks a question and goes on as the answer says; nothing else
happens in it.
-/

namespace PortableFiles

/-- The number of an open file in a process. -/
structure Descriptor where
  number : Int
  deriving DecidableEq, Repr, Inhabited

/-- How a file is opened. -/
structure OpenHow where
  read : Bool := false
  write : Bool := false
  /-- Whether a missing file is made. -/
  create : Bool := false
  /-- Whether it must be missing. -/
  exclusive : Bool := false
  /-- Whether its bytes are dropped. -/
  truncate : Bool := false
  /-- Whether every write goes to its end. -/
  append : Bool := false
  /-- Whether it must be a directory. -/
  directory : Bool := false
  /-- Whether a symbolic link at the end of the path is refused. -/
  noFollow : Bool := false
  /-- Whether the descriptor shall only stand for the file. -/
  reference : Bool := false
  /-- Whether it can be neither read nor written, whatever rights are asked for. -/
  idle : Bool := false
  /-- Whether bytes shall go straight to the device, which only files on a disk allow. -/
  direct : Bool := false
  /-- Whether reading shall leave the time of access, which is for the owner to ask. -/
  keepAccess : Bool := false
  /-- Whether a new file without a name is made in the directory. -/
  unnamed : Bool := false
  deriving DecidableEq, Repr, Inhabited

namespace OpenHow

/-- For reading. -/
def reading : OpenHow := { read := true }

/-- For writing a file that must be new. -/
def making : OpenHow := { write := true, create := true, exclusive := true }

/-- For writing a file anew, made if it is missing. -/
def replacing : OpenHow := { write := true, create := true, truncate := true }

/-- For writing at the end of a file, made if it is missing. -/
def appending : OpenHow := { write := true, create := true, append := true }

end OpenHow

/-- A time as it is given for a file.  Its nanoseconds can also ask for the present moment or for
no change. -/
structure GivenTime where
  secs : Int
  nanos : Int
  deriving DecidableEq, Repr, Inhabited

/-- The times of a file. -/
structure Times where
  birth : Timestamp
  access : Timestamp
  modify : Timestamp
  change : Timestamp
  deriving DecidableEq, Inhabited

/-- What the file system reports of a file. -/
structure Stat where
  type : FileType
  perm : UInt32
  size : Nat
  links : Nat
  uid : Nat
  gid : Nat
  volume : Nat
  file : Nat
  times : Times
  deriving DecidableEq, Inhabited

/-- A file without content of its own that can be made. -/
inductive SpecialFile where
  | fifo
  | socket
  | device (block : Bool) (major minor : Nat)
  deriving DecidableEq, Repr, Inhabited

/-- A call to the file system. -/
inductive Call where
  /-- Opens a file, made with `perm` without the bits of the mask where it is missing. -/
  | openFile (path : Path) (how : OpenHow) (perm : UInt32)
  /-- Writes some bytes from the front of `data` and tells how many. -/
  | write (file : Descriptor) (data : Bytes)
  /-- Brings what was written to the device. -/
  | sync (file : Descriptor)
  /-- Describes an open file. -/
  | statOpen (file : Descriptor)
  /-- Tells the path of an open file. -/
  | pathOfOpen (file : Descriptor)
  /-- Closes an open file. -/
  | close (file : Descriptor)
  /-- Describes the file at a path, or the symbolic link there. -/
  | stat (path : Path) (follow : Bool)
  /-- Sets the permissions of the file at a path. -/
  | chmod (path : Path) (perm : UInt32)
  /-- Gives the file at a path, which may be a symbolic link, to a user and a group.  The largest
  number means no change. -/
  | chown (path : Path) (uid gid : Nat)
  /-- Moves an entry, replacing the one that is there. -/
  | rename (source destination : Path)
  /-- Removes an entry that is not a directory. -/
  | unlink (path : Path)
  /-- Makes a symbolic link. -/
  | symlink (target : Bytes) (path : Path)
  /-- Makes a directory. -/
  | makeDirectory (path : Path) (perm : UInt32)
  /-- Removes an empty directory. -/
  | removeDirectory (path : Path)
  /-- Opens a socket that has no address yet, for as long as it takes to give it one. -/
  | openSocket
  /-- Makes a file without content of its own. -/
  | makeSpecial (path : Path) (which : SpecialFile) (perm : UInt32)
  /-- Gives a file one more name. -/
  | link (source destination : Path)
  /-- Sets the times of the file at a path, which may be a symbolic link. -/
  | setTimes (path : Path) (access modify : GivenTime)
  /-- Lists the names in a directory. -/
  | list (path : Path)
  /-- Looks the name of a user up. -/
  | userName (uid : Nat)
  /-- Looks the name of a group up. -/
  | groupName (gid : Nat)
  deriving DecidableEq

/-- What a call answers when it succeeds. -/
@[reducible] def Call.Value : Call → Type
  | .openFile .. => Descriptor
  | .write .. => Nat
  | .statOpen _ | .stat .. => Stat
  | .pathOfOpen _ => Path
  | .list _ => List Bytes
  | .userName _ | .groupName _ => Option String
  | _ => Unit

/-- A question about the process. -/
inductive Query where
  /-- Draws a random word. -/
  | draw
  | userId
  | groupId
  | effectiveUserId
  /-- Sets the mask of the process; the answer is the mask before. -/
  | exchangeMask (mask : UInt32)
  /-- Reads the text in which the system shows the status of the process, where that can be
  opened. -/
  | status
  /-- Reads the word in which the process remembers a mask. -/
  | recallMask
  /-- Writes that word. -/
  | rememberMask (mask : UInt32)
  /-- Reads a variable of the environment. -/
  | variable (name : String)
  deriving DecidableEq, Repr

/-- What a question answers. -/
@[reducible] def Query.Answer : Query → Type
  | .draw => UInt32
  | .userId | .groupId | .effectiveUserId => Nat
  | .exchangeMask _ => UInt32
  | .recallMask => Option UInt32
  | .rememberMask _ => Unit
  | .status | .variable _ => Option String

/-- What a process does until it has a value of type `α`. -/
inductive Program (α : Type) where
  /-- It has the value. -/
  | done (value : α)
  /-- It makes a call and goes on with what comes of it.  If `restarts`, it makes the call again
  whenever a signal interrupts it. -/
  | call (c : Call) (restarts : Bool) (next : Except Errno c.Value → Program α)
  /-- It asks a question and goes on with the answer. -/
  | ask (q : Query) (next : q.Answer → Program α)

namespace Program

variable {α β γ : Type}

/-- A program and, with its value, another one. -/
def andThen : Program α → (α → Program β) → Program β
  | .done value, f => f value
  | .call c restarts next, f => .call c restarts fun reply => (next reply).andThen f
  | .ask q next, f => .ask q fun answer => (next answer).andThen f

instance : Monad Program where
  pure := .done
  bind := andThen

@[simp] theorem pure_bind (value : α) (f : α → Program β) : (pure value >>= f) = f value := rfl

theorem bind_pure (p : Program α) : (p >>= pure) = p := by
  change p.andThen .done = p
  induction p with
  | done value => rfl
  | call c restarts next ih =>
    rw [andThen]
    exact congrArg (Program.call c restarts) (funext fun reply => ih reply)
  | ask q next ih =>
    rw [andThen]
    exact congrArg (Program.ask q) (funext fun answer => ih answer)

theorem bind_assoc (p : Program α) (f : α → Program β) (g : β → Program γ) :
    (p >>= f) >>= g = p >>= fun value => f value >>= g := by
  change (p.andThen f).andThen g = p.andThen fun value => (f value).andThen g
  induction p with
  | done value => rfl
  | call c restarts next ih =>
    simp only [andThen]
    exact congrArg (Program.call c restarts) (funext fun reply => ih reply)
  | ask q next ih =>
    simp only [andThen]
    exact congrArg (Program.ask q) (funext fun answer => ih answer)

/-- What is left to do after one attempt at a call. -/
def resume (c : Call) (restarts : Bool) (next : Except Errno c.Value → Program α)
    (reply : Except Errno c.Value) : Program α :=
  match restarts, reply with
  | true, .error e => if e = .interrupted then .call c true next else next (.error e)
  | _, reply => next reply

/-- The program of one call. -/
def perform (c : Call) : Program (Except Errno c.Value) := .call c false .done

/-- The program of one question. -/
def question (q : Query) : Program q.Answer := .ask q .done

end Program

/-- A program that gives a value or fails with an error. -/
abbrev Routine (α : Type) : Type := ExceptT Error Program α

namespace Routine

variable {α β : Type}

/-- The routine that fails. -/
def fail (e : Error) : Routine α := ExceptT.mk (.done (.error e))

/-- The routine of one call, whose failure is an error of `operation` on `path`. -/
def callWith (restarts : Bool) (operation : Operation) (path : Path) (c : Call) :
    Routine c.Value :=
  ExceptT.mk (.call c restarts fun reply =>
    .done (reply.mapError fun errno => Error.ofErrno operation path errno))

/-- The routine of one call, in which an interruption is a failure. -/
abbrev call : Operation → Path → (c : Call) → Routine c.Value := callWith false

/-- The routine of one call, which is made again whenever a signal interrupts it. -/
abbrev insist : Operation → Path → (c : Call) → Routine c.Value := callWith true

/-- The routine of one question. -/
def ask (q : Query) : Routine q.Answer := ExceptT.mk (.ask q fun answer => .done (.ok answer))

/-- A routine as a program that gives the outcome. -/
def outcome (t : Routine α) : Program (Except Error α) := ExceptT.run t

/-- The routine with the given outcome. -/
def ofOutcome (p : Program (Except Error α)) : Routine α := ExceptT.mk p

/-- The routine that runs a program. -/
def lift (p : Program α) : Routine α := ofOutcome do return .ok (← p)

/-- A routine that gives the outcome of another one and does not fail. -/
def attempt (t : Routine α) : Routine (Except Error α) := lift t.outcome

/-- A routine, and if it fails, a program after it that cannot change the error. -/
def withCleanup (cleanup : Program Unit) (t : Routine α) : Routine α :=
  ofOutcome do
    match ← t.outcome with
    | .ok value => return .ok value
    | .error e =>
      cleanup
      return .error e

/-- A routine whose error is not looked at. -/
def ignoringErrors (t : Routine α) : Program Unit := do
  let _ ← t.outcome
  return ()

end Routine

end PortableFiles
