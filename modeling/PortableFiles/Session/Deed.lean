import PortableFiles.Kernel.Program
import PortableFiles.Text.Numeral
set_option autoImplicit false

/-!
# Deeds

What somebody does to the files without this library: the plain calls of the system, as a user at
a terminal or another process would make them.
-/

namespace PortableFiles

/-- Something done to the files. -/
inductive Deed where
  /-- Puts bytes into a file, made where it is missing. -/
  | put (path : Path) (data : Bytes)
  /-- Makes a directory and those above it that are missing. -/
  | makeDirectories (path : Path)
  | remove (path : Path)
  | removeDirectory (path : Path)
  | move (source destination : Path)
  | link (source destination : Path)
  | makeSpecial (path : Path) (which : SpecialFile)
  | giveTo (path : Path) (uid gid : Nat)
  | setTimes (path : Path) (access modify : GivenTime)
  /-- Removes the files of a directory whose names are numbers. -/
  | removeNumbered (directory : Path)
  /-- Sets the permissions of the files of a directory whose names are numbers. -/
  | chmodNumbered (directory : Path) (perm : UInt32)

namespace Deed

/-- What comes of a deed. -/
abbrev Result : Type := Except IoError Unit

/-- What comes of a call. -/
def ofCall (reply : Except Errno Unit) : Result := reply.mapError IoError.os

/-- The deed that is one call. -/
def call (p : Program (Except Errno Unit)) : Program Result := do return ofCall (← p)

/-- Writes all of `data`, at most `fuel` parts of it. -/
def writeOut (file : Descriptor) : Nat → Bytes → Program Result
  | 0, _ => return .ok ()
  | fuel + 1, data =>
    if data = [] then return .ok ()
    else do
      match ← Program.perform (.write file data) with
      | .ok written => writeOut file fuel (data.drop written)
      | .error e => return .error (.os e)

/-- Puts bytes into a file. -/
def putBytes (path : Path) (data : Bytes) : Program Result := do
  match ← Program.perform (.openFile path .replacing 0o666) with
  | .error e => return .error (.os e)
  | .ok file =>
    let result ← writeOut file data.length data
    let _ ← Program.perform (.close file)
    return result

/-- Makes a directory unless there is one. -/
def ensureDirectory (path : Path) (e : Errno) : Program Result := do
  match ← Program.perform (.stat path true) with
  | .ok s => if s.type = .directory then return .ok () else return .error (.os e)
  | .error _ => return .error (.os e)

/-- Makes a directory and, at most `fuel` levels up, those above it that are missing. -/
def makeAbove : Nat → Path → Program Result
  | 0, path => call (Program.perform (.makeDirectory path 0o777))
  | fuel + 1, path => do
    if path.isEmpty then return .ok ()
    match ← Program.perform (.makeDirectory path 0o777) with
    | .ok () => return .ok ()
    | .error e =>
      if e = .noEntry then
        match path.parent? with
        | none => return .error (.os e)
        | some parent =>
          match ← makeAbove fuel parent with
          | .error e => return .error e
          | .ok () =>
            match ← Program.perform (.makeDirectory path 0o777) with
            | .ok () => return .ok ()
            | .error e => ensureDirectory path e
      else ensureDirectory path e

/-- The permissions for which a special file is asked. -/
def specialPerm : SpecialFile → UInt32
  | .fifo => 0o644
  | .socket => 0o777
  | .device .. => 0o640

/-- Whether a name is a number. -/
def isNumber (name : Bytes) : Bool := name ≠ [] && name.all fun b => 48 ≤ b && b ≤ 57

/-- Does something to every entry of a directory whose name is a number. -/
def forNumbered (directory : Path) (act : Path → Call) : Program Result := do
  match ← Program.perform (.list directory) with
  | .error e => return .error (.os e)
  | .ok names =>
    for name in names.filter isNumber do
      let _ ← Program.perform (act (directory.join name))
    return .ok ()

/-- The length from which on a path is too long for a socket. -/
def maxSocketPath : Nat := 108

/-- Gives a socket an address.  The empty path is an address without a file. -/
def bindSocket (path : Path) : Program Result := do
  if path.hasNul then
    return .error (.custom .invalidInput "paths must not contain interior null bytes")
  if path.bytes.length ≥ maxSocketPath then
    return .error (.custom .invalidInput "path must be shorter than SUN_LEN")
  if path.isEmpty then return .ok ()
  match ← Program.perform (.makeSpecial path .socket (specialPerm .socket)) with
  | .ok () => return .ok ()
  | .error e => return .error (.os (if e = .entryExists then .addressInUse else e))

/-- Makes a socket with an address. -/
def makeSocket (path : Path) : Program Result := do
  match ← Program.perform .openSocket with
  | .ok () => bindSocket path
  | .error e => return .error (.os e)

/-- The paths that a deed names. -/
def paths : Deed → List Path
  | .put path _ | .makeDirectories path | .remove path | .removeDirectory path
  | .makeSpecial path _ | .giveTo path _ _ | .setTimes path _ _ | .removeNumbered path
  | .chmodNumbered path _ => [path]
  | .move source destination | .link source destination => [source, destination]

/-- The failure of a deed on a path with a zero byte in it. -/
def nulFailure : Deed → IoError
  | .makeSpecial .. | .setTimes .. =>
    .custom .invalidInput "data provided contains a nul byte"
  | _ => .nulInName

/-- Does it, on paths without zero bytes. -/
def performClean : Deed → Program Result
  | .put path data => putBytes path data
  | .makeDirectories path => makeAbove (path.bytes.length + 1) path
  | .remove path => call (Program.perform (.unlink path))
  | .removeDirectory path => call (Program.perform (.removeDirectory path))
  | .move source destination => call (Program.perform (.rename source destination))
  | .link source destination => call (Program.perform (.link source destination))
  | .makeSpecial path which => call (Program.perform (.makeSpecial path which (specialPerm which)))
  | .giveTo path uid gid => call (Program.perform (.chown path uid gid))
  | .setTimes path access modify => call (Program.perform (.setTimes path access modify))
  | .removeNumbered directory => forNumbered directory fun p => .unlink p
  | .chmodNumbered directory perm => forNumbered directory fun p => .chmod p perm

/-- Does it.  A path with a zero byte names nothing. -/
def perform : Deed → Program Result
  | .makeSpecial path .socket => makeSocket path
  | d => if d.paths.any Path.hasNul then return .error d.nulFailure else d.performClean

end Deed

end PortableFiles
