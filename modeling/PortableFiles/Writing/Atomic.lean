import PortableFiles.Platform.Basic
import PortableFiles.Writing.Reader
set_option autoImplicit false

/-!
# Atomic writes

The content goes to a new file beside the destination, under a random name.  Once all of it is
written, brought to the device and given its permissions, one renaming puts it in place.  Whatever
fails before that, the new file is removed and the destination stays as it was.
-/

namespace PortableFiles.Writing

/-- The permissions of a new file where none are given. -/
def tempPerm : UInt32 := 0o600

/-- A random name, which is a number. -/
def drawName : Program Bytes := do
  return Bytes.ofString (Text.Numeral.decimalString (← Program.question .draw).toNat)

/-- Makes a new file in a directory, under the first of at most so many names that is free.  Of the
flags only the one for writing through counts. -/
def createNamed (p : Platform) (directory : Path) (perm : UInt32) (flags : OpenFlags)
    (nextName : Program Bytes) : Nat → Routine (Path × Writer)
  | 0 => Routine.fail (.tempNamesExhausted directory)
  | attempts + 1 => do
    let path := directory.join (← Routine.lift nextName)
    match ← (p.createNew path perm (flags.only .sync)).attempt with
    | .ok writer => return (path, writer)
    | .error e =>
      if e.kind = .alreadyExists then createNamed p directory perm flags nextName attempts
      else Routine.fail e

/-- Writes the content to an open file, brings it to the device and closes the file.  Gives the
permissions that the file has. -/
def fill (p : Platform) (writer : Writer) (reader : Reader) : Routine UInt32 := do
  let perm ← Routine.withCleanup (p.abandon writer) do
    let _ ← reader.copyTo writer.path (p.writeAll writer)
    p.sync writer
    p.perm writer
  p.close writer
  return perm

/-- The permissions that the written file ends up with, given those of the new file. -/
def finalPerm (p : Platform) (destination : Path) (options : Options) (created : UInt32) :
    Routine UInt32 := do
  match options.fileMode with
  | some mode => return mode
  | none =>
    let kept ← (if options.keepFileMode then do
        match ← (p.stat destination).attempt with
        | .ok info => return some info.mode.permSpecial
        | .error e => if e.kind = .notFound then return none else Routine.fail e
      else return none : Routine (Option UInt32))
    match kept, options.defaultFileMode with
    | some perm, _ => return perm
    | none, some mode => return mode &&& ((← Routine.lift p.umask) ^^^ 0xFFFFFFFF)
    | none, none => return created

/-- Puts a filled file in the place of the destination. -/
def publish (p : Platform) (temp destination : Path) (options : Options) (created : UInt32) :
    Routine Unit := do
  let perm ← finalPerm p destination options created
  if perm ≠ created then p.chmod temp perm
  p.prepareDestination destination options
  p.rename temp destination

/-- Writes what a reader delivers to a path, so that the path leads to the old file or to all of
the new one at every moment. -/
def atomicFromReader (p : Platform) (path : Path) (reader : Reader) (options : Options) :
    Routine Unit :=
  if path.isEmpty then Routine.fail (.emptyPath .createTemp)
  else do
    let perm := options.defaultFileMode.getD tempPerm
    let (temp, writer) ←
      createNamed p path.parentDir perm options.flags drawName tempAttempts
    Routine.withCleanup (p.removeFile temp).ignoringErrors do
      let created ← fill p writer reader
      publish p temp path options created
    p.finishDestination path options

/-- Writes bytes to a path atomically. -/
def atomicFromBytes (p : Platform) (path : Path) (data : Bytes) (options : Options) :
    Routine Unit :=
  atomicFromReader p path [.bytes data] options

end PortableFiles.Writing
