import PortableFiles.Writing.Atomic
set_option autoImplicit false

/-!
# Writes in place

The destination is opened and written where it is, so that others may see a part of the content.
The options may ask for an atomic write instead.
-/

namespace PortableFiles.Writing

/-- Writes what a reader delivers to a path.  A missing file is made with permissions `mode`, less
the mask. -/
def fromReader (p : Platform) (path : Path) (reader : Reader) (mode : UInt32) (options : Options) :
    Routine Unit :=
  if options.atomically then
    atomicFromReader p path reader
      (if options.defaultFileMode.isNone then options.withDefaultFileMode mode else options)
  else if path.isEmpty then Routine.fail (.emptyPath .openFile)
  else do
    p.prepareDestination path options
    let writer ← p.create path (mode &&& permMask) options.flags
    Routine.withCleanup (p.abandon writer) do
      let _ ← reader.copyTo writer.path (p.writeAll writer)
      match options.fileMode with
      | some mode => p.chmod path mode
      | none => pure ()
    p.close writer
    p.finishDestination path options

/-- Writes bytes to a path. -/
def fromBytes (p : Platform) (path : Path) (data : Bytes) (mode : UInt32) (options : Options) :
    Routine Unit :=
  fromReader p path [.bytes data] mode options

end PortableFiles.Writing
