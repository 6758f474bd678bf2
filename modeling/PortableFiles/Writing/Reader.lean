import PortableFiles.Kernel.Program
set_option autoImplicit false

/-!
# Readers

A reader delivers bytes in chunks.  It may fail in between, and the world may change while it is
read.  A chunk larger than the buffer takes several reads; an empty chunk ends the stream.
-/

namespace PortableFiles

/-- What a reader delivers next. -/
inductive Chunk where
  /-- Some bytes, or the end of the stream. -/
  | bytes (data : Bytes)
  /-- A failure, after which the reader can go on. -/
  | failure (e : IoError)
  /-- Nothing, but somebody else does this meanwhile. -/
  | meanwhile (others : Program Unit)

/-- A stream of bytes. -/
abbrev Reader : Type := List Chunk

namespace Reader

/-- How many bytes one read takes at most. -/
def bufferSize : Nat := 65536

/-- The parts in which bytes pass through the buffer. -/
def buffersFull (data : Bytes) : List Bytes :=
  if _h : data = [] then [] else data.take bufferSize :: buffersFull (data.drop bufferSize)
termination_by data.length
decreasing_by
  have : data.length ≠ 0 := fun e => _h (List.length_eq_zero_iff.1 e)
  rw [List.length_drop, bufferSize]
  omega

/-- Passes every read of a stream to `sink` and gives the number of bytes.  An interruption is
passed over; another failure ends the copying, as an error of reading for the file at `path`. -/
def copyTo (path : Path) (sink : Bytes → Routine Unit) : Reader → Routine Nat
  | [] => pure 0
  | .bytes data :: rest =>
    if data = [] then pure 0
    else do
      for part in buffersFull data do
        sink part
      return data.length + (← copyTo path sink rest)
  | .failure e :: rest =>
    if e.kind = .interrupted then copyTo path sink rest else Routine.fail (.ofIo .read path e)
  | .meanwhile others :: rest => do
    Routine.lift others
    copyTo path sink rest

end Reader

end PortableFiles
