import PortableFiles.Platform.Basic
import PortableFiles.Text.Numeral
set_option autoImplicit false

/-!
# Raw files

The calls on one descriptor, as somebody makes them who holds nothing but its number: one after
the other, until it is closed.
-/

namespace PortableFiles

/-- How the flags of a word ask for a file to be opened. -/
def OpenHow.ofWord (word : UInt32) : OpenHow :=
  let has (bit : UInt32) : Bool := word &&& bit ≠ 0
  if has 0o10000000 then { reference := true, directory := has 0o200000, noFollow := has 0o400000 }
  else
    { read := word &&& 3 ≠ 1
      write := word &&& 3 ≠ 0
      idle := word &&& 3 = 3
      create := has 0o100
      exclusive := has 0o200
      truncate := has 0o1000
      append := has 0o2000
      directory := has 0o200000
      noFollow := has 0o400000
      direct := has 0o40000
      keepAccess := has 0o1000000
      unnamed := has 0o20000000 }

/-- A call on a descriptor. -/
inductive RawCall where
  | stat
  /-- Writes all of the given bytes. -/
  | write (data : Bytes)
  | sync
  | close
  /-- Asks for the number. -/
  | number
  deriving DecidableEq, Repr

/-- What a call on a descriptor gives. -/
inductive RawAnswer where
  | type (type : FileType)
  | done
  | failed (e : IoError)
  | number (n : Int)
  /-- The descriptor is closed already. -/
  | gone

namespace RawCall

/-- The answer to a call that gives nothing. -/
def doneOr : Except Errno Unit → RawAnswer
  | .ok () => .done
  | .error e => .failed (.os e)

/-- The answer to a write. -/
def written : Except Error Unit → RawAnswer
  | .ok () => .done
  | .error e =>
    match e.cause with
    | .io failure => .failed failure
    | _ => .failed e.toIo

/-- Makes one call on an open descriptor.  The second component says whether it is still open. -/
def perform (file : Descriptor) : RawCall → Program (RawAnswer × Bool)
  | .stat => do
    match ← Program.perform (.statOpen file) with
    | .ok s => return (.type s.type, true)
    | .error e => return (.failed (.os e), true)
  | .write data => do return (written (← (Routine.writeAll ⟨[]⟩ file data).outcome), true)
  | .sync => do return (doneOr (← Program.perform (.sync file)), true)
  | .close => do return (doneOr (← Program.perform (.close file)), false)
  | .number => return (.number file.number, true)

/-- Makes calls one after the other. -/
def performAll (file : Descriptor) : Bool → List RawCall → Program (List RawAnswer)
  | _, [] => return []
  | false, _ :: rest => do return .gone :: (← performAll file false rest)
  | true, c :: rest => do
    let (answer, isOpen) ← c.perform file
    return answer :: (← performAll file isOpen rest)

end RawCall

end PortableFiles
