import PortableFiles.Kernel.Program
import PortableFiles.Text.Blank
import PortableFiles.Text.Split
set_option autoImplicit false

/-!
# The mask of new files

The permission bits that a process withholds from the files it makes.  Where the system has such
a mask, the process remembers its value; the remembered word and the system's mask change
together.  Where it has none, the remembered word is the mask, and the environment gives its first
value.
-/

namespace PortableFiles.Umask

/-- The bits that a mask can have. -/
def bits : UInt32 := 0o777

/-- The mask where nobody says otherwise. -/
def standard : UInt32 := 0o022

/-- The text without a mark of octal numbers. -/
def withoutMark : List Char → List Char
  | '0' :: 'o' :: digits => digits
  | '0' :: 'O' :: digits => digits
  | s => s

/-- The mask that a text stands for: octal digits after an optional mark, up to `0o777`, with
blanks around them. -/
def parse (s : String) : Option UInt32 :=
  ((Text.Numeral.natural? 8 4294967296 (withoutMark (Text.trim s.toList))).filter
    (· ≤ bits.toNat)).map UInt32.ofNat

/-! ## A system with a mask -/

/-- What a line says after a mark at its beginning. -/
def marked? (mark line : List Char) : Option (List Char) :=
  if mark.isPrefixOf line then some (line.drop mark.length) else none

/-- The mask that the status of a process shows, in octal digits, in its first line with the mark
of masks. -/
def shown? (status : String) : Option UInt32 :=
  ((Text.lines status.toList).findSome? (marked? "Umask:".toList)).bind fun value =>
    (Text.Numeral.unsigned? 8 4294967296 (Text.trim value)).map UInt32.ofNat

/-- Reads the system's mask from the status of the process, if it is shown there. -/
def readStatus : Program (Option UInt32) := do
  return (← Program.question .status).bind shown?

/-- Reads the system's mask: from the status of the process, or by setting another one for a
moment. -/
def readSystem : Program UInt32 := do
  match ← readStatus with
  | some mask => return mask
  | none =>
    let mask ← Program.question (.exchangeMask standard)
    let _ ← Program.question (.exchangeMask mask)
    return mask

/-- The mask.  The first reading is remembered. -/
def ofSystem : Program UInt32 := do
  match ← Program.question .recallMask with
  | some mask => return mask
  | none =>
    let mask ← readSystem
    Program.question (.rememberMask mask)
    return mask

/-- Sets the mask and gives the one before. -/
def setSystem (mask : UInt32) : Program UInt32 := do
  let old ← Program.question (.exchangeMask (mask &&& bits))
  Program.question (.rememberMask (mask &&& bits))
  return old

/-! ## A mask of the process alone -/

/-- The first value of the mask: what the environment says, if it is a mask. -/
def initial : Program UInt32 := do
  let text ← Program.question (.variable "UMASK")
  return (text.bind parse).getD standard

/-- The mask. -/
def ofProcess : Program UInt32 := do
  match ← Program.question .recallMask with
  | some mask => return mask
  | none =>
    let mask ← initial
    Program.question (.rememberMask mask)
    return mask

/-- Sets the mask and gives the one before. -/
def setProcess (mask : UInt32) : Program UInt32 := do
  let old ← ofProcess
  Program.question (.rememberMask (mask &&& bits))
  return old

end PortableFiles.Umask
