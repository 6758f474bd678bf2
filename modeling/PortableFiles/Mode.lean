import PortableFiles.Text.Numeral
set_option autoImplicit false

/-!
# File types and modes

A mode holds the type of a file and its permissions in one word, in the traditional layout: four
bits of type above twelve bits of permission.  The layout is the same on every platform, so modes
from different platforms can be compared.
-/

namespace PortableFiles

/-- What kind of thing a file is. -/
inductive FileType where
  | blockDevice
  | charDevice
  | directory
  | fifo
  | symlink
  | regular
  | socket
  | other
  deriving DecidableEq, Repr, Inhabited

namespace FileType

/-- The type bits of a mode. -/
def typeMask : UInt32 := 0o170000

/-- The type bits of a file type; an unknown type has none. -/
def bits : FileType → UInt32
  | .blockDevice => 0o060000
  | .charDevice => 0o020000
  | .directory => 0o040000
  | .fifo => 0o010000
  | .symlink => 0o120000
  | .regular => 0o100000
  | .socket => 0o140000
  | .other => 0

/-- The file type in the type bits of a mode word. -/
def ofBits (word : UInt32) : FileType :=
  let type := word &&& typeMask
  if type = 0o060000 then .blockDevice
  else if type = 0o020000 then .charDevice
  else if type = 0o040000 then .directory
  else if type = 0o010000 then .fifo
  else if type = 0o120000 then .symlink
  else if type = 0o100000 then .regular
  else if type = 0o140000 then .socket
  else .other

/-- The name of a file type. -/
def name : FileType → String
  | .blockDevice => "BlockDevice"
  | .charDevice => "CharDevice"
  | .directory => "Directory"
  | .fifo => "Fifo"
  | .symlink => "Symlink"
  | .regular => "Regular"
  | .socket => "Socket"
  | .other => "Other"

/-- The letter of a file type in a listing. -/
def letter : FileType → Char
  | .blockDevice => 'b'
  | .charDevice => 'c'
  | .directory => 'd'
  | .fifo => 'p'
  | .symlink => 'l'
  | .socket => 's'
  | .regular | .other => '-'

@[simp] theorem ofBits_bits (t : FileType) : ofBits t.bits = t := by
  cases t <;> decide

end FileType

/-- The twelve permission bits: three triplets, set-user-id, set-group-id and sticky. -/
def permMask : UInt32 := 0o7777

/-- A mode word. -/
structure Mode where
  bits : UInt32
  deriving DecidableEq, Repr, Inhabited

namespace Mode

/-- The mode of a file of the given type with the given permissions. -/
def new (type : FileType) (perm : UInt32) : Mode := ⟨type.bits ||| (perm &&& permMask)⟩

/-- The nine bits of the triplets. -/
def perm (m : Mode) : UInt32 := m.bits &&& 0o777

/-- All twelve permission bits. -/
def permSpecial (m : Mode) : UInt32 := m.bits &&& permMask

/-- The type of the file. -/
def fileType (m : Mode) : FileType := .ofBits m.bits

/-- Whether the mode is that of a directory. -/
def isDir (m : Mode) : Bool := m.fileType = .directory

/-- Whether the mode is that of a symbolic link. -/
def isSymlink (m : Mode) : Bool := m.fileType = .symlink

/-- Whether the mode is that of a regular file. -/
def isRegular (m : Mode) : Bool := m.fileType = .regular

/-- The same type with other permissions. -/
def withPerm (m : Mode) (perm : UInt32) : Mode :=
  ⟨(m.bits &&& FileType.typeMask) ||| (perm &&& permMask)⟩

/-- The bits that the mode shares with `mask`. -/
def and (m : Mode) (mask : UInt32) : UInt32 := m.bits &&& mask

/-- The mode with the bits of `mask` added. -/
def or (m : Mode) (mask : UInt32) : Mode := ⟨m.bits ||| mask⟩

/-- A triplet as letters. -/
def triplet (rwx : UInt32) : List Char :=
  [if rwx &&& 4 ≠ 0 then 'r' else '-', if rwx &&& 2 ≠ 0 then 'w' else '-',
    if rwx &&& 1 ≠ 0 then 'x' else '-']

/-- The mode as in a listing, for example `drwxr-xr-x`. -/
def display (m : Mode) : String :=
  String.ofList (m.fileType.letter
    :: (triplet (m.bits >>> 6 &&& 7) ++ triplet (m.bits >>> 3 &&& 7) ++ triplet (m.bits &&& 7)))

/-- The mode with its type by name and its permissions in octal. -/
def describe (m : Mode) : String :=
  "Mode(" ++ m.fileType.name ++ ", 0o" ++ Text.Numeral.octalString 4 m.permSpecial.toNat ++ ")"

end Mode

/-! ## Permissions in octal -/

/-- A permission value as it is written in a shell, with at least three digits. -/
def octalMode (n : UInt32) : String := "0o" ++ Text.Numeral.octalString 3 n.toNat

/-- An optional permission value on one line. -/
def octalModeOption : Option UInt32 → String
  | some n => "Some(" ++ octalMode n ++ ")"
  | none => "None"

/-- An optional permission value spread over lines, each line after the first indented by
`indent`. -/
def octalModeOptionLines (indent : String) : Option UInt32 → String
  | some n => "Some(\n" ++ indent ++ "    " ++ octalMode n ++ ",\n" ++ indent ++ ")"
  | none => "None"

end PortableFiles
