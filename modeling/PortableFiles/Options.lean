import PortableFiles.Mode
import PortableFiles.Time.Duration
import PortableFiles.Text.FlagSet
set_option autoImplicit false

/-!
# Options of writes, renamings and links

One record holds the choices for all operations that change files.  Each choice is made by a
function that gives the record with that choice; permissions are cut to their twelve bits, and
flags only ever join the flags that are there.
-/

namespace PortableFiles

/-- A flag for opening the destination of a write. -/
inductive OpenFlag where
  /-- Add to the end instead of starting anew. -/
  | append
  /-- Write through to the device. -/
  | sync
  /-- Refuse a destination that exists. -/
  | exclusive
  /-- Remove the file once the writer closes it. -/
  | deleteOnClose
  /-- Leave the read-only attribute alone. -/
  | noReadOnlyAttribute
  deriving DecidableEq, Repr, Inhabited

namespace OpenFlag

/-- Every flag, in the order of the bits. -/
def all : List OpenFlag := [.append, .sync, .exclusive, .deleteOnClose, .noReadOnlyAttribute]

/-- The bit of a flag. -/
def bit : OpenFlag → UInt32
  | .append => 1
  | .sync => 2
  | .exclusive => 4
  | .deleteOnClose => 8
  | .noReadOnlyAttribute => 16

/-- The name of a flag. -/
def name : OpenFlag → String
  | .append => "APPEND"
  | .sync => "SYNC"
  | .exclusive => "EXCL"
  | .deleteOnClose => "DELETE_ON_CLOSE"
  | .noReadOnlyAttribute => "NO_RO_ATTR"

/-- The flag with the given name. -/
def ofName? (s : String) : Option OpenFlag := all.find? fun f => f.name = s

end OpenFlag

/-- A set of flags.  Bits without a flag are kept and mean nothing. -/
structure OpenFlags where
  bits : UInt32
  deriving DecidableEq, Repr, Inhabited

namespace OpenFlags

/-- No flag at all. -/
def empty : OpenFlags := ⟨0⟩

/-- The flags of both sets. -/
def union (a b : OpenFlags) : OpenFlags := ⟨a.bits ||| b.bits⟩

/-- The set of one flag. -/
def single (f : OpenFlag) : OpenFlags := ⟨f.bit⟩

/-- The set of the given flags. -/
def ofList (l : List OpenFlag) : OpenFlags := l.foldl (fun s f => s.union (single f)) empty

/-- Whether a flag is in the set. -/
def has (s : OpenFlags) (f : OpenFlag) : Bool := s.bits &&& f.bit = f.bit

/-- The set without all flags but one. -/
def only (s : OpenFlags) (f : OpenFlag) : OpenFlags := ⟨s.bits &&& f.bit⟩

/-- The members of the set as text. -/
def renderBits (s : OpenFlags) : String :=
  Text.FlagSet.render (OpenFlag.all.map fun f => (f.name, f.bit)) s.bits

/-- The set on one line. -/
def render (s : OpenFlags) : String := "OpenFlags(" ++ s.renderBits ++ ")"

/-- The set spread over lines, each line after the first indented by `indent`. -/
def renderLines (indent : String) (s : OpenFlags) : String :=
  "OpenFlags(\n" ++ indent ++ "    " ++ s.renderBits ++ ",\n" ++ indent ++ ")"

end OpenFlags

/-- What becomes of the read-only attribute of a destination, on platforms that have one. -/
inductive ReadOnlyMode where
  /-- It stays as it is. -/
  | ignore
  /-- It is set after the write. -/
  | set
  /-- It is cleared before the write. -/
  | reset
  deriving DecidableEq, Repr, Inhabited

/-- The name of a choice. -/
def ReadOnlyMode.name : ReadOnlyMode → String
  | .ignore => "Ignore"
  | .set => "Set"
  | .reset => "Reset"

/-- The choices for writes, renamings and links.  The permissions of a written file are the first
of these that applies: `fileMode`; the replaced file's under `keepFileMode`; `defaultFileMode` as
masked; those with which it was created. -/
structure Options where
  /-- Permissions that a written file gets as they are. -/
  fileMode : Option UInt32
  /-- Permissions of a new file, subject to the mask. -/
  defaultFileMode : Option UInt32
  /-- Whether a replaced file hands its permissions on. -/
  keepFileMode : Bool
  flags : OpenFlags
  readOnlyMode : ReadOnlyMode
  /-- Whether a new symbolic link is given to the user who makes it. -/
  setSymlinkOwner : Bool
  /-- Whether writes publish their content with a renaming. -/
  atomically : Bool
  /-- How long a renaming may be tried again. -/
  retry : Duration
  deriving DecidableEq

namespace Options

/-- The options without any choice made. -/
def plain : Options where
  fileMode := none
  defaultFileMode := none
  keepFileMode := false
  flags := .empty
  readOnlyMode := .ignore
  setSymlinkOwner := false
  atomically := false
  retry := .zero

instance : Inhabited Options := ⟨plain⟩

/-- The options with permissions for every written file. -/
def withFileMode (o : Options) (mode : UInt32) : Options :=
  { o with fileMode := some (mode &&& permMask) }

/-- The options with permissions for every new file. -/
def withDefaultFileMode (o : Options) (mode : UInt32) : Options :=
  { o with defaultFileMode := some (mode &&& permMask) }

/-- The options with more flags. -/
def withFlags (o : Options) (flags : OpenFlags) : Options := { o with flags := o.flags.union flags }

/-- Whether a flag is set. -/
def hasFlag (o : Options) (f : OpenFlag) : Bool := o.flags.has f

/-- A truth value as text. -/
def boolText (b : Bool) : String := if b then "true" else "false"

/-- The names and texts of the choices, given the texts of permissions and of flags. -/
def fields (permissions : Option UInt32 → String) (flags : OpenFlags → String) (o : Options) :
    List (String × String) :=
  [("file_mode", permissions o.fileMode), ("default_file_mode", permissions o.defaultFileMode),
    ("keep_file_mode", boolText o.keepFileMode), ("flags", flags o.flags),
    ("read_only_mode", o.readOnlyMode.name), ("set_symlink_owner", boolText o.setSymlinkOwner),
    ("atomically", boolText o.atomically), ("retry", o.retry.render)]

/-- The options on one line. -/
def render (o : Options) : String :=
  "Options \x7b "
    ++ ", ".intercalate ((o.fields octalModeOption OpenFlags.render).map fun f =>
        f.1 ++ ": " ++ f.2)
    ++ " \x7d"

/-- The options with one choice to a line. -/
def renderLines (o : Options) : String :=
  "Options \x7b\n"
    ++ String.join
        ((o.fields (octalModeOptionLines "    ") (OpenFlags.renderLines "    ")).map fun f =>
          "    " ++ f.1 ++ ": " ++ f.2 ++ ",\n")
    ++ "\x7d"

end Options

end PortableFiles
