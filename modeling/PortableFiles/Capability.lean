import PortableFiles.Text.FlagSet
set_option autoImplicit false

/-!
# Capabilities

The optional features of a platform, each with a bit of its own, and how a platform identifies
the owners of files.
-/

namespace PortableFiles

/-- An optional feature. -/
inductive Capability where
  /-- Counts of hard links. -/
  | links
  /-- Times of last access. -/
  | accessTime
  /-- Times of birth. -/
  | birthTime
  /-- Times at which an inode last changed. -/
  | changeTime
  /-- Metadata of an open file. -/
  | handleInfo
  /-- Priorities of processes. -/
  | nice
  /-- Symbolic links. -/
  | symlinks
  deriving DecidableEq, Repr, Inhabited

namespace Capability

/-- Every feature, in the order of the bits. -/
def all : List Capability :=
  [.links, .accessTime, .birthTime, .changeTime, .handleInfo, .nice, .symlinks]

/-- The name of a feature. -/
def name : Capability → String
  | .links => "Links"
  | .accessTime => "ATime"
  | .birthTime => "BTime"
  | .changeTime => "CTime"
  | .handleInfo => "Fstat"
  | .nice => "Nice"
  | .symlinks => "Symlinks"

/-- The name of a feature as a member of a set. -/
def flagName (c : Capability) : String := c.name.toUpper

/-- The feature with the given name. -/
def ofName? (s : String) : Option Capability := all.find? fun c => c.name = s

/-- The bit of a feature. -/
def bit : Capability → UInt32
  | .links => 1
  | .accessTime => 2
  | .birthTime => 4
  | .changeTime => 8
  | .handleInfo => 16
  | .nice => 32
  | .symlinks => 64

end Capability

/-- A set of features. -/
structure Capabilities where
  bits : UInt32
  deriving DecidableEq, Repr, Inhabited

namespace Capabilities

/-- The set of one feature. -/
def single (c : Capability) : Capabilities := ⟨c.bit⟩

/-- The set of all features. -/
def full : Capabilities := ⟨127⟩

/-- Whether a feature is in the set. -/
def contains (s : Capabilities) (c : Capability) : Bool := s.bits &&& c.bit = c.bit

/-- The set as it is shown, its members in the order of their bits. -/
def render (s : Capabilities) : String :=
  "Capabilities("
    ++ Text.FlagSet.render (Capability.all.map fun c => (c.flagName, c.bit)) s.bits ++ ")"

end Capabilities

/-- How owners and groups are identified. -/
inductive IdentityModel where
  /-- By numbers of the system. -/
  | int
  /-- By security identifiers, from which numbers are derived. -/
  | sid
  /-- By names. -/
  | string
  /-- Not at all. -/
  | none
  deriving DecidableEq, Repr, Inhabited

/-- The name of an identity model. -/
def IdentityModel.name : IdentityModel → String
  | .int => "Int"
  | .sid => "Sid"
  | .string => "String"
  | .none => "None"

/-- The features of this build: all of them. -/
def supported : Capabilities := .full

/-- This build identifies owners by numbers. -/
def identity : IdentityModel := .int

end PortableFiles
