import PortableFiles.Text.Numeral
set_option autoImplicit false

/-!
# Security identifiers

A security identifier names a user, a group or a machine: an authority that issues it, and numbers
of which the last, the relative identifier, counts within the domain that the others name.
-/

namespace PortableFiles

/-- A security identifier. -/
structure Sid where
  revision : UInt8
  authority : UInt64
  subs : List UInt32
  deriving DecidableEq, Repr, Inhabited

namespace Sid

/-- The identifier of the present revision with the given parts. -/
def new (authority : UInt64) (subs : List UInt32) : Sid := ⟨1, authority, subs⟩

/-- Everyone. -/
def everyone : Sid := .new 1 [0]

/-- Stands for the owner of a file. -/
def ownerProxy : Sid := .new 3 [2]

/-- Stands for the group of a file. -/
def groupProxy : Sid := .new 3 [3]

/-- The account of the system itself. -/
def localSystem : Sid := .new 5 [18]

/-- The built-in group of administrators. -/
def administrators : Sid := .new 5 [32, 544]

/-- The relative identifier. -/
def rid? (s : Sid) : Option UInt32 := s.subs.getLast?

/-- The identifier of the domain that issued this one. -/
def domain? (s : Sid) : Option Sid :=
  if s.subs = [] then none else some { s with subs := s.subs.dropLast }

/-- Whether a domain issued this identifier.  Revisions are not compared. -/
def isInDomain (s domain : Sid) : Bool :=
  s.authority = domain.authority && s.subs.length = domain.subs.length + 1
    && s.subs.take domain.subs.length = domain.subs

end Sid

end PortableFiles
