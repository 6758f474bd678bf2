import PortableFiles.Security.Sid.Basic
import PortableFiles.FileInfo
set_option autoImplicit false

/-!
# POSIX ids of security identifiers

Each security identifier falls into a row of a table, which gives it a number as a POSIX system
would use.  Identifiers of no row have no number.
-/

namespace PortableFiles.Sid

/-- The rows of the table of ids. -/
inductive IdRow where
  /-- A logon session. -/
  | logonSession
  /-- A built-in group. -/
  | builtin (rid : UInt32)
  /-- An account of the primary domain. -/
  | primaryDomain (rid : UInt32)
  /-- An account of another domain. -/
  | foreignDomain (rid : UInt32)
  /-- A well-known identifier. -/
  | wellKnown (authority : UInt64) (rid : UInt32)
  /-- None of these. -/
  | none
  deriving DecidableEq, Repr, Inhabited

/-- The authority of Windows itself. -/
def ntAuthority : UInt64 := 5

/-- The row of a single number under an authority. -/
def wellKnownRow (authority : UInt64) (rid : UInt32) : IdRow :=
  if authority < 0x80 ∧ rid < 0x1FF then .wellKnown authority rid else .none

/-- The row of an identifier, given the primary domain if there is one. -/
def idRow (s : Sid) (primary : Option Sid) : IdRow :=
  match s.subs with
  | [] => .none
  | [rid] => wellKnownRow s.authority rid
  | first :: second :: rest =>
    if s.authority ≠ ntAuthority then .none
    else if first = 5 then .logonSession
    else if first = 32 ∧ rest = [] then .builtin second
    else if first = 21 ∧ rest.length ≥ 3 then
      let rid := rest.getLast?.getD second
      if primary.any fun domain => s.isInDomain domain then .primaryDomain rid
      else .foreignDomain rid
    else .none

/-- The id of a row. -/
def IdRow.id : IdRow → Nat
  | .logonSession => 0xFFF
  | .builtin rid => 0x20000 + rid.toNat
  | .primaryDomain rid => 0x40000 + rid.toNat
  | .foreignDomain rid => 0x30000 + rid.toNat
  | .wellKnown authority rid => 0x30000 ||| authority.toNat <<< 9 ||| (rid.toNat + 1)
  | .none => unknownId

/-- The POSIX id of an identifier. -/
def posixId (s : Sid) (primary : Option Sid) : Nat := (s.idRow primary).id

end PortableFiles.Sid
