import PortableFiles.Security.AccessMask
import PortableFiles.Security.Sid.Basic
set_option autoImplicit false

/-!
# Access control lists and modes

An access control list allows and denies rights to trustees.  The mode of a file is read off the
entries that allow, for its owner, its group and everyone; the list of a mode allows the three
what their triplets say, and everything to the system and the administrators.
-/

namespace PortableFiles

/-- Whether an entry gives rights or withholds them. -/
inductive AceKind where
  | allow
  | deny
  deriving DecidableEq, Repr, Inhabited

/-- An entry of an access control list. -/
structure Ace where
  kind : AceKind
  flags : UInt8
  mask : UInt32
  trustee : Sid
  deriving DecidableEq, Repr, Inhabited

namespace Ace

/-- The entry without flags that allows a trustee the rights of a mask. -/
def allow (trustee : Sid) (mask : UInt32) : Ace := ⟨.allow, 0, mask, trustee⟩

/-- Whether the entry is for children only. -/
def isInheritOnly (a : Ace) : Bool := a.flags &&& 8 ≠ 0

end Ace

/-- Whether an identifier is that of the system or of the administrators, whose entries say nothing
about a mode. -/
def Sid.isPrivileged (s : Sid) : Bool := s = .localSystem || s = .administrators

namespace Acl

/-- Whether an entry counts for a mode. -/
def counts (a : Ace) : Bool := a.kind = .allow && !a.isInheritOnly && !a.trustee.isPrivileged

/-- The bits of a mode that one entry gives.  Everyone counts only if it is neither the owner nor
the group. -/
def modeBits (owner group : Sid) (a : Ace) : UInt32 :=
  if counts a then
    let rwx := AccessMask.triplet a.mask
    let isOwner := a.trustee = owner || a.trustee = .ownerProxy
    let isGroup := a.trustee = group || a.trustee = .groupProxy
    (if isOwner then rwx <<< 6 else 0) ||| (if isGroup then rwx <<< 3 else 0)
      ||| (if !isOwner && !isGroup && a.trustee = .everyone then rwx else 0)
  else 0

/-- The mode of a file with the given entries, owner and group. -/
def mode (owner group : Sid) (aces : List Ace) : UInt32 :=
  aces.foldl (fun bits a => bits ||| modeBits owner group a) 0

/-- The trustee that is written for an owner or a group: a proxy if its entries would not count. -/
def trusteeFor (s proxy : Sid) : Sid := if s.isPrivileged then proxy else s

/-- The entry for a triplet, unless it is empty. -/
def entryFor (trustee : Sid) (rwx : UInt32) (owner : Bool) : List Ace :=
  if rwx = 0 then [] else [.allow trustee (AccessMask.ofTriplet rwx owner)]

/-- The entries for a mode. -/
def ofMode (mode : UInt32) (owner group : Sid) : List Ace :=
  entryFor (trusteeFor owner .ownerProxy) (mode >>> 6 &&& 7) true
    ++ entryFor (trusteeFor group .groupProxy) (mode >>> 3 &&& 7) false
    ++ entryFor .everyone (mode &&& 7) false
    ++ [.allow .localSystem AccessMask.all, .allow .administrators AccessMask.all]

end Acl

end PortableFiles
