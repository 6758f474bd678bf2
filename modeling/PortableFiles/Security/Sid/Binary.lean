import PortableFiles.Security.Sid.Basic
import PortableFiles.Bytes
set_option autoImplicit false

/-!
# Security identifiers in binary

One byte of revision, one byte that counts the numbers, six bytes of authority, most significant
first, and four bytes for each number, least significant first.  What does not fit these widths is
cut off.
-/

namespace PortableFiles.Sid

/-- The number of bytes of the binary form. -/
def byteLength (s : Sid) : Nat := 8 + 4 * s.subs.length

/-- The binary form. -/
def toBytes (s : Sid) : Bytes :=
  s.revision :: UInt8.ofNat s.subs.length :: Bytes.bigEndian 6 s.authority.toNat
    ++ s.subs.flatMap fun sub => Bytes.littleEndian 4 sub.toNat

/-- The given count of numbers at the front of a byte string, if they are there. -/
def readSubs : Nat → Bytes → Option (List UInt32)
  | 0, _ => some []
  | count + 1, b => do
    let word ← b.slice? 0 4
    let rest ← readSubs count (b.drop 4)
    return UInt32.ofNat (Bytes.ofLittleEndian word) :: rest

/-- The identifier at the front of a byte string. -/
def ofBytes? : Bytes → Option Sid
  | revision :: count :: rest => do
    let authority ← Bytes.slice? rest 0 6
    let subs ← readSubs count.toNat (rest.drop 6)
    return ⟨revision, UInt64.ofNat (Bytes.ofBigEndian authority), subs⟩
  | _ => none

end PortableFiles.Sid
