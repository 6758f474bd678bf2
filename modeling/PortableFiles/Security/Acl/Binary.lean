import PortableFiles.Security.Acl.Basic
import PortableFiles.Security.Sid.Binary
set_option autoImplicit false

/-!
# Access control lists in binary

A header of eight bytes, with the size of the list and the count of its entries, then the entries:
a type, flags, a length, a mask and a security identifier.  Sizes, counts and lengths have sixteen
bits, and what does not fit is cut off.  Reading passes over entries of other types and over
whatever follows an identifier within its entry.
-/

namespace PortableFiles.Acl

/-- The byte for a kind of entry. -/
def kindByte : AceKind → UInt8
  | .allow => 0
  | .deny => 1

/-- The kind of entry for a byte. -/
def kindOf? (b : UInt8) : Option AceKind :=
  if b = 0 then some .allow else if b = 1 then some .deny else none

/-- The length of an entry. -/
def aceLength (a : Ace) : Nat := 8 + a.trustee.byteLength

/-- An entry in binary. -/
def encodeAce (a : Ace) : Bytes :=
  kindByte a.kind :: a.flags :: Bytes.littleEndian 2 (aceLength a)
    ++ Bytes.littleEndian 4 a.mask.toNat ++ a.trustee.toBytes

/-- The size of a list. -/
def size (aces : List Ace) : Nat := aces.foldr (fun a rest => aceLength a + rest) 8

/-- A list in binary. -/
def encode (aces : List Ace) : Bytes :=
  2 :: 0 :: Bytes.littleEndian 2 (size aces) ++ Bytes.littleEndian 2 aces.length ++ [0, 0]
    ++ aces.flatMap encodeAce

/-- The entry of the given kind in the bytes of one entry. -/
def decodeAce (kind : AceKind) (flags : UInt8) (entry : Bytes) : Option Ace := do
  let mask ← entry.slice? 4 4
  let trustee ← Sid.ofBytes? (entry.drop 8)
  return ⟨kind, flags, UInt32.ofNat (Bytes.ofLittleEndian mask), trustee⟩

/-- The entries of known types among the given count of entries at the front of a byte string. -/
def decodeAces : Nat → Bytes → Option (List Ace)
  | 0, _ => some []
  | count + 1, b => do
    match ← b.slice? 0 4 with
    | [type, flags, low, high] =>
      let length := Bytes.ofLittleEndian [low, high]
      let entry ← b.slice? 0 length
      let rest := b.drop length
      match kindOf? type with
      | some kind => do
        let ace ← decodeAce kind flags entry
        let aces ← decodeAces count rest
        return ace :: aces
      | none => decodeAces count rest
    | _ => none

/-- The list in a byte string, whatever follows it. -/
def decode (b : Bytes) : Option (List Ace) := do
  let header ← b.slice? 0 8
  let body ← b.slice? 0 (Bytes.ofLittleEndian ((header.drop 2).take 2))
  decodeAces (Bytes.ofLittleEndian ((header.drop 4).take 2)) (body.drop 8)

end PortableFiles.Acl
