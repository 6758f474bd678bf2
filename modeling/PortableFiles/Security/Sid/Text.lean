import PortableFiles.Security.Sid.Basic
import PortableFiles.Text.Split
set_option autoImplicit false

/-!
# Security identifiers as text

The text of an identifier is `S`, its revision, its authority and its numbers, joined by hyphens.
An authority of more than 32 bits is written in hexadecimal.  Reading takes authorities below
`2^48` and at most fifteen numbers.
-/

namespace PortableFiles.Sid

/-- The text of an authority. -/
def authorityText (a : UInt64) : List Char :=
  if a.toNat < 4294967296 then Text.Numeral.decimal a.toNat
  else '0' :: 'x' :: Text.Numeral.padded 12 (Text.Numeral.hexUpper a.toNat)

/-- The parts of the text, between which hyphens stand. -/
def textParts (s : Sid) : List (List Char) :=
  ['S'] :: Text.Numeral.decimal s.revision.toNat :: authorityText s.authority
    :: s.subs.map fun sub => Text.Numeral.decimal sub.toNat

/-- The text of an identifier. -/
def text (s : Sid) : String := String.ofList (Text.joinWith '-' s.textParts)

/-- The bound of the authorities that can be read. -/
def authorityBound : Nat := 281474976710656

/-- How many numbers can be read. -/
def maxSubs : Nat := 15

/-- The authority that a part stands for. -/
def parseAuthority : List Char → Option UInt64
  | '0' :: 'x' :: digits => (Text.Numeral.unsigned? 16 authorityBound digits).map UInt64.ofNat
  | '0' :: 'X' :: digits => (Text.Numeral.unsigned? 16 authorityBound digits).map UInt64.ofNat
  | digits => (Text.Numeral.unsigned? 10 authorityBound digits).map UInt64.ofNat

/-- The number that a part stands for. -/
def parseSub (part : List Char) : Option UInt32 :=
  (Text.Numeral.unsigned? 10 4294967296 part).map UInt32.ofNat

/-- The identifier that the parts of a text stand for. -/
def ofParts? : List (List Char) → Option Sid
  | mark :: revision :: authority :: subs => do
    if mark ≠ ['S'] ∧ mark ≠ ['s'] then none
    let revision ← Text.Numeral.unsigned? 10 256 revision
    let authority ← parseAuthority authority
    let subs ← subs.mapM parseSub
    if subs.length > maxSubs then none
    return ⟨UInt8.ofNat revision, authority, subs⟩
  | _ => none

/-- The identifier that a text stands for. -/
def parse (s : String) : Option Sid := ofParts? (Text.splitOn (· = '-') s.toList)

end PortableFiles.Sid
