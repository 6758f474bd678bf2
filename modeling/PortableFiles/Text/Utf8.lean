import PortableFiles.Bytes
set_option autoImplicit false

/-!
# Reading UTF-8

One scan reads a byte string from left to right and yields a character for every well-formed
sequence and a gap for every longest malformed run that could have begun one.  A byte string is
valid when its scan has no gap; the lossy text shows each gap as the replacement character.
-/

namespace PortableFiles.Text.Utf8

/-- What the scan still expects. -/
inductive Expected where
  /-- The first byte of a character. -/
  | lead
  /-- `owed` more continuation bytes, the next of them from `low` to `high`, for a character
  whose bits so far are `bits`. -/
  | tail (owed : Nat) (low high : UInt8) (bits : Nat)
  deriving DecidableEq, Repr, Inhabited

/-- A first byte: what it yields and what must follow. -/
def onLead (b : UInt8) : List (Option Char) × Expected :=
  let n := b.toNat
  if n < 0x80 then ([some (Char.ofNat n)], .lead)
  else if n < 0xC2 then ([none], .lead)
  else if n < 0xE0 then ([], .tail 1 0x80 0xBF (n - 0xC0))
  else if n = 0xE0 then ([], .tail 2 0xA0 0xBF 0)
  else if n = 0xED then ([], .tail 2 0x80 0x9F 0xD)
  else if n < 0xF0 then ([], .tail 2 0x80 0xBF (n - 0xE0))
  else if n = 0xF0 then ([], .tail 3 0x90 0xBF 0)
  else if n < 0xF4 then ([], .tail 3 0x80 0xBF (n - 0xF0))
  else if n = 0xF4 then ([], .tail 3 0x80 0x8F 4)
  else ([none], .lead)

/-- One byte of the scan.  A byte that cannot continue a character ends it with a gap and is read
again as a first byte. -/
def step : Expected → UInt8 → List (Option Char) × Expected
  | .lead, b => onLead b
  | .tail owed low high bits, b =>
    if low ≤ b ∧ b ≤ high then
      let bits := bits * 64 + (b.toNat - 0x80)
      if owed ≤ 1 then ([some (Char.ofNat bits)], .lead)
      else ([], .tail (owed - 1) 0x80 0xBF bits)
    else
      let next := onLead b
      (none :: next.1, next.2)

/-- The characters and gaps of a byte string, read in the given state. -/
def scanFrom : Expected → Bytes → List (Option Char)
  | .lead, [] => []
  | .tail .., [] => [none]
  | state, b :: rest =>
    let next := step state b
    next.1 ++ scanFrom next.2 rest

/-- The characters and gaps of a byte string. -/
def scan (b : Bytes) : List (Option Char) := scanFrom .lead b

/-- Whether a byte string is well-formed. -/
def isValid (b : Bytes) : Bool := (scan b).all Option.isSome

/-- The text of a byte string, with one replacement character for each malformed run. -/
def lossy (b : Bytes) : String := String.ofList ((scan b).map fun c => c.getD '\uFFFD')

/-- The text of a well-formed byte string. -/
def decode? (b : Bytes) : Option String := if isValid b then some (lossy b) else none

theorem isValid_ascii (b : Bytes) (h : ∀ x ∈ b, x < 0x80) : isValid b = true := by
  unfold isValid scan
  induction b with
  | nil => rfl
  | cons x rest ih =>
    have hx : x.toNat < 0x80 := UInt8.lt_iff_toNat_lt.1 (h x (by simp))
    have hr := ih fun y hy => h y (by simp [hy])
    simp [scanFrom, step, onLead, hx]
    simpa using hr

end PortableFiles.Text.Utf8
