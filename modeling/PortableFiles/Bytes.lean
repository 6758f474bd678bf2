set_option autoImplicit false

/-!
# Byte strings

File contents, paths and binary structures are lists of bytes.  This module fixes the two byte
orders in which numbers are laid out and the bounds-checked slice that decoders use.
-/

namespace PortableFiles

/-- A string of bytes. -/
abbrev Bytes : Type := List UInt8

namespace Bytes

/-- The bytes of a text in UTF-8. -/
def ofString (s : String) : Bytes := s.toUTF8.toList

/-- The `len` bytes from position `start`, if there are that many. -/
def slice? (b : Bytes) (start len : Nat) : Option Bytes :=
  if start + len ≤ b.length then some ((b.drop start).take len) else none

/-- The `n` low-order bytes of `v`, least significant first. -/
def littleEndian : Nat → Nat → Bytes
  | 0, _ => []
  | n + 1, v => UInt8.ofNat v :: littleEndian n (v / 256)

/-- The number whose bytes, least significant first, are `b`. -/
def ofLittleEndian : Bytes → Nat
  | [] => 0
  | x :: rest => x.toNat + 256 * ofLittleEndian rest

/-- The `n` low-order bytes of `v`, most significant first. -/
def bigEndian (n v : Nat) : Bytes := (littleEndian n v).reverse

/-- The number whose bytes, most significant first, are `b`. -/
def ofBigEndian (b : Bytes) : Nat := ofLittleEndian b.reverse

/-! ## The two orders are inverse to each other -/

@[simp] theorem length_littleEndian (n v : Nat) : (littleEndian n v).length = n := by
  induction n generalizing v with
  | zero => rfl
  | succ n ih => simp [littleEndian, ih]

@[simp] theorem length_bigEndian (n v : Nat) : (bigEndian n v).length = n := by
  simp [bigEndian]

theorem littleEndian_ofLittleEndian (b : Bytes) :
    littleEndian b.length (ofLittleEndian b) = b := by
  induction b with
  | nil => rfl
  | cons x rest ih =>
    have hx : x.toNat < 256 := x.toNat_lt
    have h1 : (x.toNat + 256 * ofLittleEndian rest) / 256 = ofLittleEndian rest := by omega
    have h2 : UInt8.ofNat (x.toNat + 256 * ofLittleEndian rest) = x := by
      apply UInt8.toNat_inj.mp
      rw [UInt8.toNat_ofNat']
      omega
    simp only [List.length_cons, ofLittleEndian, littleEndian, h1, h2, ih]

theorem bigEndian_ofBigEndian (b : Bytes) : bigEndian b.length (ofBigEndian b) = b := by
  have h := littleEndian_ofLittleEndian b.reverse
  rw [List.length_reverse] at h
  rw [bigEndian, ofBigEndian, h, List.reverse_reverse]

theorem length_of_slice? {b c : Bytes} {start len : Nat} (h : b.slice? start len = some c) :
    c.length = len := by
  unfold slice? at h
  split at h
  · simp only [Option.some.injEq] at h
    subst h
    simp only [List.length_take, List.length_drop]
    omega
  · cases h

end Bytes

end PortableFiles
