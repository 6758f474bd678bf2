import Mathlib.Algebra.Order.Ring.Nat
import PortableFiles.Bytes
set_option autoImplicit false

/-!
# Byte orders as powers

How many numbers a byte string of some length stands for, what is left of a number in so many
bytes, and which slices there are.
-/

namespace PortableFiles.Bytes

theorem ofLittleEndian_littleEndian (n v : Nat) :
    ofLittleEndian (littleEndian n v) = v % 256 ^ n := by
  induction n generalizing v with
  | zero => simp [littleEndian, ofLittleEndian, Nat.mod_one]
  | succ n ih =>
    have byte : (UInt8.ofNat v).toNat = v % 256 := UInt8.toNat_ofNat'
    rw [littleEndian, ofLittleEndian, ih, byte, Nat.pow_succ, Nat.mul_comm (256 ^ n) 256,
      Nat.mod_mul]

/-- A number that fits is read again. -/
theorem ofLittleEndian_littleEndian_of_lt {n v : Nat} (h : v < 256 ^ n) :
    ofLittleEndian (littleEndian n v) = v := by
  rw [ofLittleEndian_littleEndian, Nat.mod_eq_of_lt h]

theorem ofBigEndian_bigEndian (n v : Nat) : ofBigEndian (bigEndian n v) = v % 256 ^ n := by
  simp [ofBigEndian, bigEndian, ofLittleEndian_littleEndian]

theorem ofLittleEndian_lt (b : Bytes) : ofLittleEndian b < 256 ^ b.length := by
  induction b with
  | nil => simp [ofLittleEndian]
  | cons x rest ih =>
    have hx : x.toNat < 256 := x.toNat_lt
    simp only [ofLittleEndian, List.length_cons, Nat.pow_succ]
    omega

theorem ofBigEndian_lt (b : Bytes) : ofBigEndian b < 256 ^ b.length := by
  have h := ofLittleEndian_lt b.reverse
  rw [List.length_reverse] at h
  exact h

/-! ## Slices -/

theorem slice?_eq_some_iff {b c : Bytes} {start len : Nat} :
    b.slice? start len = some c ↔ start + len ≤ b.length ∧ (b.drop start).take len = c := by
  unfold slice?
  split <;> simp_all

/-- The slice between two byte strings is what stands there. -/
theorem slice?_append_append {front b : Bytes} {start len : Nat} (hfront : front.length = start)
    (h : b.length = len) (rest : Bytes) : slice? (front ++ (b ++ rest)) start len = some b := by
  apply slice?_eq_some_iff.2
  constructor
  · simp only [List.length_append]
    omega
  · rw [List.drop_left' hfront, List.take_left' h]

/-- The slice at the front of two byte strings, as long as the first, is the first. -/
theorem slice?_append_left {b : Bytes} {len : Nat} (h : b.length = len) (rest : Bytes) :
    slice? (b ++ rest) 0 len = some b :=
  @slice?_append_append [] b 0 len rfl h rest

end PortableFiles.Bytes
