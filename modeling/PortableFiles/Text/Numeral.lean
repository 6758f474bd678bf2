set_option autoImplicit false

/-!
# Numerals

Unsigned numbers as text.  Reading takes an optional plus sign and one or more digits, any number
of leading zeros included, and refuses a value that reaches the given bound.  Writing gives the
digits without leading zeros, padded on request.
-/

namespace PortableFiles.Text.Numeral

/-- The value of a digit in the given base, letters of both cases counting from ten. -/
def digit? (base : Nat) (c : Char) : Option Nat :=
  let value : Option Nat :=
    if '0' ≤ c ∧ c ≤ '9' then some (c.toNat - '0'.toNat)
    else if 'a' ≤ c ∧ c ≤ 'z' then some (c.toNat - 'a'.toNat + 10)
    else if 'A' ≤ c ∧ c ≤ 'Z' then some (c.toNat - 'A'.toNat + 10)
    else none
  value.filter (· < base)

/-- The value of the digits `cs` after digits worth `acc`. -/
def digits? (base : Nat) : Nat → List Char → Option Nat
  | acc, [] => some acc
  | acc, c :: rest =>
    match digit? base c with
    | some d => digits? base (acc * base + d) rest
    | none => none

/-- The number below `bound` that a text of digits stands for. -/
def natural? (base bound : Nat) (s : List Char) : Option Nat :=
  if s = [] then none else (digits? base 0 s).filter (· < bound)

/-- The number below `bound` that a text of digits, after an optional plus sign, stands for. -/
def unsigned? (base bound : Nat) : List Char → Option Nat
  | '+' :: rest => natural? base bound rest
  | s => natural? base bound s

/-- The text with zeros in front, up to the given width. -/
def padded (width : Nat) (s : List Char) : List Char :=
  List.replicate (width - s.length) '0' ++ s

/-- The decimal digits of a number. -/
def decimal (n : Nat) : List Char := Nat.toDigits 10 n

/-- The octal digits of a number. -/
def octal (n : Nat) : List Char := Nat.toDigits 8 n

/-- The hexadecimal digits of a number, in lower case. -/
def hexLower (n : Nat) : List Char := Nat.toDigits 16 n

/-- The hexadecimal digits of a number, in upper case. -/
def hexUpper (n : Nat) : List Char := (Nat.toDigits 16 n).map Char.toUpper

/-- A number in decimal, with a minus sign if it is negative. -/
def signed (i : Int) : List Char :=
  if i < 0 then '-' :: decimal i.natAbs else decimal i.natAbs

/-- The decimal digits as a string. -/
def decimalString (n : Nat) : String := String.ofList (decimal n)

/-- The octal digits, at least `width` of them, as a string. -/
def octalString (width n : Nat) : String := String.ofList (padded width (octal n))

theorem natural?_lt {base bound n : Nat} {s : List Char} (h : natural? base bound s = some n) :
    n < bound := by
  unfold natural? at h
  split at h
  · cases h
  · simpa using (Option.filter_eq_some_iff.1 h).2

theorem unsigned?_lt {base bound n : Nat} {s : List Char} (h : unsigned? base bound s = some n) :
    n < bound := by
  unfold unsigned? at h
  split at h <;> exact natural?_lt h

end PortableFiles.Text.Numeral
