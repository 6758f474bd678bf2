import PortableFiles.Text.Numeral
set_option autoImplicit false

/-!
# Timestamps

A point in time with nanosecond precision, counted from the Unix epoch.  The seconds fit a signed
64-bit word and the nanoseconds always count forward from them, so every instant in range has one
representation and the order by seconds, then nanoseconds, is the order in time.
-/

namespace PortableFiles

/-- The number of nanoseconds in a second. -/
def nanosPerSecond : Nat := 1000000000

/-- Whether a number of seconds fits a signed 64-bit word. -/
def FitsWord (secs : Int) : Prop := -9223372036854775808 ≤ secs ∧ secs < 9223372036854775808

instance (secs : Int) : Decidable (FitsWord secs) := inferInstanceAs (Decidable (_ ∧ _))

theorem nanosPerSecond_pos : 0 < nanosPerSecond := by decide

theorem fitsWord_zero : FitsWord 0 := by decide

/-- A number as a signed 64-bit word, if it fits. -/
def inWord? (n : Int) : Option Int := if FitsWord n then some n else none

theorem inWord?_of_fitsWord {n : Int} (h : FitsWord n) : inWord? n = some n := if_pos h

/-- A point in time. -/
structure Timestamp where
  secs : Int
  nanos : Nat
  secs_fit : FitsWord secs
  nanos_lt : nanos < nanosPerSecond
  deriving DecidableEq

namespace Timestamp

/-- The epoch itself, which also stands for "not available". -/
def zero : Timestamp := ⟨0, 0, fitsWord_zero, nanosPerSecond_pos⟩

instance : Inhabited Timestamp := ⟨zero⟩

/-- Whether this is the epoch itself. -/
def isZero (t : Timestamp) : Bool := t.secs = 0 && t.nanos = 0

/-- The point `secs` seconds and `nanos` nanoseconds from the epoch, whatever the sign and size of
the nanoseconds.  There is none if its seconds do not fit a word. -/
def ofParts? (secs nanos : Int) : Option Timestamp :=
  let carried := secs + nanos / nanosPerSecond
  if h : FitsWord carried then
    some ⟨carried, (nanos % nanosPerSecond).toNat, h, by
      have := Int.emod_lt_of_pos nanos (b := (nanosPerSecond : Int)) (by decide)
      have := Int.emod_nonneg nanos (b := (nanosPerSecond : Int)) (by decide)
      omega⟩
  else none

/-- The distance from the epoch in nanoseconds. -/
def toNanos (t : Timestamp) : Int := t.secs * nanosPerSecond + t.nanos

/-- The order in time: by seconds, then by nanoseconds. -/
def le (a b : Timestamp) : Bool := a.secs < b.secs || (a.secs = b.secs && a.nanos ≤ b.nanos)

/-- The comparison by seconds, then by nanoseconds. -/
instance : Ord Timestamp := ⟨fun a b => (compare a.secs b.secs).then (compare a.nanos b.nanos)⟩

/-- The text of a timestamp: its seconds and, after a point, nine digits of nanoseconds. -/
def render (t : Timestamp) : String :=
  String.ofList (Text.Numeral.signed t.secs)
    ++ "." ++ String.ofList (Text.Numeral.padded 9 (Text.Numeral.decimal t.nanos))

@[ext] theorem ext {a b : Timestamp} (hs : a.secs = b.secs) (hn : a.nanos = b.nanos) : a = b := by
  cases a
  cases b
  simp_all

/-- A timestamp made from parts lies where the parts say. -/
theorem toNanos_of_ofParts? {secs nanos : Int} {t : Timestamp} (h : ofParts? secs nanos = some t) :
    t.toNanos = secs * nanosPerSecond + nanos := by
  simp only [ofParts?] at h
  split at h
  · simp only [Option.some.injEq] at h
    subst h
    have hn := Int.emod_nonneg nanos (b := (nanosPerSecond : Int)) (by decide)
    have hd := Int.mul_ediv_add_emod nanos (nanosPerSecond : Int)
    simp only [toNanos, nanosPerSecond] at *
    omega
  · cases h

/-- The order is the order of the distances from the epoch. -/
theorem le_iff_toNanos_le (a b : Timestamp) : a.le b = true ↔ a.toNanos ≤ b.toNanos := by
  have ha := a.nanos_lt
  have hb := b.nanos_lt
  simp only [le, toNanos, nanosPerSecond, Bool.or_eq_true, Bool.and_eq_true, decide_eq_true_eq] at *
  omega

end Timestamp

end PortableFiles
