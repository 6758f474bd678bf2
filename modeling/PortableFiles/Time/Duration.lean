import PortableFiles.Time.Timestamp
set_option autoImplicit false

/-!
# Durations

A length of time in unsigned 64-bit seconds and nanoseconds below a second, with its text: the
largest unit of which at least one is there, and a fraction without trailing zeros.
-/

namespace PortableFiles

/-- A length of time. -/
structure Duration where
  secs : Nat
  nanos : Nat
  secs_lt : secs < 18446744073709551616
  nanos_lt : nanos < nanosPerSecond

namespace Duration

@[ext] theorem ext {a b : Duration} (hs : a.secs = b.secs) (hn : a.nanos = b.nanos) : a = b := by
  cases a
  cases b
  simp_all

instance : DecidableEq Duration := fun a b =>
  decidable_of_iff (a.secs = b.secs ∧ a.nanos = b.nanos) Duration.ext_iff.symm

theorem secs_zero_lt : 0 < 18446744073709551616 := by decide

/-- No time at all. -/
def zero : Duration := ⟨0, 0, secs_zero_lt, nanosPerSecond_pos⟩

instance : Inhabited Duration := ⟨zero⟩

/-- The length of `secs` seconds and `nanos` nanoseconds, if its seconds fit. -/
def ofParts? (secs nanos : Nat) : Option Duration :=
  let carried := secs + nanos / nanosPerSecond
  if h : carried < 18446744073709551616 then
    some ⟨carried, nanos % nanosPerSecond, h, Nat.mod_lt _ nanosPerSecond_pos⟩
  else none

/-- A fraction after the point: the first `places` digits of `value`, without trailing zeros. -/
def fraction (places value : Nat) : String :=
  let digits := Text.Numeral.padded places (Text.Numeral.decimal value)
  match (digits.reverse.dropWhile (· = '0')).reverse with
  | [] => ""
  | kept => "." ++ String.ofList kept

/-- The text of a duration, as in `1.5s`, `20ms` or `0ns`. -/
def render (d : Duration) : String :=
  let whole := Text.Numeral.decimalString
  if d.secs > 0 then whole d.secs ++ fraction 9 d.nanos ++ "s"
  else if d.nanos ≥ 1000000 then
    whole (d.nanos / 1000000) ++ fraction 6 (d.nanos % 1000000) ++ "ms"
  else if d.nanos ≥ 1000 then whole (d.nanos / 1000) ++ fraction 3 (d.nanos % 1000) ++ "µs"
  else whole d.nanos ++ "ns"

end Duration

end PortableFiles
