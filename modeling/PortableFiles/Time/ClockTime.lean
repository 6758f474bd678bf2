import PortableFiles.Time.Duration
set_option autoImplicit false

/-!
# Readings of the system clock

The system clock counts signed 64-bit seconds and nanoseconds below a second, and its arithmetic
with durations is checked.  A timestamp becomes a reading by whole seconds first and nanoseconds
after; a reading becomes a timestamp through its distance from the epoch, which is unsigned, so
the way back negates it.  Every step that can leave the range gives an `Option`.
-/

namespace PortableFiles

/-- A reading of the system clock. -/
structure ClockTime where
  secs : Int
  nanos : Nat
  secs_fit : FitsWord secs
  nanos_lt : nanos < nanosPerSecond

namespace ClockTime

@[ext] theorem ext {a b : ClockTime} (hs : a.secs = b.secs) (hn : a.nanos = b.nanos) : a = b := by
  cases a
  cases b
  simp_all

instance : DecidableEq ClockTime := fun a b =>
  decidable_of_iff (a.secs = b.secs ∧ a.nanos = b.nanos) ClockTime.ext_iff.symm

/-- The Unix epoch. -/
def epoch : ClockTime := ⟨0, 0, fitsWord_zero, nanosPerSecond_pos⟩

instance : Inhabited ClockTime := ⟨epoch⟩

/-- The reading with the given parts, if its seconds fit. -/
def ofParts? (secs : Int) (nanos : Nat) (h : nanos < nanosPerSecond) : Option ClockTime :=
  if hs : FitsWord secs then some ⟨secs, nanos, hs, h⟩ else none

/-- The reading `d` later. -/
def add? (t : ClockTime) (d : Duration) : Option ClockTime :=
  let secs := t.secs + d.secs
  let nanos := t.nanos + d.nanos
  if ¬ FitsWord secs then none
  else if h : nanos < nanosPerSecond then ofParts? secs nanos h
  else
    ofParts? (secs + 1) (nanos - nanosPerSecond) (by
      have := t.nanos_lt
      have := d.nanos_lt
      omega)

/-- The reading `d` earlier. -/
def sub? (t : ClockTime) (d : Duration) : Option ClockTime :=
  let secs := t.secs - d.secs
  if ¬ FitsWord secs then none
  else if h : d.nanos ≤ t.nanos then
    ofParts? secs (t.nanos - d.nanos) (by
      have := t.nanos_lt
      omega)
  else
    ofParts? (secs - 1) (t.nanos + nanosPerSecond - d.nanos) (by
      have := t.nanos_lt
      omega)

/-- Whether the reading lies at or after the epoch. -/
def isSinceEpoch (t : ClockTime) : Bool := 0 ≤ t.secs

/-- The distance to the epoch, without its direction. -/
def distance (t : ClockTime) : Duration :=
  if hs : 0 ≤ t.secs then
    ⟨t.secs.toNat, t.nanos, by
      have := t.secs_fit.2
      omega, t.nanos_lt⟩
  else if hn : t.nanos = 0 then
    ⟨(-t.secs).toNat, 0, by
      have := t.secs_fit.1
      omega, nanosPerSecond_pos⟩
  else
    ⟨(-t.secs - 1).toNat, nanosPerSecond - t.nanos, by
      have := t.secs_fit.1
      omega, by
      have := t.nanos_lt
      omega⟩

/-- The text of a distance in a direction: a sign, seconds, and nine digits of nanoseconds. -/
def renderDistance (t : ClockTime) : String :=
  (if t.isSinceEpoch then "+" else "-") ++ Text.Numeral.decimalString t.distance.secs
    ++ "." ++ String.ofList (Text.Numeral.padded 9 (Text.Numeral.decimal t.distance.nanos))

end ClockTime

namespace Timestamp

/-- The reading of the clock at a timestamp: from the epoch forward, or back by whole seconds and
then forward by the nanoseconds. -/
def toClock? (t : Timestamp) : Option ClockTime :=
  if hs : 0 ≤ t.secs then
    ClockTime.epoch.add? ⟨t.secs.toNat, t.nanos, by
      have := t.secs_fit.2
      omega, t.nanos_lt⟩
  else
    (ClockTime.epoch.sub? ⟨t.secs.natAbs, 0, by
      have := t.secs_fit.1
      omega, nanosPerSecond_pos⟩).bind fun whole =>
        whole.add? ⟨0, t.nanos, Duration.secs_zero_lt, t.nanos_lt⟩

/-- The timestamp of a reading.  A distance before the epoch is negated in signed words, which the
largest one does not survive. -/
def ofClock? (c : ClockTime) : Option Timestamp :=
  if c.isSinceEpoch then ofParts? c.distance.secs c.distance.nanos
  else if c.distance.secs ≥ 9223372036854775808 then none
  else ofParts? (-(c.distance.secs : Int)) (-(c.distance.nanos : Int))

end Timestamp

end PortableFiles
