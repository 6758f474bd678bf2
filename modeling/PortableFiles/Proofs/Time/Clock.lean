import PortableFiles.Time.ClockTime
import PortableFiles.Proofs.Time.Instants
set_option autoImplicit false

/-!
# Timestamps and readings of the system clock

A reading of the clock, too, lies at an instant, and its checked arithmetic gives the reading that
lies a duration later or earlier, if there is one: no step of it leaves the range when the result
does not.  So a timestamp always has its reading, at the same instant.  The way back goes through
the distance from the epoch, whose whole seconds are negated before the epoch; that loses one
instant, the earliest of all.

`clock_correspondence` is the main statement.
-/

namespace PortableFiles

/-- The length of a duration in nanoseconds. -/
def Duration.toNanos (d : Duration) : Nat := d.secs * nanosPerSecond + d.nanos

namespace ClockTime

/-- The distance of a reading from the epoch in nanoseconds. -/
def toNanos (c : ClockTime) : Int := instant c.secs c.nanos

/-- The earliest reading: the whole seconds are all the way down, and nothing is added to them. -/
def earliest : ClockTime := ⟨-9223372036854775808, 0, by decide, nanosPerSecond_pos⟩

variable {c c' : ClockTime} {d : Duration} {secs : Int} {nanos : Nat}

/-- A reading is determined by the instant at which it lies. -/
theorem toNanos_inj : c.toNanos = c'.toNanos ↔ c = c' := by
  rw [toNanos, toNanos, instant_inj c.nanos_lt c'.nanos_lt, ClockTime.ext_iff]

theorem toNanos_epoch : epoch.toNanos = 0 := by decide

/-! ## Arithmetic of the clock -/

theorem ofParts?_eq_some_iff {h : nanos < nanosPerSecond} :
    ofParts? secs nanos h = some c ↔ c.toNanos = instant secs nanos := by
  rw [toNanos, instant_inj c.nanos_lt h]
  simp only [ofParts?]
  split
  · rw [Option.some.injEq, ClockTime.ext_iff]
    exact and_congr eq_comm eq_comm
  · rename_i hfits
    exact iff_of_false (Option.some_ne_none _).symm fun hsame => hfits (hsame.1 ▸ c.secs_fit)

/-- Adding a duration gives the reading that lies so much later.  The sum of the seconds, which is
checked before a second is carried, fits whenever the result does. -/
theorem add?_eq_some_iff : c.add? d = some c' ↔ c'.toNanos = c.toNanos + d.toNanos := by
  have hnanos := c.nanos_lt
  have hfit := c.secs_fit
  have hnanos' := c'.nanos_lt
  have hfit' := c'.secs_fit
  have hd := d.nanos_lt
  simp only [add?]
  split
  · refine iff_of_false (Option.some_ne_none _).symm ?_
    simp only [toNanos, Duration.toNanos, instant, nanosPerSecond, FitsWord] at *
    omega
  · split <;> rw [ofParts?_eq_some_iff] <;>
      simp only [toNanos, Duration.toNanos, instant, nanosPerSecond] at * <;> omega

/-- Taking a duration off gives the reading that lies so much earlier. -/
theorem sub?_eq_some_iff : c.sub? d = some c' ↔ c'.toNanos = c.toNanos - d.toNanos := by
  have hnanos := c.nanos_lt
  have hfit := c.secs_fit
  have hnanos' := c'.nanos_lt
  have hfit' := c'.secs_fit
  have hd := d.nanos_lt
  simp only [sub?]
  split
  · refine iff_of_false (Option.some_ne_none _).symm ?_
    simp only [toNanos, Duration.toNanos, instant, nanosPerSecond, FitsWord] at *
    omega
  · split <;> rw [ofParts?_eq_some_iff] <;>
      simp only [toNanos, Duration.toNanos, instant, nanosPerSecond] at * <;> omega

/-! ## The distance from the epoch -/

theorem isSinceEpoch_iff : c.isSinceEpoch = true ↔ 0 ≤ c.toNanos := by
  have hnanos := c.nanos_lt
  simp only [isSinceEpoch, toNanos, instant, nanosPerSecond, decide_eq_true_eq] at *
  omega

theorem toNanos_distance (c : ClockTime) : c.distance.toNanos = c.toNanos.natAbs := by
  have hnanos := c.nanos_lt
  simp only [distance]
  split
  · simp only [Duration.toNanos, toNanos, instant, nanosPerSecond] at *
    omega
  · split <;> simp only [Duration.toNanos, toNanos, instant, nanosPerSecond] at * <;> omega

/-- The seconds of the distance outgrow a signed word at the earliest reading only. -/
theorem secs_distance_ge_iff : 9223372036854775808 ≤ c.distance.secs ↔ c = earliest := by
  have hnanos := c.nanos_lt
  have hfit := c.secs_fit
  rw [← toNanos_inj, show earliest.toNanos = -9223372036854775808000000000 by decide]
  simp only [distance, FitsWord] at *
  split
  · simp only [toNanos, instant, nanosPerSecond] at *
    omega
  · split <;> simp only [toNanos, instant, nanosPerSecond] at * <;> omega

end ClockTime

namespace Timestamp

variable {t : Timestamp} {c : ClockTime}

/-- The earliest timestamp. -/
def earliest : Timestamp := ⟨-9223372036854775808, 0, by decide, nanosPerSecond_pos⟩

/-- The reading of a timestamp is the one at the same instant, on either side of the epoch. -/
theorem toClock?_eq_some_iff : t.toClock? = some c ↔ c.toNanos = t.toNanos := by
  simp only [toClock?]
  split
  · rename_i hsecs
    rw [ClockTime.add?_eq_some_iff, ClockTime.toNanos_epoch]
    simp only [Duration.toNanos, toNanos, nanosPerSecond]
    omega
  · rename_i hsecs
    simp only [Option.bind_eq_some_iff, ClockTime.sub?_eq_some_iff, ClockTime.add?_eq_some_iff,
      ClockTime.toNanos_epoch, Duration.toNanos]
    -- The whole seconds alone are a reading, which is what the first step gives.
    let whole : ClockTime := ⟨t.secs, 0, t.secs_fit, nanosPerSecond_pos⟩
    have hwhole : whole.toNanos = t.secs * nanosPerSecond := Int.add_zero _
    constructor
    · rintro ⟨found, hfound, hc⟩
      simp only [toNanos, nanosPerSecond] at *
      omega
    · intro hc
      refine ⟨whole, ?_, ?_⟩ <;> simp only [toNanos, nanosPerSecond] at * <;> omega

theorem exists_toClock? (t : Timestamp) : ∃ c, t.toClock? = some c :=
  ⟨⟨t.secs, t.nanos, t.secs_fit, t.nanos_lt⟩, toClock?_eq_some_iff.mpr rfl⟩

/-- A reading other than the earliest has the timestamp at the same instant. -/
theorem ofClock?_eq_some_iff :
    ofClock? c = some t ↔ c ≠ .earliest ∧ t.toNanos = c.toNanos := by
  have hdistance := c.toNanos_distance
  rw [Duration.toNanos] at hdistance
  simp only [ofClock?]
  split
  · rename_i hsince
    have hne : c ≠ .earliest := fun h => absurd (h ▸ hsince) (by decide)
    rw [ClockTime.isSinceEpoch_iff] at hsince
    rw [and_iff_right hne, ofParts?_eq_some_iff]
    simp only [instant, nanosPerSecond] at *
    omega
  · rename_i hbefore
    rw [ClockTime.isSinceEpoch_iff] at hbefore
    split
    · rename_i hsecs
      exact iff_of_false (Option.some_ne_none _).symm fun h =>
        h.1 (ClockTime.secs_distance_ge_iff.mp hsecs)
    · rename_i hsecs
      have hne : c ≠ .earliest := fun h => hsecs (ClockTime.secs_distance_ge_iff.mpr h)
      rw [and_iff_right hne, ofParts?_eq_some_iff]
      simp only [instant, nanosPerSecond] at *
      omega

theorem exists_ofClock? (hne : c ≠ .earliest) : ∃ t, ofClock? c = some t :=
  ⟨⟨c.secs, c.nanos, c.secs_fit, c.nanos_lt⟩, ofClock?_eq_some_iff.mpr ⟨hne, rfl⟩⟩

/-- A timestamp has a reading, at exactly the same instant and so at exactly its distance from the
epoch, and the reading leads back to it unless it is the earliest.  A reading other than the
earliest has a timestamp, which leads back to the reading; only the earliest has none. -/
theorem clock_correspondence (t : Timestamp) (c : ClockTime) :
    (∃ r, t.toClock? = some r ∧ r.toNanos = t.toNanos
        ∧ (r.isSinceEpoch = true ↔ 0 ≤ t.toNanos) ∧ r.distance.toNanos = t.toNanos.natAbs
        ∧ (ofClock? r = some t ↔ t ≠ earliest))
      ∧ ((∃ s, ofClock? c = some s ∧ s.toClock? = some c) ↔ c ≠ .earliest)
      ∧ (ofClock? c = none ↔ c = .earliest) := by
  refine ⟨?_, ⟨?_, fun hne => ?_⟩, fun hnone => ?_, ?_⟩
  · obtain ⟨r, hr⟩ := t.exists_toClock?
    have hsame := toClock?_eq_some_iff.mp hr
    have hends : earliest.toNanos = ClockTime.earliest.toNanos := by decide
    refine ⟨r, hr, hsame, ?_, ?_, ?_⟩
    · rw [ClockTime.isSinceEpoch_iff, hsame]
    · rw [r.toNanos_distance, hsame]
    · rw [ofClock?_eq_some_iff, and_iff_left hsame.symm, ne_eq, ne_eq, ← ClockTime.toNanos_inj,
        ← toNanos_inj, hsame, hends]
  · rintro ⟨s, hs, -⟩
    exact (ofClock?_eq_some_iff.mp hs).1
  · obtain ⟨s, hs⟩ := exists_ofClock? hne
    exact ⟨s, hs, toClock?_eq_some_iff.mpr (ofClock?_eq_some_iff.mp hs).2.symm⟩
  · refine Decidable.byContradiction fun hne => ?_
    obtain ⟨s, hs⟩ := exists_ofClock? hne
    exact Option.some_ne_none s (hs.symm.trans hnone)
  · rintro rfl
    exact Option.eq_none_iff_forall_ne_some.mpr fun s hs => (ofClock?_eq_some_iff.mp hs).1 rfl

/-- A nanosecond after the earliest reading, a whole second is negated and a nanosecond less than
a second is taken off, and the timestamp is there again. -/
example :
    let c : ClockTime := ⟨-9223372036854775808, 1, by decide, by decide⟩
    c.distance = ⟨9223372036854775807, 999999999, by decide, by decide⟩
      ∧ (ofClock? c).bind toClock? = some c := by decide

end Timestamp

end PortableFiles
