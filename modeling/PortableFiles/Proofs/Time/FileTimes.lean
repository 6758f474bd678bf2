import PortableFiles.Time.FileTime
import PortableFiles.Proofs.Time.Clock
set_option autoImplicit false

/-!
# File times as instants

A count of ticks lies at an instant of its own, and its timestamp lies there too: cutting off the
whole seconds before the change of epoch leaves every step within a signed word.  All that file
times promise follows from that one equation: the order of the ticks, and the way to the clock and
back, since no count of ticks reaches the earliest timestamp.

`ofFileTime?_exact` is the main statement.
-/

namespace PortableFiles.Timestamp

/-- The instant of a count of ticks, in nanoseconds from the Unix epoch. -/
def fileTimeInstant (ticks : Int) : Int := ticks * 100 - 11644473600 * nanosPerSecond

variable {ticks later : Int} {t : Timestamp}

/-- The parts that ticks are cut into name the instant of the ticks. -/
theorem instant_fileTimeParts (ticks : Int) :
    instant (ticks / ticksPerSecond - fileTimeEpoch) (ticks % ticksPerSecond * 100)
      = fileTimeInstant ticks := by
  simp only [instant, fileTimeInstant, ticksPerSecond, fileTimeEpoch, nanosPerSecond]
  omega

/-- No step on the way to the parts leaves a signed word. -/
theorem ofFileTime?_eq_ofParts? (hfits : FitsWord ticks) (hset : ticks ≠ 0) :
    ofFileTime? ticks
      = ofParts? (ticks / ticksPerSecond - fileTimeEpoch) (ticks % ticksPerSecond * 100) := by
  have hsecs : FitsWord (ticks / ticksPerSecond - fileTimeEpoch) := by
    simp only [FitsWord, ticksPerSecond, fileTimeEpoch] at *
    omega
  have hnanos : FitsWord (ticks % ticksPerSecond * 100) := by
    simp only [FitsWord, ticksPerSecond] at *
    omega
  rw [ofFileTime?, if_neg hset, inWord?_of_fitsWord hsecs, inWord?_of_fitsWord hnanos]
  rfl

/-- Ticks that are set have the timestamp at their instant. -/
theorem ofFileTime?_eq_some_iff (hfits : FitsWord ticks) (hset : ticks ≠ 0) :
    ofFileTime? ticks = some t ↔ t.toNanos = fileTimeInstant ticks := by
  rw [ofFileTime?_eq_ofParts? hfits hset, ofParts?_eq_some_iff, instant_fileTimeParts]

theorem exists_ofFileTime? (hfits : FitsWord ticks) (hset : ticks ≠ 0) :
    ∃ t, ofFileTime? ticks = some t := by
  rw [ofFileTime?_eq_ofParts? hfits hset, exists_ofParts?_iff, instant_fileTimeParts]
  simp only [FitsWord, fileTimeInstant, nanosPerSecond] at *
  omega

/-- Later ticks are at a later instant. -/
theorem fileTimeInstant_lt (h : ticks < later) : fileTimeInstant ticks < fileTimeInstant later := by
  simp only [fileTimeInstant]
  omega

/-- The instants of ticks stay far above the earliest reading of the clock. -/
theorem toNanos_earliest_lt (hfits : FitsWord ticks) :
    ClockTime.earliest.toNanos < fileTimeInstant ticks := by
  rw [show ClockTime.earliest.toNanos = -9223372036854775808000000000 by decide]
  simp only [FitsWord, fileTimeInstant, nanosPerSecond] at *
  omega

/-- Ticks that are set have a timestamp, no step on the way leaves a signed word, and the timestamp
lies exactly at the instant of the ticks.  It has a reading of the clock, which leads back to it,
and later ticks have a later timestamp. -/
theorem ofFileTime?_exact (hfits : FitsWord ticks) (hset : ticks ≠ 0) :
    ∃ t c, ofFileTime? ticks = some t
      ∧ t.toNanos = ticks * 100 - 11644473600 * nanosPerSecond
      ∧ t.toClock? = some c ∧ ofClock? c = some t
      ∧ ∀ later, FitsWord later → later ≠ 0 → ticks < later →
          ∃ t', ofFileTime? later = some t' ∧ compare t t' = .lt := by
  obtain ⟨t, ht⟩ := exists_ofFileTime? hfits hset
  have hinstant := (ofFileTime?_eq_some_iff hfits hset).mp ht
  obtain ⟨c, hc⟩ := t.exists_toClock?
  have hsame := toClock?_eq_some_iff.mp hc
  have hne : c ≠ .earliest := by
    rintro rfl
    exact Int.ne_of_lt (toNanos_earliest_lt hfits) (hsame.trans hinstant)
  refine ⟨t, c, ht, hinstant, hc, ofClock?_eq_some_iff.mpr ⟨hne, hsame.symm⟩, ?_⟩
  intro later hfits' hset' hlater
  obtain ⟨t', ht'⟩ := exists_ofFileTime? hfits' hset'
  refine ⟨t', ht', compare_eq_lt_iff.mpr ?_⟩
  rw [hinstant, (ofFileTime?_eq_some_iff hfits' hset').mp ht']
  exact fileTimeInstant_lt hlater

/-- The least count of ticks, and the count of the Unix epoch. -/
theorem ofFileTime?_exact_least :
    let least : Timestamp := ⟨-933981677286, 522419200, by decide, by decide⟩
    FitsWord (-9223372036854775808) ∧ ofFileTime? (-9223372036854775808) = some least
      ∧ least.toClock?.bind ofClock? = some least
      ∧ ofFileTime? 116444736000000000 = some zero ∧ compare least zero = .lt := by
  intro least
  have hfits : FitsWord (-9223372036854775808) := by decide
  obtain ⟨t, c, ht, hinstant, hc, hback, hlater⟩ := ofFileTime?_exact hfits (by decide)
  obtain rfl : t = least := toNanos_inj.mp (hinstant.trans (by decide))
  obtain ⟨t', ht', hlt⟩ := hlater 116444736000000000 (by decide) (by decide) (by decide)
  have hepoch : ofFileTime? 116444736000000000 = some zero :=
    (ofFileTime?_eq_some_iff (by decide) (by decide)).mpr (by decide)
  obtain rfl : t' = zero := Option.some.inj (ht'.symm.trans hepoch)
  exact ⟨hfits, ht, by rw [hc, Option.bind_some, hback], hepoch, hlt⟩

end PortableFiles.Timestamp
