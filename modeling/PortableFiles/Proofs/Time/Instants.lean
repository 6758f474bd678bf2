import PortableFiles.Time.Timestamp
set_option autoImplicit false

/-!
# Timestamps and the instants they name

A pair of seconds and nanoseconds names an instant, whatever the sign and size of the two parts.
Cut into whole seconds and a rest, rounding down, every instant has one form, so a timestamp is
determined by the instant at which it lies.  What makes, converts or compares timestamps is
therefore said of instants alone, and no later proof looks at the parts.

`ofParts?_normal` is the main statement.
-/

namespace PortableFiles

/-- The instant that seconds and nanoseconds name, in nanoseconds from the epoch. -/
def instant (secs nanos : Int) : Int := secs * nanosPerSecond + nanos

/-- Seconds and a rest below a second make up an instant in only one way. -/
theorem instant_inj {secs secs' : Int} {nanos nanos' : Nat} (h : nanos < nanosPerSecond)
    (h' : nanos' < nanosPerSecond) :
    instant secs nanos = instant secs' nanos' ↔ secs = secs' ∧ nanos = nanos' := by
  simp only [instant, nanosPerSecond] at *
  omega

/-- Nanoseconds carry into the seconds as in the instant itself. -/
theorem instant_ediv (secs nanos : Int) :
    instant secs nanos / nanosPerSecond = secs + nanos / nanosPerSecond := by
  simp only [instant, nanosPerSecond]
  omega

namespace Timestamp

variable {t t' : Timestamp} {secs nanos : Int}

/-! ## The timestamp at an instant -/

theorem toNanos_eq_instant (t : Timestamp) : t.toNanos = instant t.secs t.nanos := rfl

/-- A timestamp is determined by the instant at which it lies. -/
theorem toNanos_inj : t.toNanos = t'.toNanos ↔ t = t' := by
  rw [toNanos_eq_instant, toNanos_eq_instant, instant_inj t.nanos_lt t'.nanos_lt, Timestamp.ext_iff]

/-- There is a timestamp from parts if the whole seconds of their instant fit. -/
theorem exists_ofParts?_iff :
    (∃ t, ofParts? secs nanos = some t) ↔ FitsWord (instant secs nanos / nanosPerSecond) := by
  rw [instant_ediv]
  simp only [ofParts?]
  split
  · rename_i hfits
    exact iff_of_true ⟨_, rfl⟩ hfits
  · rename_i hfits
    refine iff_of_false ?_ hfits
    rintro ⟨t, hnone⟩
    cases hnone

/-- The timestamp from parts is the one at their instant. -/
theorem ofParts?_eq_some_iff : ofParts? secs nanos = some t ↔ t.toNanos = instant secs nanos := by
  refine ⟨toNanos_of_ofParts?, fun h => ?_⟩
  have hfits : FitsWord (instant secs nanos / nanosPerSecond) := by
    rw [← h, toNanos_eq_instant, instant_ediv, Int.ediv_eq_zero_of_lt (Int.natCast_nonneg _)
      (Int.ofNat_lt.mpr t.nanos_lt), Int.add_zero]
    exact t.secs_fit
  obtain ⟨made, hmade⟩ := exists_ofParts?_iff.mpr hfits
  have hsame : made.toNanos = t.toNanos := (toNanos_of_ofParts? hmade).trans h.symm
  rw [hmade, toNanos_inj.mp hsame]

/-! ## Order in time -/

theorem compare_eq_lt_iff : compare t t' = .lt ↔ t.toNanos < t'.toNanos := by
  have ht := t.nanos_lt
  have ht' := t'.nanos_lt
  change (compare t.secs t'.secs).then (compare t.nanos t'.nanos) = .lt ↔ _
  rw [Ordering.then_eq_lt, Int.compare_eq_lt, Int.compare_eq_eq, Nat.compare_eq_lt]
  simp only [toNanos, nanosPerSecond] at *
  omega

theorem compare_eq_eq_iff : compare t t' = .eq ↔ t.toNanos = t'.toNanos := by
  rw [toNanos_eq_instant, toNanos_eq_instant, instant_inj t.nanos_lt t'.nanos_lt]
  change (compare t.secs t'.secs).then (compare t.nanos t'.nanos) = .eq ↔ _
  rw [Ordering.then_eq_eq, Int.compare_eq_eq, Nat.compare_eq_eq]

theorem compare_eq_gt_iff : compare t t' = .gt ↔ t'.toNanos < t.toNanos := by
  have ht := t.nanos_lt
  have ht' := t'.nanos_lt
  change (compare t.secs t'.secs).then (compare t.nanos t'.nanos) = .gt ↔ _
  rw [Ordering.then_eq_gt, Int.compare_eq_gt, Int.compare_eq_eq, Nat.compare_eq_gt]
  simp only [toNanos, nanosPerSecond] at *
  omega

/-- Timestamps compare as the instants at which they lie. -/
theorem compare_eq_compare_toNanos (t t' : Timestamp) :
    compare t t' = compare t.toNanos t'.toNanos := by
  cases h : compare t t' with
  | lt => exact (Int.compare_eq_lt.mpr (compare_eq_lt_iff.mp h)).symm
  | eq => exact (Int.compare_eq_eq.mpr (compare_eq_eq_iff.mp h)).symm
  | gt => exact (Int.compare_eq_gt.mpr (compare_eq_gt_iff.mp h)).symm

theorem le_eq_isLE_compare (t t' : Timestamp) : t.le t' = (compare t t').isLE := by
  rw [Bool.eq_iff_iff, le_iff_toNanos_le, compare_eq_compare_toNanos, Int.isLE_compare]

/-- There is a timestamp from parts exactly if the whole seconds of their instant fit a signed
word, rounded down.  It lies at that instant, with fewer nanoseconds than make a second, and it is
the only one that does.  Two timestamps from parts are equal, and compare, as their instants do,
and putting timestamps in order puts their instants in order. -/
theorem ofParts?_normal (secs nanos : Int) :
    (ofParts? secs nanos = none ↔ ¬ FitsWord (instant secs nanos / nanosPerSecond))
      ∧ (∀ t, ofParts? secs nanos = some t
          ↔ t.nanos < nanosPerSecond ∧ t.toNanos = instant secs nanos)
      ∧ (∀ secs' nanos' t t', ofParts? secs nanos = some t → ofParts? secs' nanos' = some t' →
          (t = t' ↔ instant secs nanos = instant secs' nanos')
            ∧ compare t t' = compare (instant secs nanos) (instant secs' nanos'))
      ∧ ∀ ts : List Timestamp,
          (ts.mergeSort fun a b => (compare a b).isLE).map toNanos = (ts.map toNanos).mergeSort := by
  refine ⟨?_, fun t => ?_, fun secs' nanos' t t' h h' => ?_, fun ts => ?_⟩
  · rw [← exists_ofParts?_iff, Option.eq_none_iff_forall_ne_some, not_exists]
  · rw [ofParts?_eq_some_iff]
    exact (and_iff_right t.nanos_lt).symm
  · rw [← ofParts?_eq_some_iff.mp h, ← ofParts?_eq_some_iff.mp h', toNanos_inj]
    exact ⟨Iff.rfl, compare_eq_compare_toNanos t t'⟩
  · refine List.map_mergeSort fun t _ t' _ => ?_
    rw [← le_eq_isLE_compare, Bool.eq_iff_iff, le_iff_toNanos_le, decide_eq_true_iff]

/-- A nanosecond before the epoch, from a part that counts backwards, and the epoch itself, from a
pair with fewer seconds; and a second that is carried past the end of the range. -/
theorem ofParts?_normal_beforeEpoch :
    let before : Timestamp := ⟨-1, 999999999, by decide, by decide⟩
    ofParts? 0 (-1) = some before ∧ ofParts? (-1) 1000000000 = some zero
      ∧ before ≠ zero ∧ compare before zero = .lt
      ∧ ofParts? 9223372036854775807 1000000000 = none := by
  intro before
  obtain ⟨-, hmade, hpairs, -⟩ := ofParts?_normal 0 (-1)
  have hbefore : ofParts? 0 (-1) = some before := (hmade before).mpr ⟨by decide, by decide⟩
  have hzero : ofParts? (-1) 1000000000 = some zero := ofParts?_eq_some_iff.mpr (by decide)
  obtain ⟨hsame, hcompare⟩ := hpairs (-1) 1000000000 before zero hbefore hzero
  exact ⟨hbefore, hzero, fun h => absurd (hsame.mp h) (by decide), hcompare.trans (by decide),
    (ofParts?_normal _ _).1.mpr (by decide)⟩

end Timestamp

end PortableFiles
