import PortableFiles.Time.Timestamp
set_option autoImplicit false

/-!
# File times

Windows counts the time of a file in ticks of 100 nanoseconds since the year 1601.  A count of
zero means that the time is not set.
-/

namespace PortableFiles.Timestamp

/-- The seconds from the start of 1601 to the Unix epoch. -/
def fileTimeEpoch : Int := 11644473600

/-- The ticks in a second. -/
def ticksPerSecond : Int := 10000000

/-- The timestamp of a count of ticks.  Its parts are computed in signed words. -/
def ofFileTime? (ticks : Int) : Option Timestamp :=
  if ticks = 0 then some zero
  else do
    let secs ← inWord? (ticks / ticksPerSecond - fileTimeEpoch)
    let nanos ← inWord? (ticks % ticksPerSecond * 100)
    ofParts? secs nanos

end PortableFiles.Timestamp
