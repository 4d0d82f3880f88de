/-!
# Points in time as text

Seconds since the start of 1970, in universal time, written as `Sat Jan  3 18:15:05 2009`: the day
of the month is padded with a blank, hours, minutes and seconds with a zero.
-/

namespace BitcoinPeer.Text

/-- A day of the calendar. -/
structure Day where
  year : Nat
  /-- Counted from one. -/
  month : Nat
  /-- Counted from one. -/
  day : Nat
deriving DecidableEq

/-- The date so many days after 1 January 1970. Years are counted from March, so that the leap day
is the last of its year, in cycles of 400 years. -/
def Day.ofEpoch (days : Nat) : Day :=
  let shifted := days + 719468
  let cycle := shifted / 146097
  let inCycle := shifted % 146097
  let yearInCycle := (inCycle - inCycle / 1460 + inCycle / 36524 - inCycle / 146096) / 365
  let inYear := inCycle - (365 * yearInCycle + yearInCycle / 4 - yearInCycle / 100)
  let fromMarch := (5 * inYear + 2) / 153
  let month := if fromMarch < 10 then fromMarch + 3 else fromMarch - 9
  { year := yearInCycle + cycle * 400 + (if month ≤ 2 then 1 else 0)
    month
    day := inYear - (153 * fromMarch + 2) / 5 + 1 }

def weekdayNames : List String := ["Thu", "Fri", "Sat", "Sun", "Mon", "Tue", "Wed"]

def monthNames : List String :=
  ["Jan", "Feb", "Mar", "Apr", "May", "Jun", "Jul", "Aug", "Sep", "Oct", "Nov", "Dec"]

/-- A number with at least two characters, filled up in front. -/
def twoPlaces (fill : Char) (n : Nat) : String :=
  if n < 10 then String.singleton fill ++ toString n else toString n

/-- Writes a point in time, given in seconds since the start of 1970. -/
def timestamp (seconds : Nat) : String :=
  let days := seconds / 86400
  let date := Day.ofEpoch days
  let inDay := seconds % 86400
  let clock := ":".intercalate
    [twoPlaces '0' (inDay / 3600), twoPlaces '0' (inDay / 60 % 60), twoPlaces '0' (inDay % 60)]
  " ".intercalate
    [weekdayNames.getD (days % 7) "", monthNames.getD (date.month - 1) "",
      twoPlaces ' ' date.day, clock, toString date.year]

end BitcoinPeer.Text
