/-!
# Calendar dates and times

Dates of the proleptic Gregorian calendar from year 1 to 9999, and times of day with microseconds and
an optional offset from universal time.
-/

namespace ApiContract.Calendar

/-- A day of the calendar. -/
structure Date where
  year : Nat
  month : Nat
  day : Nat
deriving DecidableEq, Repr, Inhabited

/-- A day and a time of day. `offset` is the distance from universal time in seconds; without it the
time is local to whoever reads it. -/
structure DateTime where
  date : Date
  hour : Nat
  minute : Nat
  second : Nat
  micro : Nat
  offset : Option Int
deriving DecidableEq, Repr, Inhabited

/-- A year with a 29th of February. -/
def isLeap (year : Nat) : Bool :=
  year % 4 == 0 && (year % 100 != 0 || year % 400 == 0)

/-- The number of days of a month. -/
def daysInMonth (year month : Nat) : Nat :=
  if month == 2 then if isLeap year then 29 else 28
  else if month == 4 || month == 6 || month == 9 || month == 11 then 30
  else 31

/-- Whether the three numbers name a day of the calendar. -/
def Date.valid (d : Date) : Bool :=
  1 ≤ d.year && d.year ≤ 9999 && 1 ≤ d.month && d.month ≤ 12 && 1 ≤ d.day &&
    d.day ≤ daysInMonth d.year d.month

/-- Whether the numbers name a time of a day of the calendar. -/
def DateTime.valid (t : DateTime) : Bool :=
  t.date.valid && t.hour < 24 && t.minute < 60 && t.second < 60 && t.micro < 1000000 &&
    t.offset.all fun o => -86400 < o && o < 86400

/-- The number of days from the 1st of March of year 0 to a date, with years that start in March so
that the leap day comes last. -/
def Date.dayNumber (d : Date) : Int :=
  let y : Int := if d.month ≤ 2 then (d.year : Int) - 1 else d.year
  let m : Int := if d.month ≤ 2 then d.month + 9 else (d.month : Int) - 3
  365 * y + y / 4 - y / 100 + y / 400 + (153 * m + 2) / 5 + d.day - 1

/-- The day number of the 1st of January 1970. -/
def epochDay : Int := (Date.mk 1970 1 1).dayNumber

/-- The date with a given day number. -/
def Date.ofDayNumber (n : Int) : Date :=
  let era := n / 146097
  let dayOfEra := n % 146097
  let yearOfEra := (dayOfEra - dayOfEra / 1460 + dayOfEra / 36524 - dayOfEra / 146096) / 365
  let dayOfYear := dayOfEra - (365 * yearOfEra + yearOfEra / 4 - yearOfEra / 100)
  let m := (5 * dayOfYear + 2) / 153
  let day := dayOfYear - (153 * m + 2) / 5 + 1
  let month := if m < 10 then m + 3 else m - 9
  let year := yearOfEra + 400 * era + if month ≤ 2 then 1 else 0
  ⟨year.toNat, month.toNat, day.toNat⟩

/-- Microseconds since the start of 1970, read in universal time. -/
def DateTime.instant (t : DateTime) : Int :=
  let days := t.date.dayNumber - epochDay
  let seconds := days * 86400 + t.hour * 3600 + t.minute * 60 + t.second - t.offset.getD 0
  seconds * 1000000 + t.micro

/-- The time with the given microseconds since the start of 1970, in universal time with an offset
mark of its own. -/
def DateTime.ofInstant (micros : Int) (offset : Option Int) : DateTime :=
  let seconds := micros / 1000000
  let inDay := (seconds % 86400).toNat
  { date := .ofDayNumber (seconds / 86400 + epochDay)
    hour := inDay / 3600
    minute := inDay / 60 % 60
    second := inDay % 60
    micro := (micros % 1000000).toNat
    offset := offset }

/-- A number padded with zeros to a width. -/
def padded (width n : Nat) : String :=
  let ds := Nat.toDigits 10 n
  String.ofList (List.replicate (width - ds.length) '0' ++ ds)

/-- `YYYY-MM-DD`. -/
def Date.isoText (d : Date) : String :=
  padded 4 d.year ++ "-" ++ padded 2 d.month ++ "-" ++ padded 2 d.day

/-- `HH:MM:SS` with a fraction of six digits unless it is zero. -/
def DateTime.clockText (t : DateTime) : String :=
  padded 2 t.hour ++ ":" ++ padded 2 t.minute ++ ":" ++ padded 2 t.second ++
    if t.micro == 0 then "" else "." ++ padded 6 t.micro

/-- `+HH:MM`, with seconds where there are any. -/
def offsetText (o : Int) : String :=
  let n := o.natAbs
  (if o < 0 then "-" else "+") ++ padded 2 (n / 3600) ++ ":" ++ padded 2 (n / 60 % 60) ++
    if n % 60 == 0 then "" else ":" ++ padded 2 (n % 60)

/-- The date, a separator, the clock and the offset. -/
def DateTime.text (separator : String) (t : DateTime) : String :=
  t.date.isoText ++ separator ++ t.clockText ++ (t.offset.map offsetText).getD ""

/-- The form on the wire: universal time is marked by a `Z`. -/
def DateTime.wireText (t : DateTime) : String :=
  if t.offset = some 0 then { t with offset := none }.text "T" ++ "Z" else t.text "T"

/-- The form with a `T` between date and time. -/
def DateTime.isoText (t : DateTime) : String :=
  t.text "T"

end ApiContract.Calendar
