import ApiContract.Calendar.Date

/-!
# Reading dates and times

Dates are written `YYYY-MM-DD`. Times follow after a `T`, an underscore or a space, with minutes, and
optionally seconds with a fraction, and may end with an offset from universal time: a `Z`, or a sign
with hours and minutes. Fractions are cut to microseconds. A whole number instead of a date counts
seconds from 1970 on, and a large one milliseconds.

Reading works on octets, and the first fault is the one that is reported.
-/

namespace ApiContract.Calendar

/-- Why a text is no date or no time. -/
inductive Fault where
  | tooShort
  | extraCharacters
  | timeMark
  | dateSeparator
  | timeSeparator
  | yearDigit
  | monthDigit
  | dayDigit
  | hourDigit
  | minuteDigit
  | secondDigit
  | zoneSign
  | zoneHourDigit
  | zoneMinuteDigit
  | monthRange
  | dayRange
  | hourRange
  | minuteRange
  | secondRange
  | zoneRange
  | zoneMinuteRange
  | noFraction
  | tooEarly
  | tooLate
  | notExactDate
  | yearZero
deriving DecidableEq, Repr

/-- The wording of a fault. -/
def Fault.message : Fault → String
  | .tooShort => "input is too short"
  | .extraCharacters => "unexpected extra characters at the end of the input"
  | .timeMark => "invalid datetime separator, expected `T`, `t`, `_` or space"
  | .dateSeparator => "invalid date separator, expected `-`"
  | .timeSeparator => "invalid time separator, expected `:`"
  | .yearDigit => "invalid character in year"
  | .monthDigit => "invalid character in month"
  | .dayDigit => "invalid character in day"
  | .hourDigit => "invalid character in hour"
  | .minuteDigit => "invalid character in minute"
  | .secondDigit => "invalid character in second"
  | .zoneSign => "invalid timezone sign"
  | .zoneHourDigit => "invalid timezone hour"
  | .zoneMinuteDigit => "invalid timezone minute"
  | .monthRange => "month value is outside expected range of 1-12"
  | .dayRange => "day value is outside expected range"
  | .hourRange => "hour value is outside expected range of 0-23"
  | .minuteRange => "minute value is outside expected range of 0-59"
  | .secondRange => "second value is outside expected range of 0-59"
  | .zoneRange => "timezone offset must be less than 24 hours"
  | .zoneMinuteRange => "timezone minute value is outside expected range of 0-59"
  | .noFraction => "second fraction digits missing after `.`"
  | .tooEarly => "dates before 0000 are not supported as unix timestamps"
  | .tooLate => "dates after 9999 are not supported as unix timestamps"
  | .notExactDate => "Timestamp is not an exact date"
  | .yearZero => "year 0 is out of range"

/-- Octets. -/
abbrev Octets := List UInt8

/-- The value of an ASCII digit. -/
def digit? (b : UInt8) : Option Nat :=
  if 48 ≤ b && b ≤ 57 then some (b.toNat - 48) else none

/-- Takes digits one by one; `fault` stands for a missing digit and for a character that is none. -/
def takeDigits (fault : Fault) : Nat → Nat → Octets → Except Fault (Nat × Octets)
  | 0, n, rest => .ok (n, rest)
  | _ + 1, _, [] => .error fault
  | count + 1, n, b :: rest =>
    match digit? b with
    | some d => takeDigits fault count (10 * n + d) rest
    | none => .error fault

/-- Takes one character. -/
def takeMark (fault : Fault) (mark : Char) : Octets → Except Fault Octets
  | b :: rest => if b.toNat = mark.toNat then .ok rest else .error fault
  | [] => .error fault

/-- Refuses a value that is out of range. -/
def ensure (fault : Fault) (holds : Bool) : Except Fault Unit :=
  if holds then .ok () else .error fault

/-! ## Dates -/

/-- Takes a date. -/
def takeDate (text : Octets) : Except Fault (Date × Octets) := do
  ensure .tooShort (10 ≤ text.length)
  let (year, rest) ← takeDigits .yearDigit 4 0 text
  let rest ← takeMark .dateSeparator '-' rest
  let (month, rest) ← takeDigits .monthDigit 2 0 rest
  let rest ← takeMark .dateSeparator '-' rest
  let (day, rest) ← takeDigits .dayDigit 2 0 rest
  ensure .monthRange (1 ≤ month && month ≤ 12)
  ensure .dayRange (1 ≤ day && day ≤ daysInMonth year month)
  return (⟨year, month, day⟩, rest)

/-- A date in its written form. -/
def writtenDate (text : Octets) : Except Fault Date := do
  let (date, rest) ← takeDate text
  ensure .extraCharacters rest.isEmpty
  return date

/-! ## Times -/

/-- Takes the digits of a fraction as microseconds; further digits are dropped. -/
def takeFraction (rest : Octets) : Except Fault (Nat × Octets) := do
  let digits := rest.takeWhile fun b => (digit? b).isSome
  ensure .noFraction (!digits.isEmpty)
  let kept := (digits.take 6).filterMap digit?
  return (kept.foldl (fun n d => 10 * n + d) 0 * Nat.pow 10 (6 - kept.length), rest.drop digits.length)

/-- Takes seconds and their fraction, where a colon follows. -/
def takeSeconds : Octets → Except Fault (Nat × Nat × Octets)
  | 58 :: rest => do
    let (second, rest) ← takeDigits .secondDigit 2 0 rest
    ensure .secondRange (second ≤ 59)
    match rest with
    | 46 :: rest | 44 :: rest =>
      let (micro, rest) ← takeFraction rest
      return (second, micro, rest)
    | rest => return (second, 0, rest)
  | rest => .ok (0, 0, rest)

/-- Takes the sign of an offset. -/
def takeZoneSign : Octets → Except Fault (Int × Octets)
  | 43 :: rest => .ok (1, rest)
  | 45 :: rest => .ok (-1, rest)
  | 226 :: 136 :: 146 :: rest => .ok (-1, rest)
  | _ => .error .zoneSign

/-- Takes an offset in seconds, if any text is left. -/
def takeZone : Octets → Except Fault (Option Int × Octets)
  | [] => .ok (none, [])
  | 90 :: rest | 122 :: rest => .ok (some 0, rest)
  | rest => do
    let (sign, rest) ← takeZoneSign rest
    let (hours, rest) ← takeDigits .zoneHourDigit 2 0 rest
    let rest ← match rest with
      | 58 :: rest => pure rest
      | b :: _ => do ensure .zoneMinuteDigit (digit? b).isSome; pure rest
      | [] => throw .zoneMinuteDigit
    let (minutes, rest) ← takeDigits .zoneMinuteDigit 2 0 rest
    ensure .zoneMinuteRange (minutes ≤ 59)
    ensure .zoneRange (hours * 60 + minutes < 24 * 60)
    return (some (sign * ((hours * 3600 + minutes * 60 : Nat) : Int)), rest)

/-- A time in its written form. -/
def writtenTime (text : Octets) : Except Fault DateTime := do
  let (date, rest) ← takeDate text
  let rest ← match rest with
    | 84 :: rest | 116 :: rest | 32 :: rest | 95 :: rest => pure rest
    | _ => throw .timeMark
  ensure .tooShort (5 ≤ rest.length)
  let (hour, rest) ← takeDigits .hourDigit 2 0 rest
  let rest ← takeMark .timeSeparator ':' rest
  let (minute, rest) ← takeDigits .minuteDigit 2 0 rest
  ensure .hourRange (hour ≤ 23)
  ensure .minuteRange (minute ≤ 59)
  let (second, micro, rest) ← takeSeconds rest
  let (offset, rest) ← takeZone rest
  ensure .extraCharacters rest.isEmpty
  return { date, hour, minute, second, micro, offset }

/-! ## Counts of seconds -/

/-- Counts fit in a signed word of 64 bits. -/
def isCount (n : Int) : Bool :=
  -Int.pow 2 63 ≤ n && n < Int.pow 2 63

/-- The value of digits. -/
def digitsOf (digits : Octets) : Option Nat := do
  let ds ← digits.mapM digit?
  return ds.foldl (fun n d => 10 * n + d) 0

/-- Splits a sign off: the number 1 or -1, and the rest. -/
def signOf : Octets → Int × Octets
  | 45 :: rest => (-1, rest)
  | 43 :: rest => (1, rest)
  | rest => (1, rest)

/-- A whole number. -/
def wholeCount (text : Octets) : Option Int := do
  let (sign, rest) := signOf text
  if rest.isEmpty then none
  let n ← digitsOf rest
  if isCount (sign * n) then some (sign * n) else none

/-- How many microseconds one step of a count is: counts above a limit are milliseconds, and the others
seconds. -/
def stepOf (count : Nat) : Nat :=
  if count ≤ 20000000000 then 1000000 else 1000

/-- The instant of a count, in microseconds. -/
def instantOf (count : Int) : Int :=
  count * stepOf count.natAbs

/-- The instant of a number with a point, in microseconds, cut toward zero. -/
def pointedInstant (text : Octets) : Option Int := do
  let (sign, rest) := signOf text
  let whole := rest.takeWhile (· != 46)
  let 46 :: fraction := rest.drop whole.length | none
  if whole.isEmpty && fraction.isEmpty then none
  let n ← digitsOf whole
  let f ← digitsOf fraction
  if isCount (sign * n) then
    some (sign * ((n * stepOf n + f * stepOf n / Nat.pow 10 fraction.length : Nat) : Int))
  else none

/-- The first and the last second that counts reach. -/
def countRange : Int × Int := (-62167219200, 253402300799)

/-- The universal time of an instant. -/
def timeOfInstant (micros : Int) : Except Fault DateTime := do
  ensure .tooEarly (countRange.1 ≤ micros / 1000000)
  ensure .tooLate (micros / 1000000 ≤ countRange.2)
  return .ofInstant micros (some 0)

/-- The date that a count is exactly the start of. -/
def dateOfCount (count : Int) : Except Fault Date := do
  let t ← timeOfInstant (instantOf count)
  ensure .notExactDate (t.hour == 0 && t.minute == 0 && t.second == 0 && t.micro == 0)
  return t.date

/-! ## Texts -/

/-- Refuses the year before the first. -/
def ensureYear (d : Date) : Except Fault Unit :=
  ensure .yearZero (d.year != 0)

/-- A date, written or counted. -/
def readDate (text : Octets) : Except Fault Date := do
  let date ← match writtenDate text, wholeCount text with
    | .ok d, _ => pure d
    | .error _, some n => dateOfCount n
    | .error f, none => throw f
  ensureYear date
  return date

/-- A time, written or counted. -/
def readTime (text : Octets) : Except Fault DateTime := do
  let time ← match writtenTime text, wholeCount text, pointedInstant text with
    | .ok t, _, _ => pure t
    | .error _, some n, _ => timeOfInstant (instantOf n)
    | .error _, none, some micros => timeOfInstant micros
    | .error f, none, none => throw f
  ensureYear time.date
  return time

/-- A date, or a time at the start of a day. -/
def readDateLoosely (text : Octets) : Except Fault Date :=
  match readDate text with
  | .ok d => .ok d
  | .error f =>
    match readTime text with
    | .ok t =>
      if t.hour == 0 && t.minute == 0 && t.second == 0 && t.micro == 0 then .ok t.date else .error f
    | .error _ => .error f

/-- A time, or a date, which stands for its start. -/
def readTimeLoosely (text : Octets) : Except Fault DateTime :=
  match readTime text with
  | .ok t => .ok t
  | .error f =>
    match readDate text with
    | .ok d => .ok ⟨d, 0, 0, 0, 0, none⟩
    | .error _ => .error f

end ApiContract.Calendar
